import Paydesk.Decimal.Binary
import Paydesk.Numbers
import Paydesk.Text.Number

namespace Paydesk.Payjoin

open Text

/-- What the sender asks for. Fee rates are in satoshis for a thousand units of
weight. -/
structure Params where
  keepOutputs : Bool
  /-- The most that the sender adds to the fee, and the output it comes from. -/
  feeContribution : Option (Nat × Nat)
  minFeeRate : Option Nat
deriving DecidableEq, Repr

namespace Params

def supportedVersions : List Nat := [1]

inductive Error
  | unknownVersion
  | feeRate (reason : String)
deriving DecidableEq, Repr

def Error.message : Error → String
  | .unknownVersion => "unknown version"
  | .feeRate reason => "could not parse feerate: " ++ reason

/-- An amount in satoshis: at most 50 bytes of digits, after which a point and
zeros may stand. -/
def amount? (text : String) : Option Nat :=
  let cs := text.toList
  let whole := cs.takeWhile (· != '.')
  let fraction := (cs.dropWhile (· != '.')).drop 1
  if whole.isEmpty || 50 < byteLength cs || !fraction.all (· == '0') || !whole.all isAsciiDigit then
    none
  else (readNat limit64 (String.ofList whole)).toOption

/-- The satoshis for a thousand units of weight, rounded up, that so many for a
virtual byte of four units come to. Beyond the range it is the greatest one. -/
def perThousandUnits (units : Nat) : Nat :=
  match Binary.round? .single (units * 250) 1 with
  | some units => min (Binary.ceiling .single units) (limit64 - 1)
  | none => limit64 - 1

/-- How the texts of parameters are read: integers below a limit, amounts, and numbers of
single precision. -/
structure Readers where
  integer : Nat → String → Except NumberError Nat
  amount : String → Option Nat
  float : String → Except Binary.ReadError Binary.Value

def Readers.standard : Readers := ⟨readNat, amount?, Binary.read .single⟩

def feeRate (readers : Readers) (text : String) : Except Error Nat :=
  match readers.float text with
  | .error e => .error (.feeRate e.message)
  | .ok (.finite negative units) =>
      if negative ∧ units ≠ 0 then .error (.feeRate (text ++ " is out of range"))
      else .ok (perThousandUnits units)
  | .ok _ => .error (.feeRate (text ++ " is out of range"))

/-- The parameters read so far. The two parts of the fee contribution may come
in any order. -/
structure Reading where
  keepOutputs : Bool
  outputIndex : Option Nat
  maxFee : Option Nat
  minFeeRate : Option Nat

def Reading.step (readers : Readers) (r : Reading) (pair : String × String) :
    Except Error Reading :=
  let (key, value) := pair
  if key = "v" then
    match readers.integer 256 value with
    | .ok v => if supportedVersions.contains v then .ok r else .error .unknownVersion
    | .error _ => .error .unknownVersion
  else if key = "additionalfeeoutputindex" then
    .ok { r with outputIndex := (readers.integer limit64 value).toOption }
  else if key = "maxadditionalfeecontribution" then
    .ok { r with maxFee := readers.amount value }
  else if key = "minfeerate" then do
    let rate ← feeRate readers value
    .ok { r with minFeeRate := some rate }
  else if key = "disableoutputsubstitution" then .ok { r with keepOutputs := value = "true" }
  else .ok r

/-- Reads the parameters in order; a later one replaces an earlier one. A fee
contribution needs both of its parts. -/
def ofPairsWith (readers : Readers) (pairs : List (String × String)) : Except Error Params := do
  let r ← pairs.foldlM (Reading.step readers) ⟨false, none, none, none⟩
  .ok ⟨r.keepOutputs, r.maxFee.bind fun amount => r.outputIndex.map fun index => (amount, index),
    r.minFeeRate⟩

def ofPairs (pairs : List (String × String)) : Except Error Params := ofPairsWith .standard pairs

end Params

end Paydesk.Payjoin
