import Paydesk.Bytes.Base58
import Paydesk.Hash.Hmac
import Paydesk.Hash.Ripemd160
import Paydesk.Keys.Curve
import Paydesk.Numbers
import Paydesk.Text.Blank

/-!
Secret keys from which further keys derive, one for each path of numbers.
-/

namespace Paydesk.Keys

/-- One step of a path. A hardened step cannot be followed from the public key
alone. -/
structure ChildNumber where
  index : Nat
  hardened : Bool
deriving DecidableEq, Repr

namespace ChildNumber

/-- Hardened numbers stand behind the others. -/
def code (c : ChildNumber) : Nat := if c.hardened then c.index + limit31 else c.index

def render (c : ChildNumber) : String :=
  if c.hardened then toString c.index ++ "'" else toString c.index

def indexOf? (cs : List Char) : Option Nat :=
  let cs := match cs with
    | '+' :: rest => rest
    | _ => cs
  if cs.isEmpty || !cs.all Text.isAsciiDigit then none
  else
    let n := cs.foldl (fun n c => n * 10 + Text.digitValue c) 0
    if n < limit31 then some n else none

def read? (cs : List Char) : Option ChildNumber :=
  match cs.getLast? with
  | some '\'' | some 'h' => (indexOf? cs.dropLast).map fun n => ⟨n, true⟩
  | _ => (indexOf? cs).map fun n => ⟨n, false⟩

end ChildNumber

abbrev KeyPath := List ChildNumber

namespace KeyPath

def render (path : KeyPath) : String := "/".intercalate (path.map ChildNumber.render)

/-- Reads numbers between slashes; `m` in front stands for the key itself. -/
def read? (s : String) : Option KeyPath :=
  match s.toList with
  | [] | ['m'] | ['m', '/'] => some []
  | 'm' :: '/' :: rest => (rest.splitOn '/').mapM ChildNumber.read?
  | cs => (cs.splitOn '/').mapM ChildNumber.read?

end KeyPath

/-- A secret key with what its children are derived from. -/
structure ExtendedKey where
  mainNetwork : Bool
  depth : Nat
  parent : Bytes
  child : Nat
  chainCode : Bytes
  secret : SecretKey
deriving DecidableEq

namespace ExtendedKey

def seedKey : Bytes := "Bitcoin seed".toList.map fun c => UInt8.ofNat c.toNat

def ofSeed? (mainNetwork : Bool) (seed : Bytes) : Option ExtendedKey :=
  let digest := Hash.hmacSha512 seedKey seed
  (SecretKey.ofBytes? (digest.take 32)).map fun secret =>
    ⟨mainNetwork, 0, [0, 0, 0, 0], 0, digest.drop 32, secret⟩

def deepest : Nat := 255

/-- The child with a number. Keys are counted down to depth 255. -/
def child? (key : ExtendedKey) (number : ChildNumber) : Option ExtendedKey :=
  let publicKey := key.secret.publicKey
  let front := if number.hardened then 0 :: key.secret.bytes else publicKey
  let digest := Hash.hmacSha512 key.chainCode (front ++ Bytes.bigEndian 4 number.code)
  let scalar := (Bytes.toNat (digest.take 32) + key.secret.scalar) % groupOrder
  if key.depth = deepest then none
  else (SecretKey.ofNat? scalar).map fun secret =>
    ⟨key.mainNetwork, key.depth + 1, (Hash.hash160 publicKey).take 4, number.code, digest.drop 32,
      secret⟩

def derive? (key : ExtendedKey) (path : KeyPath) : Option ExtendedKey := path.foldlM child? key

def mainVersion : Bytes := [0x04, 0x88, 0xad, 0xe4]

def testVersion : Bytes := [0x04, 0x35, 0x83, 0x94]

def render (key : ExtendedKey) : String :=
  Base58.encodeChecked ((if key.mainNetwork then mainVersion else testVersion) ++
    [UInt8.ofNat key.depth] ++ key.parent ++ Bytes.bigEndian 4 key.child ++ key.chainCode ++
    0 :: key.secret.bytes)

inductive ReadError
  | base58
  | length
  | version (bytes : Bytes)
  | secret
deriving DecidableEq, Repr

def ReadError.message : ReadError → String
  | .base58 => "base58 encoding error"
  | .length => "base58 payload"
  | .version bytes =>
      "unknown version magic bytes: [" ++ ", ".intercalate (bytes.map toString) ++ "]"
  | .secret => "secp256k1 error"

def read (s : String) : Except ReadError ExtendedKey := do
  let some bs := Base58.decodeChecked? s | .error .base58
  if bs.length ≠ 78 then .error .length
  let version := bs.take 4
  let body := bs.drop 4
  if !(version == mainVersion || version == testVersion) then .error (.version version)
  let some secret := SecretKey.ofBytes? (body.drop 42) | .error .secret
  return ⟨version == mainVersion, (body.headD 0).toNat, (body.drop 1).take 4,
    Bytes.toNat ((body.drop 5).take 4), (body.drop 9).take 32, secret⟩

def read? (s : String) : Option ExtendedKey := (read s).toOption

end ExtendedKey

end Paydesk.Keys
