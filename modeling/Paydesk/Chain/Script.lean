import Paydesk.Hash.Ripemd160
import Paydesk.Numbers

namespace Paydesk.Chain

/-- The program that an output asks its spender to satisfy. -/
abbrev Script := Bytes

namespace Script

inductive Instruction
  | push (data : Bytes)
  | op (code : UInt8)
deriving DecidableEq, Repr

/-- The data of a push of `n` bytes. -/
def pushed? (n : Nat) (bs : Bytes) : Option (Instruction × Bytes) :=
  (Decoder.take n bs).map fun (data, rest) => (.push data, rest)

/-- The instruction at the front of a script, if its data are all there. -/
def first? : Script → Option (Instruction × Script)
  | [] => none
  | code :: rest =>
      if code ≤ 0x4b then pushed? code.toNat rest
      else if 0x4e < code then some (.op code, rest)
      else do
        let (n, rest) ← Decoder.littleEndian (twoTo (code.toNat - 0x4c)) rest
        pushed? n rest

/-- The data of the last instruction of a script that only pushes. -/
def lastPush? : Nat → Bytes → Script → Option Bytes
  | _, last, [] => some last
  | 0, _, _ :: _ => none
  | fuel + 1, _, script =>
      match first? script with
      | some (.push data, rest) => lastPush? fuel data rest
      | _ => none

/-- The script that the input of a script-hash output carries: what its
signature script pushes last. -/
def redeemScript? (signatureScript : Script) : Option Script :=
  match signatureScript with
  | [] => none
  | script => lastPush? script.length [] script

/-- The instruction that pushes data of less than 256 bytes. -/
def push (data : Bytes) : Script :=
  if data.length < 0x4c then UInt8.ofNat data.length :: data
  else 0x4c :: UInt8.ofNat data.length :: data

def payToKeyHash (publicKey : Bytes) : Script :=
  [0x76, 0xa9] ++ push (Hash.hash160 publicKey) ++ [0x88, 0xac]

def payToWitnessKeyHash (publicKey : Bytes) : Script := 0x00 :: push (Hash.hash160 publicKey)

def payToScriptHash (script : Script) : Script := 0xa9 :: push (Hash.hash160 script) ++ [0x87]

def isPayToKeyHash (script : Script) : Bool :=
  script.length == 25 && script.take 3 == [0x76, 0xa9, 0x14] && script.drop 23 == [0x88, 0xac]

def isPayToScriptHash (script : Script) : Bool :=
  script.length == 23 && script.take 2 == [0xa9, 0x14] && script.drop 22 == [0x87]

def isPayToWitnessKeyHash (script : Script) : Bool :=
  script.length == 22 && script.take 2 == [0x00, 0x14]

/-- A witness program: its version and two to forty bytes. -/
def witnessProgram? (script : Script) : Option (Nat × Bytes) :=
  match script with
  | version :: length :: program =>
      if program.length = length.toNat ∧ 2 ≤ program.length ∧ program.length ≤ 40 then
        if version = 0 then some (0, program)
        else if 0x51 ≤ version ∧ version ≤ 0x60 then some (version.toNat - 0x50, program)
        else none
      else none
  | _ => none

/-- Whether the output can never be spent because it only carries data. -/
def isDataCarrier (script : Script) : Bool := script.head? == some 0x6a

end Script

end Paydesk.Chain
