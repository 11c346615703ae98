import Paydesk.Bytes.Base58
import Paydesk.Bytes.Bech32
import Paydesk.Chain.Network
import Paydesk.Chain.Script

namespace Paydesk.Chain

/-- Chains that share one form of addresses with a witness. -/
inductive AddressGroup
  | main
  | test
  | regtest
deriving DecidableEq, Repr

namespace AddressGroup

def all : List AddressGroup := [.main, .test, .regtest]

def name : AddressGroup → String
  | .main => "bc"
  | .test => "tb"
  | .regtest => "bcrt"

def read? (name : String) : Option AddressGroup := all.find? (·.name == name)

def of : Network → AddressGroup
  | .bitcoin => .main
  | .testnet | .testnet4 | .signet => .test
  | .regtest => .regtest

end AddressGroup

/-- What an address pays to. Hashes of keys and scripts are for the main chain
or for all others. -/
inductive Address
  | keyHash (main : Bool) (hash : Bytes)
  | scriptHash (main : Bool) (hash : Bytes)
  | witness (group : AddressGroup) (version : Nat) (program : Bytes)
deriving DecidableEq, Repr

namespace Address

def keyMark (main : Bool) : UInt8 := if main then 0x00 else 0x6f

def scriptMark (main : Bool) : UInt8 := if main then 0x05 else 0xc4

/-- The longest text without a witness, in bytes. -/
def maxLegacyLength : Nat := 50

def readLegacy? (text : String) : Option Address := do
  if maxLegacyLength < text.utf8ByteSize then none
  match ← Base58.decodeChecked? text with
  | mark :: hash =>
      if hash.length ≠ 20 then none
      else if mark = keyMark true then some (.keyHash true hash)
      else if mark = keyMark false then some (.keyHash false hash)
      else if mark = scriptMark true then some (.scriptHash true hash)
      else if mark = scriptMark false then some (.scriptHash false hash)
      else none
  | [] => none

/-- Reads an address. A text that is right as one with a witness is no other. -/
def read? (text : String) : Option Address :=
  match Bech32.decodeProgram? text with
  | some (name, version, program) =>
      (AddressGroup.read? name).map fun group => .witness group version program
  | none => readLegacy? text

def render : Address → String
  | .keyHash main hash => Base58.encodeChecked (keyMark main :: hash)
  | .scriptHash main hash => Base58.encodeChecked (scriptMark main :: hash)
  | .witness group version program => Bech32.encodeProgram group.name version program

def isFor (network : Network) : Address → Bool
  | .keyHash main _ | .scriptHash main _ => main = network.isMain
  | .witness group _ _ => group = .of network

/-- The number that a script pushes first. -/
def versionOp (version : Nat) : UInt8 := if version = 0 then 0x00 else UInt8.ofNat (0x50 + version)

def script : Address → Script
  | .keyHash _ hash => [0x76, 0xa9] ++ Script.push hash ++ [0x88, 0xac]
  | .scriptHash _ hash => 0xa9 :: Script.push hash ++ [0x87]
  | .witness _ version program => versionOp version :: Script.push program

/-- The address that a script belongs to, if there is one. -/
def ofScript? (network : Network) (script : Script) : Option Address :=
  if Script.isPayToKeyHash script then some (.keyHash network.isMain ((script.drop 3).take 20))
  else if Script.isPayToScriptHash script then
    some (.scriptHash network.isMain ((script.drop 2).take 20))
  else
    (Script.witnessProgram? script).map fun (version, program) =>
      .witness (.of network) version program

end Address

end Paydesk.Chain
