import Paydesk.Numbers
import Paydesk.Service.CommandLine
import Paydesk.Wallet.ScriptType

/-!
What can be given to the program: settings that go before those of the
settings file, and a command.
-/

namespace Paydesk.Service

open CommandLine Text Wallet

/-- An invoice to be added. -/
structure NewInvoice where
  address : String
  amount : Nat
  payjoin : Bool
  wallet : String
  scriptType : ScriptType
  id : Option String
deriving DecidableEq, Repr

inductive Command
  | serve
  | addInvoice (invoice : NewInvoice)
deriving DecidableEq, Repr

structure Options where
  listenOn : Option Nat
  timeout : Option Nat
  databasePath : Option String
  nodeHost : Option String
  cookiePath : Option String
  nodeUser : Option String
  nodePassword : Option String
  network : Option String
  code : Option String
  masterKey : Option String
  command : Command
deriving DecidableEq, Repr

namespace Options

/-- Reads the number to listen on, which may have a sign. -/
def readListenNumber (text : String) : Option Nat :=
  match text.toList with
  | '-' :: cs =>
      match readDigits 1 0 cs with
      | .ok n => if cs.isEmpty then none else some n
      | .error _ => none
  | _ => (readNat limit16 text).toOption

def readCount (text : String) : Option Nat := (readNat limit64 text).toOption

def anyText (_ : String) : Option Fault := none

/-- Paths are not empty. -/
def checkPath (text : String) : Option Fault := if text.isEmpty then some .emptyValue else none

def checkWith {α : Type} (read : String → Option α) (text : String) : Option Fault :=
  if (read text).isSome then none else some .invalidValue

def readScriptType (text : String) : Option ScriptType := (ScriptType.read text).toOption

def help : Flag := ⟨"help", some 'h', .showsHelp⟩

def grammar : Grammar where
  flags := [
    ⟨"port", some 'p', .takesValue (checkWith readListenNumber)⟩,
    ⟨"timeout", none, .takesValue (checkWith readCount)⟩,
    ⟨"db-path", some 'd', .takesValue checkPath⟩,
    ⟨"rpc-host", some 'r', .takesValue anyText⟩,
    ⟨"cookie-file", some 'c', .takesValue checkPath⟩,
    ⟨"rpc-user", none, .takesValue anyText⟩,
    ⟨"rpc-password", none, .takesValue anyText⟩,
    ⟨"network", some 'n', .takesValue anyText⟩,
    ⟨"crypto-code", none, .takesValue anyText⟩,
    ⟨"master-key", none, .takesValue anyText⟩,
    help,
    ⟨"version", some 'V', .showsVersion⟩]
  places := []
  commands := ["serve", "add-invoice", helpCommand]

def commands : List (String × Grammar) := [
  ("serve", ⟨[help], [], []⟩),
  ("add-invoice", {
    flags := [
      ⟨"no-payjoin", none, .isSwitch⟩,
      ⟨"wallet", some 'w', .takesValue anyText⟩,
      ⟨"script-type", none, .takesValue (checkWith readScriptType)⟩,
      ⟨"id", none, .takesValue anyText⟩,
      help]
    places := [⟨"address", anyText⟩, ⟨"amount", checkWith readCount⟩]
    commands := [] })]

def commandOf (name : String) (r : Reading) : Command :=
  if name = "serve" then .serve
  else .addInvoice {
    address := (r.get? "address").getD ""
    amount := ((r.get? "amount").bind readCount).getD 0
    payjoin := (r.get? "no-payjoin").isNone
    wallet := (r.get? "wallet").getD "default"
    scriptType := ((r.get? "script-type").bind readScriptType).getD .segwit
    id := r.get? "id" }

def read (words : List String) : Except Fault Options := do
  let (r, name, inner) ← CommandLine.read grammar commands words
  return {
    listenOn := (r.get? "port").bind readListenNumber
    timeout := (r.get? "timeout").bind readCount
    databasePath := r.get? "db-path"
    nodeHost := r.get? "rpc-host"
    cookiePath := r.get? "cookie-file"
    nodeUser := r.get? "rpc-user"
    nodePassword := r.get? "rpc-password"
    network := r.get? "network"
    code := r.get? "crypto-code"
    masterKey := r.get? "master-key"
    command := commandOf name inner }

end Options

end Paydesk.Service
