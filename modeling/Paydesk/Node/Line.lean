import Paydesk.Bytes.Base64
import Paydesk.Service.Config
import Paydesk.Text.Json

/-!
Calls to a node: where they go, what they carry, and what comes back.
-/

namespace Paydesk.Node

open Text Service

/-- A call as it arrives. -/
structure Sent where
  path : String
  authorization : Option String
  method : String
  params : List Json

inductive Answer
  | result (value : Json)
  | refused (message : String)
  | garbled

/-- A line to a node that may be out of reach, and the calls that arrived. -/
structure Line where
  node : Option (Sent → Answer)
  arrived : List Sent

def Line.unreachable : Line := ⟨none, []⟩

/-- Why there is no result. Only a node that is there can refuse a call. -/
inductive Fault
  | refused (message : String)
  | failed
deriving DecidableEq, Repr

abbrev Talk (α : Type) := ExceptT Fault (StateM Line) α

namespace Talk

/-- Sends a call and waits for the answer. -/
def send (sent : Sent) : Talk Json := do
  let line ← get
  match line.node with
  | none => throw .failed
  | some node =>
      set { line with arrived := line.arrived ++ [sent] }
      match node sent with
      | .result value => return value
      | .refused message => throw (.refused message)
      | .garbled => throw .failed

/-- Takes a value out of an answer. -/
def expect {α : Type} : Option α → Talk α
  | some a => return a
  | none => throw .failed

end Talk

/-- The path in an address of a node: what follows the host. -/
def pathOf (host : String) : String :=
  let cs := host.toList
  let rest := match cs.dropWhile (· != ':') with
    | ':' :: '/' :: '/' :: rest => rest
    | _ => cs
  let path := rest.dropWhile (· != '/')
  if path.isEmpty then "/" else String.ofList path

/-- Where calls go that concern a wallet, or none. -/
def endpoint (host : String) : Option String → String
  | none => host
  | some wallet =>
      String.ofList (host.toList.reverse.dropWhile (· == '/')).reverse ++ "/wallet/" ++ wallet

/-- How a caller proves who it is: by the contents of a file, if one is named,
or by a name and a password. -/
def authorization (settings : NodeSettings) (contents : String → Option String) :
    Except Fault (Option String) :=
  let basic (credentials : String) : String := "Basic " ++ Base64.encode (Utf8.encode credentials)
  match settings.cookiePath, settings.user, settings.password with
  | some path, _, _ =>
      match contents path with
      | some credentials => .ok (some (basic credentials))
      | none => .error .failed
  | none, some user, some password => .ok (some (basic (user ++ ":" ++ password)))
  | _, _, _ => .ok none

end Paydesk.Node
