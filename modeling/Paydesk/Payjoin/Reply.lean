import Paydesk.Order.Table
import Paydesk.Payjoin.ErrorCode
import Paydesk.Text.Json

namespace Paydesk.Payjoin

open Text

/-- What a refused sender is told. -/
structure Reply where
  status : Nat
  code : ErrorCode
  message : String
  extra : List (String × Json)

namespace Reply

/-- A reply with the usual status of its code. -/
def of (code : ErrorCode) (message : String) : Reply := ⟨code.status, code, message, []⟩

def withExtra (reply : Reply) (key : String) (value : Json) : Reply :=
  { reply with extra := reply.extra ++ [(key, value)] }

/-- The fields in the order of their names. Extra fields go before the others,
and later ones before earlier ones. -/
def toJson (reply : Reply) : Json :=
  let fields := [("httpCode", .ofNat reply.status), ("errorCode", .string reply.code.name),
    ("message", .string reply.message)] ++ reply.extra
  .object (fields.foldl (fun (t : Table String Json) (key, value) => t.insert key value) [])

end Reply

/-- Why a request failed: the sender is told the reason, or something on the
receiver's side went wrong. -/
inductive Failure
  | rejected (reply : Reply)
  | internal (cause : String)

namespace Failure

def reject (code : ErrorCode) (message : String) : Failure := .rejected (.of code message)

/-- What the sender is told. Causes on the receiver's side are kept back. -/
def reply : Failure → Reply
  | .rejected reply => reply
  | .internal _ => .of .unavailable "Receiver error"

def message : Failure → String
  | .rejected reply => s!"Rejected ({reply.code.name}): {reply.message}"
  | .internal cause => "Implementation error: " ++ cause

def cause? : Failure → Option String
  | .rejected _ => none
  | .internal cause => some cause

end Failure

end Paydesk.Payjoin
