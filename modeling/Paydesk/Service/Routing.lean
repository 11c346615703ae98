import Paydesk.Simulation.Schedule

/-!
Requests over HTTP. A request is answered right away, or it brings a fallback
to the endpoint and is answered with what becomes of it.
-/

namespace Paydesk.Service

open Payjoin Text

/-- What comes as a body: bytes that were received in full, more of them than
are read, or something that is cut short or malformed. -/
inductive Body
  | whole (bytes : Bytes)
  | tooLong
  | broken
deriving DecidableEq, Repr

structure HttpRequest where
  method : String
  path : String
  query : String
  headers : List (String × String)
  body : Body
deriving DecidableEq, Repr

structure HttpResponse where
  status : Nat
  headers : List (String × String)
  body : String
deriving DecidableEq, Repr

namespace HttpResponse

/-- Scripts of all sites may read a response. -/
def make (status : Nat) (contentType : Option String) (body : String) : HttpResponse :=
  let type := contentType.elim [] fun type => [("content-type", type)]
  ⟨status, type ++ [("access-control-allow-origin", "*")], body⟩

def empty (status : Nat) : HttpResponse := make status none ""

def ofReply (reply : Reply) : HttpResponse :=
  make reply.status (some "application/json") reply.toJson.render

def ofProposal (p : Proposal) : HttpResponse := make 200 (some "text/plain") p.body

/-- The response to what became of a fallback. -/
def ofResult : Simulation.Result → HttpResponse
  | .proposal p => ofProposal p
  | .failure f => ofReply f.reply
  | .swept _ | .overflow => empty 500

end HttpResponse

/-- Where a request goes. -/
inductive Route
  | answer (response : HttpResponse)
  | endpoint (code : String) (body : Bytes)
deriving DecidableEq, Repr

namespace HttpRequest

/-- The first value of a header, whose name may be in either case. Values that
are not plain text count as missing. -/
def header? (r : HttpRequest) (name : String) : Option String := do
  let (_, value) ← r.headers.find? fun (key, _) => lower key == lower name
  if value.toList.all fun c => c == '\t' || (0x20 ≤ c.toNat && c.toNat < 0x7f) then some value
  else none

/-- The headers that matter to the endpoint. -/
def known (r : HttpRequest) : List (String × String) :=
  ["Content-Type", "Content-Length"].filterMap fun name => (r.header? name).map (name, ·)

def bodyRoute (code : String) : Body → Route
  | .whole bytes =>
      if Request.maxLength < bytes.length then tooLarge else .endpoint code bytes
  | .tooLong => tooLarge
  | .broken => .answer (.empty 400)
where
  tooLarge : Route := .answer (.ofReply (RequestError.tooLarge Request.maxLength).reply)

def route (r : HttpRequest) : Route :=
  match r.method, r.path.splitOn "/" with
  | "POST", ["", code, "bip78"] => bodyRoute code r.body
  | "GET", ["", "health"] => .answer (.empty 200)
  | _, _ => .answer (.empty 404)

/-- The visit that a request pays to an endpoint. Its sender waits for some
milliseconds. -/
def visit (r : HttpRequest) (code : String) (body : Bytes) (patience : Nat) : Simulation.Visit :=
  ⟨code, Request.read body r.query r.known, false, some patience⟩

/-- Answers a request. Random choices are drawn from some words. -/
def serve (r : HttpRequest) (patience : Nat) (words : Words) : Simulation.Run HttpResponse := do
  match r.route with
  | .answer response => return response
  | .endpoint code body =>
      match ← Simulation.Run.submit words (r.visit code body patience) with
      | some result => return .ofResult result
      | none => return .empty 500

end HttpRequest

end Paydesk.Service
