import Paydesk.Chain.Psbt.Codec
import Paydesk.Numbers
import Paydesk.Payjoin.Params
import Paydesk.Payjoin.Reply
import Paydesk.Text.Form

namespace Paydesk.Payjoin

open Chain Text

/-- How a fallback is written, so that the proposal is written the same way. -/
inductive BodyFormat
  | base64Psbt
  | hexPsbt
  | rawTransaction
deriving DecidableEq, Repr

inductive Payload
  | psbt (p : Psbt)
  | transaction (tx : Transaction)
deriving DecidableEq, Repr

def BodyFormat.encode (format : BodyFormat) (p : Psbt) : String :=
  match format with
  | .base64Psbt => p.render
  | .hexPsbt => Hex.encode p.encode
  | .rawTransaction => Hex.encode p.extract.encode

/-- The longest transaction, in bytes, that is read. -/
def maxTransactionLength : Nat := 4000000

def readTransaction? (bs : Bytes) : Option Transaction :=
  if bs.length ≤ maxTransactionLength then Transaction.ofBytes? bs else none

/-- Reads a body in the first format that fits it. -/
def parseBody? (text : List Char) : Option (Payload × BodyFormat) :=
  match (Base64.decodeChars? text).bind Psbt.ofBytes? with
  | some p => some (.psbt p, .base64Psbt)
  | none => do
      let bs ← Hex.decodeChars? text
      match Psbt.ofBytes? bs with
      | some p => some (.psbt p, .hexPsbt)
      | none => (readTransaction? bs).map fun tx => (.transaction tx, .rawTransaction)

/-- A fallback with what the sender asks for. -/
structure Request where
  payload : Payload
  format : BodyFormat
  params : Params
deriving DecidableEq, Repr

inductive RequestError
  | bodyTooShort
  | missingHeader (name : String)
  | contentType (value : String)
  | contentLength (error : NumberError)
  | tooLarge (length : Nat)
  | notText (error : Utf8.DecodeError)
  | unknownFormat
  | params (error : Params.Error)
deriving DecidableEq, Repr

namespace RequestError

/-- What lies behind an error, if anything does. -/
def cause? : RequestError → Option String
  | .bodyTooShort => some "failed to fill whole buffer"
  | .contentLength e => some e.message
  | .notText e => some e.message
  | .params e => some e.message
  | _ => none

def message (e : RequestError) : String :=
  match e with
  | .bodyTooShort => "Failed to read the request body: " ++ e.cause?.getD ""
  | .missingHeader name => "Missing header: " ++ name
  | .contentType value => "Invalid content type: " ++ value
  | .contentLength _ => "Invalid content length: " ++ e.cause?.getD ""
  | .tooLarge length => s!"Content length too large: {length}."
  | .notText _ => "The body is not UTF-8: " ++ e.cause?.getD ""
  | .unknownFormat => "The body is neither a PSBT nor a transaction."
  | .params _ => "Invalid sender parameters: " ++ e.cause?.getD ""

def reply (e : RequestError) : Reply :=
  match e with
  | .missingHeader "Content-Length" | .contentLength _ =>
      { Reply.of .psbtRejected e.message with status := 411 }
  | .tooLarge _ => { Reply.of .psbtRejected e.message with status := 413 }
  | .contentType _ | .missingHeader _ | .notText _ | .unknownFormat =>
      .of .invalidFormat e.message
  | .params .unknownVersion =>
      (Reply.of .versionUnsupported "This version of payjoin is not supported.").withExtra
        "supported" (.array (Params.supportedVersions.map Json.ofNat))
  | .params _ | .bodyTooShort => .of .psbtRejected e.message

end RequestError

namespace Request

/-- The longest body, in bytes, that is read. -/
def maxLength : Nat := 5333333

/-- Reads as much of the body as its length says, then the query. -/
def read (body : Bytes) (query : String) (headers : List (String × String)) :
    Except RequestError Request := do
  let some contentType := headers.lookup "Content-Type" | .error (.missingHeader "Content-Type")
  if !contentType.startsWith "text/plain" then .error (.contentType contentType)
  let some length := headers.lookup "Content-Length" | .error (.missingHeader "Content-Length")
  let length ← (readNat limit64 length).mapError .contentLength
  if maxLength < length then .error (.tooLarge length)
  let some (text, _) := (Decoder.take length).run body | .error .bodyTooShort
  let text ← (Utf8.decode text).mapError .notText
  let some (payload, format) := parseBody? (trim text) | .error .unknownFormat
  let params ← (Params.ofPairs (Form.parse query)).mapError .params
  return ⟨payload, format, params⟩

end Request

end Paydesk.Payjoin
