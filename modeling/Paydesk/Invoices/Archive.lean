import Paydesk.Bytes.Hex
import Paydesk.Invoices.Database

/-!
A database as a text, so that it outlives the program.
-/

namespace Paydesk.Invoices

open Text

/-- Blobs are lists of their digits, and numbers that are no integers lists of
digits and power. -/
def Cell.toJson : Cell → Json
  | .null => .null
  | .integer n => .ofInt n
  | .real digits power => .array [.ofInt digits, .ofInt power]
  | .text s => .string s
  | .blob bs => .array [.string (Hex.encode bs)]

def Cell.ofJson? : Json → Option Cell
  | .null => some .null
  | .string s => some (.text s)
  | .array [.string digits] => (Hex.decode? digits).map .blob
  | .array [digits, power] => do some (.real (← digits.int?) (← power.int?))
  | value => value.int?.map .integer

def InvoiceRow.toJson (row : InvoiceRow) : Json :=
  .array [.string row.invoice, .string row.code, .string row.key,
    .string (Hex.encode row.depositScript), .bool row.payjoin, .string row.wallet,
    row.scriptType.toJson, row.due.toJson, .ofNat row.created]

def InvoiceRow.ofJson? : Json → Option InvoiceRow
  | .array [.string invoice, .string code, .string key, .string script, .bool payjoin,
      .string wallet, scriptType, due, created] => do
      some ⟨invoice, code, key, ← Hex.decode? script, payjoin, wallet, ← Cell.ofJson? scriptType,
        ← Cell.ofJson? due, ← created.nat?⟩
  | _ => none

def PaymentRow.toJson (row : PaymentRow) : Json :=
  .array [row.outPoint.toJson, .string row.invoice, row.output.toJson, .ofInt row.confirmations,
    row.merge.toJson, .ofNat row.created]

def PaymentRow.ofJson? : Json → Option PaymentRow
  | .array [outPoint, .string invoice, output, confirmations, merge, created] => do
      some ⟨← Cell.ofJson? outPoint, invoice, ← Cell.ofJson? output, ← confirmations.int?,
        ← Cell.ofJson? merge, ← created.nat?⟩
  | _ => none

namespace Database

/-- The rows of both tables. The currency and the clock are not kept. -/
def archive (db : Database) : String :=
  (Json.array [.array (db.invoices.map InvoiceRow.toJson),
    .array (db.payments.map PaymentRow.toJson)]).render

/-- Opens an archive for some currency. -/
def ofArchive? (text code : String) : Option Database := do
  match ← Json.parse? text with
  | .array [.array invoices, .array payments] =>
      some ((Database.mk "" 0 (← invoices.mapM InvoiceRow.ofJson?)
        (← payments.mapM PaymentRow.ofJson?)).reopen code)
  | _ => none

end Database

end Paydesk.Invoices
