import Paydesk.Invoices.Cell
import Paydesk.Invoices.Documents
import Paydesk.Numbers
import Paydesk.Text.Blank

/-!
Invoices and payments of one currency, kept in the rows of two tables. Rows may
have been changed from outside, so reading one can fail.
-/

namespace Paydesk.Invoices

open Chain Wallet

/-- The columns that may have been changed. -/
inductive Column
  | scriptType
  | due
  | outPoint
  | output
  | merge
deriving DecidableEq, Repr

namespace Column

def name : Column → String
  | .scriptType => "script_type"
  | .due => "due_sat"
  | .outPoint => "outpoint"
  | .output => "output"
  | .merge => "payjoin"

def table : Column → String
  | .scriptType | .due => "invoices"
  | .outPoint | .output | .merge => "payments"

/-- The place of the column among those that are read together. -/
def position : Column → Nat
  | .scriptType => 3
  | .due => 4
  | .outPoint => 0
  | .output => 1
  | .merge => 3

def affinity : Column → Affinity
  | .scriptType | .merge => .text
  | .due => .integer
  | .outPoint | .output => .any

/-- Whether each row needs a value. -/
def required : Column → Bool
  | .scriptType | .due | .output => true
  | .outPoint | .merge => false

end Column

inductive DatabaseError
  | notUnique (table column : String)
  | missing (column : Column)
  | noInvoice
  | cellClass (column : Column) (cell : Cell)
  | unknownScriptType (text : String)
  | negativeAmount (amount : Int)
  | undecodable
  | unreadableMerge
deriving DecidableEq, Repr

namespace DatabaseError

/-- What the tables say about a statement that fails. -/
def statement? : DatabaseError → Option String
  | .notUnique table column => some ("UNIQUE constraint failed: " ++ table ++ "." ++ column)
  | .missing column => some ("NOT NULL constraint failed: " ++ column.table ++ "." ++ column.name)
  | .noInvoice => some "FOREIGN KEY constraint failed"
  | .cellClass column cell =>
      some (s!"Invalid column type {cell.className} at index: {column.position}, name: " ++
        column.name)
  | .unknownScriptType _ | .negativeAmount _ | .undecodable | .unreadableMerge => none

def message (e : DatabaseError) : String :=
  match e with
  | .unknownScriptType text =>
      "corrupt invoice record: " ++ ScriptType.Unknown.message ⟨text⟩
  | .negativeAmount amount => s!"corrupt invoice record: negative amount {amount}"
  | .undecodable => "undecodable payment record"
  | .unreadableMerge => "unreadable payjoin record"
  | e => "invoice store query failed: " ++ e.statement?.getD ""

end DatabaseError

structure InvoiceRow where
  invoice : String
  code : String
  key : String
  depositScript : Script
  payjoin : Bool
  wallet : String
  scriptType : Cell
  due : Cell
  created : Nat
deriving DecidableEq, Repr

structure PaymentRow where
  outPoint : Cell
  invoice : String
  output : Cell
  confirmations : Int
  merge : Cell
  created : Nat
deriving DecidableEq, Repr

/-- Rows are kept in the order in which they were added, each with what the clock
showed then, in seconds. -/
structure Database where
  code : String
  clock : Nat
  invoices : List InvoiceRow
  payments : List PaymentRow
deriving DecidableEq, Repr

namespace Database

def new (code : String) : Database := ⟨Text.Case.upper code, 0, [], []⟩

def setClock (db : Database) (now : Nat) : Database := { db with clock := now }

/-- The same tables for some currency. Rows keep their tracking keys. -/
def reopen (db : Database) (code : String) : Database := { db with code := Text.Case.upper code }

def InvoiceRow.ofMethod (created : Nat) (code invoice : String) (method : PaymentMethod) :
    InvoiceRow :=
  { invoice, code
    key := trackingKey method.depositScript code
    depositScript := method.depositScript
    payjoin := method.payjoin
    wallet := method.account.wallet
    scriptType := .text method.account.scriptType.name
    due := .integer (min method.due (limit63 - 1) : Nat)
    created }

def addInvoice (db : Database) (invoice : String) (method : PaymentMethod) :
    Except DatabaseError Database :=
  if db.invoices.any (·.invoice == invoice) then .error (.notUnique "invoices" "invoice_id")
  else
    .ok { db with
      invoices := db.invoices ++ [InvoiceRow.ofMethod db.clock db.code invoice method] }

/-- Rows by the time at which they were created. Of those created in the same second
the one that was added first comes first. -/
def byCreation {α : Type} (created : α → Nat) (rows : List α) : List α :=
  rows.mergeSort fun a b => created a ≤ created b

def find (db : Database) (key : String) : List String :=
  (byCreation (·.created) (db.invoices.filter (·.key == key))).map (·.invoice)

def textOf (column : Column) : Cell → Except DatabaseError String
  | .text s => .ok s
  | cell => .error (.cellClass column cell)

def integerOf (column : Column) : Cell → Except DatabaseError Int
  | .integer n => .ok n
  | cell => .error (.cellClass column cell)

def blobOf (column : Column) : Cell → Except DatabaseError Bytes
  | .blob bs => .ok bs
  | cell => .error (.cellClass column cell)

def InvoiceRow.method (row : InvoiceRow) (hasPayments : Bool) :
    Except DatabaseError PaymentMethod := do
  let scriptType ← textOf .scriptType row.scriptType
  let due ← integerOf .due row.due
  let scriptType ← (ScriptType.read scriptType).mapError fun _ => .unknownScriptType scriptType
  if due < 0 then .error (.negativeAmount due)
  else
    return {
      depositScript := row.depositScript
      payjoin := row.payjoin
      account := ⟨row.wallet, scriptType⟩
      due := due.toNat, hasPayments }

/-- How an invoice is paid, if it is one of this currency. -/
def method? (db : Database) (invoice code : String) :
    Except DatabaseError (Option PaymentMethod) :=
  if Text.lower code ≠ Text.lower db.code then .ok none
  else
    match db.invoices.find? fun row => row.invoice == invoice && row.code == db.code with
    | none => .ok none
    | some row => some <$> InvoiceRow.method row (db.payments.any (·.invoice == invoice))

def PaymentRow.ofPayment (created : Nat) (invoice : String) (payment : Payment) : PaymentRow :=
  { outPoint := .blob payment.outPoint.encode, invoice
    output := .blob payment.output.encode
    confirmations := payment.confirmations
    merge := payment.merge.elim .null fun merge => .text merge.toJson.render
    created }

/-- Adds a payment of an invoice, unless its output was counted before. Gives
nothing if it was. -/
def pay? (db : Database) (invoice : String) (payment : Payment) :
    Except DatabaseError (Option Database) :=
  let row := PaymentRow.ofPayment db.clock invoice payment
  if db.payments.any (·.outPoint == row.outPoint) then .ok none
  else if db.invoices.any (·.invoice == invoice) then
    .ok (some { db with payments := db.payments ++ [row] })
  else .error .noInvoice

/-- The values of a row, each of the class that it should have. -/
def PaymentRow.values (row : PaymentRow) :
    Except DatabaseError (Bytes × Bytes × Int × Option String) := do
  let outPoint ← blobOf .outPoint row.outPoint
  let output ← blobOf .output row.output
  let merge ← match row.merge with
    | .null => pure none
    | cell => some <$> textOf .merge cell
  return (outPoint, output, row.confirmations, merge)

def paymentOf : Bytes × Bytes × Int × Option String → Except DatabaseError Payment
  | (outPoint, output, confirmations, merge) => do
      let some outPoint := OutPoint.decode.whole? outPoint | .error .undecodable
      let some output := TxOut.decode.whole? output | .error .undecodable
      let merge ← match merge with
        | none => pure none
        | some text =>
            match Merge.ofText? text with
            | some merge => pure (some merge)
            | none => .error .unreadableMerge
      return { outPoint, output, confirmations, merge }

/-- The payments of an invoice, the oldest one first. The classes of all values
are looked at before any of them is read. -/
def paymentsOf (db : Database) (invoice : String) : Except DatabaseError (List Payment) := do
  let rows ← (byCreation (·.created) (db.payments.filter (·.invoice == invoice))).mapM
    PaymentRow.values
  rows.mapM paymentOf

/-- Puts a value into a column of all rows. -/
def fill (db : Database) (column : Column) (cell : Cell) : Except DatabaseError Database :=
  let cell := cell.store column.affinity
  let rows := match column with
    | .scriptType | .due => db.invoices.length
    | .outPoint | .output | .merge => db.payments.length
  if 0 < rows ∧ column.required ∧ cell = .null then .error (.missing column)
  else
    match column with
    | .scriptType =>
        .ok { db with invoices := db.invoices.map fun row => { row with scriptType := cell } }
    | .due => .ok { db with invoices := db.invoices.map fun row => { row with due := cell } }
    | .outPoint =>
        if 1 < rows ∧ cell ≠ .null then .error (.notUnique column.table column.name)
        else .ok { db with payments := db.payments.map fun row => { row with outPoint := cell } }
    | .output => .ok { db with payments := db.payments.map fun row => { row with output := cell } }
    | .merge => .ok { db with payments := db.payments.map fun row => { row with merge := cell } }

end Database

end Paydesk.Invoices
