import Paydesk.Invoices.Archive
import Paydesk.Service.Enrolment

/-!
The command line. Invoices are kept in a file between two runs.
-/

namespace Paydesk

open Invoices Service

def settingsPath : String := "config.toml"

def usage : String :=
  "usage: [options] serve | [options] add-invoice <address> <amount in satoshis>"

def fail (code : UInt32) (message : String) : IO UInt32 := do
  IO.eprintln message
  return code

/-- The text of a file, unless it cannot be read. -/
def readIfThere (path : String) : IO (Option String) := do
  try
    return some (← IO.FS.readFile path)
  catch _ => return none

def randomWord : IO Nat := do
  let bytes ← IO.getRandomBytes 8
  return bytes.toList.foldl (fun n b => n * 256 + b.toNat) 0

/-- The seconds of the wall clock, as a new file shows them. -/
def wallClock : IO Nat := do
  let (_, path) ← IO.FS.createTempFile
  let written ← path.metadata
  IO.FS.removeFile path
  return written.modified.sec.toNat

/-- Adds an invoice to the store that the configuration names. -/
def runAddInvoice (options : Options) (config : Config) : IO UInt32 := do
  let stored ← readIfThere config.databasePath
  let some db := stored.elim (some (.new config.code)) (Database.ofArchive? · config.code)
    | fail 1 ("Error: Failed to open " ++ config.databasePath)
  match addInvoice options config (← randomWord) (db.setClock (← wallClock)) with
  | .error fault => fail 1 ("Error: " ++ fault.message)
  | .ok none => fail 1 "Error: there is no node to serve"
  | .ok (some (id, db)) =>
      IO.FS.writeFile config.databasePath db.archive
      IO.println id
      return 0

def run (words : List String) : IO UInt32 := do
  match Options.read words with
  | .error .helpWanted | .error .versionWanted =>
      IO.println usage
      return 0
  | .error _ => fail 2 usage
  | .ok options =>
      match Config.make options (← readIfThere settingsPath) with
      | .error e => fail 1 ("Error: " ++ (EnrolmentFault.config e).message)
      | .ok config => runAddInvoice options config

end Paydesk

def main (words : List String) : IO UInt32 := Paydesk.run words
