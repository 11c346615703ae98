import Paydesk.Invoices.Payment
import Paydesk.Numbers
import Paydesk.Text.Json

/-!
The text that is kept of a merge.
-/

namespace Paydesk.Invoices

open Chain Text

def Merge.toJson (merge : Merge) : Json :=
  .object [("proposed_txid", .string (renderId merge.proposed)),
    ("coinjoin_value_sat", .ofNat merge.value),
    ("contributed_outpoints", .strings (merge.coins.map OutPoint.render))]

/-- A merge is an object with three known fields, each once, or the list of
them. -/
def Merge.ofJson? : Json → Option Merge
  | .object fields =>
      match fields.filter (·.1 == "proposed_txid"), fields.filter (·.1 == "coinjoin_value_sat"),
          fields.filter (·.1 == "contributed_outpoints") with
      | [(_, proposed)], [(_, value)], [(_, coins)] => parts? proposed value coins
      | _, _, _ => none
  | .array [proposed, value, coins] => parts? proposed value coins
  | _ => none
where
  parts? (proposed value coins : Json) : Option Merge := do
    let proposed ← readId? (← proposed.string?)
    let value ← value.nat?
    let coins ← (← coins.array?).mapM fun coin => coin.string?.bind OutPoint.read?
    if value < limit64 then some ⟨proposed, value, coins⟩ else none

def Merge.ofText? (text : String) : Option Merge := (Json.parse? text).bind ofJson?

end Paydesk.Invoices
