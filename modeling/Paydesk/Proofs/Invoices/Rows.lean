import Paydesk.Invoices.Database
import Paydesk.Proofs.Chain.Encoding
import Paydesk.Proofs.Outcome
import Paydesk.Proofs.Text.Json

/-!
Invoices and payments, read back from the rows that they were written to.
-/

namespace Paydesk.Invoices

open Chain Text Wallet

/-- Identifiers, amounts and indices within the bounds of their kinds. -/
@[mk_iff]
structure Merge.Fits (merge : Merge) : Prop where
  proposed : merge.proposed.length = 32
  value : merge.value < limit64
  coins : ∀ coin ∈ merge.coins, coin.Fits

@[mk_iff]
structure Payment.Fits (payment : Payment) : Prop where
  outPoint : payment.outPoint.Fits
  output : payment.output.Fits
  merge : ∀ merge ∈ payment.merge, merge.Fits

instance (merge : Merge) : Decidable merge.Fits := decidable_of_iff' _ merge.fits_iff

instance (payment : Payment) : Decidable payment.Fits := decidable_of_iff' _ payment.fits_iff

section Merges

theorem Merge.wellFormed_toJson (merge : Merge) : merge.toJson.WellFormed :=
  ⟨trivial, Json.isNumber_toString merge.value, Json.wellFormed_strings _, trivial⟩

theorem mapM_read?_render {coins : List OutPoint} (h : ∀ coin ∈ coins, coin.Fits) :
    ((coins.map OutPoint.render).map Json.string).mapM
      (fun coin => coin.string?.bind OutPoint.read?) = some coins := by
  induction coins with
  | nil => rfl
  | cons coin coins ih =>
      obtain ⟨hcoin, hcoins⟩ := List.forall_mem_cons.mp h
      rw [List.map_cons, List.map_cons, List.mapM_cons, ih hcoins]
      simp [Json.string?, hcoin.read?_render]

variable {merge : Merge}

theorem Merge.Fits.ofJson?_toJson (h : merge.Fits) : Merge.ofJson? merge.toJson = some merge := by
  have hparts : Merge.ofJson? merge.toJson =
      Merge.ofJson?.parts? (.string (renderId merge.proposed)) (.ofNat merge.value)
        (.strings (merge.coins.map OutPoint.render)) := rfl
  have hproposed : (Json.string (renderId merge.proposed)).string?.bind readId? =
      some merge.proposed := readId?_renderId h.proposed
  have hcoins : (Json.strings (merge.coins.map OutPoint.render)).array? =
      some ((merge.coins.map OutPoint.render).map .string) := rfl
  rw [hparts, Merge.ofJson?.parts?]
  simp only [Option.bind_eq_bind, ← Option.bind_assoc, hproposed, hcoins, Json.nat?_ofNat,
    Option.bind_some, mapM_read?_render h.coins, h.value, if_true]

/-- What was merged is read back from its text. -/
theorem Merge.Fits.ofText?_render (h : merge.Fits) :
    Merge.ofText? merge.toJson.render = some merge := by
  rw [Merge.ofText?, Json.parse?_render merge.wellFormed_toJson, Option.bind_some,
    h.ofJson?_toJson]

end Merges

namespace Database

theorem read_name (type : ScriptType) : ScriptType.read type.name = .ok type := by
  cases type <;> rfl

theorem method_ofMethod {method : PaymentMethod} (h : method.due < limit63) (created : Nat)
    (code invoice : String) (hasPayments : Bool) :
    InvoiceRow.method (InvoiceRow.ofMethod created code invoice method) hasPayments =
      .ok { method with hasPayments } := by
  have hdue : min method.due (limit63 - 1) = method.due := by omega
  have hread := read_name method.account.scriptType
  rw [InvoiceRow.method, InvoiceRow.ofMethod, hdue]
  refine bind_eq_ok.mpr ⟨method.account.scriptType.name, rfl, bind_eq_ok.mpr
    ⟨method.due, rfl, bind_eq_ok.mpr ⟨method.account.scriptType, by rw [hread]; rfl, ?_⟩⟩⟩
  exact if_neg (Int.not_lt.mpr (Int.natCast_nonneg method.due))

variable {payment : Payment}

theorem values_ofPayment (created : Nat) (invoice : String) (payment : Payment) :
    PaymentRow.values (PaymentRow.ofPayment created invoice payment) =
      .ok (payment.outPoint.encode, payment.output.encode, payment.confirmations,
        payment.merge.map (·.toJson.render)) := by
  rw [PaymentRow.values, PaymentRow.ofPayment]
  cases payment.merge <;> rfl

theorem paymentOf_values (h : payment.Fits) :
    paymentOf (payment.outPoint.encode, payment.output.encode, payment.confirmations,
      payment.merge.map (·.toJson.render)) = .ok payment := by
  have houtPoint := h.outPoint.restores.whole?
  have houtput := h.output.restores.whole?
  obtain ⟨outPoint, output, confirmations, merge⟩ := payment
  cases merge with
  | none =>
      simp only [paymentOf, houtPoint, houtput]
      rfl
  | some merge =>
      have hmerge := (h.merge merge rfl).ofText?_render
      simp only [paymentOf, houtPoint, houtput, Option.map_some, hmerge]
      rfl

end Database

end Paydesk.Invoices
