import Mathlib.Tactic
import Mathlib.Data.Fintype.Card
import Mathlib.Algebra.BigOperators.Group.Finset.Basic

/-!
Counting over a finite table when one of its entries changes.
-/
namespace Xv6.Lib

variable {κ : Type} [Fintype κ] [DecidableEq κ]

theorem sum_change (w w' : κ → Nat) (p : κ) (same : ∀ q, q ≠ p → w' q = w q) :
    ∑ q, w' q + w p = ∑ q, w q + w' p := by
  have rest : ∑ q ∈ Finset.univ.erase p, w' q = ∑ q ∈ Finset.univ.erase p, w q :=
    Finset.sum_congr rfl fun q member => same q (Finset.ne_of_mem_erase member)
  have before := Finset.add_sum_erase Finset.univ w (Finset.mem_univ p)
  have after := Finset.add_sum_erase Finset.univ w' (Finset.mem_univ p)
  omega

/-- A count of the entries of a table, when one entry is replaced. -/
theorem card_update {β : Type} (table : κ → β) (k : κ) (v : β) (C : β → Prop) [DecidablePred C] :
    (Finset.univ.filter fun q => C (Function.update table k v q)).card + (if C (table k) then 1 else 0) =
      (Finset.univ.filter fun q => C (table q)).card + (if C v then 1 else 0) := by
  rw [Finset.card_filter,Finset.card_filter]
  have change := sum_change (fun q => if C (table q) then 1 else 0)
    (fun q => if C (Function.update table k v q) then 1 else 0) k (fun q other => by
      rw [Function.update_of_ne other])
  rwa [Function.update_self] at change

omit [DecidableEq κ] in
theorem card_filter_pos (C : κ → Prop) [DecidablePred C] {k : κ} (here : C k) : 0 < (Finset.univ.filter C).card :=
  Finset.card_pos.mpr ⟨k,by simpa using here⟩

end Xv6.Lib
