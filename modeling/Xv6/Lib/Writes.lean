import Mathlib.Data.List.Basic
import Mathlib.Logic.Function.Basic

/-!
Lists of writes to a store. Replaying a list after any prefix of it has already
been applied gives what the list gives, so a redo log may be replayed after a
crash at any point of a previous replay.
-/
namespace Xv6.Lib
open Function

variable {α β : Type*} [DecidableEq α]

/-- The store after a list of writes, the first one first. -/
def applyAll : List (α × β) → (α → β) → α → β
  | [], d => d
  | w :: ws, d => applyAll ws (update d w.1 w.2)

@[simp] theorem applyAll_nil (d : α → β) : applyAll [] d = d := rfl

theorem applyAll_append (ws vs : List (α × β)) (d : α → β) :
    applyAll (ws ++ vs) d = applyAll vs (applyAll ws d) := by
  induction ws generalizing d with
  | nil => rfl
  | cons w ws ih => exact ih _

theorem applyAll_other {ws : List (α × β)} {x : α} (absent : ∀ w ∈ ws, w.1 ≠ x) (d : α → β) :
    applyAll ws d x = d x := by
  induction ws generalizing d with
  | nil => rfl
  | cons w ws ih =>
    rw [applyAll,ih (fun v member => absent v (List.mem_cons_of_mem _ member))]
    exact update_of_ne (absent w List.mem_cons_self).symm _ _

/-- A place that some write names holds what the writes say, whatever it held before. -/
theorem applyAll_named {ws : List (α × β)} {x : α} (named : ∃ w ∈ ws, w.1 = x) (d e : α → β) :
    applyAll ws d x = applyAll ws e x := by
  induction ws generalizing d e with
  | nil => obtain ⟨w,member,_⟩ := named; cases member
  | cons w ws ih =>
    by_cases later : ∃ v ∈ ws, v.1 = x
    · exact ih later _ _
    · have absent : ∀ v ∈ ws, v.1 ≠ x := fun v member same => later ⟨v,member,same⟩
      have here : w.1 = x := by
        obtain ⟨v,member,same⟩ := named
        rcases List.mem_cons.mp member with rfl | member
        · exact same
        · exact absurd same (absent v member)
      rw [applyAll,applyAll,applyAll_other absent,applyAll_other absent,here,update_self,update_self]

end Xv6.Lib
