import Mathlib.Tactic
import Mathlib.Logic.Function.Basic

/-!
Singly linked lists that may end anywhere: from a cell the links lead through a list of cells to a
last one. A circular list leads back to the cell where it starts (`Round`), and can be walked from
each of its cells.
-/
namespace Xv6.Lib
open Function

variable {α : Type} {next next' : α → α} {a b c p z : α} {l r : List α}

/-- From `a` the links lead through the cells `l` to `z`. -/
def Leads (next : α → α) : α → List α → α → Prop
  | a,[],z => next a = z
  | a,b :: l,z => next a = b ∧ Leads next b l z

theorem leads_append : Leads next a (l ++ b :: r) z ↔ Leads next a l b ∧ Leads next b r z := by
  induction l generalizing a with
  | nil => rfl
  | cons c l ih => simp only [List.cons_append,Leads,ih,and_assoc]

/-- The links of the first cells and the links of the others. -/
theorem leads_split : Leads next a (l ++ r) z ↔ Leads next a l (next (l.getLastD a)) ∧ Leads next (l.getLastD a) r z := by
  induction l generalizing a with
  | nil => simp [Leads]
  | cons b l ih => simp only [List.cons_append,Leads,ih,and_assoc,List.getLastD_cons]

theorem Leads.congr (leads : Leads next a l z) (first : next' b = next a) (same : ∀ x ∈ l, next' x = next x) : Leads next' b l z := by
  induction l generalizing a b with
  | nil => exact first.trans leads
  | cons c l ih => exact ⟨first.trans leads.1,ih leads.2 (same c (by simp)) fun x member => same x (by simp [member])⟩

theorem getLastD_mem : l.getLastD a ∈ a :: l := by
  cases l using List.reverseRecOn with
  | nil => simp
  | append_singleton l b => simp

theorem Leads.redirect {y : α} (leads : Leads next a l z) (once : (a :: l).Nodup) (last : next' (l.getLastD a) = y)
    (same : ∀ x ∈ a :: l, x ≠ l.getLastD a → next' x = next x) : Leads next' a l y := by
  induction l generalizing a with
  | nil => exact last
  | cons b l ih =>
    have fresh : a ∉ b :: l := (List.nodup_cons.mp once).1
    rw [List.getLastD_cons] at last same
    have other : a ≠ l.getLastD b := fun clash => fresh (clash ▸ getLastD_mem)
    exact ⟨(same a (by simp) other).trans leads.1,ih leads.2 (List.nodup_cons.mp once).2 last
      fun x member => same x (List.mem_cons_of_mem _ member)⟩

theorem Leads.mem (leads : Leads next a l z) (member : p ∈ a :: l) : next p ∈ l ++ [z] := by
  induction l generalizing a with
  | nil =>
    obtain rfl := List.mem_singleton.mp member
    exact List.mem_singleton.mpr leads
  | cons b l ih =>
    rcases List.mem_cons.mp member with rfl | later
    · simp [leads.1]
    · exact List.mem_cons_of_mem _ (ih leads.2 later)

/-- A cell that stands once in the list is reached from one cell only. -/
theorem Leads.before (leads : Leads next a (l ++ c :: r) z) (once : (l ++ c :: r ++ [z]).Nodup) (member : p ∈ a :: (l ++ c :: r))
    (here : next p = c) : p = l.getLastD a := by
  induction l generalizing a with
  | nil =>
    rcases List.mem_cons.mp member with rfl | later
    · rfl
    · have again := leads.2.mem later
      rw [here] at again
      exact absurd again (List.nodup_cons.mp once).1
  | cons b l ih =>
    rw [List.getLastD_cons]
    have fresh := (List.nodup_cons.mp once).1
    rcases List.mem_cons.mp member with rfl | later
    · have same : b = c := leads.1.symm.trans here
      exact absurd (by simp [same]) fresh
    · exact ih leads.2 (List.nodup_cons.mp once).2 later

/-- Through cells in increasing order, every link but the last leads upwards. -/
theorem Leads.upwards [Preorder α] (leads : Leads next a l z) (order : (a :: l).Pairwise (· < ·)) (member : p ∈ a :: l) :
    (p = l.getLastD a ∧ next p = z) ∨ (p < next p ∧ next p ∈ l) := by
  induction l generalizing a with
  | nil =>
    obtain rfl := List.mem_singleton.mp member
    exact .inl ⟨rfl,leads⟩
  | cons b l ih =>
    have order' := List.pairwise_cons.mp order
    rw [List.getLastD_cons]
    rcases List.mem_cons.mp member with rfl | later
    · refine .inr ?_
      rw [leads.1]
      exact ⟨order'.1 b (by simp),by simp⟩
    · rcases ih leads.2 order'.2 later with last | inner
      · exact .inl last
      · exact .inr ⟨inner.1,by simp [inner.2]⟩

/-- The links lead from `a` through `l` back to `a`. -/
structure Round (next : α → α) (a : α) (l : List α) : Prop where
  leads : Leads next a l a
  once : (a :: l).Nodup

theorem Round.turn (round : Round next a (l ++ b :: r)) : Leads next b (r ++ a :: l) b := by
  have halves := leads_append.mp round.leads
  exact leads_append.mpr ⟨halves.2,halves.1⟩

/-- From each cell the links lead through all the others. -/
theorem Round.around (round : Round next a l) (member : p ∈ a :: l) :
    ∃ rest, Leads next p rest p ∧ (p :: rest).Perm (a :: l) := by
  rcases List.mem_cons.mp member with rfl | later
  · exact ⟨l,round.leads,List.Perm.refl _⟩
  · obtain ⟨l,r,rfl⟩ := List.append_of_mem later
    refine ⟨r ++ a :: l,round.turn,?_⟩
    exact (show ((p :: r) ++ (a :: l)).Perm ((a :: l) ++ (p :: r)) from List.perm_append_comm)

end Xv6.Lib
