import Mathlib.Tactic

/-!
A singly linked list whose links are in its cells. The list starts at a pointer; a pointer to a link is `none` for the
start and `some x` for the link in cell `x`.
-/
namespace Xv6.Lib
open Function

variable {β : Type} {next next' : β → Option β} {head : Option β} {l l₁ l₂ : List β} {b : β}

/-- The links make the list. -/
def Chain (next : β → Option β) : Option β → List β → Prop
  | v,[] => v = none
  | v,b :: l => v = some b ∧ Chain next (next b) l

/-- What a pointer to a link points to. -/
def deref (head : Option β) (next : β → Option β) : Option β → Option β
  | none => head
  | some x => next x

theorem Chain.congr (chain : Chain next head l) (same : ∀ x ∈ l, next' x = next x) : Chain next' head l := by
  induction l generalizing head with
  | nil => exact chain
  | cons b l ih =>
    refine ⟨chain.1,?_⟩
    rw [same b List.mem_cons_self]
    exact ih chain.2 fun x listed => same x (List.mem_cons_of_mem _ listed)

theorem Chain.head_eq (chain : Chain next head l) : head = l.head? := by
  cases l with
  | nil => exact chain
  | cons b l => exact chain.1

theorem Chain.tail {b : β} (chain : Chain next head (b :: l)) : Chain next (next b) l := chain.2

/-- The rest of the list, from the link in the last cell of its first part. -/
theorem Chain.rest (chain : Chain next head (l₁ ++ l₂)) : Chain next (deref head next l₁.getLast?) l₂ := by
  induction l₁ generalizing head with
  | nil => exact chain
  | cons b l ih =>
    have after := ih chain.2
    cases l with
    | nil => exact after
    | cons c l => exact after

theorem Chain.walk {pp : Option β} {c : β} (chain : Chain next head (l₁ ++ l₂)) (here : pp = l₁.getLast?)
    (more : deref head next pp = some c) : ∃ l₃, l₂ = c :: l₃ ∧ some c = (l₁ ++ [c]).getLast? := by
  have rest := chain.rest
  rw [← here,more] at rest
  cases l₂ with
  | nil => cases rest
  | cons d l₃ =>
    obtain ⟨same,_⟩ := rest
    cases same
    exact ⟨l₃,rfl,by simp⟩

theorem Chain.walked {pp : Option β} (chain : Chain next head (l₁ ++ l₂)) (here : pp = l₁.getLast?)
    (last : deref head next pp = none) : l₂ = [] := by
  have rest := chain.rest
  rw [← here,last] at rest
  cases l₂ with
  | nil => rfl
  | cons d l₃ => cases rest.1

variable [DecidableEq β]

/-- The start and the links after an assignment through a pointer to a link. -/
def assign (head : Option β) (next : β → Option β) (pp v : Option β) : Option β × (β → Option β) :=
  match pp with
  | none => (v,next)
  | some x => (head,update next x v)

theorem Chain.link (chain : Chain next head l) (once : l.Nodup) (fresh : b ∉ l) (clear : next b = none) :
    Chain (assign head next l.getLast? (some b)).2 (assign head next l.getLast? (some b)).1 (l ++ [b]) := by
  induction l generalizing head with
  | nil => exact ⟨rfl,clear⟩
  | cons c l ih =>
    obtain ⟨first,rest⟩ := chain
    obtain ⟨out,once⟩ := List.nodup_cons.mp once
    have other : b ≠ c := fun same => fresh (same ▸ List.mem_cons_self)
    have after := ih rest once fun listed => fresh (List.mem_cons_of_mem _ listed)
    cases l with
    | nil => exact ⟨first,by simp [assign],by simpa [Chain,assign,other] using clear⟩
    | cons d l =>
      rw [List.getLast?_cons_cons]
      obtain ⟨x,last⟩ : ∃ x, (d :: l).getLast? = some x := Option.isSome_iff_exists.mp (by simp)
      rw [last] at after ⊢
      refine ⟨first,?_⟩
      have apart : c ≠ x := by
        rintro rfl
        exact out (List.mem_of_getLast? last)
      simp only [assign] at after ⊢
      rw [update_of_ne apart]
      exact after

end Xv6.Lib
