import Mathlib.Tactic
import Mathlib.Data.List.Pairwise

/-!
Numbers divided into spans. Spans that do not overlap tile regions when they consist of the same
numbers; two adjacent spans can be joined, a span can be cut in two, and a region can be added.
-/
namespace Xv6.Lib

/-- The numbers from `start` on, `len` of them. -/
structure Span where
  start : Nat
  len : Nat
deriving DecidableEq

namespace Span

/-- The number behind the last one. -/
def stop (s : Span) : Nat := s.start + s.len

def Has (s : Span) (x : Nat) : Prop := s.start ≤ x ∧ x < s.stop

def Apart (s t : Span) : Prop := s.stop ≤ t.start ∨ t.stop ≤ s.start

theorem Apart.symm {s t : Span} (apart : s.Apart t) : t.Apart s := Or.symm apart

instance : Std.Symm Apart := ⟨fun _ _ => Apart.symm⟩

end Span

/-- The spans do not overlap and consist of the numbers of the regions. -/
structure Tiles (spans regions : List Span) : Prop where
  filled : ∀ s ∈ spans, 0 < s.len
  apart : spans.Pairwise Span.Apart
  cover : ∀ x, (∃ s ∈ spans, s.Has x) ↔ ∃ r ∈ regions, r.Has x

namespace Tiles
variable {spans spans' regions : List Span} {s t : Span}

theorem perm (tiles : Tiles spans regions) (same : spans.Perm spans') : Tiles spans' regions where
  filled s member := tiles.filled s (same.mem_iff.mpr member)
  apart := (same.pairwise_iff Span.Apart.symm).mp tiles.apart
  cover x := by
    rw [← tiles.cover x]
    simp only [same.mem_iff]

theorem of_ne (tiles : Tiles spans regions) (member : s ∈ spans) (member' : t ∈ spans) (other : s ≠ t) : s.Apart t :=
  tiles.apart.forall member member' other

theorem nodup (tiles : Tiles spans regions) : (spans.map Span.start).Nodup := by
  refine List.pairwise_map.mpr (tiles.apart.imp_of_mem fun {s t} member member' apart => ?_)
  have some' := tiles.filled s member
  have some'' := tiles.filled t member'
  simp only [Span.Apart,Span.stop] at apart
  omega

theorem join (tiles : Tiles (s :: t :: spans) regions) (adjacent : s.stop = t.start) :
    Tiles (⟨s.start,s.len + t.len⟩ :: spans) regions := by
  have apart := List.pairwise_cons.mp tiles.apart
  have apart' := List.pairwise_cons.mp apart.2
  have some' := tiles.filled s (by simp)
  simp only [Span.stop] at adjacent
  refine ⟨fun u member => ?_,List.pairwise_cons.mpr ⟨fun u member => ?_,apart'.2⟩,fun x => ?_⟩
  · rcases List.mem_cons.mp member with rfl | later
    · exact Nat.add_pos_left some' _
    · exact tiles.filled u (by simp [later])
  · have left := apart.1 u (by simp [member])
    have right := apart'.1 u member
    have filled := tiles.filled u (by simp [member])
    have filled' := tiles.filled t (by simp)
    simp only [Span.Apart,Span.stop] at left right ⊢
    omega
  · rw [← tiles.cover x]
    simp only [List.mem_cons,exists_eq_or_imp]
    rw [← or_assoc]
    refine or_congr_left ?_
    simp only [Span.Has,Span.stop]
    omega

theorem cut {a m n : Nat} (tiles : Tiles (⟨a,m + n⟩ :: spans) regions) (left : 0 < m) (right : 0 < n) :
    Tiles (⟨a,m⟩ :: ⟨a + m,n⟩ :: spans) regions := by
  have apart := List.pairwise_cons.mp tiles.apart
  refine ⟨fun u member => ?_,List.pairwise_cons.mpr ⟨fun u member => ?_,List.pairwise_cons.mpr ⟨fun u member => ?_,apart.2⟩⟩,
    fun x => ?_⟩
  · rcases List.mem_cons.mp member with rfl | later
    · exact left
    · rcases List.mem_cons.mp later with rfl | later
      · exact right
      · exact tiles.filled u (by simp [later])
  · rcases List.mem_cons.mp member with rfl | later
    · exact .inl (le_refl _)
    · have whole := apart.1 u later
      simp only [Span.Apart,Span.stop] at whole ⊢
      omega
  · have whole := apart.1 u member
    simp only [Span.Apart,Span.stop] at whole ⊢
    omega
  · rw [← tiles.cover x]
    simp only [List.mem_cons,exists_eq_or_imp]
    rw [← or_assoc]
    refine or_congr_left ?_
    simp only [Span.Has,Span.stop]
    omega

theorem fresh (tiles : Tiles spans regions) (some' : 0 < s.len) (above : ∀ t ∈ spans, t.stop ≤ s.start) :
    Tiles (s :: spans) (s :: regions) := by
  refine ⟨fun u member => ?_,List.pairwise_cons.mpr ⟨fun u member => .inr (above u member),tiles.apart⟩,fun x => ?_⟩
  · rcases List.mem_cons.mp member with rfl | later
    · exact some'
    · exact tiles.filled u later
  · simp only [List.mem_cons,exists_eq_or_imp,tiles.cover x]

end Tiles
end Xv6.Lib
