import Mathlib.Tactic

/-!
Numbers handed out by an allocator. The numbers from `lo` on below `hi` are each free or owned by exactly one key; the
allocator knows which are `used`, and a key that owns nothing owns zero.
-/
namespace Xv6.Lib
open Function

variable {κ : Type}

/-- The used numbers between `lo` and `hi` are those owned, and no number has two owners. -/
structure Partition (lo hi : Nat) (used : Nat → Bool) (own : κ → Nat) : Prop where
  range : ∀ k, own k ≠ 0 → lo ≤ own k ∧ own k < hi
  once : ∀ k l, own k ≠ 0 → own k = own l → k = l
  used_iff : ∀ b, lo ≤ b → b < hi → (used b = true ↔ ∃ k, own k = b)

variable {lo hi : Nat} {used : Nat → Bool} {own : κ → Nat}

theorem Partition.free (part : Partition lo hi used own) {b : Nat} (low : lo ≤ b) (high : b < hi)
    (free : used b = false) (k : κ) : own k ≠ b := by
  intro here
  have := (part.used_iff b low high).mpr ⟨k,here⟩
  simp [free] at this

theorem Partition.inUse (part : Partition lo hi used own) {k : κ} (some' : own k ≠ 0) : used (own k) = true :=
  have inside := part.range k some'
  (part.used_iff _ inside.1 inside.2).mpr ⟨k,rfl⟩

/-- The partition only depends on what is used in the range. -/
theorem Partition.congr {used' : Nat → Bool} {own' : κ → Nat} (part : Partition lo hi used own)
    (same : ∀ b, lo ≤ b → b < hi → used' b = used b) (same' : ∀ k, own' k = own k) : Partition lo hi used' own' where
  range k := by rw [same']; exact part.range k
  once k l := by rw [same',same']; exact part.once k l
  used_iff b low high := by
    rw [same b low high,part.used_iff b low high]
    simp only [same']

variable [DecidableEq κ]

/-- No two entries of a table clash, also after one is replaced by a value that clashes with none of the others. -/
theorem once_update {α : Type} {f : κ → α} {C : α → α → Prop} (symm : ∀ x y, C x y → C y x)
    (once : ∀ l m, C (f l) (f m) → l = m) {k : κ} {v : α} (apart : ∀ l, l ≠ k → ¬C (f l) v) (l m : κ)
    (both : C (update f k v l) (update f k v m)) : l = m := by
  rcases eq_or_ne l k with left | left <;> rcases eq_or_ne m k with right | right
  · rw [left,right]
  · rw [left,update_self,update_of_ne right] at both
    exact absurd (symm _ _ both) (apart m right)
  · rw [right,update_self,update_of_ne left] at both
    exact absurd both (apart l left)
  · rw [update_of_ne left,update_of_ne right] at both
    exact once l m both

theorem Partition.once_update (part : Partition lo hi used own) {k : κ} {b : Nat} (apart : ∀ l, own l ≠ 0 → own l ≠ b) (l m : κ)
    (some' : update own k b l ≠ 0) (same : update own k b l = update own k b m) : l = m :=
  Lib.once_update (C := fun x y => x ≠ 0 ∧ x = y) (fun _ _ ⟨some',same⟩ => ⟨same ▸ some',same.symm⟩)
    (fun l m ⟨some',same⟩ => part.once l m some' same) (fun l _ ⟨some',same⟩ => apart l some' same) l m ⟨some',same⟩

theorem Partition.insert (part : Partition lo hi used own) (positive : 0 < lo) {k : κ} {b : Nat} (none' : own k = 0)
    (low : lo ≤ b) (high : b < hi) (free : used b = false) :
    Partition lo hi (update used b true) (update own k b) where
  range := (forall_update_iff own fun _ c => c ≠ 0 → lo ≤ c ∧ c < hi).mpr ⟨fun _ => ⟨low,high⟩,fun l _ => part.range l⟩
  once := part.once_update fun l _ => part.free low high free l
  used_iff c low' high' := by
    rw [exists_update_iff own fun _ x => x = c]
    rcases eq_or_ne c b with rfl | other
    · simp
    · rw [update_of_ne other,part.used_iff c low' high']
      constructor
      · rintro ⟨l,rfl⟩
        exact .inr ⟨l,by rintro rfl; omega,rfl⟩
      · rintro (same | ⟨l,_,here⟩)
        · exact absurd same.symm other
        · exact ⟨l,here⟩

theorem Partition.erase (part : Partition lo hi used own) (positive : 0 < lo) {k : κ} (some' : own k ≠ 0) :
    Partition lo hi (update used (own k) false) (update own k 0) where
  range := (forall_update_iff own fun _ c => c ≠ 0 → lo ≤ c ∧ c < hi).mpr ⟨fun zero => absurd rfl zero,fun l _ => part.range l⟩
  once := part.once_update fun _ => id
  used_iff c low high := by
    rw [exists_update_iff own fun _ x => x = c]
    rcases eq_or_ne c (own k) with rfl | other
    · simp only [update_self,Bool.false_eq_true,false_iff,not_or,not_exists,not_and]
      exact ⟨some'.symm,fun l apart here => apart (part.once k l some' here.symm).symm⟩
    · rw [update_of_ne other,part.used_iff c low high]
      constructor
      · rintro ⟨l,rfl⟩
        exact .inr ⟨l,by rintro rfl; exact other rfl,rfl⟩
      · rintro (zero | ⟨l,_,here⟩)
        · omega
        · exact ⟨l,here⟩

end Xv6.Lib
