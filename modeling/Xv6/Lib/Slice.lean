import Mathlib.Tactic

/-!
A circular buffer with indices that run freely through all 32-bit numbers. The cell of an index is its remainder by
the size of the buffer, which divides `2 ^ 32`, so that nothing happens when an index wraps around.
-/
namespace Xv6.Lib
open Function

variable {α : Type} {size : Nat} {data : Nat → α} {a b c : UInt32}

/-- The cells from index `a` up to index `b`. -/
def slice (size : Nat) (data : Nat → α) (a b : UInt32) : List α :=
  (List.range (b - a).toNat).map fun j => data ((a.toNat + j) % size)

@[simp] theorem slice_self : slice size data a a = [] := by simp [slice]

theorem uint_add_distance (a b : UInt32) : b.toNat = (a.toNat + (b - a).toNat) % 2 ^ 32 := by
  rw [UInt32.toNat_sub]
  have := a.toNat_lt
  have := b.toNat_lt
  omega

theorem uint_succ (a : UInt32) : (a + 1).toNat = (a.toNat + 1) % 2 ^ 32 := UInt32.toNat_add ..

theorem distance_ne_zero (other : a ≠ b) : (b - a).toNat ≠ 0 := by
  intro zero
  apply other
  rw [← UInt32.toNat_inj,uint_add_distance a b,zero]
  have := a.toNat_lt
  omega

theorem distance_succ (other : a ≠ b) : (b - a).toNat = (b - (a + 1)).toNat + 1 := by
  have some' := distance_ne_zero other
  rw [UInt32.toNat_sub] at some' ⊢
  rw [UInt32.toNat_sub,uint_succ]
  have := a.toNat_lt
  have := b.toNat_lt
  omega

theorem distance_push {n : Nat} (small : n < 2 ^ 32) (room : (b - a).toNat < n) : (b + 1 - a).toNat = (b - a).toNat + 1 := by
  rw [UInt32.toNat_sub] at room ⊢
  rw [UInt32.toNat_sub,uint_succ]
  have := a.toNat_lt
  have := b.toNat_lt
  omega

theorem distance_pop (other : a ≠ b) : (b - a).toNat = (b - 1 - a).toNat + 1 := by
  have same : b - 1 + 1 = b := UInt32.sub_add_cancel b 1
  have small : (b - 1 - a).toNat < 2 ^ 32 - 1 := by
    have some' := distance_ne_zero other
    rw [UInt32.toNat_sub] at some' ⊢
    have pred : (b - 1).toNat = (b.toNat + (2 ^ 32 - 1)) % 2 ^ 32 := by
      rw [UInt32.toNat_sub,Nat.add_comm]
      rfl
    rw [pred]
    have := a.toNat_lt
    have := b.toNat_lt
    omega
  have step := distance_push (a := a) (b := b - 1) (n := 2 ^ 32 - 1) (by decide) small
  rwa [same] at step

theorem distance_add (order : (b - a).toNat ≤ (c - a).toNat) : (c - a).toNat = (b - a).toNat + (c - b).toNat := by
  simp only [UInt32.toNat_sub] at *
  have := a.toNat_lt
  have := b.toNat_lt
  have := c.toNat_lt
  omega

/-- An index between `b` and `c` is as far from `a` as `b` is, and more. -/
theorem distance_between {d : UInt32} (order : (b - a).toNat ≤ (c - a).toNat) (less : (d - b).toNat ≤ (c - b).toNat) :
    (d - a).toNat = (b - a).toNat + (d - b).toNat := by
  simp only [UInt32.toNat_sub] at *
  have := a.toNat_lt
  have := b.toNat_lt
  have := c.toNat_lt
  have := d.toNat_lt
  omega

section
variable (divides : size ∣ 2 ^ 32)
include divides

theorem index_add (a b : UInt32) : b.toNat % size = (a.toNat + (b - a).toNat) % size := by
  rw [uint_add_distance a b,Nat.mod_mod_of_dvd _ divides]

theorem index_succ (a : UInt32) (j : Nat) : ((a + 1).toNat + j) % size = (a.toNat + (j + 1)) % size := by
  rw [uint_succ,Nat.add_mod,Nat.mod_mod_of_dvd _ divides,← Nat.add_mod]
  congr 1
  omega

theorem slice_cons (other : a ≠ b) : slice size data a b = data (a.toNat % size) :: slice size data (a + 1) b := by
  unfold slice
  rw [distance_succ other,List.range_succ_eq_map,List.map_cons,List.map_map]
  congr 1
  refine List.map_congr_left fun j _ => ?_
  rw [index_succ divides a j]
  rfl

/-- A cell that is filled joins the slice at its end. -/
theorem slice_snoc (small : size < 2 ^ 32) (room : (b - a).toNat < size) (x : α) :
    slice size (update data (b.toNat % size) x) a (b + 1) = slice size data a b ++ [x] := by
  unfold slice
  rw [distance_push small room,List.range_succ,List.map_append,List.map_cons,List.map_nil,← index_add divides a b,update_self]
  congr 1
  refine List.map_congr_left fun j inside => update_of_ne (fun clash => ?_) ..
  rw [index_add divides a b] at clash
  have same : j % size = (b - a).toNat % size := Nat.ModEq.add_left_cancel' a.toNat clash
  have less := List.mem_range.mp inside
  rw [Nat.mod_eq_of_lt (by omega),Nat.mod_eq_of_lt room] at same
  omega

/-- Filling a cell behind the slice does not change it. -/
theorem slice_update (order : (b - a).toNat ≤ (c - a).toNat) (room : (c - a).toNat < size) (x : α) :
    slice size (update data (c.toNat % size) x) a b = slice size data a b := by
  refine List.map_congr_left fun j inside => update_of_ne (fun clash => ?_) ..
  rw [index_add divides a c] at clash
  have same : j % size = (c - a).toNat % size := Nat.ModEq.add_left_cancel' a.toNat clash
  have less := List.mem_range.mp inside
  rw [Nat.mod_eq_of_lt (by omega),Nat.mod_eq_of_lt room] at same
  omega

theorem slice_append (order : (b - a).toNat ≤ (c - a).toNat) :
    slice size data a c = slice size data a b ++ slice size data b c := by
  unfold slice
  rw [distance_add order,List.range_add,List.map_append,List.map_map]
  congr 1
  refine List.map_congr_left fun j _ => ?_
  show data _ = data _
  congr 1
  rw [Nat.add_mod b.toNat,index_add divides a b,← Nat.add_mod,Nat.add_assoc]

end

end Xv6.Lib
