import Xv6.Files

/-!
Directories. The contents of a directory are entries of sixteen bytes; names are compared up to the first NUL and
fourteen bytes (`key`).
-/
namespace Xv6
open Xv6.Lib Function

/-! ### Names -/

/-- What `namecmp` compares of a name. -/
def key (name : List UInt8) : List UInt8 := (name.take DIRSIZ).takeWhile (· ≠ 0)

theorem strncmp_eq_zero (n : Nat) (s t : List UInt8) :
    strncmp s t n = 0 ↔ (s.take n).takeWhile (· ≠ 0) = (t.take n).takeWhile (· ≠ 0) := by
  induction n generalizing s t with
  | zero => simp [strncmp]
  | succ n ih =>
    unfold strncmp
    rcases s with _ | ⟨x,s⟩ <;> rcases t with _ | ⟨y,t⟩
    · simp
    · by_cases zero : y = 0
      · subst zero; simp
      · have : y.toNat ≠ 0 := fun same => zero (UInt8.toNat_inj.mp same)
        simp [zero]
        omega
    · by_cases zero : x = 0
      · subst zero; simp
      · have : x.toNat ≠ 0 := fun same => zero (UInt8.toNat_inj.mp same)
        simp [zero]
        exact this
    · by_cases zero : x = 0
      · subst zero
        by_cases zero' : y = 0
        · subst zero'; simp
        · have : y.toNat ≠ 0 := fun same => zero' (UInt8.toNat_inj.mp same)
          simp [zero']
          omega
      · by_cases same : x = y
        · subst same
          have := ih s t
          simp [zero,this]
        · have apart : x.toNat ≠ y.toNat := fun equal => same (UInt8.toNat_inj.mp equal)
          have left : ((x :: s).take (n + 1)).takeWhile (· ≠ 0) = x :: (s.take n).takeWhile (· ≠ 0) := by simp [zero]
          simp only [List.headD_cons,ne_eq,zero,not_false_eq_true,same,and_false,if_false]
          rw [left]
          by_cases zero' : y = 0
          · subst zero'
            simp
            exact fun equal => zero (UInt8.toNat_inj.mp equal)
          · simp [zero',same]
            omega

theorem namecmp_eq_zero (s t : List UInt8) : namecmp s t = 0 ↔ key s = key t := strncmp_eq_zero DIRSIZ s t

theorem strncpy_length (n : Nat) (t : List UInt8) : (strncpy t n).length = n := by
  induction n generalizing t with
  | zero => rfl
  | succ n ih =>
    unfold strncpy
    split
    · simp [ih]
    · simp

theorem takeWhile_strncpy (n : Nat) (t : List UInt8) :
    (strncpy t n).takeWhile (· ≠ 0) = (t.take n).takeWhile (· ≠ 0) := by
  induction n generalizing t with
  | zero => rfl
  | succ n ih =>
    unfold strncpy
    rcases t with _ | ⟨x,t⟩
    · simp
    · by_cases zero : x = 0
      · subst zero; simp
      · have := ih t
        simp [zero] at this ⊢
        exact this

theorem key_strncpy (t : List UInt8) : key (strncpy t DIRSIZ) = key t := by
  have full : (strncpy t DIRSIZ).take DIRSIZ = strncpy t DIRSIZ := List.take_of_length_le (strncpy_length _ _).le
  rw [key,full]
  exact takeWhile_strncpy DIRSIZ t

/-! ### Entries -/

/-- The `k`-th entry of a directory. -/
def Node.entry (n : Node) (k : Nat) : Dirent := .decode (slice n.data (16 * k) 16)

/-- How many entries a directory has. -/
def Node.count (n : Node) : Nat := n.size.toNat / 16

/-- An entry in use. -/
def Node.live (n : Node) (k : Nat) : Prop := k < n.count ∧ (n.entry k).inum ≠ 0

instance (n : Node) (k : Nat) : Decidable (n.live k) := inferInstanceAs (Decidable (_ ∧ _))

/-- The entry that a new one replaces: the first that is not in use, or the end. -/
def Node.vacant (n : Node) : Nat := ((List.range n.count).find? fun k => (n.entry k).inum = 0).getD n.count

/-- The entry with a name. -/
def Node.find (n : Node) (name : List UInt8) : Option Nat :=
  (List.range n.count).find? fun k => (n.entry k).inum ≠ 0 ∧ key (n.entry k).name = key name

/-- The size of a directory is that of its entries. -/
def Node.aligned (n : Node) : Prop := n.size.toNat % 16 = 0

theorem decode_encode (de : Dirent) (full : de.name.length = DIRSIZ) : Dirent.decode de.encode = de := by
  obtain ⟨inum,name⟩ := de
  have small : inum.toNat < 65536 := inum.toNat_lt
  have value : (leByte inum.toNat 0).toNat + 256 * (leByte inum.toNat 1).toNat = inum.toNat := by
    simp [leByte]
    omega
  have taken : name.take DIRSIZ = name := List.take_of_length_le full.le
  simp only [Dirent.encode,Dirent.decode,List.getD_cons_zero,List.getD_cons_succ,List.drop_succ_cons,List.drop_zero,taken,
    value]
  simp

theorem encode_length (de : Dirent) (full : de.name.length = DIRSIZ) : de.encode.length = 16 := by
  simp [Dirent.encode,full,DIRSIZ]

theorem encode_empty : Dirent.encode ⟨0,List.replicate DIRSIZ 0⟩ = List.replicate 16 0 := by decide

theorem slice_overlay (file : Nat → UInt8) (off : Nat) (src : List UInt8) :
    slice (overlay file off src) off src.length = src := by
  refine List.ext_getElem (by simp [slice]) fun k inside inside' => ?_
  simp only [slice,List.getElem_map,List.getElem_range,overlay]
  rw [if_pos (by omega),Nat.add_sub_cancel_left,List.getD_eq_getElem?_getD,List.getElem?_eq_getElem inside',Option.getD_some]

theorem slice_overlay_apart (file : Nat → UInt8) {off at' n : Nat} (src : List UInt8)
    (apart : at' + n ≤ off ∨ off + src.length ≤ at') : slice (overlay file off src) at' n = slice file at' n := by
  refine slice_congr _ fun k inside => ?_
  rw [overlay,if_neg (by omega)]

/-- The directory with an entry written. -/
def Node.setEntry (n : Node) (k : Nat) (de : Dirent) : Node := n.write de.encode (16 * k)

theorem entry_setEntry (n : Node) (k : Nat) {de : Dirent} (full : de.name.length = DIRSIZ) (j : Nat) :
    (n.setEntry k de).entry j = if j = k then de else n.entry j := by
  unfold Node.entry Node.setEntry Node.write
  have length := encode_length de full
  split
  · next same =>
    subst same
    have written := slice_overlay n.data (16 * j) de.encode
    rw [length] at written
    rw [written,decode_encode de full]
  · next other =>
    rw [slice_overlay_apart _ _ (by omega)]

theorem count_setEntry (n : Node) {k : Nat} {de : Dirent} (full : de.name.length = DIRSIZ)
    (inside : k < n.count ∨ k = n.count ∧ n.aligned) (small : 16 * k + 16 ≤ MAXFILE * BSIZE) :
    (n.setEntry k de).count = max n.count (k + 1) ∧ (n.aligned → (n.setEntry k de).aligned) := by
  have length := encode_length de full
  have bytes : MAXFILE * BSIZE < 2 ^ 32 := by decide
  have inside : k < n.size.toNat / 16 ∨ k = n.size.toNat / 16 ∧ n.size.toNat % 16 = 0 := inside
  unfold Node.count Node.aligned Node.setEntry Node.write sizeAfter
  simp only [length]
  split
  · next bigger =>
    simp only [grows,decide_eq_true_eq] at bigger
    rw [UInt32.toNat_ofNat_of_lt' (by simp only [UInt32.size]; omega)]
    omega
  · next same =>
    simp only [grows,decide_eq_true_eq] at same
    omega

theorem live_setEntry (n : Node) {k : Nat} {de : Dirent} (full : de.name.length = DIRSIZ)
    (inside : k < n.count ∨ k = n.count ∧ n.aligned) (small : 16 * k + 16 ≤ MAXFILE * BSIZE) (j : Nat) :
    (n.setEntry k de).live j ↔ if j = k then de.inum ≠ 0 else n.live j := by
  unfold Node.live
  rw [(count_setEntry n full inside small).1,entry_setEntry n k full j]
  split
  · next here => exact ⟨And.right,fun used => ⟨by omega,used⟩⟩
  · next other => exact and_congr_left fun _ => by omega

theorem find_some {n : Node} {name : List UInt8} {k : Nat} (found : n.find name = some k) :
    n.live k ∧ key (n.entry k).name = key name := by
  have inside := List.mem_range.mp (List.mem_of_find?_eq_some found)
  have this := List.find?_some found
  simp only [ne_eq,decide_eq_true_eq] at this
  exact ⟨⟨inside,this.1⟩,this.2⟩

theorem find_none {n : Node} {name : List UInt8} (absent : n.find name = none) {k : Nat} (live : n.live k) :
    key (n.entry k).name ≠ key name := by
  have this := List.find?_eq_none.mp absent k (List.mem_range.mpr live.1)
  simp only [ne_eq,decide_eq_true_eq,not_and] at this
  exact this live.2

theorem vacant_le (n : Node) : n.vacant ≤ n.count := by
  unfold Node.vacant
  cases found : (List.range n.count).find? fun k => (n.entry k).inum = 0 with
  | none => exact Nat.le_refl _
  | some k => exact (List.mem_range.mp (List.mem_of_find?_eq_some found)).le

theorem vacant_free (n : Node) : ¬n.live n.vacant := by
  unfold Node.vacant
  rintro ⟨inside,used⟩
  cases found : (List.range n.count).find? fun k => (n.entry k).inum = 0 with
  | none =>
    rw [found] at inside
    exact Nat.lt_irrefl _ inside
  | some k =>
    rw [found] at used
    exact used (by simpa using List.find?_some found)

end Xv6
