import Xv6.Dirs

/-!
Reading without writing. Where the blocks of a range are there, `readi` gives the bytes and leaves the state alone.
-/
namespace Xv6
open Xv6.Lib Prog Function

variable {s : State} {ip : Slot} {d : Dinode}

/-! ### Blocks that are there -/

/-- Where `bmap` finds a block that is there. -/
theorem blk_there {disk : Disk} {bn : Nat} (some' : blk disk d bn ≠ 0) :
    if h : bn < NDIRECT then d.addrs ⟨bn,Nat.lt_succ_of_lt h⟩ ≠ 0 ∧ blk disk d bn = (d.addrs ⟨bn,Nat.lt_succ_of_lt h⟩).toNat
    else d.addrs (Fin.last NDIRECT) ≠ 0 ∧ get32 (disk (d.addrs (Fin.last NDIRECT)).toNat) (4 * (bn - NDIRECT)) ≠ 0 ∧
      blk disk d bn = (get32 (disk (d.addrs (Fin.last NDIRECT)).toNat) (4 * (bn - NDIRECT))).toNat := by
  split
  · next direct =>
    have read : blk disk d bn = (d.addrs ⟨bn,Nat.lt_succ_of_lt direct⟩).toNat := by
      rw [blk,show position bn = bn from if_pos direct]
      exact ptr_direct disk d ⟨bn,Nat.lt_succ_of_lt direct⟩
    exact ⟨fun zero => some' (by rw [read,zero]; rfl),read⟩
  · next direct =>
    have read : blk disk d bn = if d.addrs (Fin.last NDIRECT) = 0 then 0
        else (get32 (disk (d.addrs (Fin.last NDIRECT)).toNat) (4 * (bn - NDIRECT))).toNat := by
      rw [blk,position,if_neg direct,ptr_entry _ _ (by omega),show bn + 1 - (NDIRECT + 1) = bn - NDIRECT by omega]
    have indirect : d.addrs (Fin.last NDIRECT) ≠ 0 := by
      intro zero
      rw [read,if_pos zero] at some'
      exact some' rfl
    rw [if_neg indirect] at read
    exact ⟨indirect,fun zero => some' (by rw [read,zero]; rfl),read⟩

section
variable {Q : Nat → State → Prop} {E : String → Prop}

theorem post_bmap_addr {k : Fin (NDIRECT + 1)} (node : (s.icache ip).node = d) (some' : d.addrs k ≠ 0) :
    post (bmap_addr ip k) Q E s = Q (d.addrs k).toNat s := by
  unfold bmap_addr
  simp only [post_bind,post_get,node]
  rw [if_neg some',post_pure]

theorem post_bmap {bn : Nat} (node : (s.icache ip).node = d) (small : bn < MAXFILE) (some' : blk s.disk d bn ≠ 0) :
    post (bmap ip bn) Q E s = Q (blk s.disk d bn) s := by
  have max : MAXFILE = NDIRECT + NINDIRECT := rfl
  have there := blk_there some'
  unfold bmap
  split at there
  · next direct =>
    rw [dif_pos direct,post_bmap_addr node there.1,there.2]
  · next direct =>
    obtain ⟨indirect,entry,here⟩ := there
    rw [dif_neg direct,if_pos (by omega),post_bind,post_bmap_addr node indirect,here]
    unfold bmap_entry
    rw [post_bind,post_bread,if_neg entry,post_pure]

end

theorem post_readi_from {Q : List UInt8 → State → Prop} {E : String → Prop} (node : (s.icache ip).node = d) (fuel off n : Nat)
    (enough : n ≤ fuel) (small : off + n ≤ MAXFILE * BSIZE) (there : ∀ bn, Touches off n bn → blk s.disk d bn ≠ 0) :
    post (readi_from ip fuel off n) Q E s = Q (slice (content s.disk d) off n) s := by
  induction fuel generalizing off n Q with
  | zero =>
    obtain rfl : n = 0 := by omega
    rfl
  | succ fuel ih =>
    unfold readi_from
    by_cases none' : n = 0
    · subst none'
      rw [if_pos rfl,post_pure]
      rfl
    · have bsize := BSIZE_eq
      have rem := Nat.mod_lt off (show 0 < BSIZE by decide)
      have bn : off / BSIZE < MAXFILE := Nat.div_lt_of_lt_mul (by rw [Nat.mul_comm]; omega)
      have first := there _ (Touches.first (by omega))
      generalize part : min n (BSIZE - off % BSIZE) = m
      have high : m ≤ n := by omega
      rw [if_neg none',post_bind,post_bmap node bn first,post_bind,post_bread]
      dsimp only
      rw [post_bind,ih (off + m) (n - m) (by omega) (by omega) fun bn later => there bn (later.rest high),post_pure,
        bytesIn_eq_slice first (by omega),slice_append,Nat.add_sub_cancel' high]

theorem readi_reads (node : (s.icache ip).node = d) (type : d.type ≠ T_DEV) (small : d.size.toNat ≤ MAXFILE * BSIZE) {off n : Nat}
    (legal : ¬(off > d.size.toNat ∨ (off + n) % 2 ^ 32 < off))
    (there : ∀ bn, Touches off (min n (d.size.toNat - off)) bn → blk s.disk d bn ≠ 0) :
    readi ip off n s = .ok (some (slice (content s.disk d) off (min n (d.size.toNat - off))),s) := by
  refine post_run ?_
  unfold readi
  simp only [post_bind,post_get,node]
  rw [if_neg type,if_neg legal]
  rw [not_or] at legal
  have cut : (if off + n > d.size.toNat then d.size.toNat - off else n) = min n (d.size.toNat - off) := by
    split <;> omega
  simp only [cut]
  generalize min n (d.size.toNat - off) = m at cut there
  rw [post_bind,post_readi_from node m off m (le_refl _) (by split at cut <;> omega) there]
  exact ⟨rfl,rfl⟩

theorem readi_there (node : (s.icache ip).node = d) (type : d.type ≠ T_DEV) {off n : Nat} (inside : off + n ≤ d.size.toNat)
    (small : d.size.toNat ≤ MAXFILE * BSIZE) (there : ∀ bn, Touches off n bn → blk s.disk d bn ≠ 0) :
    readi ip off n s = .ok (some (slice (content s.disk d) off n),s) := by
  have bound : MAXFILE * BSIZE < 2 ^ 32 := by decide
  have whole : min n (d.size.toNat - off) = n := by omega
  have read := @readi_reads _ _ _ node type small off n (by rw [Nat.mod_eq_of_lt (by omega)]; omega) (by rwa [whole])
  rwa [whole] at read

theorem readi_harmless (node : (s.icache ip).node = d) (type : d.type ≠ T_DEV) (small : d.size.toNat ≤ MAXFILE * BSIZE)
    (there : ∀ bn, bn * BSIZE < d.size.toNat → blk s.disk d bn ≠ 0) (off n : Nat) : ∃ r, readi ip off n s = .ok (r,s) := by
  by_cases past : off > d.size.toNat ∨ (off + n) % 2 ^ 32 < off
  · refine ⟨none,post_run ?_⟩
    unfold readi
    simp only [post_bind,post_get,node]
    rw [if_neg type,if_pos past]
    exact ⟨rfl,rfl⟩
  · refine ⟨_,readi_reads node type small past fun bn touches => there bn ?_⟩
    have last := touches.2.2
    rw [not_or] at past
    omega

end Xv6
