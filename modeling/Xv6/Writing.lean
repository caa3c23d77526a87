import Xv6.Files

/-!
What `readi` and `writei` do to an inode, to the others and to the bitmap.
-/
namespace Xv6
open Xv6.Lib Function

variable {s : State} {v : Nat → Dinode} {ip : Slot} {i : Nat} {disk : Disk} {d : Dinode} {W : Finset Nat}

/-- Inode `i` has the contents `file` and the size `size`; every other inode is as it was. -/
structure Edited (s : State) (v : Nat → Dinode) (i : Nat) (disk : Disk) (d : Dinode) (size : UInt32) (file : Nat → UInt8) :
    Prop where
  core : Core s.sb disk (update v i d)
  attr : d.toAttr = { (v i).toAttr with size := size }
  mine : ∀ off < MAXFILE * BSIZE, content disk d off = file off
  others : ∀ j < s.sb.ninodes, j ≠ i → (v j).type ≠ 0 → ∀ off < MAXFILE * BSIZE,
    content disk (v j) off = content s.disk (v j) off
  blocks : ∀ j < s.sb.ninodes, j ≠ i → (v j).type ≠ 0 → ∀ k < NPTR, ptr disk (v j) k = ptr s.disk (v j) k
  stored : ∀ j < s.sb.ninodes, j ≠ i → dinodeAt s.sb disk j = dinodeAt s.sb s.disk j

theorem Written.dinodeAt {file : Nat → UInt8} (written : Written s v i disk d file)
    {j : Nat} (inside : j < s.sb.ninodes) : dinodeAt s.sb disk j = dinodeAt s.sb s.disk j := by
  rw [Xv6.dinodeAt,Xv6.dinodeAt,written.inodes _ (written.core.layout.iblock_high inside)]

theorem Written.edited {file : Nat → UInt8} (written : Written s v i disk d file) : Edited s v i disk d (v i).size file where
  core := written.core
  attr := written.attr
  mine := written.mine
  others := written.others
  blocks := written.blocks
  stored _ inside _ := written.dinodeAt inside

theorem Written.resize {file : Nat → UInt8} (written : Written s v i disk d file) (inside : i < s.sb.ninodes) (type : (v i).type ≠ 0)
    {disk' : Disk} {size : UInt32} (stored : Stored s.sb disk disk' i { d with size := size }) :
    Edited s v i disk' { d with size := size } size file := by
  have start := written.core.layout.datastart_low
  have data (c : Nat) (low : s.sb.datastart ≤ c) : disk' c = disk c := stored.same c (by omega)
  have known : (update v i d i).type ≠ 0 := by rw [update_self,written.attr]; exact type
  have kept := stored.core written.core
  refine ⟨?_,?_,fun off small => ?_,fun j low other type' off small => ?_,fun j low other type' k small => ?_,fun j low other => ?_⟩
  · unfold Core at *
    have owns : ∀ l, own s.sb disk' (update (update v i d) i { d with size := size }) l = own s.sb disk' (update v i d) l :=
      own_attr (by simp) (by simp)
    rw [update_idem] at owns
    rwa [funext owns]
  · rw [← written.attr]
  · have same := content_data written.core data inside known small
    rw [update_self] at same
    rw [← written.mine off small,← same]
    rfl
  · have same := content_data written.core data low (by rwa [update_of_ne other]) small
    rw [update_of_ne other] at same
    rw [same]
    exact written.others j low other type' off small
  · have same := ptr_data written.core data low (by rwa [update_of_ne other]) k
    rw [update_of_ne other] at same
    rw [same]
    exact written.blocks j low other type' k small
  · exact (stored.others j other).trans (written.dinodeAt low)

theorem Mapped.resize (mapped : Mapped s v i disk d W) (core : Core s.sb disk (update v i d)) (inside : i < s.sb.ninodes)
    (type : d.type ≠ 0) {disk' : Disk} {size : UInt32} (stored : Stored s.sb disk disk' i { d with size := size }) :
    Mapped s v i disk' { d with size := size } W where
  ptrs k small := by
    have start := core.layout.datastart_low
    have same := ptr_data core (fun c low => stored.same c (by omega)) inside (by rwa [update_self]) k
    rw [update_self] at same
    exact same ▸ mapped.ptrs k small
  count := by rw [← mapped.count,freeBlocks_congr fun b _ => stored.bits b]

theorem sizeAfter_toNat {off n : Nat} {size : UInt32} (legal : off ≤ size.toNat) (fits : off + n ≤ MAXFILE * BSIZE) :
    (sizeAfter off n size).toNat = max size.toNat (off + n) := by
  have bound : MAXFILE * BSIZE < 2 ^ 32 := by decide
  unfold sizeAfter grows
  by_cases bigger : 0 < n ∧ size.toNat < off + n
  · rw [decide_eq_true bigger,if_pos rfl,UInt32.toNat_ofNat_of_lt' (by show off + n < 2 ^ 32; omega)]
    omega
  · rw [decide_eq_false bigger,if_neg Bool.false_ne_true]
    omega

theorem writei_spec (holds : Holds s v ip i) (inum : (s.icache ip).inum = i) (regular : (v i).type ≠ T_DEV) {off : Nat}
    {src : List UInt8} (legal : off ≤ (v i).size.toNat) (fits : off + src.length ≤ MAXFILE * BSIZE) :
    post (writei ip src off) (fun r s' => r = src.length ∧ ∃ disk d, s' = s.put disk ip d ∧
      Edited s v i disk d (sizeAfter off src.length (v i).size) (overlay (content s.disk (v i)) off src) ∧
      Mapped s v i disk d (way off src.length) ∧
      (dinodeAt s.sb disk i = if grows off src.length (v i).size.toNat then d else dinodeAt s.sb s.disk i) ∧
      ((∀ bn, Touches off src.length bn → blk s.disk (v i) bn ≠ 0) → d = { v i with size := sizeAfter off src.length (v i).size }))
      (fun why => Full why ∧ Short s v i (way off src.length)) s := by
  have bound : MAXFILE * BSIZE < 2 ^ 32 := by decide
  have nowrap : ¬(off > (v i).size.toNat ∨ (off + src.length) % 2 ^ 32 < off) := by
    rw [Nat.mod_eq_of_lt (by omega)]
    omega
  unfold writei
  simp only [post_bind,post_get,holds.node]
  rw [if_neg regular,if_neg nowrap,if_neg (by omega),post_bind]
  refine post_mono (writei_from_spec holds src.length off src (Nat.le_refl _) fits) ?_ fun _ ends => ends
  rintro _ s' ⟨disk,d,same,written,mapped,old⟩
  subst same
  have known : d.type ≠ 0 := by rw [written.attr]; exact holds.type
  by_cases bigger : src.length > 0 ∧ off + src.length > (v i).size.toNat
  · have grown : grows off src.length (v i).size.toNat = true := by
      simp only [grows,decide_eq_true_eq]
      exact bigger
    rw [if_pos bigger,post_bind,post_modifyNode_put,post_bind]
    refine post_mono (iupdate_spec holds.core.layout inum holds.inside _ _) ?_ fun _ => False.elim
    rintro _ s₂ ⟨disk₂,same₂,stored⟩
    subst same₂
    rw [post_pure,sizeAfter,grown,if_pos rfl]
    refine ⟨rfl,disk₂,_,rfl,written.resize holds.inside holds.type stored,mapped.resize written.core holds.inside known stored,?_,
      fun all => by rw [old all]⟩
    rw [if_pos rfl]
    exact stored.here
  · have grown : grows off src.length (v i).size.toNat = false := by
      simp only [grows,decide_eq_false_iff_not]
      exact bigger
    rw [if_neg bigger,post_pure,sizeAfter,grown,if_neg Bool.false_ne_true]
    refine ⟨rfl,disk,d,rfl,written.edited,mapped,?_,fun all => by rw [old all]⟩
    rw [if_neg Bool.false_ne_true]
    exact written.dinodeAt holds.inside

theorem writei_refused (node : (s.icache ip).node = d) (regular : d.type ≠ T_DEV) {off : Nat} {src : List UInt8}
    (illegal : ¬(off ≤ d.size.toNat ∧ off + src.length ≤ MAXFILE * BSIZE)) : writei ip src off s = .ok (-1,s) := by
  refine post_run ?_
  unfold writei
  simp only [post_bind,post_get,node]
  rw [if_neg regular]
  split
  · exact ⟨rfl,rfl⟩
  · next legal =>
    rw [not_or] at legal
    rw [if_pos (by omega)]
    exact ⟨rfl,rfl⟩

theorem readi_spec (holds : Holds s v ip i) (regular : (v i).type ≠ T_DEV) (small : (v i).size.toNat ≤ MAXFILE * BSIZE) {off n : Nat}
    (legal : ¬(off > (v i).size.toNat ∨ (off + n) % 2 ^ 32 < off)) :
    post (readi ip off n) (fun r s' => r = some (slice (content s.disk (v i)) off (min n ((v i).size.toNat - off))) ∧
      ∃ disk d, s' = s.put disk ip d ∧ Edited s v i disk d (v i).size (content s.disk (v i)) ∧
        Mapped s v i disk d (way off (min n ((v i).size.toNat - off))) ∧ dinodeAt s.sb disk i = dinodeAt s.sb s.disk i ∧
        ((∀ bn, Touches off (min n ((v i).size.toNat - off)) bn → blk s.disk (v i) bn ≠ 0) → disk = s.disk ∧ d = v i))
      (fun why => Full why ∧ Short s v i (way off (min n ((v i).size.toNat - off)))) s := by
  unfold readi
  simp only [post_bind,post_get,holds.node]
  rw [if_neg regular,if_neg legal]
  have cut : (if off + n > (v i).size.toNat then (v i).size.toNat - off else n) = min n ((v i).size.toNat - off) := by
    split <;> omega
  simp only [cut]
  rw [not_or] at legal
  generalize length : min n ((v i).size.toNat - off) = m
  rw [post_bind]
  refine post_use (readi_from_spec holds m off m (Nat.le_refl _) (by omega)) fun bytes s' ⟨disk,d,same,grown,read,mapped,old⟩ => ?_
  rw [post_pure,read]
  exact ⟨rfl,disk,d,same,grown.edited,mapped,grown.dinodeAt holds.inside,old⟩

/-- With free blocks for the pointers that are missing the bytes are read, and without them `readi` panics. -/
theorem readi_enough (holds : Holds s v ip i) (regular : (v i).type ≠ T_DEV) (small : (v i).size.toNat ≤ MAXFILE * BSIZE) {off n : Nat}
    (legal : ¬(off > (v i).size.toNat ∨ (off + n) % 2 ^ 32 < off)) {m : Nat} (length : min n ((v i).size.toNat - off) = m) :
    (¬Short s v i (way off m) → ∃ disk d, readi ip off n s = .ok (some (slice (content s.disk (v i)) off m),s.put disk ip d) ∧
      Edited s v i disk d (v i).size (content s.disk (v i)) ∧ Mapped s v i disk d (way off m)) ∧
    (Short s v i (way off m) → readi ip off n s = .error "balloc: out of blocks") := by
  have spec := readi_spec holds regular small legal
  rw [length] at spec
  refine ⟨fun enough => ?_,fun short => post_fails (post_mono spec ?_ fun _ => And.left)⟩
  · obtain ⟨_,_,ran,rfl,disk,d,rfl,edited,mapped,_⟩ := post_returns (post_mono spec (fun _ _ => id) fun _ full => enough full.2)
    exact ⟨disk,d,ran,edited,mapped⟩
  · rintro _ _ ⟨_,_,_,_,_,mapped,_⟩
    exact mapped.enough short

theorem readi_refused (node : (s.icache ip).node = d) (regular : d.type ≠ T_DEV) {off n : Nat}
    (illegal : off > d.size.toNat ∨ (off + n) % 2 ^ 32 < off) : readi ip off n s = .ok (none,s) := by
  refine post_run ?_
  unfold readi
  simp only [post_bind,post_get,node]
  rw [if_neg regular,if_pos illegal]
  exact ⟨rfl,rfl⟩

end Xv6
