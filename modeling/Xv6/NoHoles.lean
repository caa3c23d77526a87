import Xv6.ByteArrays
import Xv6.World

/-!
Files have no holes. An inode that `ialloc` made has all the blocks below its size and no others, whatever is read,
written and truncated, so a read of it neither allocates a block nor writes to the log.
-/
namespace Xv6
open Xv6.Lib Prog Function

variable {s t : State} {v : Nat → Dinode} {ip : Slot} {i : Nat} {p : Pid} {type : UInt16}

/-! ### A new inode -/

theorem ilock_defined {b : Files} {l : Notes} {h : Handle} (slot : b.slot ip = some h) (saved : b.unsaved h.inum = false) :
    wp (noted p) (ilock ip) (fun _ _ => True) (· ≠ .undefined) (b,l) := by
  unfold ilock
  rw [wp_bind,wp_ref slot]
  split
  · exact nofun
  · rw [wp_bind,wp_acquiresleep (.inl rfl) slot]
    split
    · rw [wp_iload (h := { h with lock := some p }) (slot_setSlot' ..) saved]
      split
      · trivial
      · exact nofun
    · exact nofun

theorem newInode_defined {b : Files} (legal : type ≠ 0) : wp (noted p) (newInode type) (fun _ _ => True) (· ≠ .undefined) (b,0) := by
  unfold newInode ialloc
  rw [wp_bind,wp_bind,wp_noted]
  simp only [filesStep,Files.ialloc,legal,if_false]
  cases found : freeInode (fun i => (b.node i).type = 0) (b.ninodes - 1) 1 with
  | none => simp
  | some i =>
    obtain ⟨_,high,_⟩ := freeInode_some found
    dsimp only
    generalize made : (b.setNode i (.fresh type)).clear i = c
    have saved : c.unsaved i = false := by simp [← made,Files.clear,Files.save]
    have inside : i < c.ninodes := by
      rw [← made]
      show i < b.ninodes
      omega
    have locks {d : Files} {ip : Slot} {h : Handle} {l : Notes} (slot : d.slot ip = some h) (same : h.inum = i)
        (unsaved : d.unsaved = c.unsaved) : wp (noted p) (do ilock ip; return ip) (fun _ _ => True) (· ≠ .undefined) (d,l) := by
      rw [wp_bind]
      exact wp_use (ilock_defined slot (by rw [same,unsaved]; exact saved)) fun _ _ _ => trivial
    rw [wp_noted]
    simp only [filesStep,Files.iget,inside,and_self,if_true]
    cases cached : c.cached i with
    | some ip =>
      obtain ⟨h,slot,same⟩ := cached_some cached
      simp only [Files.handle,slot]
      exact locks (slot_setSlot' ..) same rfl
    | none =>
      cases unused : c.unused with
      | some ip => exact locks (slot_setSlot' ..) rfl rfl
      | none => simp

theorem newInode_table (clean : Clean s) (legal : type ≠ 0) (made : exec (kernel p) (newInode type) s = .ok (ip,t)) :
    ∃ v, Table t v := by
  have defined : wp (files p) (newInode type) (fun _ _ => True) (· ≠ .undefined) (view s) :=
    wp_account (newInode type) (view s) (0 : Notes) ▸ newInode_defined legal
  rcases exec_sim (kernel_refines p) (newInode type) clean.represents with missing | matched
  · exact absurd rfl (wp_error defined missing)
  · rw [made] at matched
    obtain ⟨a,_,v,repr⟩ := matched
    exact ⟨v,repr.table⟩

theorem dense_fresh (disk : Disk) (type : UInt16) : Dense disk (.fresh type) := by
  intro k low
  have none' : ptr disk (.fresh type) k = 0 := by simp [ptr,Dinode.fresh]
  have unused : ¬Mkfs.Used 0 k := by
    unfold Mkfs.Used
    split_ifs <;> exact Nat.not_lt_zero _
  exact ⟨fun some' => absurd none' some',fun used => absurd used unused⟩

theorem newInode_whole (clean : Clean s) (legal : type ≠ 0) (made : exec (kernel p) (newInode type) s = .ok (ip,t)) : Whole t ip := by
  obtain ⟨node,valid,held⟩ := wp_ok (newInode_fresh clean) made
  exact ⟨newInode_table clean legal made,held,valid,node ▸ dense_fresh t.disk type⟩

theorem Whole.accesses (whole : Whole s ip) (accesses : Accesses s t) : Whole t ip := by
  induction accesses with
  | refl => exact whole
  | step _ held valid ran ih => exact ih.access held valid ran

/-! ### Reads -/

theorem Whole.holds (whole : Whole s ip) : ∃ v, Holds s v ip (s.icache ip).inum ∧
    (v (s.icache ip).inum).size.toNat ≤ MAXFILE * BSIZE := by
  obtain ⟨⟨v,table⟩,held,valid,_⟩ := whole
  have holds := table.loaded ip held valid
  exact ⟨v,holds,table.small _ holds.inside holds.type⟩

theorem Whole.blk (whole : Whole s ip) {bn : Nat} (small : bn < MAXFILE) :
    blk s.disk (s.icache ip).node bn ≠ 0 ↔ bn * BSIZE < (s.icache ip).node.size.toNat := by
  rw [Xv6.blk,whole.dense _ (position_lt small),Mkfs.used_position]

theorem Whole.silent (whole : Whole s ip) (off n : Nat) : ∃ r, ∀ log, Logged.readi ip off n (s,log) = .ok (r,(s,log)) := by
  obtain ⟨v,holds,small⟩ := whole.holds
  rw [← holds.node] at small
  have there (bn : Nat) (low : bn * BSIZE < (s.icache ip).node.size.toNat) : Xv6.blk s.disk (s.icache ip).node bn ≠ 0 :=
    (whole.blk (Nat.lt_of_mul_lt_mul_right (lt_of_lt_of_le low small))).mpr low
  obtain ⟨r,ran⟩ : ∃ r, readi ip off n s = .ok (r,s) := by
    by_cases device : (s.icache ip).node.type = T_DEV
    · exact readi_device rfl device off n
    · exact readi_harmless rfl device small there off n
  refine ⟨r,Logged.Logs.silent (Logged.logs_readi rfl fun _ legal => ?_) ran⟩
  rw [not_or] at legal
  exact Logged.logs_readi_from_there rfl _ _ _ (by omega) fun bn touches => there bn (by have := touches.2.2; omega)

/-- An inode that `ialloc` made has exactly the blocks that its size needs, whatever accesses follow, so to read it neither
    allocates nor calls `log_write`. -/
theorem file_no_holes (clean : Clean s) (legal : type ≠ 0) {s₁ : State} (made : exec (kernel p) (newInode type) s = .ok (ip,s₁))
    (accesses : Accesses s₁ t) :
    (∀ bn < MAXFILE, blk t.disk (t.icache ip).node bn ≠ 0 ↔ bn < Mkfs.blocksOf (t.icache ip).node.size.toNat) ∧
    ((t.icache ip).node.addrs (Fin.last NDIRECT) ≠ 0 ↔ NDIRECT * BSIZE < (t.icache ip).node.size.toNat) ∧
    ∀ off n, ∃ r, ∀ log, Logged.readi ip off n (t,log) = .ok (r,(t,log)) := by
  have whole := (newInode_whole clean legal made).accesses accesses
  refine ⟨fun bn small => ?_,?_,whole.silent⟩
  · rw [whole.blk small,Mkfs.blocksOf,BSIZE_eq]
    omega
  · have last := whole.dense NDIRECT NDIRECT_lt_NPTR
    rw [Mkfs.used_last,show ptr t.disk (t.icache ip).node NDIRECT = _ from ptr_direct _ _ (Fin.last NDIRECT)] at last
    rw [← last,not_iff_not,← UInt32.toNat_inj]
    rfl

/-- A new file on a small image. -/
def newFile : Slot × State := (exec (kernel 0) (newInode T_FILE) Offsets.forked).toOption.get (by decide)

/-- Two bytes are written to it. -/
def twoBytes : Unit × State := ((Access.writei [1,2] 0).run 2 newFile.2).toOption.get (by decide)

theorem file_no_holes_two : exec (kernel 0) (newInode T_FILE) Offsets.forked = .ok newFile ∧ Accesses newFile.2 twoBytes.2 ∧
    (twoBytes.2.icache 2).node.size = 2 ∧ blk twoBytes.2.disk (twoBytes.2.icache 2).node 0 ≠ 0 ∧
    ∀ off n, ∃ r, ∀ log, Logged.readi 2 off n (twoBytes.2,log) = .ok (r,(twoBytes.2,log)) := by
  have made : exec (kernel 0) (newInode T_FILE) Offsets.forked = .ok newFile := Image.eq_ok_get (by decide)
  have wrote : (Access.writei [1,2] 0).run 2 newFile.2 = .ok twoBytes := Image.eq_ok_get (by decide)
  have slot : newFile.1 = 2 := by decide
  have accesses : Accesses newFile.2 twoBytes.2 := .step (.refl _) (by decide) (by decide) wrote
  have size : (twoBytes.2.icache 2).node.size = 2 := by decide
  have whole := file_no_holes Offsets.forked_clean (by decide) (slot ▸ made : exec (kernel 0) (newInode T_FILE) Offsets.forked =
    .ok (2,newFile.2)) accesses
  refine ⟨made,accesses,size,(whole.1 0 (by decide)).mpr ?_,whole.2.2⟩
  rw [size]
  decide

end Xv6
