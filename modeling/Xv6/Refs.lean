import Xv6.Processes
import Xv6.Lib.Post
import Xv6.Lib.Counts
import Xv6.Lib.Partition

/-!
The reference counts of the inode cache. `Balanced held s` says that every count is the number of open files and
current directories that use the entry, plus the references `held` by the call in progress.
-/
namespace Xv6.Refs
open Xv6 Xv6.Lib Function Prog

/-! ### The books -/

/-- The in-use files of type `FD_INODE` on a cache entry. -/
def fileRefs (t : Tables) (ip : Slot) : Nat :=
  (Finset.univ.filter fun f => 0 < (t.file f).ref ∧ (t.file f).type = .FD_INODE ∧ (t.file f).ip = ip).card

/-- The processes whose current directory is a cache entry. -/
def cwdRefs (t : Tables) (ip : Slot) : Nat := (Finset.univ.filter fun p => (t.proc p).cwd = some ip).card

/-- One reference to `ip`. -/
def one (ip : Slot) : Slot → Int := Pi.single ip 1

/-- The reference counts are those of the tables and of the references held by the call in progress. -/
structure Balanced (held : Slot → Int) (s : State) : Prop where
  count : ∀ ip, (s.icache ip).ref = fileRefs s.tables ip + cwdRefs s.tables ip + held ip
  unique : ∀ ip jp, 0 < (s.icache ip).ref → 0 < (s.icache jp).ref → (s.icache ip).dev = (s.icache jp).dev →
    (s.icache ip).inum = (s.icache jp).inum → ip = jp
  -- a file that is not in use is recycled as it is, so it must not look like an open inode
  closed : ∀ f, (s.tables.file f).ref ≤ 0 → (s.tables.file f).type ≠ .FD_INODE
  -- the same for a process
  idle : ∀ p, (s.tables.proc p).state ≠ .RUNNABLE → (s.tables.proc p).cwd = none

/-- Nothing that the books are about has changed. -/
structure Keeps (s s' : State) : Prop where
  tables : s'.tables = s.tables
  dev : ∀ ip, (s'.icache ip).dev = (s.icache ip).dev
  inum : ∀ ip, (s'.icache ip).inum = (s.icache ip).inum
  ref : ∀ ip, (s'.icache ip).ref = (s.icache ip).ref

theorem Keeps.refl (s : State) : Keeps s s := ⟨rfl,fun _ => rfl,fun _ => rfl,fun _ => rfl⟩

theorem Keeps.trans {s t u : State} (one : Keeps s t) (two : Keeps t u) : Keeps s u where
  tables := two.tables.trans one.tables
  dev ip := (two.dev ip).trans (one.dev ip)
  inum ip := (two.inum ip).trans (one.inum ip)
  ref ip := (two.ref ip).trans (one.ref ip)

variable {held : Slot → Int}

theorem Balanced.keeps {s s' : State} (bal : Balanced held s) (keeps : Keeps s s') :
    Balanced held s' where
  count ip := by rw [keeps.ref,keeps.tables]; exact bal.count ip
  unique ip jp := by simp only [keeps.ref,keeps.dev,keeps.inum]; exact bal.unique ip jp
  closed f := by rw [keeps.tables]; exact bal.closed f
  idle p := by rw [keeps.tables]; exact bal.idle p

variable {s : State}

theorem Balanced.cwd_ref (bal : Balanced held s) (debt : ∀ ip, 0 ≤ held ip) {p : Pid}
    {ip : Slot} (here : (s.tables.proc p).cwd = some ip) : 0 < (s.icache ip).ref := by
  have some' : 0 < cwdRefs s.tables ip := Finset.card_pos.mpr ⟨p,by simp [here]⟩
  have := bal.count ip
  have := debt ip
  omega

theorem Balanced.file_ref (bal : Balanced held s) (debt : ∀ ip, 0 ≤ held ip) {f : FileId}
    (used : 0 < (s.tables.file f).ref) (inode : (s.tables.file f).type = .FD_INODE) :
    0 < (s.icache (s.tables.file f).ip).ref := by
  have some' : 0 < fileRefs s.tables (s.tables.file f).ip := Finset.card_pos.mpr ⟨f,by simp [used,inode]⟩
  have := bal.count (s.tables.file f).ip
  have := debt (s.tables.file f).ip
  omega

/-! ### Code that keeps the books -/

/-- The panics of `file.c`, and the use of a pipe that has been freed. -/
def filePanics : List String := ["fileclose","filedup","freed pipe"]

section
variable {α β : Type} {bad : List String}

/-- Code that keeps the books, whatever it does, and does not end with one of the panics. -/
def KeptBut (bad : List String) (m : M α) : Prop := ∀ s, post m (fun _ s' => Keeps s s') (· ∉ bad) s

/-- It has nothing to do with files. -/
abbrev Kept (m : M α) : Prop := KeptBut filePanics m

/-- It needs no free block either. -/
abbrev Spares (m : M α) : Prop := KeptBut ("balloc: out of blocks" :: filePanics) m

theorem KeptBut.pure (a : α) : KeptBut bad (pure a) := fun s => Keeps.refl s

theorem KeptBut.get : KeptBut bad get := fun s => Keeps.refl s

theorem KeptBut.throw {why : String} (other : why ∉ bad) : KeptBut bad (throw why : M α) := fun _ => other

theorem KeptBut.bind {m : M α} {f : α → M β} (first : KeptBut bad m) (rest : ∀ a, KeptBut bad (f a)) :
    KeptBut bad (m >>= f) := by
  intro s
  rw [post_bind]
  refine post_use (first s) fun a s' keeps => ?_
  exact post_use (rest a s') fun _ _ keeps' => keeps.trans keeps'

theorem KeptBut.modify {f : State → State} (keeps : ∀ s, Keeps s (f s)) : KeptBut bad (modify f) := keeps

theorem kept_bread (b : Nat) : KeptBut bad (bread b) := .bind .get fun _ => .pure _

theorem kept_log_write (b : Nat) (data : Block) : KeptBut bad (log_write b data) :=
  .modify fun _ => ⟨rfl,fun _ => rfl,fun _ => rfl,fun _ => rfl⟩

theorem kept_readsb : KeptBut bad readsb := .modify fun _ => ⟨rfl,fun _ => rfl,fun _ => rfl,fun _ => rfl⟩

theorem kept_modifyInode (ip : Slot) {f : Inode → Inode} (dev : ∀ i, (f i).dev = i.dev)
    (inum : ∀ i, (f i).inum = i.inum) (ref : ∀ i, (f i).ref = i.ref) : KeptBut bad (modifyInode ip f) := by
  refine .modify fun s => ⟨rfl,fun jp => ?_,fun jp => ?_,fun jp => ?_⟩ <;>
    rcases eq_or_ne jp ip with rfl | other <;> simp [*]

theorem kept_modifyNode (ip : Slot) (f : Dinode → Dinode) : KeptBut bad (modifyNode ip f) :=
  kept_modifyInode ip (fun _ => rfl) (fun _ => rfl) fun _ => rfl

theorem kept_balloc_from (n b : Nat) : Kept (balloc_from n b) := by
  induction n generalizing b with
  | zero => exact .throw (by decide)
  | succ n ih =>
    refine .bind .get fun s => ?_
    dsimp only
    split
    · refine .bind (kept_bread _) fun bp => ?_
      split
      · exact .bind (kept_log_write _ _) fun _ => .bind (kept_log_write _ _) fun _ => .pure _
      · exact ih _
    · exact .throw (by decide)

theorem kept_balloc : Kept balloc := .bind .get fun _ => kept_balloc_from _ _

theorem kept_bfree (b : Nat) : Spares (bfree b) := by
  refine .bind kept_readsb fun _ => .bind .get fun s => .bind (kept_bread _) fun bp => ?_
  dsimp only
  split
  · exact kept_log_write _ _
  · exact .throw (by decide)

theorem kept_ialloc_from (type : UInt16) (n inum : Nat) : Spares (ialloc_from type n inum) := by
  induction n generalizing inum with
  | zero => exact .throw (by decide)
  | succ n ih =>
    refine .bind .get fun s => ?_
    split
    · split
      · exact .bind (kept_bread _) fun _ => .bind (kept_log_write _ _) fun _ => .pure _
      · exact ih _
    · exact .throw (by decide)

theorem kept_ialloc_inum (type : UInt16) : Spares (ialloc_inum type) := .bind .get fun _ => kept_ialloc_from _ _ _

theorem kept_iupdate (ip : Slot) : KeptBut bad (iupdate ip) :=
  .bind .get fun _ => .bind (kept_bread _) fun _ => kept_log_write _ _

theorem kept_iload (ip : Slot) : Spares (iload ip) := by
  refine .bind .get fun s => ?_
  dsimp only
  split
  · exact .pure _
  · refine .bind (kept_modifyInode ip (fun _ => rfl) (fun _ => rfl) fun _ => rfl) fun _ => ?_
    split
    · exact .throw (by decide)
    · exact .pure _

theorem kept_bmap_addr (ip : Slot) (k : Fin (NDIRECT + 1)) : Kept (bmap_addr ip k) := by
  refine .bind .get fun s => ?_
  dsimp only
  split
  · exact .bind kept_balloc fun _ => .bind (kept_modifyNode _ _) fun _ => .pure _
  · exact .pure _

theorem kept_bmap_entry (addr n : Nat) : Kept (bmap_entry addr n) := by
  refine .bind (kept_bread _) fun bp => ?_
  split
  · exact .bind kept_balloc fun _ => .bind (kept_log_write _ _) fun _ => .pure _
  · exact .pure _

theorem kept_bmap (ip : Slot) (bn : Nat) : Kept (bmap ip bn) := by
  unfold bmap
  split
  · exact kept_bmap_addr _ _
  · split
    · exact .bind (kept_bmap_addr _ _) fun addr => kept_bmap_entry _ _
    · exact .throw (by decide)

theorem kept_itrunc_direct (ip : Slot) (n : Nat) : Spares (itrunc_direct ip n) := by
  induction n with
  | zero => exact .pure _
  | succ n ih =>
    refine .bind ih fun _ => ?_
    split
    · refine .bind .get fun s => ?_
      dsimp only
      split
      · exact .bind (kept_bfree _) fun _ => kept_modifyNode _ _
      · exact .pure _
    · exact .pure _

theorem kept_itrunc_entries (bp : Block) (n : Nat) : Spares (itrunc_entries bp n) := by
  induction n with
  | zero => exact .pure _
  | succ n ih =>
    refine .bind ih fun _ => ?_
    split
    · exact kept_bfree _
    · exact .pure _

theorem kept_itrunc_indirect (ip : Slot) : Spares (itrunc_indirect ip) := by
  unfold itrunc_indirect
  generalize NINDIRECT = n
  refine .bind .get fun s => ?_
  dsimp only
  split
  · exact .bind (kept_bread _) fun bp => .bind (kept_itrunc_entries bp n) fun _ => .bind (kept_bfree _) fun _ =>
      kept_modifyNode _ _
  · exact .pure _

theorem kept_itrunc (ip : Slot) : Spares (itrunc ip) :=
  .bind (kept_itrunc_direct ip NDIRECT) fun _ => .bind (kept_itrunc_indirect ip) fun _ =>
    .bind (kept_modifyNode _ _) fun _ => kept_iupdate _

theorem kept_ifree (ip : Slot) : Spares (ifree ip) :=
  .bind (kept_itrunc ip) fun _ => .bind (kept_modifyNode _ _) fun _ => .bind (kept_iupdate _) fun _ =>
    kept_modifyInode ip (fun _ => rfl) (fun _ => rfl) fun _ => rfl

theorem kept_isetattr (ip : Slot) (major minor nlink : UInt16) : Spares (isetattr ip major minor nlink) :=
  .bind (kept_modifyNode _ _) fun _ => kept_iupdate _

theorem kept_readi_from (ip : Slot) (fuel off n : Nat) : Kept (readi_from ip fuel off n) := by
  induction fuel generalizing off n with
  | zero => exact .pure _
  | succ fuel ih =>
    unfold readi_from
    split
    · exact .pure _
    · exact .bind (kept_bmap _ _) fun _ => .bind (kept_bread _) fun _ => .bind (ih _ _) fun _ => .pure _

theorem kept_readi (ip : Slot) (off n : Nat) : Kept (readi ip off n) := by
  refine .bind .get fun s => ?_
  dsimp only
  split
  · split
    · split <;> exact .pure _
    · exact .pure _
  · split
    · exact .pure _
    · exact .bind (kept_readi_from _ _ _ _) fun _ => .pure _

theorem kept_writei_from (ip : Slot) (fuel off : Nat) (src : List UInt8) : Kept (writei_from ip fuel off src) := by
  induction fuel generalizing off src with
  | zero => exact .pure _
  | succ fuel ih =>
    unfold writei_from
    split
    · exact .pure _
    · exact .bind (kept_bmap _ _) fun _ => .bind (kept_bread _) fun _ => .bind (kept_log_write _ _) fun _ => ih _ _

theorem kept_writei (ip : Slot) (src : List UInt8) (off : Nat) : Kept (writei ip src off) := by
  refine .bind .get fun s => ?_
  dsimp only
  split
  · split
    · split <;> exact .pure _
    · exact .pure _
  · split
    · exact .pure _
    · split
      · exact .pure _
      · refine .bind (kept_writei_from _ _ _ _) fun _ => ?_
        split
        · exact .bind (kept_modifyNode _ _) fun _ => .bind (kept_iupdate _) fun _ => .pure _
        · exact .pure _

end

/-! ### Programs that keep the books -/

variable {p : Pid} {α β : Type}

theorem wp_kernel {o : Op α} {Q : α → State → Prop} {E : Stop Wait → Prop} :
    wp (kernel p) (call o) Q E s = post (kernelStep p o) Q (fun why => E (.panic why)) s := by
  rw [wp_call]
  unfold kernel M.step post
  dsimp only
  cases kernelStep p o s <;> rfl

/-- No panic of `file.c`. -/
def Fine : Stop Wait → Prop
  | .panic why => why ∉ filePanics
  | _ => True

/-- A program that keeps the books where it returns, and has nothing to do with files. -/
def KeptCall (p : Pid) (c : Call α) : Prop := ∀ s, wp (kernel p) c (fun _ s' => Keeps s s') Fine s

theorem KeptCall.ret (a : α) : KeptCall p (ret a) := fun s => Keeps.refl s

theorem KeptCall.fail {why : String} (other : why ∉ filePanics) : KeptCall p (fail why : Call α) :=
  fun _ => other

theorem KeptBut.files {m : M α} (spares : Spares m) : Kept m := fun s =>
  post_mono (spares s) (fun _ _ => id) fun _ other member => other (List.mem_cons_of_mem _ member)

theorem KeptCall.call {o : Op α} (kept : Kept (kernelStep p o)) : KeptCall p (call o) := by
  intro s
  rw [wp_kernel]
  exact kept s

theorem KeptCall.await (w : Wait) : KeptCall p (await w) := by
  intro s
  rw [wp_await]
  split
  · exact Keeps.refl s
  · trivial

variable {f : α → Call β}

theorem KeptCall.bind {m : Call α} (first : KeptCall p m) (rest : ∀ a, KeptCall p (f a)) :
    KeptCall p (m >>= f) := by
  intro s
  rw [wp_bind]
  refine wp_use (first s) fun a s' keeps => ?_
  exact wp_use (rest a s') fun _ _ keeps' => keeps.trans keeps'

theorem kept_look (f : State → α) : Kept (do return f (← get)) := .bind .get fun _ => .pure _

theorem kept_lock (ip : Slot) (owner : Option Pid) : Kept (modifyInode ip fun i => { i with lock := owner }) :=
  kept_modifyInode ip (fun _ => rfl) (fun _ => rfl) fun _ => rfl

theorem kept_acquiresleep (ip : Slot) (w : Slot → Wait) : KeptCall p (acquiresleep ip w) :=
  .bind (.await _) fun _ => .call (kept_lock _ _)

theorem kept_releasesleep (ip : Slot) : KeptCall p (releasesleep ip) :=
  .bind (.call (kept_lock _ _)) fun _ => .await _

theorem kept_ilock (ip : Slot) : KeptCall p (ilock ip) := by
  refine .bind (.call (kept_look _)) fun r => ?_
  split
  · exact .fail (by decide)
  · exact .bind (kept_acquiresleep _ _) fun _ => .call (kept_iload _).files

theorem kept_iunlock (ip : Slot) : KeptCall p (iunlock ip) := by
  refine .bind (.call (kept_look _)) fun locked => .bind (.call (kept_look _)) fun r => ?_
  split
  · exact .fail (by decide)
  · exact kept_releasesleep _

theorem kept_iput_free (ip : Slot) : KeptCall p (iput_free ip) := by
  refine .bind (.call (kept_look _)) fun valid => ?_
  split
  · refine .bind (.call (kept_look _)) fun d => ?_
    split
    · refine .bind (.call (kept_look _)) fun r => ?_
      split
      · exact .call (kept_ifree _).files
      · exact .ret _
    · exact .ret _
  · exact .ret _

theorem kept_dirlink_off (dp : Slot) (size fuel off : Nat) : KeptCall p (dirlink_off dp size fuel off) := by
  induction fuel generalizing off with
  | zero => exact .ret _
  | succ fuel ih =>
    unfold dirlink_off
    split
    · refine .bind (.call (kept_readi _ _ _)) fun bytes => ?_
      split
      · exact .fail (by decide)
      · split
        · exact .ret _
        · exact ih _
    · exact .ret _

theorem kept_isdirempty_from (dp : Slot) (size fuel off : Nat) : KeptCall p (isdirempty_from dp size fuel off) := by
  induction fuel generalizing off with
  | zero => exact .ret _
  | succ fuel ih =>
    unfold isdirempty_from
    split
    · refine .bind (.call (kept_readi _ _ _)) fun bytes => ?_
      split
      · exact .fail (by decide)
      · split
        · exact .ret _
        · exact ih _
    · exact .ret _

theorem kept_nonempty (type : UInt16) (ip : Slot) : KeptCall p (nonempty type ip) := by
  unfold nonempty
  split
  · exact .bind (.bind (.call (kept_look _)) fun _ => kept_isdirempty_from _ _ _ _) fun _ => .ret _
  · exact .ret _

theorem kept_unlink_dotdot (type : UInt16) (dp : Slot) : KeptCall p (sys_unlink_dotdot type dp) := by
  unfold sys_unlink_dotdot
  split
  · exact .bind (.call (kept_look _)) fun _ => .call (kept_isetattr _ _ _ _).files
  · exact .ret _

theorem kept_loaduvm (ip : Slot) (fuel off sz : Nat) : KeptCall p (loaduvm ip fuel off sz) := by
  induction fuel generalizing off sz with
  | zero => exact .ret _
  | succ fuel ih =>
    unfold loaduvm
    split
    · exact .ret _
    · refine .bind (.call (kept_readi _ _ _)) fun bytes => ?_
      split
      · exact .ret _
      · exact ih _ _

theorem kept_exec_load (ip : Slot) (memory : Nat → Bool) (phoff left i : Nat) :
    KeptCall p (exec_load ip memory phoff left i) := by
  induction left generalizing i with
  | zero => exact .ret _
  | succ left ih =>
    refine .bind (.call (kept_readi _ _ _)) fun ph => ?_
    dsimp only
    split
    · exact .ret _
    · split
      · exact ih _
      · split
        · exact .ret _
        · refine .bind (kept_loaduvm _ _ _ _) fun loaded => ?_
          split
          · exact ih _
          · exact .ret _

theorem kept_exec_image (ip : Slot) (pgdir : Bool) (memory : Nat → Bool) : KeptCall p (exec_image ip pgdir memory) := by
  refine .bind (.call (kept_readi _ _ _)) fun elf => ?_
  dsimp only
  split
  · exact .ret _
  · exact kept_exec_load _ _ _ _ _

/-! ### Taking and dropping references -/

theorem one_self (ip : Slot) : one ip ip = 1 := Pi.single_eq_same _ _

theorem one_other {ip jp : Slot} (other : jp ≠ ip) : one ip jp = 0 := Pi.single_eq_of_ne other _

theorem one_nonneg (ip jp : Slot) : 0 ≤ one ip jp := by
  rcases eq_or_ne jp ip with rfl | other
  · rw [one_self]; decide
  · rw [one_other other]

theorem Balanced.change {held held' : Slot → Int} (bal : Balanced held s) (ip : Slot) (i : Inode)
    (same : ∀ jp, jp ≠ ip → held' jp = held jp) (moved : i.ref - (s.icache ip).ref = held' ip - held ip)
    (apart : ∀ jp, jp ≠ ip → 0 < (s.icache jp).ref → 0 < i.ref → (s.icache jp).dev = i.dev →
      (s.icache jp).inum ≠ i.inum) :
    Balanced held' { s with icache := update s.icache ip i } where
  count jp := by
    rcases eq_or_ne jp ip with rfl | other
    · have := bal.count jp
      simp only [update_self]
      omega
    · simp only [update_of_ne other,same jp other]
      exact bal.count jp
  unique jp kp used used' dev inum :=
    once_update (C := fun i j : Inode => 0 < i.ref ∧ 0 < j.ref ∧ i.dev = j.dev ∧ i.inum = j.inum)
      (fun _ _ ⟨used,used',dev,inum⟩ => ⟨used',used,dev.symm,inum.symm⟩)
      (fun jp kp ⟨used,used',dev,inum⟩ => bal.unique jp kp used used' dev inum)
      (fun jp other ⟨used,used',dev,inum⟩ => apart jp other used used' dev inum) jp kp ⟨used,used',dev,inum⟩
  closed := bal.closed
  idle := bal.idle

theorem iget_spec (bal : Balanced held s) (dev inum : Nat) :
    post (iget dev inum) (fun ip s' => Balanced (held + one ip) s' ∧ s'.tables = s.tables) (· ∉ filePanics) s := by
  have same (ip jp : Slot) (other : jp ≠ ip) : (held + one ip) jp = held jp := by
    rw [Pi.add_apply,one_other other,add_zero]
  unfold iget
  rw [post_bind,post_get]
  split
  · next ip found =>
    have this := List.find?_some found
    simp only [gt_iff_lt,Bool.and_eq_true,decide_eq_true_eq,beq_iff_eq] at this
    refine ⟨bal.change ip _ (same ip) (by simp [one_self]) fun jp other used _ dev inum => ?_,rfl⟩
    exact other (bal.unique jp ip used this.1.1 dev inum)
  · next missing =>
    split
    · next ip found =>
      have empty : (s.icache ip).ref = 0 := by simpa using List.find?_some found
      refine ⟨bal.change ip _ (same ip) (by simp [one_self,empty]) fun jp _ used _ dev inum => ?_,rfl⟩
      have := List.find?_eq_none.mp missing jp (List.mem_finRange jp)
      simp_all
    · exact (by decide : "iget: no inodes" ∉ filePanics)

theorem idup_spec (bal : Balanced held s) {ip : Slot} (used : 0 < (s.icache ip).ref) :
    post (idup ip) (fun _ s' => Balanced (held + one ip) s' ∧ s'.tables = s.tables) (· ∉ filePanics) s := by
  refine ⟨bal.change ip _ (fun jp other => ?_) (by simp [one_self]) fun jp other used' _ dev inum => ?_,rfl⟩
  · rw [Pi.add_apply,one_other other,add_zero]
  · exact other (bal.unique jp ip used' used dev inum)

theorem unref_spec (bal : Balanced held s) (ip : Slot) :
    post (kernelStep p (.unref ip)) (fun _ s' => Balanced (held - one ip) s' ∧ s'.tables = s.tables) (· ∉ filePanics)
      s := by
  refine ⟨bal.change ip _ (fun jp other => ?_) (by simp [one_self]) fun jp other used' used dev inum => ?_,rfl⟩
  · rw [Pi.sub_apply,one_other other,sub_zero]
  · exact other (bal.unique jp ip used' (by simp only at used; omega) dev inum)

/-- A program that changes the references of the call from `before` to `after`, and has nothing to do with the tables. -/
def Moves (p : Pid) (before : Slot → Int) (c : Call α) (after : α → Slot → Int) : Prop :=
  ∀ held s, (∀ ip, 0 ≤ held ip) → Balanced (held + before) s →
    wp (kernel p) c (fun a s' => Balanced (held + after a) s' ∧ s'.tables = s.tables) Fine s

theorem KeptCall.moves {c : Call α} (kept : KeptCall p c) (before : Slot → Int) : Moves p before c fun _ => before :=
  fun _ s _ bal => wp_use (kept s) fun _ _ keeps => ⟨bal.keeps keeps,keeps.tables⟩

variable {before : Slot → Int}

theorem Moves.bind {m : Call α} {middle : α → Slot → Int}
    {after : β → Slot → Int} (first : Moves p before m middle) (rest : ∀ a, Moves p (middle a) (f a) after) :
    Moves p before (m >>= f) after := by
  intro held s debt bal
  rw [wp_bind]
  refine wp_use (first held s debt bal) fun a s' ⟨bal',tables⟩ => ?_
  exact wp_use (rest a held s' debt bal') fun _ _ ⟨done,tables'⟩ => ⟨done,tables'.trans tables⟩

variable {after : α → Slot → Int}

theorem Moves.frame {c : Call α} (moves : Moves p before c after)
    {extra : Slot → Int} (debt : ∀ ip, 0 ≤ extra ip) : Moves p (extra + before) c fun a => extra + after a := by
  intro held s debt' bal
  refine wp_use (moves (held + extra) s (fun ip => add_nonneg (debt' ip) (debt ip)) ?_) fun a s' => ?_
  · rwa [add_assoc]
  · rw [add_assoc]; exact id

theorem Moves.skip {m : Call α} {after : β → Slot → Int} (kept : KeptCall p m)
    (rest : ∀ a, Moves p before (f a) after) : Moves p before (m >>= f) after :=
  (kept.moves before).bind rest

theorem Moves.ret (a : α) (same : before = after a) :
    Moves p before (ret a) after := fun _ _ _ bal => ⟨same ▸ bal,rfl⟩

theorem Moves.fail {why : String} (other : why ∉ filePanics) : Moves p before (fail why) after :=
  fun _ _ _ _ => other

theorem moves_iget (dev inum : Nat) : Moves p 0 (call (.iget dev inum)) one := by
  intro held s _ bal
  rw [wp_kernel]
  rw [add_zero] at bal
  exact iget_spec bal dev inum

theorem iput_spec (bal : Balanced held s) (ip : Slot) :
    wp (kernel p) (iput ip) (fun _ s' => Balanced (held - one ip) s' ∧ s'.tables = s.tables) Fine s := by
  unfold iput
  have start : KeptCall p (do acquiresleep ip .iput; iput_free ip; releasesleep ip) :=
    .bind (kept_acquiresleep _ _) fun _ => .bind (kept_iput_free _) fun _ => kept_releasesleep _
  have run := start s
  simp only [wp_bind] at run ⊢
  refine wp_use run fun _ s₁ run => wp_use run fun _ s₂ run => wp_use run fun _ s₃ keeps => ?_
  rw [wp_kernel]
  exact post_use (unref_spec (bal.keeps keeps) ip) fun _ s₄ ⟨done,tables⟩ => ⟨done,tables.trans keeps.tables⟩

theorem moves_iput (ip : Slot) : Moves p (one ip) (iput ip) fun _ => 0 := by
  intro held s _ bal
  refine wp_use (iput_spec bal ip) fun _ s' ⟨done,tables⟩ => ⟨?_,tables⟩
  rwa [add_sub_cancel_right,← add_zero held] at done

theorem moves_iunlockput (ip : Slot) : Moves p (one ip) (iunlockput ip) fun _ => 0 :=
  .bind ((kept_iunlock ip).moves _) fun _ => moves_iput ip

theorem Moves.beside {c : Call α} (moves : Moves p 0 c after) (ip : Slot) :
    Moves p (one ip) c fun a => one ip + after a := by
  simpa using moves.frame (one_nonneg ip)

theorem moves_iunlockput_beside (ip jp : Slot) : Moves p (one jp + one ip) (iunlockput ip) fun _ => one jp := by
  simpa using (moves_iunlockput ip).frame (one_nonneg jp)

/-- The reference that comes with a result. -/
def got : Option (Slot × β) → Slot → Int
  | none => 0
  | some (ip,_) => one ip

theorem moves_dirlookup_from (dp : Slot) (name : List UInt8) (size fuel off : Nat) :
    Moves p 0 (dirlookup_from dp name size fuel off) got := by
  induction fuel generalizing off with
  | zero => exact .ret none rfl
  | succ fuel ih =>
    unfold dirlookup_from
    split
    · refine .skip (.call (kept_readi _ _ _)) fun bytes => ?_
      split
      · exact .fail (by decide)
      · dsimp only
        split
        · exact ih _
        · split
          · exact .skip (.call (kept_look _)) fun dev => .bind (moves_iget _ _) fun ip => .ret (some (ip,off)) rfl
          · exact ih _
    · exact .ret none rfl

theorem moves_dirlookup (dp : Slot) (name : List UInt8) : Moves p 0 (dirlookup dp name) got := by
  refine .skip (.call (kept_look _)) fun d => ?_
  split
  · exact .fail (by decide)
  · exact moves_dirlookup_from _ _ _ _ _

theorem moves_dirlink (dp : Slot) (name : List UInt8) (inum : Nat) : Moves p 0 (dirlink dp name inum) fun _ => 0 := by
  refine .bind (moves_dirlookup dp name) fun found => ?_
  rcases found with _ | ⟨ip,off⟩
  · refine KeptCall.moves ?_ _
    refine .bind (.call (kept_look _)) fun d => .bind (kept_dirlink_off _ _ _ _) fun off => ?_
    refine .bind (.call (kept_writei _ _ _)) fun n => ?_
    split
    · exact .fail (by decide)
    · exact .ret _
  · exact .bind (moves_iput ip) fun _ => .ret false rfl

theorem skipelem_shorter {path name rest : List UInt8} (next : skipelem path = some (name,rest)) :
    rest.length < path.length := by
  unfold skipelem at next
  dsimp only at next
  split at next
  · simp at next
  · next nonempty =>
    simp only [Option.some.injEq,Prod.mk.injEq] at next
    have shorter := (List.dropWhile_sublist (l := path) fun c => decide (c = slash)).length_le
    have head := List.head?_dropWhile_not (fun c => decide (c = slash)) path
    generalize path.dropWhile (fun c => decide (c = slash)) = q at *
    rw [← next.2]
    cases q with
    | nil => exact absurd rfl nonempty
    | cons c q =>
      simp only [List.head?_cons,decide_eq_false_iff_not] at head
      have one := (List.dropWhile_sublist (l := q) fun c => decide (c ≠ slash)).length_le
      have two := (List.dropWhile_sublist (l := q.dropWhile fun c => decide (c ≠ slash)) fun c =>
        decide (c = slash)).length_le
      simp only [List.dropWhile_cons,head,not_false_eq_true,decide_true,ne_eq,if_true,List.length_cons] at *
      omega

theorem moves_namex_from (parent : Bool) (fuel : Nat) (ip : Slot) (path : List UInt8) (enough : path.length < fuel) :
    Moves p (one ip) (namex_from parent fuel ip path) got := by
  induction fuel generalizing ip path with
  | zero => omega
  | succ fuel ih =>
    unfold namex_from
    split
    · next name rest elem =>
      refine .skip (kept_ilock ip) fun _ => .skip (.call (kept_look _)) fun d => ?_
      split
      · exact .bind (moves_iunlockput ip) fun _ => .ret none rfl
      · split
        · exact .skip (kept_iunlock ip) fun _ => .ret (some (ip,name)) rfl
        · refine .bind ((moves_dirlookup ip name).beside ip) fun found => ?_
          rcases found with _ | ⟨next,off⟩
          · exact .bind (by simpa [got] using moves_iunlockput ip) fun _ => .ret none rfl
          · have drop : Moves p (one ip + one next) (iunlockput ip) fun _ => one next := by
              simpa [add_comm] using moves_iunlockput_beside (p := p) ip next
            have shorter := skipelem_shorter elem
            exact drop.bind fun _ => ih next rest (by omega)
    · split
      · exact .bind (moves_iput ip) fun _ => .ret none rfl
      · exact .ret (some (ip,[])) rfl

end Xv6.Refs
