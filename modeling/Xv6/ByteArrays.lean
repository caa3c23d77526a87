import Xv6.Writing
import Xv6.LogWrites
import Xv6.MkfsBoot
import Xv6.Offsets
import Xv6.Refs

/-!
The contents of an inode as an array of bytes.
-/
namespace Xv6
open Xv6.Lib Prog Function

variable {s t : State} {v : Nat → Dinode} {ip : Slot} {i : Nat} {disk : Disk} {d : Dinode}

/-! ### An array of bytes -/

theorem Clean.holds (clean : Clean s) (held : 0 < (s.icache ip).ref) (valid : (s.icache ip).valid = true) :
    Holds s (dinodeAt s.sb s.disk) ip (s.icache ip).inum := by
  have saved := clean.slots ip
  unfold Saved at saved
  rw [if_neg (by omega)] at saved
  obtain ⟨_,_,inside,same⟩ := saved
  obtain ⟨node,type⟩ := same valid
  exact ⟨clean.core,inside,node,node ▸ type⟩

namespace Mkfs

variable {f : Fs} {args : List Mkfs.Arg} {devsw : Fin NDEV → Driver} {p : Pid}

theorem Complete.clean (complete : Complete f (dots ++ dirents 2 args) (contents args)) (few : args.length + 2 ≤ sb.ninodes) :
    Clean (opened f.img devsw p) := by
  have super : (opened f.img devsw p).sb = sb := complete.super
  have holds := @Complete.holds _ _ devsw p complete few
  refine ⟨?_,fun i inside type => ?_,fun ip => ?_,fun ip jp used used' _ => ?_⟩
  · have core := holds.core
    rw [super] at core ⊢
    exact core
  · rw [super] at inside type ⊢
    exact (complete.regular few inside type).2
  · by_cases root : ip = 0
    · subst root
      have type : ((opened f.img devsw p).icache 0).node.type ≠ 0 := holds.node ▸ holds.type
      exact ⟨show (0 : Int) < 2 by decide,rfl,holds.inside,fun _ => ⟨rfl,type⟩⟩
    · simp [Saved,opened,if_neg root]
  · have first (ip : Slot) (used : ((opened f.img devsw p).icache ip).ref ≠ 0) : ip = 0 := by
      by_contra other
      simp [opened,other] at used
    rw [first ip used,first jp used']

end Mkfs

/-! ### Files without holes -/

/-- The inode has the pointers that its size needs, and no others. -/
def Dense (disk : Disk) (d : Dinode) : Prop := ∀ k < NPTR, ptr disk d k ≠ 0 ↔ Mkfs.Used d.size.toNat k

theorem mem_wayTo {bn k : Nat} : k ∈ wayTo bn ↔ Mkfs.OnWay bn k := by
  unfold wayTo Mkfs.OnWay position
  split
  · simp only [Finset.mem_singleton]
    omega
  · simp only [Finset.mem_insert,Finset.mem_singleton]
    omega

theorem position_mem_way {off n bn : Nat} (small : off + n ≤ MAXFILE * BSIZE) : position bn ∈ way off n ↔ Touches off n bn := by
  rw [mem_way small]
  constructor
  · intro ⟨bn',touches,here⟩
    rcases mem_wayTo.mp here with same | ⟨_,last⟩
    · rwa [position_inj same]
    · exact absurd last (position_ne_last bn)
  · exact fun touches => ⟨bn,touches,mem_wayTo.mpr (.inl rfl)⟩

theorem last_mem_way {off n : Nat} (small : off + n ≤ MAXFILE * BSIZE) :
    NDIRECT ∈ way off n ↔ 0 < n ∧ NDIRECT * BSIZE < off + n := by
  have direct : NDIRECT = 12 := rfl
  rw [mem_way small]
  constructor
  · intro ⟨bn,⟨some',_,last⟩,here⟩
    rcases mem_wayTo.mp here with same | ⟨high,_⟩
    · exact absurd same.symm (position_ne_last bn)
    · exact ⟨some',lt_of_le_of_lt (Nat.mul_le_mul_right _ high) last⟩
  · intro ⟨some',last⟩
    refine ⟨(off + n - 1) / BSIZE,⟨some',Nat.div_le_div_right (by omega),?_⟩,mem_wayTo.mpr (.inr ⟨?_,rfl⟩)⟩
    · rw [BSIZE_eq]
      omega
    · rw [BSIZE_eq] at last ⊢
      omega

theorem used_way {size off n k : Nat} (legal : off ≤ size) (small : off + n ≤ MAXFILE * BSIZE) :
    Mkfs.Used size k ∨ k ∈ way off n ↔ Mkfs.Used (max size (off + n)) k := by
  rcases Mkfs.position_cases k with rfl | ⟨bn,rfl⟩
  · rw [Mkfs.used_last,Mkfs.used_last,last_mem_way small]
    omega
  · rw [Mkfs.used_position,Mkfs.used_position,position_mem_way small]
    unfold Touches
    rw [BSIZE_eq]
    omega

theorem Mapped.dense {off n : Nat} (mapped : Mapped s v i disk d (way off n)) (dense : Dense s.disk (v i))
    (legal : off ≤ (v i).size.toNat) (small : off + n ≤ MAXFILE * BSIZE) (size : d.size.toNat = max (v i).size.toNat (off + n)) :
    Dense disk d := by
  intro k low
  rw [mapped.ptrs k low,dense k low,used_way legal small,size]

/-- The loaded entries of the cache are the inodes `v` of the disk. -/
structure Table (s : State) (v : Nat → Dinode) : Prop where
  core : Core s.sb s.disk v
  loaded : ∀ ip, 0 < (s.icache ip).ref → (s.icache ip).valid = true → Holds s v ip (s.icache ip).inum
  small : ∀ i < s.sb.ninodes, (v i).type ≠ 0 → (v i).size.toNat ≤ MAXFILE * BSIZE
  unique : ∀ ip jp, 0 < (s.icache ip).ref → 0 < (s.icache jp).ref → (s.icache ip).inum = (s.icache jp).inum → ip = jp

/-- The accesses to the contents of an inode. -/
inductive Access where
  | writei (src : List UInt8) (off : Nat)
  | readi (off n : Nat)
  | itrunc

def Access.run (ip : Slot) : Access → M Unit
  | .writei src off => do
    let _ ← Xv6.writei ip src off
    return ()
  | .readi off n => do
    let _ ← Xv6.readi ip off n
    return ()
  | .itrunc => Xv6.itrunc ip

/-- Any sequence of accesses to inodes that are in the cache and loaded. -/
inductive Accesses : State → State → Prop where
  | refl (s : State) : Accesses s s
  | step {s t u : State} {ip : Slot} {a : Access} (before : Accesses s t) (held : 0 < (t.icache ip).ref)
    (valid : (t.icache ip).valid = true) (ran : a.run ip t = .ok ((),u)) : Accesses s u

/-- What an access does: it edits its inode, which stays without holes. -/
structure Accessed (s : State) (v : Nat → Dinode) (i : Nat) (disk : Disk) (d : Dinode) : Prop where
  edited : ∃ size file, Edited s v i disk d size file
  small : d.size.toNat ≤ MAXFILE * BSIZE
  dense : Dense s.disk (v i) → Dense disk d

theorem Accessed.refl (core : Core s.sb s.disk v) (small : (v i).size.toNat ≤ MAXFILE * BSIZE) : Accessed s v i s.disk (v i) :=
  ⟨⟨_,_,(Grown.refl core).edited⟩,small,id⟩

theorem itrunc_edited (holds : Holds s v ip i) (inum : (s.icache ip).inum = i) :
    post (itrunc ip) (fun _ s' => ∃ disk d, s' = s.put disk ip d ∧ (∀ k, d.addrs k = 0) ∧
      Edited s v i disk d 0 fun _ => 0) (fun _ => False) s := by
  refine post_use (itrunc_spec holds inum) fun _ s' ⟨disk,d,same,attr,zeros,owned,others,data⟩ => ?_
  have none' (k : Nat) : ptr disk d k = 0 := by
    unfold ptr
    split
    · rw [zeros]
      rfl
    · rw [if_pos (zeros _)]
  refine ⟨disk,d,same,zeros,?_,attr,fun off _ => if_pos (none' _),fun j inside other type off low => ?_,
    fun j inside other type k _ => ptr_data holds.core data inside type k,others⟩
  · have owns : own s.sb disk (update v i d) = without (own s.sb s.disk v) i fun _ => true := by
      funext l
      obtain ⟨j,k⟩ := l
      rcases eq_or_ne j i with rfl | other
      · simp [without,own,none']
      · rw [without,if_neg (by simp [other]),← own_data holds.core data]
        simp [own,other]
    unfold Core
    rwa [owns]
  · exact content_data holds.core data inside type low

theorem writei_device (node : (s.icache ip).node = d) (device : d.type = T_DEV) (src : List UInt8) (off : Nat) :
    ∃ r, writei ip src off s = .ok (r,s) := by
  have ends : post (writei ip src off) (fun _ s' => s' = s) (fun _ => False) s := by
    unfold writei
    simp only [post_bind,post_get,node]
    rw [if_pos device]
    split
    · split <;> rfl
    · rfl
  obtain ⟨r,_,ran,rfl⟩ := post_returns ends
  exact ⟨r,ran⟩

theorem readi_device (node : (s.icache ip).node = d) (device : d.type = T_DEV) (off n : Nat) : ∃ r, readi ip off n s = .ok (r,s) := by
  have ends : post (readi ip off n) (fun _ s' => s' = s) (fun _ => False) s := by
    unfold readi
    simp only [post_bind,post_get,node]
    rw [if_pos device]
    split
    · split <;> rfl
    · rfl
  obtain ⟨r,_,ran,rfl⟩ := post_returns ends
  exact ⟨r,ran⟩

theorem access_spec (holds : Holds s v ip i) (inum : (s.icache ip).inum = i) (small : (v i).size.toNat ≤ MAXFILE * BSIZE)
    (a : Access) : post (a.run ip) (fun _ s' => ∃ disk d, s' = s.put disk ip d ∧ Accessed s v i disk d) (fun _ => True) s := by
  have returns {α : Type} {m : M α} {r : α} (ran : m s = .ok (r,s)) :
      post (do let _ ← m; return ()) (fun _ s' => ∃ disk d, s' = s.put disk ip d ∧ Accessed s v i disk d) (fun _ => True) s := by
    rw [post_bind,post,ran]
    exact ⟨s.disk,v i,(put_self holds.node).symm,.refl holds.core small⟩
  cases a with
  | writei src off =>
    by_cases device : (v i).type = T_DEV
    · obtain ⟨r,ran⟩ := writei_device holds.node device src off
      exact returns ran
    · by_cases legal : off ≤ (v i).size.toNat ∧ off + src.length ≤ MAXFILE * BSIZE
      · rw [Access.run,post_bind]
        refine post_mono (writei_spec holds inum device legal.1 legal.2) ?_ fun _ _ => trivial
        rintro r s' ⟨_,disk,d,same,edited,mapped,_⟩
        have size : d.size.toNat = max (v i).size.toNat (off + src.length) := by
          rw [edited.attr]
          exact sizeAfter_toNat legal.1 legal.2
        exact ⟨disk,d,same,⟨_,_,edited⟩,by omega,fun dense => mapped.dense dense legal.1 legal.2 size⟩
      · exact returns (writei_refused holds.node device legal)
  | readi off n =>
    by_cases device : (v i).type = T_DEV
    · obtain ⟨r,ran⟩ := readi_device holds.node device off n
      exact returns ran
    · by_cases legal : off > (v i).size.toNat ∨ (off + n) % 2 ^ 32 < off
      · exact returns (readi_refused holds.node device legal)
      · rw [Access.run,post_bind]
        refine post_mono (readi_spec holds device small legal) ?_ fun _ _ => trivial
        rintro r s' ⟨_,disk,d,same,edited,mapped,_⟩
        rw [not_or] at legal
        have size : d.size.toNat = (v i).size.toNat := by rw [edited.attr]
        exact ⟨disk,d,same,⟨_,_,edited⟩,by omega,fun dense => mapped.dense dense (by omega) (by omega) (by omega)⟩
  | itrunc =>
    refine post_mono (itrunc_edited holds inum) ?_ fun _ _ => trivial
    rintro _ s' ⟨disk,d,same,zeros,edited⟩
    have size : d.size = 0 := by rw [edited.attr]
    refine ⟨disk,d,same,⟨_,_,edited⟩,by rw [size]; exact Nat.zero_le _,fun _ k low => ?_⟩
    have none' : ptr disk d k = 0 := by
      unfold ptr
      split
      · rw [zeros]
        rfl
      · rw [if_pos (zeros _)]
    have unused : ¬Mkfs.Used 0 k := by
      unfold Mkfs.Used
      split_ifs <;> exact Nat.not_lt_zero _
    rw [size]
    exact ⟨fun some' => absurd none' some',fun used => absurd used unused⟩

theorem Table.edit (table : Table s v) (held : 0 < (s.icache ip).ref) (valid : (s.icache ip).valid = true) {size : UInt32}
    {file : Nat → UInt8} (edited : Edited s v (s.icache ip).inum disk d size file) (small : d.size.toNat ≤ MAXFILE * BSIZE) :
    Table (s.put disk ip d) (update v (s.icache ip).inum d) := by
  have holds := table.loaded ip held valid
  have cached (jp : Slot) (other : jp ≠ ip) : (s.put disk ip d).icache jp = s.icache jp := by simp [State.put,other]
  have mine : (s.put disk ip d).icache ip = { s.icache ip with node := d } := by simp [State.put]
  have counts (jp : Slot) : ((s.put disk ip d).icache jp).ref = (s.icache jp).ref ∧
      ((s.put disk ip d).icache jp).inum = (s.icache jp).inum ∧ ((s.put disk ip d).icache jp).valid = (s.icache jp).valid := by
    rcases eq_or_ne jp ip with rfl | other
    · rw [mine]
      exact ⟨rfl,rfl,rfl⟩
    · rw [cached jp other]
      exact ⟨rfl,rfl,rfl⟩
  have type : d.type ≠ 0 := by rw [edited.attr]; exact holds.type
  refine ⟨edited.core,fun jp held' valid' => ?_,fun j inside type' => ?_,fun jp kp held₁ held₂ same => ?_⟩
  · rw [(counts jp).1] at held'
    rw [(counts jp).2.2] at valid'
    have there := table.loaded jp held' valid'
    rcases eq_or_ne jp ip with rfl | other
    · rw [mine]
      exact ⟨edited.core,holds.inside,by rw [mine,update_self],by rwa [update_self]⟩
    · rw [cached jp other]
      have apart : (s.icache jp).inum ≠ (s.icache ip).inum := fun same => other (table.unique jp ip held' held same)
      exact ⟨edited.core,there.inside,by rw [cached jp other,update_of_ne apart,there.node],by rw [update_of_ne apart]; exact there.type⟩
  · rcases eq_or_ne j (s.icache ip).inum with rfl | other
    · rwa [update_self]
    · rw [update_of_ne other] at type' ⊢
      exact table.small j inside type'
  · rw [(counts _).1] at held₁ held₂
    rw [(counts _).2.1,(counts _).2.1] at same
    exact table.unique jp kp held₁ held₂ same

theorem Table.access (table : Table s v) (held : 0 < (s.icache ip).ref) (valid : (s.icache ip).valid = true)
    (accessed : Accessed s v (s.icache ip).inum disk d) : Table (s.put disk ip d) (update v (s.icache ip).inum d) :=
  have ⟨_,_,edited⟩ := accessed.edited
  table.edit held valid edited accessed.small

/-- The entry `ip` is loaded, and its inode has no holes. -/
structure Whole (s : State) (ip : Slot) : Prop where
  table : ∃ v, Table s v
  held : 0 < (s.icache ip).ref
  valid : (s.icache ip).valid = true
  dense : Dense s.disk (s.icache ip).node

theorem Whole.access (whole : Whole s ip) {jp : Slot} {a : Access} (held : 0 < (s.icache jp).ref)
    (valid : (s.icache jp).valid = true) (ran : a.run jp s = .ok ((),t)) : Whole t ip := by
  obtain ⟨⟨v,table⟩,held',valid',dense⟩ := whole
  have holds := table.loaded jp held valid
  have spec := access_spec holds rfl (table.small _ holds.inside holds.type) a
  rw [post,ran] at spec
  obtain ⟨disk,d,rfl,accessed⟩ := spec
  refine ⟨⟨_,table.access held valid accessed⟩,?_,?_,?_⟩
  all_goals rcases eq_or_ne ip jp with rfl | other
  · simpa [State.put] using held
  · simpa [State.put,other] using held'
  · simpa [State.put] using valid
  · simpa [State.put,other] using valid'
  · rw [holds.node] at dense
    simpa [State.put] using accessed.dense dense
  · have there := table.loaded ip held' valid'
    have apart : (s.icache ip).inum ≠ (s.icache jp).inum := fun same => other (table.unique ip jp held' held same)
    have same : ((s.put disk jp d).icache ip).node = v (s.icache ip).inum := by
      rw [← there.node]
      simp [State.put,other]
    obtain ⟨⟨_,_,edited⟩,_,_⟩ := accessed
    rw [there.node] at dense
    intro k low
    rw [same]
    exact edited.blocks _ there.inside apart there.type k low ▸ dense k low

/-- A new inode of a type, locked: `ialloc` and `ilock`, as in `create`. -/
def newInode (type : UInt16) : Call Slot := do
  let ip ← ialloc ROOTDEV type
  ilock ip
  return ip

theorem iget_unread {dev : Nat} (unread : ∀ jp, 0 < (s.icache jp).ref → (s.icache jp).inum = i → (s.icache jp).valid = false) :
    post (iget dev i) (fun ip s' => (s'.icache ip).inum = i ∧ (s'.icache ip).valid = false ∧ 0 < (s'.icache ip).ref ∧
      s'.disk = s.disk ∧ s'.sb = s.sb) (fun _ => True) s := by
  unfold iget
  simp only [post_bind,post_get]
  split
  · next ip found =>
    have this := List.find?_some found
    simp only [Bool.and_eq_true,decide_eq_true_eq,beq_iff_eq] at this
    obtain ⟨⟨used,_⟩,inum⟩ := this
    rw [post_bind,post_modifyInode,post_pure]
    simp only [update_self]
    exact ⟨inum,unread ip used inum,by omega,trivial,trivial⟩
  · split
    · rw [post_bind,post_modifyInode,post_pure]
      simp only [update_self]
      exact ⟨trivial,trivial,Int.one_pos,trivial,trivial⟩
    · trivial

/-- The state with the lock of an entry set. -/
def State.setLock (s : State) (ip : Slot) (holder : Option Pid) : State :=
  { s with icache := update s.icache ip { s.icache ip with lock := holder } }

theorem wp_ilock {p : Pid} {Q : Unit → State → Prop} {E : Stop Wait → Prop} (used : 0 < (s.icache ip).ref) :
    wp (kernel p) (ilock ip) Q E s = if (s.icache ip).lock = none then
      post (iload ip) Q (fun why => E (.panic why)) (s.setLock ip (some p)) else E (.blocked (.ilock ip)) := by
  unfold ilock acquiresleep
  simp only [wp_bind,Refs.wp_kernel,kernelStep,post_bind,post_get,post_pure]
  rw [if_neg (by omega)]
  simp only [wp_bind,wp_await,Refs.wp_kernel,kernelStep,post_modifyInode]
  exact if_congr Option.isNone_iff_eq_none rfl rfl

theorem ilock_unread {p : Pid} (inum : (s.icache ip).inum = i) (unread : (s.icache ip).valid = false)
    (stored : dinodeAt s.sb s.disk i = d) (used : 0 < (s.icache ip).ref) :
    wp (kernel p) (ilock ip) (fun _ s' => (s'.icache ip).node = d ∧ (s'.icache ip).valid = true ∧ 0 < (s'.icache ip).ref)
      (fun _ => True) s := by
  rw [wp_ilock used]
  split
  · unfold iload
    simp only [post_bind,post_get,State.setLock,update_self,unread]
    rw [if_neg Bool.false_ne_true,post_bind,post_modifyInode]
    split
    · trivial
    · simp only [post_pure,update_self,inum,stored]
      exact ⟨trivial,trivial,used⟩
  · trivial

theorem newInode_fresh {p : Pid} {type : UInt16} (clean : Clean s) :
    wp (kernel p) (newInode type) (fun ip s' => (s'.icache ip).node = .fresh type ∧ (s'.icache ip).valid = true ∧
      0 < (s'.icache ip).ref) (fun _ => True) s := by
  unfold newInode ialloc
  simp only [wp_bind,Refs.wp_kernel,kernelStep]
  unfold ialloc_inum
  simp only [post_bind,post_get]
  refine post_mono (ialloc_from_spec clean.core type (fun j => (dinodeAt s.sb s.disk j).type = 0) _ _ fun _ _ => rfl)
    ?_ fun _ _ => trivial
  rintro j s₁ ⟨_,_,inside,free,disk,same,stored⟩
  subst same
  refine post_mono (iget_unread fun jp used inum => ?_) ?_ fun _ _ => trivial
  · have saved := clean.slots jp
    unfold Saved at saved
    rw [if_neg (ne_of_gt used)] at saved
    by_contra valid
    obtain ⟨node,type⟩ := saved.2.2.2 (by simpa using valid)
    rw [node,inum] at type
    exact type free
  · rintro ip s₂ ⟨inum,unread,used,disk',sb⟩
    refine wp_use (ilock_unread inum unread (d := .fresh type) ?_ used) fun _ _ ends => ends
    rw [sb,disk']
    exact stored.here

theorem Repr.table {a : Files} (repr : Repr s v a) : Table s v := by
  have slot (ip : Slot) (used : 0 < (s.icache ip).ref) : ∃ h, a.slot ip = some h := by
    cases here : a.slot ip with
    | some h => exact ⟨h,rfl⟩
    | none => exact absurd (repr.notInUse here).1 (ne_of_gt used)
  refine ⟨repr.core,fun ip used valid => ?_,fun i inside type => (repr.nodes i inside).small type,fun ip jp used used' same => ?_⟩
  · obtain ⟨h,here⟩ := slot ip used
    obtain ⟨_,_,_,inum,_,_,valid',_⟩ := repr.inUse here
    rw [inum]
    exact repr.holds here (by rw [← valid',valid])
  · obtain ⟨h,here⟩ := slot ip used
    obtain ⟨k,there⟩ := slot jp used'
    obtain ⟨_,_,_,inum,_⟩ := repr.inUse here
    obtain ⟨_,_,_,inum',_⟩ := repr.inUse there
    exact repr.unique ip jp h k here there (by rw [← inum,← inum',same])

end Xv6
