import Xv6.Writing

/-!
The kernel refines the files. A state of the kernel represents files if the pointers of the inodes partition the
blocks, the inodes have the attributes and contents of the files, and the cache agrees (`Repr`).
-/
namespace Xv6
open Xv6.Lib Prog Function

/-- An inode and its blocks have the attributes and contents of a node. -/
structure Looks (disk : Disk) (d : Dinode) (n : Node) (hole : Nat → Bool) : Prop where
  attr : d.toAttr = n.toAttr
  data : d.type ≠ 0 → ∀ off < MAXFILE * BSIZE, content disk d off = n.data off
  holes : d.type ≠ 0 → ∀ bn < MAXFILE, bn * BSIZE < d.size.toNat → blk disk d bn = 0 → hole bn = true
  small : d.type ≠ 0 → d.size.toNat ≤ MAXFILE * BSIZE

/-- What an entry of the cache shows, for the inodes `v`. -/
def Shows (v : Nat → Dinode) (ninodes : Nat) (i : Inode) : Option Handle → Prop
  | none => i.ref = 0 ∧ i.lock = none
  | some h => i.ref = h.ref ∧ 0 < h.ref ∧ i.dev = ROOTDEV ∧ i.inum = h.inum ∧ h.inum < ninodes ∧ i.lock = h.lock ∧
    i.valid = h.valid ∧ (h.valid = true → i.node = v h.inum ∧ (v h.inum).type ≠ 0)

/-- The state represents the files, with the inodes `v`. -/
structure Repr (s : State) (v : Nat → Dinode) (a : Files) : Prop where
  core : Core s.sb s.disk v
  ninodes : a.ninodes = s.sb.ninodes
  tables : a.tables = s.tables
  devsw : a.devsw = s.devsw
  slots : ∀ ip, Shows v s.sb.ninodes (s.icache ip) (a.slot ip)
  unique : ∀ ip jp h k, a.slot ip = some h → a.slot jp = some k → h.inum = k.inum → ip = jp
  nodes : ∀ i < s.sb.ninodes, Looks s.disk (v i) (a.node i) (a.hole i)
  attrs : ∀ i < s.sb.ninodes, (dinodeAt s.sb s.disk i).toAttr = (v i).toAttr
  saved : ∀ i < s.sb.ninodes, a.unsaved i = false → dinodeAt s.sb s.disk i = v i

def Represents (s : State) (a : Files) : Prop := ∃ v, Repr s v a

variable {s : State} {v : Nat → Dinode} {a : Files} {ip : Slot} {h : Handle} {p : Pid}

variable {β : Type}

theorem matched {m : M β} {y : Outcome β}
    (ends : post m (fun b s' => ∃ a', y = .ok (b,a') ∧ Represents s' a')
      (fun why => Full why ∨ y = .error (.panic why)) s) : Matched Represents Full (M.step m s) y := by
  refine .inr ?_
  unfold post at ends
  unfold M.step
  split at ends
  · next b s' ran => simpa [ran] using ends
  · next why ran => simpa [ran] using ends

variable {x : Except (Stop Wait) (β × State)}

theorem undefined_matched :
    Matched Represents Full x (.error .undefined : Outcome β) := .inl rfl

theorem Repr.inUse (repr : Repr s v a) (here : a.slot ip = some h) :
    (s.icache ip).ref = h.ref ∧ 0 < h.ref ∧ (s.icache ip).dev = ROOTDEV ∧ (s.icache ip).inum = h.inum ∧
    h.inum < s.sb.ninodes ∧ (s.icache ip).lock = h.lock ∧ (s.icache ip).valid = h.valid ∧
    (h.valid = true → (s.icache ip).node = v h.inum ∧ (v h.inum).type ≠ 0) := by
  have := repr.slots ip
  rw [here] at this
  exact this

theorem Repr.notInUse (repr : Repr s v a) (here : a.slot ip = none) : (s.icache ip).ref = 0 ∧ (s.icache ip).lock = none := by
  have := repr.slots ip
  rw [here] at this
  exact this

theorem handle_matched {f : Handle → Outcome β}
    (use : ∀ h, a.slot ip = some h → Matched Represents Full x (f h)) :
    Matched Represents Full x (a.handle ip f) := by
  unfold Files.handle
  split
  · next h here => exact use h here
  · exact undefined_matched

theorem loaded_matched {f : Handle → Node → Outcome β}
    (use : ∀ h, a.slot ip = some h → h.valid = true → Matched Represents Full x (f h (a.node h.inum))) :
    Matched Represents Full x (a.loaded ip f) := by
  refine handle_matched fun h here => ?_
  split
  · next valid => exact use h here valid
  · exact undefined_matched

/-! ### The cache -/

section
variable (repr : Repr s v a)
include repr

theorem Repr.setSlot {i : Inode} {h' : Option Handle} (shows : Shows v s.sb.ninodes i h')
    (unique : ∀ h, h' = some h → ∀ jp k, jp ≠ ip → a.slot jp = some k → h.inum ≠ k.inum) :
    Repr { s with icache := update s.icache ip i } v (a.setSlot ip h') where
  core := repr.core
  ninodes := repr.ninodes
  tables := repr.tables
  devsw := repr.devsw
  slots jp := by
    rcases eq_or_ne jp ip with rfl | other
    · simpa [Files.setSlot] using shows
    · simpa [Files.setSlot,other] using repr.slots jp
  unique jp kp h k here there same :=
    once_update (f := a.slot) (C := fun x y => ∃ h k, x = some h ∧ y = some k ∧ h.inum = k.inum)
      (fun _ _ ⟨h,k,here,there,same⟩ => ⟨k,h,there,here,same.symm⟩)
      (fun jp kp ⟨h,k,here,there,same⟩ => repr.unique jp kp h k here there same)
      (fun jp other ⟨h,k,here,there,same⟩ => unique k there jp h other here same.symm) jp kp ⟨h,k,here,there,same⟩
  nodes := repr.nodes
  attrs := repr.attrs
  saved := repr.saved

theorem Repr.count (here : a.slot ip = some h) {ref : Nat} (positive : 0 < ref) (lock : Option Pid) :
    Represents { s with icache := update s.icache ip { s.icache ip with ref := ref, lock := lock } }
      (a.setSlot ip (some { h with ref := ref, lock := lock })) := by
  obtain ⟨_,_,dev,inum,inside,_,valid,node⟩ := repr.inUse here
  refine ⟨v,repr.setSlot ⟨rfl,positive,dev,inum,inside,rfl,valid,node⟩ ?_⟩
  rintro _ ⟨⟩ jp k other there same
  exact other (repr.unique jp ip k h there here same.symm)

theorem Repr.touch (here : a.slot ip = some h) {i : Inode} {ref : Nat} (positive : 0 < ref)
    (lock : Option Pid) (new : i = { s.icache ip with ref := ref, lock := lock }) :
    Represents { s with icache := update s.icache ip i } (a.setSlot ip (some { h with ref := ref, lock := lock })) := by
  subst new
  exact repr.count here positive lock

theorem iget_matched (dev inum : Nat) :
    Matched Represents Full (M.step (iget dev inum) s) (a.iget dev inum) := by
  unfold Files.iget
  split
  · next legal =>
    obtain ⟨rfl,inside⟩ := legal
    refine matched ?_
    unfold iget
    simp only [post_bind,post_get]
    -- both searches go through the same entries
    have cached (jp : Slot) : (decide ((s.icache jp).ref > 0) && (s.icache jp).dev == ROOTDEV &&
        (s.icache jp).inum == inum) = (a.slot jp).any (·.inum == inum) := by
      cases there : a.slot jp with
      | none => simp [(repr.notInUse there).1]
      | some k =>
        obtain ⟨ref,positive,dev,number,_⟩ := repr.inUse there
        simp [ref,positive,dev,number]
    have unused (jp : Slot) : ((s.icache jp).ref == 0) = (a.slot jp).isNone := by
      cases there : a.slot jp with
      | none => simp [(repr.notInUse there).1]
      | some k =>
        obtain ⟨ref,positive,_⟩ := repr.inUse there
        simp [ref]
        omega
    simp only [cached,unused]
    rw [show (List.finRange NINODE).find? (fun ip => (a.slot ip).any (·.inum == inum)) = a.cached inum from rfl,
      show (List.finRange NINODE).find? (fun ip => (a.slot ip).isNone) = a.unused from rfl]
    cases found : a.cached inum with
    | some jp =>
      obtain ⟨k,there,-⟩ := cached_some found
      obtain ⟨ref,positive,_,_,_,lock,_⟩ := repr.inUse there
      simp only [Files.handle,there,post_bind,post_modifyInode,post_pure]
      refine ⟨_,rfl,repr.touch there (Nat.succ_pos _) k.lock ?_⟩
      simp [ref,lock]
    | none =>
      cases free : a.unused with
      | some jp =>
        have none' := unused_some free
        simp only [post_bind,post_modifyInode,post_pure]
        refine ⟨_,rfl,v,repr.setSlot ⟨rfl,Nat.one_pos,rfl,rfl,by rwa [← repr.ninodes],(repr.notInUse none').2,rfl,by simp⟩
          ?_⟩
        rintro _ ⟨⟩ kp k other there same
        exact cached_none found there same.symm
      | none => exact .inr rfl
  · exact undefined_matched

theorem unref_matched (ip : Slot) :
    Matched Represents Full (M.step (modifyInode ip fun i => { i with ref := i.ref - 1 }) s) (a.unref ip) := by
  refine handle_matched fun h here => ?_
  obtain ⟨ref,positive,_,_,_,lock,_⟩ := repr.inUse here
  split
  · next more =>
    refine matched ⟨_,rfl,repr.touch here (show 0 < h.ref - 1 by omega) h.lock ?_⟩
    simp [ref,lock]
    omega
  · split
    · next last =>
      refine matched ⟨_,rfl,v,repr.setSlot ⟨by simp [ref,last.1],by simp [lock,last.2.1]⟩ (by simp)⟩
    · exact undefined_matched

theorem iload_matched (ip : Slot) :
    Matched Represents Full (M.step (iload ip) s) (a.iload ip) := by
  refine handle_matched fun h here => ?_
  obtain ⟨ref,positive,dev,inum,inside,lock,valid,node⟩ := repr.inUse here
  by_cases known : h.valid = true
  · rw [if_pos known]
    refine matched ?_
    unfold iload
    simp only [post_bind,post_get,valid,known]
    exact ⟨a,rfl,v,repr⟩
  · rw [if_neg known]
    split
    · exact undefined_matched
    · next saved =>
      have stored : dinodeAt s.sb s.disk h.inum = v h.inum := repr.saved _ inside (by simpa using saved)
      have type : (v h.inum).type = (a.node h.inum).type := congrArg Attr.type (repr.nodes _ inside).attr
      refine matched ?_
      unfold iload
      simp only [post_bind,post_get,valid,known,inum,stored,type,post_modifyInode,if_false,Bool.false_eq_true]
      split
      · exact .inr rfl
      · next typed =>
        refine ⟨_,rfl,v,repr.setSlot ⟨ref,positive,dev,rfl,inside,lock,rfl,fun _ => ⟨rfl,by rwa [type]⟩⟩ ?_⟩
        rintro _ ⟨⟩ jp k other there same
        exact other (repr.unique jp ip k h there here same.symm)

end

/-! ### Inodes -/

theorem Repr.holds (repr : Repr s v a) (here : a.slot ip = some h) (valid : h.valid = true) : Holds s v ip h.inum := by
  obtain ⟨_,_,_,_,inside,_,_,node⟩ := repr.inUse here
  exact ⟨repr.core,inside,(node valid).1,(node valid).2⟩

theorem Repr.node_attr (repr : Repr s v a) (here : a.slot ip = some h) (valid : h.valid = true) :
    (s.icache ip).node.toAttr = (a.node h.inum).toAttr := by
  have holds := repr.holds here valid
  rw [holds.node]
  exact (repr.nodes _ holds.inside).attr

variable {disk : Disk} {d : Dinode}

theorem Repr.change (repr : Repr s v a) (here : a.slot ip = some h) {b : Files}
    (only : OnlyInode h.inum a b) (core : Core s.sb disk (update v h.inum d)) (type : d.type ≠ 0)
    (looks : Looks disk d (b.node h.inum) (b.hole h.inum))
    (others : ∀ j < s.sb.ninodes, j ≠ h.inum → Looks disk (v j) (a.node j) (a.hole j))
    (stored : ∀ j < s.sb.ninodes, j ≠ h.inum → dinodeAt s.sb disk j = dinodeAt s.sb s.disk j)
    (attr : (dinodeAt s.sb disk h.inum).toAttr = d.toAttr)
    (saved : b.unsaved h.inum = false → dinodeAt s.sb disk h.inum = d) : Represents (s.put disk ip d) b := by
  obtain ⟨ref,positive,dev,inum,inside,lock,valid',node⟩ := repr.inUse here
  refine ⟨update v h.inum d,core,only.ninodes.trans repr.ninodes,only.tables.trans repr.tables,
    only.devsw.trans repr.devsw,fun jp => ?_,?_,fun j low => ?_,fun j low => ?_,fun j low clean => ?_⟩
  · rw [only.slot]
    rcases eq_or_ne jp ip with rfl | other
    · rw [here]
      simp only [State.put,update_self]
      exact ⟨ref,positive,dev,inum,inside,lock,valid',fun _ => ⟨by simp,by simpa using type⟩⟩
    · simp only [State.put,update_of_ne other]
      have shows := repr.slots jp
      cases there : a.slot jp with
      | none => rwa [there] at shows
      | some k =>
        rw [there] at shows
        have apart : k.inum ≠ h.inum := fun same => other (repr.unique jp ip k h there here same)
        simp only [Shows,update_of_ne apart]
        exact shows
  · rw [only.slot]
    exact repr.unique
  · rcases eq_or_ne j h.inum with rfl | other
    · simpa [State.put] using looks
    · rw [only.node j other,only.hole j other,update_of_ne other]
      exact others j low other
  · rcases eq_or_ne j h.inum with rfl | other
    · simpa [State.put] using attr
    · rw [update_of_ne other,← repr.attrs j low]
      exact congrArg _ (stored j low other)
  · rcases eq_or_ne j h.inum with rfl | other
    · rw [update_self]
      exact saved clean
    · rw [only.unsaved j other] at clean
      rw [update_of_ne other,← repr.saved j low clean]
      exact stored j low other

variable {n : Node} {hole : Nat → Bool}

theorem Looks.stored {sb : Superblock} {disk disk' : Disk} (core : Core sb disk v)
    (same : ∀ c, sb.datastart ≤ c → disk' c = disk c) {j : Nat} (inside : j < sb.ninodes)
    (looks : Looks disk (v j) n hole) : Looks disk' (v j) n hole where
  attr := looks.attr
  data type off low := (content_data core same inside type low).trans (looks.data type off low)
  holes type bn low below zero := by
    refine looks.holes type bn low below ?_
    rw [← zero]
    exact (ptr_data core same inside type _).symm
  small := looks.small

/-- An inode that no entry of the cache has read changes on disk. -/
theorem Repr.replace (repr : Repr s v a) {i : Nat} {b : Files} (only : OnlyInode i a b)
    (absent : ∀ ip h, a.slot ip = some h → h.valid = true → h.inum ≠ i) (core : Core s.sb disk (update v i d))
    (looks : Looks disk d (b.node i) (b.hole i)) (data : ∀ c, s.sb.datastart ≤ c → disk c = s.disk c)
    (others : ∀ j < s.sb.ninodes, j ≠ i → dinodeAt s.sb disk j = dinodeAt s.sb s.disk j)
    (here : dinodeAt s.sb disk i = d) : Represents { s with disk := disk } b := by
  refine ⟨update v i d,core,only.ninodes.trans repr.ninodes,only.tables.trans repr.tables,only.devsw.trans repr.devsw,
    fun ip => ?_,?_,fun j low => ?_,fun j low => ?_,fun j low clean => ?_⟩
  · rw [only.slot]
    have shows := repr.slots ip
    cases there : a.slot ip with
    | none => rwa [there] at shows
    | some h =>
      rw [there] at shows
      simp only [Shows] at shows ⊢
      refine ⟨shows.1,shows.2.1,shows.2.2.1,shows.2.2.2.1,shows.2.2.2.2.1,shows.2.2.2.2.2.1,shows.2.2.2.2.2.2.1,
        fun valid => ?_⟩
      rw [update_of_ne (absent ip h there valid)]
      exact shows.2.2.2.2.2.2.2 valid
  · rw [only.slot]
    exact repr.unique
  · rcases eq_or_ne j i with rfl | other
    · rw [update_self]
      exact looks
    · rw [only.node j other,only.hole j other,update_of_ne other]
      exact (repr.nodes j low).stored repr.core data low
  · rcases eq_or_ne j i with rfl | other
    · rw [update_self]
      exact congrArg _ here
    · rw [update_of_ne other,← repr.attrs j low]
      exact congrArg _ (others j low other)
  · rcases eq_or_ne j i with rfl | other
    · rw [update_self]
      exact here
    · rw [only.unsaved j other] at clean
      rw [update_of_ne other,← repr.saved j low clean]
      exact others j low other

theorem isetattr_matched (repr : Repr s v a) (ip : Slot) (major minor nlink : UInt16) :
    Matched Represents Full (M.step (isetattr ip major minor nlink) s) (a.isetattr ip major minor nlink) := by
  refine loaded_matched fun h here valid => matched ?_
  have holds := repr.holds here valid
  obtain ⟨_,_,_,inum,_⟩ := repr.inUse here
  have looks := repr.nodes _ holds.inside
  have start := repr.core.layout.datastart_low
  unfold isetattr
  rw [post_bind,← put_self holds.node,post_modifyNode_put]
  refine post_mono (iupdate_spec repr.core.layout inum holds.inside _ _) (fun _ s' ⟨disk,same,stored⟩ => ?_)
    fun _ never => never.elim
  subst same
  generalize new : ({ v h.inum with major := major, minor := minor, nlink := nlink } : Dinode) = d at stored ⊢
  have addrs : d.addrs = (v h.inum).addrs := by rw [← new]
  have type : d.type = (v h.inum).type := by rw [← new]
  have size : d.size = (v h.inum).size := by rw [← new]
  have data (c : Nat) (low : s.sb.datastart ≤ c) : disk c = s.disk c := stored.same c (by omega)
  have core : Core s.sb disk (update v h.inum d) := by
    have kept := stored.core repr.core
    unfold Core at *
    rwa [funext (own_attr addrs (by rw [type]))]
  have look : Looks disk (v h.inum) (a.node h.inum) (a.hole h.inum) := looks.stored repr.core data holds.inside
  refine ⟨_,rfl,repr.change here ((onlyInode_setNode a _ _).trans (onlyInode_save _ _)) core (by rw [type]; exact holds.type) ⟨?_,?_,?_,?_⟩
    (fun j low _ => (repr.nodes j low).stored repr.core data low) (fun j _ other => stored.others j other)
    (by rw [stored.here]) fun _ => stored.here⟩
  · have attr := look.attr
    rw [← new]
    simp [Files.save,Files.setNode,← attr]
  · intro known off low
    simp only [Files.save,Files.setNode,update_self]
    rw [← look.data (by rwa [← type]) off low]
    unfold content blk ptr
    rw [addrs]
  · intro known bn low below zero
    refine look.holes (by rwa [← type]) bn low (by rwa [← size]) ?_
    rw [← zero]
    unfold blk ptr
    rw [addrs]
  · intro known
    rw [size]
    exact look.small (by rwa [← type])

theorem ialloc_matched (repr : Repr s v a) (type : UInt16) :
    Matched Represents Full (M.step (ialloc_inum type) s) (a.ialloc type) := by
  unfold Files.ialloc
  split
  · exact undefined_matched
  · next legal =>
    have start := repr.core.layout.datastart_low
    refine matched ?_
    unfold ialloc_inum
    simp only [post_bind,post_get]
    have decides (j : Nat) (low : j < s.sb.ninodes) : decide ((a.node j).type = 0) =
        decide ((dinodeAt s.sb s.disk j).type = 0) := by
      have one := congrArg Attr.type (repr.attrs j low)
      have two := congrArg Attr.type (repr.nodes j low).attr
      rw [one,two]
    have count : min s.sb.ninodes (s.sb.ninodes - 1) = a.ninodes - 1 := by rw [repr.ninodes]; omega
    have spec := ialloc_from_spec repr.core type _ s.sb.ninodes 1 decides
    rw [count] at spec
    refine post_mono spec (fun j s' ⟨found,_,low,zero,disk,same,stored⟩ => ?_) fun why ⟨message,none'⟩ => ?_
    · rw [found]
      subst same
      have free : (v j).type = 0 := by rw [← congrArg Attr.type (repr.attrs j low)]; exact zero
      have data (c : Nat) (low : s.sb.datastart ≤ c) : disk c = s.disk c := stored.same c (by omega)
      -- an inode in the cache that has been read is not free
      have apart {ip : Slot} {h : Handle} (here : a.slot ip = some h) (valid : h.valid = true) : h.inum ≠ j := by
        rintro rfl
        exact (repr.holds here valid).type free
      have kept := stored.core repr.core
      refine ⟨_,rfl,repr.replace ((onlyInode_setNode a _ _).trans (onlyInode_clear _ _)) (fun _ _ => apart) ?_ ?_ data
        (fun i _ other => stored.others i other) stored.here⟩
      · unfold Core at *
        rwa [funext (own_fresh free)]
      · refine ⟨by simp [Files.clear,Files.save,Files.setNode,Dinode.fresh,Node.fresh],fun _ off _ => ?_,
          fun _ bn _ below => absurd below (by simp [Dinode.fresh]),fun _ => by simp [Dinode.fresh]⟩
        simp [content,blk,ptr,Dinode.fresh,Node.fresh,Files.clear,Files.save,Files.setNode]
    · rw [none',message]
      exact .inr rfl

theorem ifree_matched (repr : Repr s v a) (ip : Slot) :
    Matched Represents Full (M.step (ifree ip) s) (a.ifree ip) := by
  refine loaded_matched fun h here valid => matched ?_
  have holds := repr.holds here valid
  obtain ⟨ref,positive,dev,inum,inside,lock,_,_⟩ := repr.inUse here
  refine post_mono (ifree_spec holds inum) (fun _ s' ⟨disk,same,core,stored,others,data⟩ => ?_) fun _ never => never.elim
  subst same
  -- the entry forgets the inode, which then changes on disk
  have forgets : Repr { s with icache := update s.icache ip { s.icache ip with node := (v h.inum).freed, valid := false } }
      v (a.setSlot ip (some { h with valid := false })) := by
    refine repr.setSlot ⟨ref,positive,dev,inum,inside,lock,rfl,by simp⟩ ?_
    rintro _ ⟨⟩ jp k other there same
    exact other (repr.unique jp ip k h there here same.symm)
  have only : OnlyInode h.inum (a.setSlot ip (some { h with valid := false }))
      (((a.setNode h.inum (a.node h.inum).freed).clear h.inum).setSlot ip (some { h with valid := false })) :=
    ⟨rfl,rfl,rfl,rfl,fun _ other => update_of_ne other ..,fun _ other => update_of_ne other ..,
      fun _ other => update_of_ne other ..⟩
  have attr := (repr.nodes _ inside).attr
  refine ⟨_,rfl,forgets.replace only (fun jp k there valid' same => ?_) core ⟨?_,fun known => absurd rfl known,
    fun known => absurd rfl known,fun known => absurd rfl known⟩ data others stored⟩
  · rcases eq_or_ne jp ip with rfl | other
    · simp only [Files.setSlot,update_self] at there
      cases there
      simp at valid'
    · simp only [Files.setSlot,update_of_ne other] at there
      exact other (repr.unique jp ip k h there here same)
  · simp [Files.setSlot,Files.clear,Files.save,Files.setNode,Dinode.freed,Node.freed,← attr]

/-! ### Contents -/

theorem Looks.mapped (looks : Looks disk d n hole)
    (type : d.type ≠ 0) {off len : Nat} (small : off + len ≤ d.size.toNat) (all : missing hole off len = false) {bn : Nat}
    (touches : Touches off len bn) : blk disk d bn ≠ 0 := by
  intro zero
  have max := looks.small type
  have low : bn < MAXFILE := touches.lt (le_trans small max)
  have hole := looks.holes type bn low (lt_of_lt_of_le touches.2.2 small) zero
  unfold missing at all
  rw [List.any_eq_false] at all
  exact all bn (List.mem_range.mpr low) (by simp [touches,hole])

/-- Bytes of an inode have been read or written, and its blocks are there. -/
theorem Repr.edit (repr : Repr s v a) (here : a.slot ip = some h) (valid : h.valid = true) {b : Files} {off len : Nat} {size : UInt32}
    {file : Nat → UInt8} (edited : Edited s v h.inum disk d size file) (mapped : Mapped s v h.inum disk d (way off len))
    (legal : off ≤ (v h.inum).size.toNat) (fits : off + len ≤ MAXFILE * BSIZE)
    (sized : size.toNat = max (v h.inum).size.toNat (off + len)) (only : OnlyInode h.inum a b)
    (attr : (b.node h.inum).toAttr = { (a.node h.inum).toAttr with size := size })
    (data : ∀ o < MAXFILE * BSIZE, file o = (b.node h.inum).data o)
    (holes : b.hole h.inum = fun bn => a.hole h.inum bn && !decide (Touches off len bn))
    (stored : (dinodeAt s.sb disk h.inum).toAttr = d.toAttr)
    (saved : b.unsaved h.inum = false → dinodeAt s.sb disk h.inum = d) : Represents (s.put disk ip d) b := by
  have holds := repr.holds here valid
  have looks := repr.nodes _ holds.inside
  have max := looks.small holds.type
  have now : d.size = size := by rw [edited.attr]
  refine repr.change here only edited.core (by rw [edited.attr]; exact holds.type) ⟨?_,fun _ o low => ?_,fun _ bn low below zero => ?_,
    fun _ => by rw [now]; omega⟩ (fun j low other => ?_) edited.stored stored saved
  · rw [edited.attr,attr,looks.attr]
  · rw [edited.mine o low,data o low]
  · have untouched : ¬Touches off len bn := fun touches => (mapped.ptrs _ (position_lt low)).mpr (.inr (touches.mem_way fits)) zero
    have before : blk s.disk (v h.inum) bn = 0 := by
      by_contra some'
      exact (mapped.ptrs _ (position_lt low)).mpr (.inl some') zero
    have inside : bn * BSIZE < (v h.inum).size.toNat := by
      by_contra outside
      rw [now,sized] at below
      refine untouched ⟨?_,?_,by omega⟩
      · omega
      · rw [BSIZE_eq] at outside ⊢
        omega
    rw [holes]
    simp [looks.holes holds.type bn low inside before,untouched]
  · have other' := repr.nodes j low
    refine ⟨other'.attr,fun type o high => (edited.others j low other type o high).trans (other'.data type o high),
      fun type bn high below zero => other'.holes type bn high below ?_,other'.small⟩
    rw [← zero]
    exact (edited.blocks j low other type _ (position_lt high)).symm

theorem readi_matched (repr : Repr s v a) (ip : Slot) (off n : Nat) :
    Matched Represents Full (M.step (readi ip off n) s) (a.readi ip off n) := by
  refine loaded_matched fun h here valid => matched ?_
  have holds := repr.holds here valid
  have looks := repr.nodes _ holds.inside
  have node := looks.attr
  have type : (v h.inum).type = (a.node h.inum).type := congrArg Attr.type node
  have major : (v h.inum).major = (a.node h.inum).major := congrArg Attr.major node
  have size : (v h.inum).size = (a.node h.inum).size := congrArg Attr.size node
  rw [← type,← major,← size]
  by_cases device : (v h.inum).type = T_DEV
  · -- a device answers without the disk
    unfold readi
    simp only [post_bind,post_get,holds.node]
    rw [if_pos device,if_pos device]
    split
    · rw [repr.devsw]
      split
      · next f driver => exact ⟨a,by simp [driver],v,repr⟩
      · next driver => exact ⟨a,by simp [driver],v,repr⟩
    · exact ⟨a,rfl,v,repr⟩
  rw [if_neg device]
  by_cases legal : off > (v h.inum).size.toNat ∨ (off + n) % 2 ^ 32 < off
  · rw [if_pos legal]
    exact post_of_run (readi_refused holds.node device legal) ⟨a,rfl,v,repr⟩
  rw [if_neg legal]
  have max := looks.small holds.type
  have cut : (if off + n > (v h.inum).size.toNat then (v h.inum).size.toNat - off else n) = min n ((v h.inum).size.toNat - off) := by
    split <;> omega
  simp only [cut]
  refine post_mono (readi_spec holds device max legal) ?_ fun why full => .inl full.1
  rw [not_or] at legal
  generalize length : min n ((v h.inum).size.toNat - off) = m
  rintro _ s' ⟨rfl,disk,d,rfl,edited,mapped,kept,old⟩
  have bytes : slice (content s.disk (v h.inum)) off m = slice (a.node h.inum).data off m :=
    slice_congr _ fun k low => looks.data holds.type _ (by omega)
  refine ⟨_,by rw [bytes],repr.edit here valid edited mapped (by omega) (by omega) (by omega) (onlyInode_fill _ _ _ _)
    (by rw [size]; rfl) (looks.data holds.type) (update_self ..) ?_ fun clean => ?_⟩
  · rw [kept,repr.attrs _ holds.inside,edited.attr]
  · simp only [Files.fill,update_self,Bool.or_eq_false_iff] at clean
    obtain ⟨rfl,rfl⟩ := old fun bn touches => looks.mapped holds.type (by omega) clean.2 touches
    exact repr.saved _ holds.inside clean.1

theorem write_self (a : Files) (i : Nat) (src : List UInt8) (off : Nat) :
    (a.write i src off).node i = (a.node i).write src off ∧
      ((a.write i src off).hole i = fun bn => a.hole i bn && !decide (Touches off src.length bn)) ∧
      (a.write i src off).unsaved i = (!grows off src.length (a.node i).size.toNat && (a.unsaved i || missing (a.hole i) off src.length)) := by
  unfold Files.write
  split
  · next bigger => simp [Files.fill,Files.setNode,Files.save,bigger]
  · next same => simp [Files.fill,Files.setNode,same]

theorem writei_matched (repr : Repr s v a) (ip : Slot) (src : List UInt8) (off : Nat) :
    Matched Represents Full (M.step (writei ip src off) s) (a.writei ip src off) := by
  refine loaded_matched fun h here valid => matched ?_
  have holds := repr.holds here valid
  have looks := repr.nodes _ holds.inside
  have node := looks.attr
  have type : (v h.inum).type = (a.node h.inum).type := congrArg Attr.type node
  have major : (v h.inum).major = (a.node h.inum).major := congrArg Attr.major node
  have size : (v h.inum).size = (a.node h.inum).size := congrArg Attr.size node
  obtain ⟨_,_,_,inum,_⟩ := repr.inUse here
  rw [← type,← major,← size]
  by_cases device : (v h.inum).type = T_DEV
  · unfold writei devWrite
    simp only [post_bind,post_get,holds.node]
    rw [if_pos device,if_pos device,repr.devsw]
    split
    · next low =>
      split
      · next f driver => exact ⟨a,by simp [driver],v,repr⟩
      · next driver => exact ⟨a,by simp [driver],v,repr⟩
    · exact ⟨a,rfl,v,repr⟩
  have bound : MAXFILE * BSIZE < 2 ^ 32 := by decide
  rw [if_neg device]
  by_cases legal : off ≤ (v h.inum).size.toNat ∧ off + src.length ≤ MAXFILE * BSIZE
  · rw [if_neg (by rw [Nat.mod_eq_of_lt (by omega)]; omega),if_neg (by omega)]
    refine post_mono (writei_spec holds inum device legal.1 legal.2) ?_ fun why full => .inl full.1
    rintro _ s' ⟨rfl,disk,d,rfl,edited,mapped,kept,old⟩
    obtain ⟨written,holes,unsaved⟩ := write_self a h.inum src off
    refine ⟨_,rfl,repr.edit here valid edited mapped legal.1 legal.2 (sizeAfter_toNat legal.1 legal.2) (onlyInode_write _ _ _ _)
      ?_ (fun o low => ?_) holes ?_ fun clean => ?_⟩
    · rw [written,size]
      rfl
    · rw [written]
      exact overlay_congr _ _ (looks.data holds.type o low)
    · rw [kept]
      split
      · rfl
      · next same => rw [repr.attrs _ holds.inside,edited.attr,sizeAfter,if_neg same]
    · rw [unsaved,← size] at clean
      rw [kept]
      by_cases bigger : grows off src.length (v h.inum).size.toNat = true
      · rw [if_pos bigger]
      · rw [if_neg bigger]
        simp only [bigger,Bool.not_false,Bool.true_and,Bool.or_eq_false_iff] at clean
        rw [repr.saved _ holds.inside clean.1,old fun bn touches => ?_,sizeAfter,if_neg bigger]
        refine looks.mapped holds.type ?_ clean.2 touches
        have some' := touches.1
        simp only [grows,decide_eq_true_eq] at bigger
        omega
  · have refused := @writei_refused _ _ _ holds.node device _ src legal
    split
    · exact post_of_run refused ⟨a,rfl,v,repr⟩
    · next low =>
      rw [not_or] at low
      rw [if_pos (by omega)]
      exact post_of_run refused ⟨a,rfl,v,repr⟩

/-- Every operation of the kernel is that of the files. -/
theorem kernel_refines (p : Pid) : Simulates (kernel p) (files p) Represents Full where
  step o s a := by
    rintro ⟨v,repr⟩
    show Matched Represents Full (M.step (kernelStep p o) s) (filesStep p a o)
    cases o with
    | iget dev inum => exact iget_matched repr dev inum
    | idup ip =>
      refine handle_matched fun h here => matched ?_
      obtain ⟨ref,_,_,_,_,lock,_⟩ := repr.inUse here
      exact ⟨_,rfl,repr.touch here (Nat.succ_pos _) h.lock (by simp [ref,lock])⟩
    | ref ip =>
      refine handle_matched fun h here => matched ?_
      exact ⟨a,by simp [(repr.inUse here).1],v,repr⟩
    | unref ip => exact unref_matched repr ip
    | dev ip =>
      refine handle_matched fun h here => matched ?_
      exact ⟨a,by simp [(repr.inUse here).2.2.1],v,repr⟩
    | inum ip =>
      refine handle_matched fun h here => matched ?_
      exact ⟨a,by simp [(repr.inUse here).2.2.2.1],v,repr⟩
    | holdingsleep ip =>
      refine handle_matched fun h here => matched ?_
      exact ⟨a,by simp [(repr.inUse here).2.2.2.2.2.1],v,repr⟩
    | lock ip =>
      refine handle_matched fun h here => matched ?_
      obtain ⟨ref,positive,_⟩ := repr.inUse here
      exact ⟨_,rfl,repr.touch here positive (some p) (by simp [ref])⟩
    | unlock ip =>
      refine handle_matched fun h here => matched ?_
      obtain ⟨ref,positive,_⟩ := repr.inUse here
      exact ⟨_,rfl,repr.touch here positive none (by simp [ref])⟩
    | valid ip =>
      refine handle_matched fun h here => matched ?_
      exact ⟨a,by simp [(repr.inUse here).2.2.2.2.2.2.1],v,repr⟩
    | iload ip => exact iload_matched repr ip
    | attr ip =>
      show Matched Represents Full _ (a.loaded ip fun _ n => .ok (n.toAttr,a))
      refine loaded_matched fun h here valid => matched ?_
      exact ⟨a,by simp [repr.node_attr here valid],v,repr⟩
    | isetattr ip major minor nlink => exact isetattr_matched repr ip major minor nlink
    | ialloc type => exact ialloc_matched repr type
    | ifree ip => exact ifree_matched repr ip
    | readi ip off n => exact readi_matched repr ip off n
    | writei ip src off => exact writei_matched repr ip src off
    | tables f =>
      refine matched ?_
      simp only [filesStep,kernelStep,post,repr.tables]
      rcases ran : f s.tables with why | ⟨b,t⟩
      · simp [Bind.bind,Except.bind]
      · simp only [Bind.bind,Except.bind]
        exact ⟨_,rfl,v,{ repr with tables := rfl }⟩
  free w s a := by
    rintro ⟨v,repr⟩
    have locks : (fun ip => (s.icache ip).lock) = a.lock := by
      funext ip
      cases here : a.slot ip with
      | none => simp [Files.lock,here,(repr.notInUse here).2]
      | some h => simp [Files.lock,here,(repr.inUse here).2.2.2.2.2.1]
    simp only [kernel,files,locks,repr.tables]

end Xv6
