import Xv6.Chunks
import Xv6.Lookups
import Xv6.Wellformed

/-!
Directories are finite maps from names to inode numbers.
-/
namespace Xv6
open Xv6.Lib Prog Function

/-! ### The map -/

/-- The inode that a directory has under a name. -/
def Node.lookup (n : Node) (name : List UInt8) : Option Nat := (n.find name).map fun k => (n.entry k).inum.toNat

/-- The entries in use have different names. -/
def Node.Distinct (n : Node) : Prop := ∀ j k, n.live j → n.live k → key (n.entry j).name = key (n.entry k).name → j = k

variable {n : Node} {name other : List UInt8} {i k : Nat} {de : Dirent}

theorem find_live (live : n.live k) (same : key (n.entry k).name = key name) : ∃ j, n.find name = some j := by
  cases found : n.find name with
  | some j => exact ⟨j,rfl⟩
  | none => exact absurd same (find_none found live)

theorem lookup_some (distinct : n.Distinct) :
    n.lookup name = some i ↔ ∃ k, n.live k ∧ key (n.entry k).name = key name ∧ (n.entry k).inum.toNat = i := by
  unfold Node.lookup
  rw [Option.map_eq_some_iff]
  constructor
  · rintro ⟨k,found,inum⟩
    obtain ⟨live,same⟩ := find_some found
    exact ⟨k,live,same,inum⟩
  · rintro ⟨k,live,same,inum⟩
    obtain ⟨j,found⟩ := find_live live same
    obtain ⟨live',same'⟩ := find_some found
    rw [distinct j k live' live (same'.trans same.symm)] at found
    exact ⟨k,found,inum⟩

section
variable (distinct : n.Distinct) (full : de.name.length = DIRSIZ) (inside : k < n.count ∨ k = n.count ∧ n.aligned)
  (small : 16 * k + 16 ≤ MAXFILE * BSIZE) (absent : de.inum ≠ 0 → n.find de.name = none)
include distinct full inside small absent

theorem distinct_setEntry : (n.setEntry k de).Distinct := by
  intro a b
  rw [live_setEntry n full inside small,live_setEntry n full inside small,entry_setEntry n k full,entry_setEntry n k full]
  by_cases left : a = k <;> by_cases right : b = k <;> simp only [left,right,if_true,if_false]
  · exact fun _ _ _ => trivial
  · exact fun used live same => absurd same.symm (find_none (absent used) live)
  · exact fun live used same => absurd same (find_none (absent used) live)
  · exact distinct a b

/-- The new entry gives its name, if it is in use, and takes away the name of the old one. -/
theorem lookup_setEntry (other : List UInt8) : (n.setEntry k de).lookup other =
    if de.inum ≠ 0 ∧ key de.name = key other then some de.inum.toNat
    else if n.live k ∧ key (n.entry k).name = key other then none else n.lookup other := by
  refine Option.ext fun i => ?_
  rw [lookup_some (distinct_setEntry distinct full inside small absent)]
  simp only [live_setEntry n full inside small,entry_setEntry n k full]
  split
  · next new =>
    constructor
    · rintro ⟨j,live,named,inum⟩
      by_cases here : j = k
      · rw [if_pos here] at inum
        rw [inum]
      · rw [if_neg here] at live named
        exact absurd (named.trans new.2.symm) (find_none (absent new.1) live)
    · intro inum
      refine ⟨k,?_⟩
      simp only [if_true]
      exact ⟨new.1,new.2,Option.some.inj inum⟩
  · next apart =>
    split
    · next old =>
      refine ⟨fun ⟨j,live,named,_⟩ => ?_,nofun⟩
      by_cases here : j = k
      · rw [if_pos here] at live named
        exact absurd ⟨live,named⟩ apart
      · rw [if_neg here] at live named
        exact absurd (distinct j k live old.1 (named.trans old.2.symm)) here
    · next kept =>
      rw [lookup_some distinct]
      refine exists_congr fun j => ?_
      by_cases here : j = k
      · subst here
        simp only [if_true]
        exact ⟨fun both => absurd ⟨both.1,both.2.1⟩ apart,fun both => absurd ⟨both.1,both.2.1⟩ kept⟩
      · simp only [here,if_false]

end

/-! ### The directory in an entry of the cache -/

variable {s t : State} {dp ip : Slot} {p : Pid} {limit : Nat} {E : Stop Wait → Prop}

/-- The directory `n` is loaded in entry `dp`, and the free blocks are enough for what its first `limit` bytes lack. -/
structure Listed (s : State) (dp : Slot) (n : Node) (limit : Nat) : Prop where
  table : ∃ v, Table s v
  devs : ∀ ip, 0 < (s.icache ip).ref → (s.icache ip).dev = ROOTDEV
  unused : ∀ ip, (s.icache ip).ref = 0 → (s.icache ip).lock = none
  held : 0 < (s.icache dp).ref
  valid : (s.icache dp).valid = true
  dir : n.type = T_DIR
  attr : (s.icache dp).node.toAttr = n.toAttr
  data : ∀ off < MAXFILE * BSIZE, content s.disk (s.icache dp).node off = n.data off
  enough : (lacking s.disk (s.icache dp).node (way 0 limit)).card ≤ (freeBlocks s.sb s.disk).card
  size : n.size.toNat ≤ limit
  limit : limit ≤ MAXFILE * BSIZE

theorem way_mono {off len limit : Nat} (inside : off + len ≤ limit) (small : limit ≤ MAXFILE * BSIZE) : way off len ⊆ way 0 limit := by
  intro k on'
  rw [mem_way (by omega)] at on' ⊢
  obtain ⟨bn,touches,here⟩ := on'
  refine ⟨bn,?_,here⟩
  unfold Touches at touches ⊢
  rw [BSIZE_eq] at touches ⊢
  omega

variable {v : Nat → Dinode}

theorem Mapped.lacking_left {disk : Disk} {d : Dinode} {W W' : Finset Nat} (mapped : Mapped s v i disk d W)
    (part : W ⊆ W') (inside : ∀ k ∈ W', k < NPTR) :
    (lacking disk d W').card + (lacking s.disk (v i) W).card = (lacking s.disk (v i) W').card := by
  have union := mapped.lacking_union inside
  rw [Finset.union_eq_right.mpr part] at union
  omega

theorem Listed.edit (listed : Listed s dp n limit) (table : Table s v) {disk : Disk} {d : Dinode} {size : UInt32}
    {n' : Node} {off len : Nat} (edited : Edited s v (s.icache dp).inum disk d size n'.data)
    (mapped : Mapped s v (s.icache dp).inum disk d (way off len)) (inside : off + len ≤ limit)
    (attr : n'.toAttr = { n.toAttr with size := size }) (short : size.toNat ≤ limit) : Listed (s.put disk dp d) dp n' limit := by
  have holds := table.loaded dp listed.held listed.valid
  have small := listed.limit
  have mine : (s.put disk dp d).icache dp = { s.icache dp with node := d } := by simp [State.put]
  have cached (jp : Slot) : ((s.put disk dp d).icache jp).ref = (s.icache jp).ref ∧ ((s.put disk dp d).icache jp).dev = (s.icache jp).dev ∧
      ((s.put disk dp d).icache jp).lock = (s.icache jp).lock := by
    rcases eq_or_ne jp dp with rfl | other
    · rw [mine]
      exact ⟨rfl,rfl,rfl⟩
    · simp [State.put,other]
  have sized : d.size = size := by rw [edited.attr]
  refine ⟨⟨_,table.edit listed.held listed.valid edited (by rw [sized]; omega)⟩,fun jp used => ?_,fun jp free => ?_,?_,?_,?_,?_,
    fun o low => ?_,?_,?_,small⟩
  · rw [(cached jp).1] at used
    rw [(cached jp).2.1]
    exact listed.devs jp used
  · rw [(cached jp).1] at free
    rw [(cached jp).2.2]
    exact listed.unused jp free
  · rw [mine]
    exact listed.held
  · rw [mine]
    exact listed.valid
  · rw [attr]
    exact listed.dir
  · rw [mine,edited.attr,← holds.node,listed.attr,attr]
  · rw [mine]
    exact edited.mine o low
  · rw [mine]
    have enough := listed.enough
    have count := mapped.count
    have left := mapped.lacking_left (way_mono inside small) fun k on' => way_lt (by omega) on'
    rw [holds.node] at enough
    show (lacking disk d (way 0 limit)).card ≤ (freeBlocks s.sb disk).card
    omega
  · rw [attr]
    exact short

/-- Only the contents of the inode in entry `dp` have changed, and the disk. -/
def Beside (dp : Slot) (s t : State) : Prop := ∃ disk d, t = s.put disk dp d

theorem Beside.refl (dp : Slot) (s : State) : Beside dp s s := ⟨s.disk,(s.icache dp).node,by simp [State.put]⟩

theorem Beside.trans {u : State} (one : Beside dp s t) (two : Beside dp t u) : Beside dp s u := by
  obtain ⟨disk,d,rfl⟩ := one
  obtain ⟨disk',d',rfl⟩ := two
  exact ⟨disk',d',by simp [State.put]⟩

theorem Beside.cache (beside : Beside dp s t) (ip : Slot) : (t.icache ip).ref = (s.icache ip).ref ∧
    (t.icache ip).inum = (s.icache ip).inum ∧ (t.icache ip).lock = (s.icache ip).lock := by
  obtain ⟨disk,d,rfl⟩ := beside
  rcases eq_or_ne ip dp with rfl | other
  · simp [State.put]
  · simp [State.put,other]

theorem Listed.regular (listed : Listed s dp n limit) : (s.icache dp).node.type ≠ T_DEV := by
  have type : (s.icache dp).node.type = n.type := congrArg Attr.type listed.attr
  rw [type,listed.dir]
  decide

theorem Listed.not_short (listed : Listed s dp n limit) (node : (s.icache dp).node = v i) {off len : Nat}
    (inside : off + len ≤ limit) : ¬Short s v i (way off len) := fun short => by
  have enough := listed.enough
  have more := short.mono (way_mono inside listed.limit)
  rw [node] at enough
  unfold Short at more
  omega

theorem Listed.read (listed : Listed s dp n limit) (inside : k < n.count) : post (readi dp (16 * k) 16) (fun bytes s' =>
    bytes = some (slice n.data (16 * k) 16) ∧ Listed s' dp n limit ∧ Beside dp s s') (fun _ => False) s := by
  obtain ⟨v,table⟩ := listed.table
  have holds := table.loaded dp listed.held listed.valid
  have node := holds.node
  have size : (v (s.icache dp).inum).size = n.size := by rw [← node]; exact congrArg Attr.size listed.attr
  have type := listed.regular
  have inside : k < n.size.toNat / 16 := inside
  have short := listed.size
  have small := listed.limit
  have word : MAXFILE * BSIZE < 2 ^ 32 := by decide
  rw [node] at type
  have spec := @readi_spec _ _ _ _ holds type (by rw [size]; omega) (16 * k) 16 (by rw [size,Nat.mod_eq_of_lt (by omega)]; omega)
  rw [size,show min 16 (n.size.toNat - 16 * k) = 16 by omega] at spec
  refine post_mono spec (fun bytes s' ⟨read,disk,d,same,edited,mapped,_⟩ => ?_) fun _ ⟨_,lack⟩ =>
    absurd lack (listed.not_short node (by omega))
  subst same
  have data (o : Nat) (low : o < MAXFILE * BSIZE) : content s.disk (v (s.icache dp).inum) o = n.data o := by
    rw [← node]
    exact listed.data o low
  refine ⟨?_,listed.edit table (edited.congr data) mapped (by omega) rfl short,disk,d,rfl⟩
  rw [read]
  exact congrArg some (slice_congr _ fun o low => data _ (by omega))

theorem Listed.write (listed : Listed s dp n limit) {src : List UInt8} {off : Nat} (legal : off ≤ n.size.toNat)
    (inside : off + src.length ≤ limit) : post (writei dp src off) (fun r s' => r = src.length ∧
      Listed s' dp (n.write src off) limit ∧ Beside dp s s') (fun _ => False) s := by
  obtain ⟨v,table⟩ := listed.table
  have holds := table.loaded dp listed.held listed.valid
  have node := holds.node
  have size : (v (s.icache dp).inum).size = n.size := by rw [← node]; exact congrArg Attr.size listed.attr
  have type := listed.regular
  have short := listed.size
  have small := listed.limit
  rw [node] at type
  have spec := writei_spec holds rfl type (by rwa [size]) (inside.trans small)
  rw [size] at spec
  refine post_mono spec (fun r s' ⟨wrote,disk,d,same,edited,mapped,_⟩ => ?_) fun _ ⟨_,lack⟩ =>
    absurd lack (listed.not_short node inside)
  subst same
  have data (o : Nat) (low : o < MAXFILE * BSIZE) : overlay (content s.disk (v (s.icache dp).inum)) off src o =
      (n.write src off).data o := by
    rw [← node]
    exact overlay_congr off src (listed.data o low)
  refine ⟨wrote,listed.edit table (edited.congr data) mapped inside rfl ?_,disk,d,rfl⟩
  rw [sizeAfter_toNat legal (inside.trans small)]
  omega

/-! ### References -/

theorem Listed.cache (listed : Listed s dp n limit) {e : Inode} (dev : 0 < e.ref → e.dev = ROOTDEV) (idle : e.ref = 0 → e.lock = none)
    (unique : 0 < e.ref → ∀ jp, jp ≠ ip → 0 < (s.icache jp).ref → (s.icache jp).inum ≠ e.inum)
    (loaded : 0 < e.ref → e.valid = true → 0 < (s.icache ip).ref ∧ (s.icache ip).valid = true ∧ e.node = (s.icache ip).node ∧
      e.inum = (s.icache ip).inum) (mine : ip = dp → 0 < e.ref ∧ e.valid = true) :
    Listed { s with icache := update s.icache ip e } dp n limit := by
  obtain ⟨v,table⟩ := listed.table
  have here : update s.icache ip e ip = e := update_self ..
  have there {jp : Slot} (other : jp ≠ ip) : update s.icache ip e jp = s.icache jp := update_of_ne other ..
  have node : (update s.icache ip e dp).node = (s.icache dp).node := by
    rcases eq_or_ne ip dp with rfl | other
    · obtain ⟨used,valid⟩ := mine rfl
      rw [here]
      exact (loaded used valid).2.2.1
    · rw [there other.symm]
  have kept : 0 < (update s.icache ip e dp).ref ∧ (update s.icache ip e dp).valid = true := by
    rcases eq_or_ne ip dp with rfl | other
    · rw [here]
      exact mine rfl
    · rw [there other.symm]
      exact ⟨listed.held,listed.valid⟩
  refine ⟨⟨v,table.core,fun jp used valid => ?_,table.small,fun jp kp used used' same => ?_⟩,
    (forall_update_iff s.icache fun _ i => 0 < i.ref → i.dev = ROOTDEV).mpr ⟨dev,fun jp _ => listed.devs jp⟩,
    (forall_update_iff s.icache fun _ i => i.ref = 0 → i.lock = none).mpr ⟨idle,fun jp _ => listed.unused jp⟩,kept.1,kept.2,listed.dir,?_,fun off low => ?_,?_,listed.size,listed.limit⟩
  · rcases eq_or_ne jp ip with rfl | other
    · simp only [here] at used valid ⊢
      obtain ⟨used',valid',same,inum⟩ := loaded used valid
      have holds := table.loaded jp used' valid'
      rw [inum]
      refine ⟨holds.core,holds.inside,?_,holds.type⟩
      show (update s.icache jp e jp).node = _
      rw [here,same]
      exact holds.node
    · simp only [there other] at used valid ⊢
      have holds := table.loaded jp used valid
      refine ⟨holds.core,holds.inside,?_,holds.type⟩
      show (update s.icache ip e jp).node = _
      rw [there other]
      exact holds.node
  · exact once_update (C := fun i j : Inode => 0 < i.ref ∧ 0 < j.ref ∧ i.inum = j.inum)
      (fun _ _ ⟨used,used',same⟩ => ⟨used',used,same.symm⟩) (fun jp kp ⟨used,used',same⟩ => table.unique jp kp used used' same)
      (fun jp other ⟨used,used',same⟩ => unique used' jp other used same) jp kp ⟨used,used',same⟩
  · show (update s.icache ip e dp).node.toAttr = _
    rw [node]
    exact listed.attr
  · show content s.disk (update s.icache ip e dp).node off = _
    rw [node]
    exact listed.data off low
  · show (lacking s.disk (update s.icache ip e dp).node _).card ≤ _
    rw [node]
    exact listed.enough

/-- `iget` has taken a reference to inode `i`: one more to an entry, or the first one to an entry that is not loaded. -/
structure Got (i : Nat) (ip : Slot) (s t : State) : Prop where
  inum : (t.icache ip).inum = i
  used : 0 < (t.icache ip).ref
  dev : (t.icache ip).dev = ROOTDEV
  lock : (t.icache ip).lock = (s.icache ip).lock
  fresh : 0 < (s.icache ip).ref ∧ t = { s with icache := update s.icache ip { s.icache ip with ref := (s.icache ip).ref + 1 } } ∨
    (s.icache ip).ref = 0 ∧ (t.icache ip).ref = 1 ∧ (t.icache ip).valid = false ∧
      t = { s with icache := update s.icache ip (t.icache ip) } ∧ ∀ jp, 0 < (s.icache jp).ref → (s.icache jp).inum ≠ i

/-- An entry of the cache is not in use. -/
def Spare (s : State) : Prop := ∃ ip, (s.icache ip).ref = 0

theorem Listed.iget (listed : Listed s dp n limit) (spare : Spare s) (i : Nat) :
    post (iget ROOTDEV i) (fun ip s' => Got i ip s s' ∧ Listed s' dp n limit) (fun _ => False) s := by
  obtain ⟨v,table⟩ := listed.table
  unfold Xv6.iget
  simp only [post_bind,post_get]
  split
  · next ip found =>
    have this := List.find?_some found
    simp only [Bool.and_eq_true,decide_eq_true_eq,beq_iff_eq] at this
    obtain ⟨⟨used,dev⟩,inum⟩ := this
    rw [post_bind,post_modifyInode,post_pure]
    refine ⟨⟨?_,?_,?_,?_,.inl ⟨used,rfl⟩⟩,listed.cache (fun _ => dev) (fun none' => ?_) (fun _ jp other used' same => ?_) (fun _ valid => ⟨used,valid,rfl,rfl⟩) fun same => ?_⟩
    · simpa using inum
    · simp only [update_self]
      omega
    · simpa using dev
    · simp
    · exact absurd none' (by show ¬(s.icache ip).ref + 1 = 0; omega)
    · exact other (table.unique jp ip used' used same)
    · subst same
      exact ⟨by show 0 < (s.icache ip).ref + 1; omega,listed.valid⟩
  · next none' =>
    have absent (jp : Slot) (used : 0 < (s.icache jp).ref) : (s.icache jp).inum ≠ i := fun same => by
      have this := List.find?_eq_none.mp none' jp (List.mem_finRange jp)
      simp [used,listed.devs jp used,same] at this
    split
    · next ip found =>
      have free : (s.icache ip).ref = 0 := by simpa using List.find?_some found
      rw [post_bind,post_modifyInode,post_pure]
      refine ⟨⟨?_,?_,?_,?_,.inr ⟨free,?_,?_,?_,absent⟩⟩,listed.cache (fun _ => rfl) (fun none' => ?_) (fun _ jp _ used' => absent jp used') (fun _ bad => nomatch bad) fun same => ?_⟩
      · simp
      · simp
      · simp
      · simp
      · simp
      · simp
      · simp
      · cases none'
      · subst same
        have := listed.held
        omega
    · next full =>
      obtain ⟨ip,free⟩ := spare
      have this := List.find?_eq_none.mp full ip (List.mem_finRange ip)
      simp [free] at this

theorem wp_attr_kernel {Q : Attr → State → Prop} (ip : Slot) : wp (kernel p) (call (.attr ip)) Q E s = Q (s.icache ip).node.toAttr s := by
  rw [wp_call]
  rfl

theorem wp_iput_free_kept {Q : Unit → State → Prop} (kept : (t.icache ip).valid = true → (t.icache ip).ref ≠ 1) :
    wp (kernel p) (iput_free ip) Q E t = Q () t := by
  unfold iput_free
  simp only [wp_bind,Refs.wp_kernel,kernelStep,post_bind,post_get,post_pure]
  by_cases valid : (t.icache ip).valid = true
  · rw [if_pos valid,wp_bind,wp_attr_kernel]
    by_cases nolink : (t.icache ip).node.nlink = 0
    · rw [if_pos nolink,wp_bind,Refs.wp_kernel]
      simp only [kernelStep,post_bind,post_get,post_pure]
      rw [if_neg (kept valid)]
      rfl
    · rw [if_neg nolink]
      rfl
  · rw [if_neg valid]
    rfl

theorem wp_iput_kept {Q : Unit → State → Prop} (free : (t.icache ip).lock = none)
    (kept : (t.icache ip).valid = true → (t.icache ip).ref ≠ 1) : wp (kernel p) (iput ip) Q E t =
      Q () { t with icache := update t.icache ip { t.icache ip with ref := (t.icache ip).ref - 1 } } := by
  have may : (kernel p).free (.iput ip) t = true := by
    show (t.icache ip).lock.isNone = true
    rw [free]
    rfl
  unfold iput acquiresleep releasesleep
  simp only [wp_bind,wp_await,may,if_true,Refs.wp_kernel,kernelStep,post_modifyInode]
  rw [wp_iput_free_kept (by simpa using kept)]
  simp only [update_self,update_idem]
  rw [if_pos (by rfl),← free]

theorem Listed.iput (listed : Listed s dp n limit) (got : Got i ip s t) (free : (s.icache ip).lock = none) :
    wp (kernel p) (iput ip) (fun _ u => Listed u dp n limit ∧ ∀ jp, (u.icache jp).ref = (s.icache jp).ref) (fun _ => False) t := by
  have lock : (t.icache ip).lock = none := got.lock.trans free
  rcases got.fresh with ⟨used,same⟩ | ⟨unused,one,unread,same,_⟩
  · have entry : t.icache ip = { s.icache ip with ref := (s.icache ip).ref + 1 } := by rw [same]; exact update_self ..
    rw [wp_iput_kept lock fun _ => by rw [entry]; show ¬(s.icache ip).ref + 1 = 1; omega]
    have back : { t with icache := update t.icache ip { t.icache ip with ref := (t.icache ip).ref - 1 } } = s := by
      rw [entry,same]
      simp
    rw [back]
    exact ⟨listed,fun _ => rfl⟩
  · rw [wp_iput_kept lock fun valid => by rw [unread] at valid; cases valid]
    have back : { t with icache := update t.icache ip { t.icache ip with ref := (t.icache ip).ref - 1 } } =
        { s with icache := update s.icache ip { t.icache ip with ref := 0 } } := by
      rw [one]
      conv_lhs => rw [same]
      simp
    rw [back]
    refine ⟨listed.cache nofun (fun _ => lock) nofun nofun fun same => ?_,fun jp => ?_⟩
    · subst same
      have := listed.held
      omega
    · rcases eq_or_ne jp ip with rfl | other
      · simp [unused]
      · simp [other]

/-! ### `dirlookup` and `dirlink` -/

theorem Listed.entry (listed : Listed s dp n limit) (inside : k < n.count) {u : State} (beside : Beside dp u s) :
    wp (kernel p) (call (.readi dp (16 * k) 16)) (fun bytes s' => bytes = some (slice n.data (16 * k) 16) ∧
      Listed s' dp n limit ∧ Beside dp u s') (fun _ => False) s := by
  rw [Refs.wp_kernel]
  exact post_mono (listed.read inside) (fun bytes s' ⟨read,listed',beside'⟩ => ⟨read,listed',beside.trans beside'⟩) nofun

theorem wp_dirlookup {Q : Option (Slot × Nat) → State → Prop} {I : Nat → State → Prop} (attr : (s.icache dp).node.toAttr = n.toAttr)
    (dir : n.type = T_DIR) (aligned : n.aligned) (start : I 0 s)
    (entry : ∀ t l, I l t → l < n.count → (∀ k, n.find name = some k → l ≤ k) →
      wp (kernel p) (call (.readi dp (16 * l) 16)) (fun bytes t' => bytes = some (slice n.data (16 * l) 16) ∧ I (l + 1) t') E t)
    (absent : ∀ t, I n.count t → n.find name = none → Q none t)
    (found : ∀ t k, I (k + 1) t → n.find name = some k → post (iget (t.icache dp).dev (n.entry k).inum.toNat)
      (fun ip => Q (some (ip,16 * k))) (fun why => E (.panic why)) t) : wp (kernel p) (dirlookup dp name) Q E s := by
  have count : n.count = n.size.toNat / 16 := rfl
  unfold Xv6.dirlookup
  rw [wp_bind,wp_attr_kernel,attr,if_neg (not_not.mpr dir),dirlookup_from_scan]
  rw [find_eq_first] at entry absent found
  refine wp_scan _ 0 start entry (fun _ _ odd => absurd aligned odd) (by omega) (Nat.zero_le _) (fun odd => absurd aligned odd)
    (fun t same nothing _ => absent t same nothing) fun t k same hit => ?_
  simp only [wp_bind,Refs.wp_kernel,kernelStep,post_bind,post_get,post_pure]
  exact found t k same hit

theorem Listed.dirlookup {Q : Option (Slot × Nat) → State → Prop} (listed : Listed s dp n limit) (aligned : n.aligned) (spare : Spare s)
    (absent : ∀ s', Listed s' dp n limit → Beside dp s s' → n.find name = none → Q none s')
    (found : ∀ s' t k ip, Listed s' dp n limit → Beside dp s s' → n.find name = some k →
      Got (n.entry k).inum.toNat ip s' t → Listed t dp n limit → Q (some (ip,16 * k)) t) :
    wp (kernel p) (dirlookup dp name) Q (fun _ => False) s := by
  refine wp_dirlookup (I := fun _ s' => Listed s' dp n limit ∧ Beside dp s s') listed.attr listed.dir aligned ⟨listed,.refl dp s⟩
    (fun s' k same inside _ => same.1.entry inside same.2) (fun s' same nothing => absent s' same.1 same.2 nothing) ?_
  rintro s' k ⟨listed',beside⟩ hit
  have spare' : Spare s' := by
    obtain ⟨ip,free⟩ := spare
    exact ⟨ip,(beside.cache ip).1.trans free⟩
  rw [listed'.devs dp listed'.held]
  exact post_mono (listed'.iget spare' _) (fun ip t got => found s' t k ip listed' beside hit got.1 got.2) fun _ => id

/-- A name that is there is refused, unless the lock of its inode is held: then `iput` waits for it. -/
theorem Listed.dirlink_found (listed : Listed s dp n limit) (aligned : n.aligned) (spare : Spare s) (found : n.find name = some k)
    (inum : Nat) : wp (kernel p) (dirlink dp name inum)
      (fun r t => (∀ jp, 0 < (s.icache jp).ref → (s.icache jp).inum = (n.entry k).inum.toNat → (s.icache jp).lock = none) ∧
        r = false ∧ Listed t dp n limit ∧ Spare t)
      (fun _ => ¬∀ jp, 0 < (s.icache jp).ref → (s.icache jp).inum = (n.entry k).inum.toNat → (s.icache jp).lock = none) s := by
  unfold Xv6.dirlink
  rw [wp_bind]
  refine wp_mono (listed.dirlookup (Q := fun r t => ∃ s' ip, r = some (ip,16 * k) ∧ Listed s' dp n limit ∧ Beside dp s s' ∧
    Got (n.entry k).inum.toNat ip s' t) aligned spare (fun _ _ _ none' => ?_) fun s' t j ip listed' beside found' got _ => ?_)
    (fun r t ⟨s',ip,same,listed',beside,got⟩ => ?_) nofun
  · rw [found] at none'
    cases none'
  · rw [found] at found'
    cases found'
    exact ⟨s',ip,rfl,listed',beside,got⟩
  · subst same
    obtain ⟨ref,inum',lock⟩ := beside.cache ip
    dsimp only
    rw [wp_bind]
    by_cases free : (s'.icache ip).lock = none
    · refine wp_mono (listed'.iput got free) (fun _ u ⟨kept,refs⟩ => ⟨fun jp used same => ?_,rfl,kept,?_⟩) nofun
      · obtain ⟨refj,inumj,lockj⟩ := beside.cache jp
        rw [← refj] at used
        rw [← inumj] at same
        rcases got.fresh with ⟨used',again⟩ | ⟨_,_,_,_,absent⟩
        · have here : (s'.icache ip).inum = (n.entry k).inum.toNat := by
            rw [← got.inum,again]
            simp
          obtain ⟨v,table⟩ := listed'.table
          rw [← lockj,table.unique jp ip used used' (same.trans here.symm)]
          exact free
        · exact absurd same (absent jp used)
      · obtain ⟨jp,none'⟩ := spare
        exact ⟨jp,by rw [refs,(beside.cache jp).1,none']⟩
    · have taken : ¬(kernel p).free (.iput ip) t = true := by
        show ¬(t.icache ip).lock.isNone = true
        rw [got.lock,Option.isNone_iff_eq_none]
        exact free
      unfold Xv6.iput acquiresleep
      simp only [wp_bind,wp_await]
      rw [if_neg taken]
      rcases got.fresh with ⟨used,again⟩ | ⟨unused,_⟩
      · refine fun unlocked => free (lock.trans (unlocked ip (ref ▸ used) (inum' ▸ ?_)))
        rw [← got.inum,again]
        simp
      · exact absurd (listed'.unused ip unused) free

theorem Listed.dirlink_new (listed : Listed s dp n limit) (aligned : n.aligned) (spare : Spare s) (absent : n.find name = none)
    (inside : 16 * n.vacant + 16 ≤ limit) (inum : Nat) : wp (kernel p) (dirlink dp name inum)
      (fun r t => r = true ∧ Listed t dp (n.setEntry n.vacant (newEntry inum name)) limit ∧ Spare t) (fun _ => False) s := by
  have count : n.count = n.size.toNat / 16 := rfl
  have length := encode_length (newEntry inum name) (strncpy_length _ _)
  unfold Xv6.dirlink
  rw [wp_bind]
  refine listed.dirlookup aligned spare (fun s₁ listed₁ beside₁ _ => ?_) fun _ _ _ _ _ _ found => ?_
  · dsimp only
    have attr := listed₁.attr
    rw [wp_bind,wp_attr_kernel,attr,wp_bind,dirlink_off_scan]
    have wrote (s₂ : State) (listed₂ : Listed s₂ dp n limit) (beside₂ : Beside dp s₁ s₂) :
        wp (kernel p) (do
          let r ← call (.writei dp (newEntry inum name).encode (16 * n.vacant))
          if r ≠ 16 then fail "dirlink" else return true)
        (fun r t => r = true ∧ Listed t dp (n.setEntry n.vacant (newEntry inum name)) limit ∧ Spare t) (fun _ => False) s₂ := by
      have low := vacant_le n
      rw [wp_bind,Refs.wp_kernel]
      refine post_mono (@Listed.write _ _ _ _ listed₂ (newEntry inum name).encode _ (by omega) (by omega)) (fun r t ⟨same,listed₃,beside₃⟩ => ?_) nofun
      rw [same,length,if_neg (by decide)]
      obtain ⟨jp,none'⟩ := spare
      exact ⟨rfl,listed₃,jp,by rw [(beside₃.cache jp).1,(beside₂.cache jp).1,(beside₁.cache jp).1,none']⟩
    have vacant := vacant_eq_first n
    refine wp_scan (I := fun _ s' => Listed s' dp n limit ∧ Beside dp s₁ s') _ 0 ⟨listed₁,.refl dp s₁⟩
      (fun s' k ⟨listed',beside⟩ inside _ => listed'.entry inside beside)
      (fun _ _ odd => absurd aligned odd) (by omega) (Nat.zero_le _) (fun odd => absurd aligned odd)
      (fun s' ⟨listed',beside⟩ nothing _ => ?_) fun s' k ⟨listed',beside⟩ hit => ?_
    · rw [nothing,Option.getD_none] at vacant
      have done := wrote s' listed' beside
      rw [vacant] at done
      rw [wp_ret]
      rw [vacant]
      exact done
    · rw [hit,Option.getD_some] at vacant
      have done := wrote s' listed' beside
      rw [vacant] at done
      rw [wp_ret]
      rw [vacant]
      exact done
  · rw [absent] at found
    cases found

/-! ### The map on the kernel -/

/-- The directory that is loaded in an entry of the cache. -/
def listing (s : State) (dp : Slot) : Node := ⟨(s.icache dp).node.toAttr,content s.disk (s.icache dp).node⟩

/-- Two directories have the same entries. -/
structure Alike (n m : Node) : Prop where
  attr : n.toAttr = m.toAttr
  entry : ∀ k < n.count, n.entry k = m.entry k

variable {m : Node}

theorem Alike.count (alike : Alike n m) : n.count = m.count := congrArg (fun a : Attr => a.size.toNat / 16) alike.attr

theorem Alike.live (alike : Alike n m) (k : Nat) : n.live k ↔ m.live k := by
  unfold Node.live
  rw [← alike.count]
  exact and_congr_right fun inside => by rw [alike.entry k inside]

theorem Alike.find (alike : Alike n m) (name : List UInt8) : n.find name = m.find name := by
  unfold Node.find
  rw [← alike.count]
  refine List.find?_congr fun k member => ?_
  rw [alike.entry k (List.mem_range.mp member)]

theorem Alike.lookup (alike : Alike n m) (name : List UInt8) : n.lookup name = m.lookup name := by
  unfold Node.lookup
  rw [← alike.find]
  cases found : n.find name with
  | none => rfl
  | some k => rw [Option.map_some,Option.map_some,alike.entry k (find_some found).1.1]

theorem Listed.alike (listed : Listed s dp n limit) : Alike (listing s dp) n where
  attr := listed.attr
  entry k inside := by
    have size : (listing s dp).size = n.size := congrArg Attr.size listed.attr
    have inside : k < (listing s dp).size.toNat / 16 := inside
    have short := listed.size
    have small := listed.limit
    rw [size] at inside
    exact congrArg Dirent.decode (slice_congr _ fun o low => listed.data _ (by omega))

theorem Listed.of_clean (clean : Clean s) (held : 0 < (s.icache dp).ref) (valid : (s.icache dp).valid = true)
    (dir : (listing s dp).type = T_DIR) (size : (listing s dp).size.toNat ≤ limit) (small : limit ≤ MAXFILE * BSIZE)
    (enough : (lacking s.disk (s.icache dp).node (way 0 limit)).card ≤ (freeBlocks s.sb s.disk).card) :
    Listed s dp (listing s dp) limit := by
  have saved (ip : Slot) := clean.slots ip
  unfold Saved at saved
  refine ⟨clean.table,fun ip used => ?_,fun ip free => ?_,held,valid,dir,rfl,fun _ _ => rfl,enough,size,small⟩
  · have here := saved ip
    rw [if_neg (by omega)] at here
    exact here.2.1
  · have here := saved ip
    rwa [if_pos free] at here

/-- What `dirlookup` answers. -/
def Answers (p : Pid) (s : State) (dp : Slot) (map : List UInt8 → Option Nat) : Prop := ∀ name, ∃ r t,
  exec (kernel p) (dirlookup dp name) s = .ok (r,t) ∧ r.map (fun found => (t.icache found.1).inum) = map name

theorem Listed.answers (listed : Listed s dp n limit) (aligned : n.aligned) (spare : Spare s) : Answers p s dp n.lookup := by
  intro name
  refine wp_returns (listed.dirlookup aligned spare (fun _ _ _ absent => ?_) fun s' t k ip _ _ found got _ => ?_)
  · rw [Node.lookup,absent]
    rfl
  · rw [Node.lookup,found,Option.map_some,Option.map_some,got.inum]

theorem vacant_lt (free : ∃ k < n.count, ¬n.live k) : n.vacant < n.count := by
  obtain ⟨k,inside,dead⟩ := free
  have unused : (n.entry k).inum = 0 := by
    by_contra used
    exact dead ⟨inside,used⟩
  unfold Node.vacant
  cases found : (List.range n.count).find? fun k => (n.entry k).inum = 0 with
  | none => exact absurd unused (by simpa using List.find?_eq_none.mp found k (List.mem_range.mpr inside))
  | some j => exact List.mem_range.mp (List.mem_of_find?_eq_some found)

theorem vacant_place (aligned : n.aligned) : n.vacant < n.count ∨ n.vacant = n.count ∧ n.aligned := by
  rcases (vacant_le n).lt_or_eq with low | last
  · exact .inl low
  · exact .inr ⟨last,aligned⟩

theorem size_setEntry (full : de.name.length = DIRSIZ) (inside : k < n.count) : (n.setEntry k de).size = n.size := by
  have length := encode_length de full
  have inside : k < n.size.toNat / 16 := inside
  unfold Node.setEntry Node.write sizeAfter grows
  rw [if_neg]
  rw [decide_eq_true_eq,length]
  omega

/-- Only entry `k` is not what it was. -/
def OnlyEntry (k : Nat) (n m : Node) : Prop := ∀ j, j ≠ k → (m.live j ↔ n.live j) ∧ (n.live j → m.entry j = n.entry j)

theorem Listed.onlyEntry (listed : Listed t dp (n.setEntry k de) limit) (full : de.name.length = DIRSIZ)
    (inside : k < n.count ∨ k = n.count ∧ n.aligned) (small : 16 * k + 16 ≤ MAXFILE * BSIZE) : OnlyEntry k n (listing t dp) := by
  intro j other
  have live : (n.setEntry k de).live j ↔ n.live j := by rw [live_setEntry n full inside small,if_neg other]
  refine ⟨(listed.alike.live j).trans live,fun here => ?_⟩
  rw [listed.alike.entry j ((listed.alike.live j).mpr (live.mpr here)).1,entry_setEntry n k full,if_neg other]

theorem aligned_setEntry (aligned : n.aligned) (full : de.name.length = DIRSIZ) (inside : k < n.count ∨ k = n.count ∧ n.aligned)
    (small : 16 * k + 16 ≤ MAXFILE * BSIZE) : (n.setEntry k de).aligned := (count_setEntry n full inside small).2 aligned

theorem Listed.dirlookup_at (listed : Listed s dp n limit) (aligned : n.aligned) (spare : Spare s) (found : n.find name = some k) :
    ∃ ip t, exec (kernel p) (Xv6.dirlookup dp name) s = .ok (some (ip,16 * k),t) ∧ Listed t dp n limit := by
  obtain ⟨r,t,ran,ip,rfl,listed'⟩ := wp_returns (listed.dirlookup (p := p) (Q := fun r t => ∃ ip, r = some (ip,16 * k) ∧ Listed t dp n limit)
    aligned spare (fun _ _ _ none' => by rw [found] at none'; cases none') fun s' t j ip _ _ found' _ listed' => by
      rw [found] at found'
      cases found'
      exact ⟨ip,rfl,listed'⟩)
  exact ⟨ip,t,ran,listed'⟩

theorem Listed.clear (listed : Listed s dp n limit) (distinct : n.Distinct) (found : n.find name = some k) :
    ∃ t, writei dp (List.replicate 16 0) (16 * k) s = .ok (16,t) ∧
      Listed t dp (n.setEntry k ⟨0,List.replicate DIRSIZ 0⟩) limit ∧
      ∀ other, (n.setEntry k ⟨0,List.replicate DIRSIZ 0⟩).lookup other = if key other = key name then none else n.lookup other := by
  obtain ⟨live,same⟩ := find_some found
  have inside := live.1
  have count : n.count = n.size.toNat / 16 := rfl
  have short := listed.size
  have small := listed.limit
  have full : (Dirent.mk 0 (List.replicate DIRSIZ 0)).name.length = DIRSIZ := List.length_replicate ..
  obtain ⟨r,t,ran,rfl,listed',_⟩ := post_returns (@Listed.write _ _ _ _ listed (List.replicate 16 0) (16 * k) (by omega)
    (by rw [List.length_replicate]; omega))
  rw [← encode_empty] at listed'
  refine ⟨t,ran,listed',fun other => ?_⟩
  rw [lookup_setEntry distinct full (.inl inside) (by omega) (absurd rfl),same]
  simp [live,eq_comm]

theorem lookup_newEntry {inum : Nat} (distinct : n.Distinct) (aligned : n.aligned) (absent : n.find name = none)
    (fits : 16 * n.vacant + 16 ≤ MAXFILE * BSIZE) (positive : 0 < inum) (small : inum < 65536) (other : List UInt8) :
    (n.setEntry n.vacant (newEntry inum name)).lookup other = if key other = key name then some inum else n.lookup other := by
  have inum' : (newEntry inum name).inum.toNat = inum := UInt16.toNat_ofNat_of_lt' small
  have key' : key (newEntry inum name).name = key name := key_strncpy name
  have absent' : n.find (newEntry inum name).name = none := by
    unfold Node.find at absent ⊢
    rwa [key']
  have used : (newEntry inum name).inum ≠ 0 := fun zero => by
    rw [zero] at inum'
    exact positive.ne inum'
  rw [lookup_setEntry distinct (strncpy_length _ _) (vacant_place aligned) fits fun _ => absent',key',inum']
  simp [used,vacant_free n,eq_comm]

/-- A directory is a finite map on names of fourteen bytes. `dirlookup` reads it; `dirlink` refuses a name that is there,
    exactly if nobody holds the lock of the inode that it found, and adds one that is not, in the first vacant entry; zeroing
    the entry that `dirlookup` found takes its name away. All other entries stay. -/
theorem directory_map {inum : Nat} (clean : Clean s) (held : 0 < (s.icache dp).ref) (valid : (s.icache dp).valid = true)
    (dir : (listing s dp).type = T_DIR) (aligned : (listing s dp).aligned) (distinct : (listing s dp).Distinct) (spare : Spare s)
    (enough : (lacking s.disk (s.icache dp).node (way 0 (listing s dp).size.toNat)).card ≤ (freeBlocks s.sb s.disk).card)
    (legal : 0 < inum ∧ inum < 65536) :
    Answers p s dp (listing s dp).lookup ∧
    (∀ k, (listing s dp).find name = some k →
      ((∃ t, exec (kernel p) (dirlink dp name inum) s = .ok (false,t) ∧ Alike (listing t dp) (listing s dp) ∧
        Answers p t dp (listing s dp).lookup) ↔
      ∀ jp, 0 < (s.icache jp).ref → (s.icache jp).inum = ((listing s dp).entry k).inum.toNat → (s.icache jp).lock = none)) ∧
    (∀ k, (listing s dp).find name = some k →
      ∃ ip s', exec (kernel p) (dirlookup dp name) s = .ok (some (ip,16 * k),s') ∧
      ∃ t, writei dp (List.replicate 16 0) (16 * k) s' = .ok (16,t) ∧ OnlyEntry k (listing s dp) (listing t dp) ∧
        (listing t dp).size = (listing s dp).size ∧
        (∀ other, (listing t dp).lookup other = if key other = key name then none else (listing s dp).lookup other) ∧
        (Spare t → Answers p t dp (listing t dp).lookup)) ∧
    ((listing s dp).find name = none → 16 * (listing s dp).vacant + 16 ≤ MAXFILE * BSIZE →
      (lacking s.disk (s.icache dp).node (way 0 (max (listing s dp).size.toNat (16 * (listing s dp).vacant + 16)))).card ≤
        (freeBlocks s.sb s.disk).card →
      ∃ t, exec (kernel p) (dirlink dp name inum) s = .ok (true,t) ∧ OnlyEntry (listing s dp).vacant (listing s dp) (listing t dp) ∧
        ((∃ k < (listing s dp).count, ¬(listing s dp).live k) → (listing t dp).size = (listing s dp).size) ∧
        Answers p t dp fun other => if key other = key name then some inum else (listing s dp).lookup other) := by
  have saved : (listing s dp).size.toNat ≤ MAXFILE * BSIZE := by
    obtain ⟨v,table⟩ := clean.table
    have holds := table.loaded dp held valid
    have small := table.small _ holds.inside holds.type
    rwa [← holds.node] at small
  have listed := Listed.of_clean clean held valid dir le_rfl saved enough
  have wider := @Listed.of_clean _ _ (max (listing s dp).size.toNat (16 * (listing s dp).vacant + 16)) clean held valid dir
    (le_max_left ..)
  have count : (listing s dp).count = (listing s dp).size.toNat / 16 := rfl
  generalize listing s dp = n at *
  refine ⟨listed.answers aligned spare,fun k found => ?_,fun k found => ?_,fun absent fits enough' => ?_⟩
  · have spec := listed.dirlink_found (p := p) aligned spare found inum
    refine ⟨fun ⟨t,ran,_⟩ => (wp_ok spec ran).1,fun unlocked => ?_⟩
    obtain ⟨r,t,ran,_,rfl,listed',spare'⟩ := wp_returns (wp_mono spec (fun _ _ => id) fun _ bad => bad unlocked)
    exact ⟨t,ran,listed'.alike,listed'.answers aligned spare'⟩
  · obtain ⟨ip,s',ran,there⟩ := listed.dirlookup_at aligned spare found
    obtain ⟨t,wrote,listed',lookup⟩ := there.clear distinct found
    obtain ⟨inside,_⟩ := (find_some found).1
    have full : (Dirent.mk 0 (List.replicate DIRSIZ 0)).name.length = DIRSIZ := List.length_replicate ..
    have small : 16 * k + 16 ≤ MAXFILE * BSIZE := by omega
    refine ⟨ip,s',ran,t,wrote,listed'.onlyEntry full (.inl inside) small,?_,fun other => ?_,fun spare' name => ?_⟩
    · rw [listed'.alike.attr,size_setEntry full inside]
    · rw [listed'.alike.lookup,lookup]
    · rw [listed'.alike.lookup]
      exact listed'.answers (aligned_setEntry aligned full (.inl inside) small) spare' name
  · have listed := wider (max_le saved fits) enough'
    have full : (newEntry inum name).name.length = DIRSIZ := strncpy_length _ _
    obtain ⟨r,t,ran,rfl,listed',spare'⟩ := wp_returns (listed.dirlink_new aligned spare absent (le_max_right ..) inum)
    refine ⟨t,ran,listed'.onlyEntry full (vacant_place aligned) fits,fun free => ?_,fun other => ?_⟩
    · rw [listed'.alike.attr,size_setEntry full (vacant_lt free)]
    · dsimp only
      rw [← lookup_newEntry distinct aligned absent fits legal.1 legal.2]
      exact listed'.answers (aligned_setEntry aligned full (vacant_place aligned) fits) spare' other

theorem distinct_of_names (all : ∀ j < n.count, ∀ k < n.count, key (n.entry j).name = key (n.entry k).name → j = k) : n.Distinct :=
  fun j k live live' => all j live.1 k live'.1

/-- In the root directory of a small image there is an `a`, and a `b` can be linked there. -/
theorem directory_map_forked : Answers 0 Offsets.forked 0 (listing Offsets.forked 0).lookup ∧
    (∃ t, exec (kernel 0) (dirlink 0 [97] 3) Offsets.forked = .ok (false,t)) ∧
    (∃ t, exec (kernel 0) (dirlink 0 [98] 3) Offsets.forked = .ok (true,t) ∧
      Answers 0 t 0 fun other => if key other = key [98] then some 3 else (listing Offsets.forked 0).lookup other) := by
  have map := fun name => @directory_map name _ 0 0 3 Offsets.forked_clean (by decide)
    (by decide) (by decide) (show _ % 16 = 0 by decide) (distinct_of_names (by decide)) ⟨2,by decide⟩ (by decide)
    (by decide)
  refine ⟨(map [97]).1,?_,?_⟩
  · obtain ⟨t,ran,_⟩ := ((map [97]).2.1 2 (by decide)).mpr (by decide)
    exact ⟨t,ran⟩
  · obtain ⟨t,ran,_,_,answers⟩ := (map [98]).2.2.2 (by decide) (by decide) (by decide)
    exact ⟨t,ran,answers⟩

/-! ### A directory that names itself -/

/-- Process 0 has locked the root directory, as `sys_link` does before it calls `dirlink`. -/
def rootLocked : State := Offsets.forked.setLock 0 (some 0)

/-- `dirlookup` finds `.`, and `dirlink` does not return: it waits in `iput` for the lock of the directory, which its caller
    holds. So does `link("a","/.")`. -/
theorem dirlink_dot_blocked : Clean rootLocked ∧ 0 < (rootLocked.icache 0).ref ∧ (rootLocked.icache 0).valid = true ∧
    (rootLocked.icache 0).lock = some 0 ∧ (listing rootLocked 0).type = T_DIR ∧ (listing rootLocked 0).aligned ∧
    (listing rootLocked 0).Distinct ∧ (listing rootLocked 0).lookup dot = some ROOTINO ∧
    exec (kernel 0) (dirlink 0 dot 2) rootLocked = .error (.blocked (.iput 0)) ∧
    exec (kernel 0) ((SysCall.link (some [97]) (some [47,46])).prog 0) (Image.booted Offsets.oneFile) =
      .error (.blocked (.iput 0)) := by
  have clean : Clean rootLocked := by
    refine ⟨?_,?_,by decide,by decide⟩
    · exact Offsets.forked_clean.core
    · exact Offsets.forked_clean.small
  refine ⟨clean,by decide,by decide,by decide,by decide,?_,?_,by decide,?_,?_⟩
  · show _ % 16 = 0
    decide
  · exact distinct_of_names (by decide)
  · exact Image.eq_error (by decide)
  · exact Image.eq_error (by decide)

end Xv6
