import Xv6.Pointers

/-!
The blocks that a transfer takes, and `bmap`: the pointer to a block of an inode, allocated where it is missing.
-/
namespace Xv6
open Xv6.Lib Function

variable {s : State} {v : Nat → Dinode} {ip : Slot} {i : Nat} {disk disk' : Disk} {d : Dinode}

/-! ### The pointers on the way -/

/-- The blocks of a range of bytes. -/
def Touches (off n bn : Nat) : Prop := 0 < n ∧ off / BSIZE ≤ bn ∧ bn * BSIZE < off + n

instance (off n bn : Nat) : Decidable (Touches off n bn) := inferInstanceAs (Decidable (_ ∧ _ ∧ _))

theorem Touches.none {off bn : Nat} : ¬ Touches off 0 bn := fun touches => Nat.lt_irrefl 0 touches.1

theorem Touches.lt {off n bn : Nat} (touches : Touches off n bn) (small : off + n ≤ MAXFILE * BSIZE) : bn < MAXFILE :=
  Nat.lt_of_mul_lt_mul_right (lt_of_lt_of_le touches.2.2 small)

theorem Touches.first {off n : Nat} (some' : 0 < n) : Touches off n (off / BSIZE) := by
  unfold Touches
  rw [BSIZE_eq]
  omega

theorem Touches.rest {off m n bn : Nat} (later : Touches (off + m) (n - m) bn) (small : m ≤ n) : Touches off n bn := by
  unfold Touches at *
  rw [BSIZE_eq] at *
  omega

theorem Touches.cases {off n bn : Nat} (touches : Touches off n bn) :
    bn = off / BSIZE ∨ Touches (off + min n (BSIZE - off % BSIZE)) (n - min n (BSIZE - off % BSIZE)) bn := by
  unfold Touches at *
  rw [BSIZE_eq] at *
  omega

/-- The pointers on the way to block `bn` of a file. -/
def wayTo (bn : Nat) : Finset Nat := if bn < NDIRECT then {bn} else {NDIRECT,bn + 1}

/-- The pointers on the way to the blocks of `n` bytes at `off`. -/
def way (off n : Nat) : Finset Nat := ((Finset.range MAXFILE).filter fun bn => Touches off n bn).biUnion wayTo

theorem mem_way {off n k : Nat} (small : off + n ≤ MAXFILE * BSIZE) : k ∈ way off n ↔ ∃ bn, Touches off n bn ∧ k ∈ wayTo bn := by
  simp only [way,Finset.mem_biUnion,Finset.mem_filter,Finset.mem_range]
  exact ⟨fun ⟨bn,⟨_,touches⟩,on'⟩ => ⟨bn,touches,on'⟩,fun ⟨bn,touches,on'⟩ => ⟨bn,⟨touches.lt small,touches⟩,on'⟩⟩

theorem Touches.mem_way {off n bn : Nat} (touches : Touches off n bn) (small : off + n ≤ MAXFILE * BSIZE) : position bn ∈ way off n := by
  refine (Xv6.mem_way small).mpr ⟨bn,touches,?_⟩
  unfold wayTo position
  split <;> simp

theorem way_zero (off : Nat) : way off 0 = ∅ := by
  ext k
  simp only [way,Finset.mem_biUnion,Finset.mem_filter,Finset.notMem_empty,iff_false]
  exact fun ⟨_,⟨_,touches⟩,_⟩ => Touches.none touches

theorem way_step {off n m : Nat} (some' : 0 < n) (part : min n (BSIZE - off % BSIZE) = m) (small : off + n ≤ MAXFILE * BSIZE) :
    way off n = wayTo (off / BSIZE) ∪ way (off + m) (n - m) := by
  have high : m ≤ n := by omega
  ext k
  rw [Finset.mem_union,mem_way small,mem_way (by omega)]
  constructor
  · intro ⟨bn,touches,on'⟩
    rcases touches.cases with rfl | later
    · exact .inl on'
    · rw [part] at later
      exact .inr ⟨bn,later,on'⟩
  · rintro (on' | ⟨bn,later,on'⟩)
    · exact ⟨_,.first some',on'⟩
    · exact ⟨bn,later.rest high,on'⟩

theorem way_one {off n : Nat} (some' : 0 < n) (direct : off / BSIZE < NDIRECT) (one : off % BSIZE + n ≤ BSIZE)
    (small : off + n ≤ MAXFILE * BSIZE) : way off n = {off / BSIZE} := by
  rw [way_step (m := n) some' (by omega) small,Nat.sub_self,way_zero,Finset.union_empty,wayTo,if_pos direct]

theorem way_append {off m n : Nat} (small : off + (m + n) ≤ MAXFILE * BSIZE) : way off (m + n) = way off m ∪ way (off + m) n := by
  ext k
  rw [Finset.mem_union,mem_way small,mem_way (by omega),mem_way (by omega),← exists_or]
  refine exists_congr fun bn => ?_
  rw [← or_and_right]
  refine and_congr_left fun _ => ?_
  unfold Touches
  rw [BSIZE_eq]
  omega

theorem wayTo_lt {bn k : Nat} (small : bn < MAXFILE) (on' : k ∈ wayTo bn) : k < NPTR := by
  have max : MAXFILE = NDIRECT + NINDIRECT := rfl
  have ptrs : NPTR = NDIRECT + 1 + NINDIRECT := rfl
  unfold wayTo at on'
  split at on'
  · rw [Finset.mem_singleton] at on'
    omega
  · simp only [Finset.mem_insert,Finset.mem_singleton] at on'
    omega

theorem way_lt {off n k : Nat} (small : off + n ≤ MAXFILE * BSIZE) (on' : k ∈ way off n) : k < NPTR := by
  obtain ⟨bn,touches,on'⟩ := (mem_way small).mp on'
  exact wayTo_lt (touches.lt small) on'

/-! ### Blocks for the pointers -/

/-- The pointers among `W` that have no block. -/
def lacking (disk : Disk) (d : Dinode) (W : Finset Nat) : Finset Nat := W.filter fun k => ptr disk d k = 0

/-- The pointers `W` of inode `i` have got their blocks; the bitmap has as many free blocks less as there were lacking. -/
structure Mapped (s : State) (v : Nat → Dinode) (i : Nat) (disk : Disk) (d : Dinode) (W : Finset Nat) : Prop where
  ptrs : ∀ k < NPTR, ptr disk d k ≠ 0 ↔ ptr s.disk (v i) k ≠ 0 ∨ k ∈ W
  count : (freeBlocks s.sb disk).card + (lacking s.disk (v i) W).card = (freeBlocks s.sb s.disk).card

/-- There are not enough free blocks for the pointers `W`. -/
def Short (s : State) (v : Nat → Dinode) (i : Nat) (W : Finset Nat) : Prop :=
  (freeBlocks s.sb s.disk).card < (lacking s.disk (v i) W).card

variable {W W' : Finset Nat}

theorem Mapped.none (s : State) (v : Nat → Dinode) (i : Nat) : Mapped s v i s.disk (v i) ∅ where
  ptrs k _ := by simp
  count := by simp [lacking]

theorem Mapped.there (there : ∀ k ∈ W, ptr s.disk (v i) k ≠ 0) : Mapped s v i s.disk (v i) W where
  ptrs k _ := ⟨.inl,fun | .inl some' => some' | .inr on' => there k on'⟩
  count := by
    have nothing : lacking s.disk (v i) W = ∅ := Finset.filter_eq_empty_iff.mpr fun k on' => there k on'
    rw [nothing,Finset.card_empty,Nat.add_zero]

theorem Mapped.lacking_union (mapped : Mapped s v i disk d W) (inside : ∀ k ∈ W', k < NPTR) :
    (lacking s.disk (v i) (W ∪ W')).card = (lacking s.disk (v i) W).card + (lacking disk d W').card := by
  have rest : lacking s.disk (v i) (W ∪ W') = lacking s.disk (v i) W ∪ lacking disk d W' := by
    ext k
    simp only [lacking,Finset.mem_union,Finset.mem_filter]
    by_cases here : k ∈ W'
    · have now := (mapped.ptrs k (inside k here)).not
      rw [not_or,not_not,not_not] at now
      rw [now]
      tauto
    · tauto
  have apart : Disjoint (lacking s.disk (v i) W) (lacking disk d W') := by
    refine Finset.disjoint_left.mpr fun k first second => ?_
    obtain ⟨on',_⟩ := Finset.mem_filter.mp first
    obtain ⟨on₂,zero⟩ := Finset.mem_filter.mp second
    exact (mapped.ptrs k (inside k on₂)).mpr (.inr on') zero
  rw [rest,Finset.card_union_of_disjoint apart]

theorem Mapped.trans {d' : Dinode} (one : Mapped s v i disk d W) (two : Mapped (s.put disk ip d) (update v i d) i disk' d' W')
    (inside : ∀ k ∈ W', k < NPTR) : Mapped s v i disk' d' (W ∪ W') := by
  obtain ⟨ptrs,count⟩ := two
  rw [update_self] at ptrs count
  refine ⟨fun k small => ?_,?_⟩
  · rw [ptrs k small,show (s.put disk ip d).disk = disk from rfl,one.ptrs k small,Finset.mem_union,or_assoc]
  · have first := one.count
    have counted := one.lacking_union inside
    change _ + (lacking disk d W').card = (freeBlocks s.sb disk).card at count
    change (freeBlocks s.sb disk').card + _ = _ at count
    omega

theorem Short.later (one : Mapped s v i disk d W) (short : Short (s.put disk ip d) (update v i d) i W')
    (inside : ∀ k ∈ W', k < NPTR) : Short s v i (W ∪ W') := by
  unfold Short at short ⊢
  rw [update_self] at short
  change (freeBlocks s.sb disk).card < (lacking disk d W').card at short
  have counted := one.lacking_union inside
  have first := one.count
  omega

theorem Short.mono (short : Short s v i W) (more : W ⊆ W') : Short s v i W' :=
  lt_of_lt_of_le short (Finset.card_le_card (Finset.filter_subset_filter _ more))

theorem Mapped.enough (mapped : Mapped s v i disk d W) : ¬Short s v i W := by
  have := mapped.count
  unfold Short
  omega

/-! ### `bmap` -/

theorem Mapped.one {b k : Nat} (holds : Holds s v ip i) (small : k < NPTR) (none' : own s.sb s.disk v (i,k) = 0)
    (taken : Taken s.sb s.disk disk b) (type : d.type ≠ 0)
    (owns : ∀ l, own s.sb disk (update v i d) l = update (own s.sb s.disk v) (i,k) b l) : Mapped s v i disk d {k} where
  ptrs q inside := by
    have type' : (update v i d i).type ≠ 0 := by rwa [update_self]
    have now := owns (i,q)
    rw [own_of_allocated holds.inside type' inside,update_self] at now
    have low := taken.low
    have positive := holds.core.layout.positive
    rw [now,Finset.mem_singleton]
    rcases eq_or_ne q k with rfl | other
    · rw [update_self]
      exact ⟨fun _ => .inr rfl,fun _ => by omega⟩
    · rw [update_of_ne (fun here => other (Prod.ext_iff.mp here).2),own_of_allocated holds.inside holds.type inside]
      exact ⟨.inl,fun | .inl some' => some' | .inr same => absurd same other⟩
  count := by
    have lacks : lacking s.disk (v i) {k} = {k} := by
      rw [own_of_allocated holds.inside holds.type small] at none'
      rw [lacking,Finset.filter_singleton,if_pos none']
    rw [lacks,Finset.card_singleton]
    exact taken.card_freeBlocks

theorem Short.one {k : Nat} (none' : freeBlocks s.sb s.disk = ∅) (before : ptr s.disk (v i) k = 0) : Short s v i {k} := by
  unfold Short
  rw [none',Finset.card_empty,lacking,Finset.filter_singleton,if_pos before]
  exact Nat.one_pos

theorem bmap_addr_spec (holds : Holds s v ip i) (k : Fin (NDIRECT + 1)) :
    post (bmap_addr ip k) (fun b s' => ∃ disk d, s' = s.put disk ip d ∧ Grown s v i disk d ∧ (d.addrs k).toNat = b ∧
      d.addrs k ≠ 0 ∧ Mapped s v i disk d {k.val} ∧ ((v i).addrs k ≠ 0 → disk = s.disk ∧ d = v i))
      (fun why => Full why ∧ Short s v i {k.val}) s := by
  have small : k.val < NPTR := lt_of_lt_of_le k.isLt NDIRECT_lt_NPTR
  unfold bmap_addr
  simp only [post_bind,post_get,holds.node]
  split
  · next none' =>
    have before : ptr s.disk (v i) k.val = 0 := by
      rw [ptr_direct,none']
      rfl
    have before' : own s.sb s.disk v (i,k.val) = 0 := by rwa [own_of_allocated holds.inside holds.type small]
    rw [post_bind]
    refine post_mono (balloc_spec holds.core) (fun b s' ⟨disk,same,alloc⟩ => ?_) fun _ ⟨full,none'⟩ => ⟨full,.one none' before⟩
    subst same
    have high : b < 2 ^ 31 := lt_trans alloc.high holds.core.layout.small
    have positive := holds.core.layout.positive
    have low := alloc.low
    have owns := own_setAddr holds.core holds.inside holds.type none' alloc
    rw [post_bind,modifyNode,post_modifyInode,post_pure]
    refine ⟨disk,(v i).setAddr k b,?_,?_,?_,?_,.one holds small before' alloc.toTaken holds.type owns,fun some' => absurd none' some'⟩
    · simp only [State.put,Dinode.setAddr,holds.node]
    · exact .of_insert holds small before' alloc.toTaken alloc.zero owns rfl (fun c low => alloc.inodes holds.core.layout low)
        fun l _ some' => alloc.same_owned holds.core some'
    · rw [setAddr_self,toNat_ofNat_lt high]
    · intro zero
      have here : b = 0 := by
        rw [← toNat_ofNat_lt high,← setAddr_self (v i) k b,zero]
        rfl
      omega
  · next some' =>
    refine ⟨s.disk,v i,(put_self holds.node).symm,.refl holds.core,rfl,some',.there fun q on' => ?_,fun _ => ⟨rfl,rfl⟩⟩
    rw [Finset.mem_singleton.mp on',ptr_direct]
    exact fun zero => some' (UInt32.toNat_inj.mp zero)

theorem bmap_entry_spec (holds : Holds s v ip i) (indirect : (v i).addrs (Fin.last NDIRECT) ≠ 0) {n : Nat}
    (small : n < NINDIRECT) :
    post (bmap_entry ((v i).addrs (Fin.last NDIRECT)).toNat n) (fun b s' => ∃ disk, s' = s.put disk ip (v i) ∧
      Grown s v i disk (v i) ∧ ptr disk (v i) (NDIRECT + 1 + n) = b ∧ b ≠ 0 ∧ Mapped s v i disk (v i) {NDIRECT + 1 + n} ∧
      (ptr s.disk (v i) (NDIRECT + 1 + n) ≠ 0 → disk = s.disk)) (fun why => Full why ∧ Short s v i {NDIRECT + 1 + n}) s := by
  have low : NDIRECT + 1 + n < NPTR := Nat.add_lt_add_left small _
  have mine : own s.sb s.disk v (i,NDIRECT) = _ := own_indirect holds.inside holds.type
  have mine' : own s.sb s.disk v (i,NDIRECT) ≠ 0 := by
    rw [mine]
    exact fun zero => indirect (UInt32.toNat_inj.mp zero)
  have read (disk : Disk) : ptr disk (v i) (NDIRECT + 1 + n) =
      (get32 (disk ((v i).addrs (Fin.last NDIRECT)).toNat) (4 * n)).toNat := by
    rw [ptr_entry _ _ (by omega),if_neg indirect,Nat.add_sub_cancel_left]
  unfold bmap_entry
  rw [post_bind,post_bread]
  split
  · next none' =>
    have before : ptr s.disk (v i) (NDIRECT + 1 + n) = 0 := by
      rw [read,none']
      rfl
    have before' : own s.sb s.disk v (i,NDIRECT + 1 + n) = 0 := by rwa [own_of_allocated holds.inside holds.type low]
    rw [post_bind]
    refine post_mono (balloc_spec holds.core) (fun b s₂ ⟨disk,same,alloc⟩ => ?_) fun _ ⟨full,none'⟩ => ⟨full,.one none' before⟩
    subst same
    rw [post_bind,post_log_write,post_pure]
    have owns := own_setEntry holds.core holds.inside holds.type indirect small alloc
    have range := holds.core.partition.range _ mine'
    have apart := holds.core.partition.free alloc.low alloc.high alloc.free (i,NDIRECT)
    have start := holds.core.layout.datastart_low
    have positive := alloc.low
    rw [mine] at apart range
    generalize written : put32 (s.disk ((v i).addrs (Fin.last NDIRECT)).toNat) (4 * n) (UInt32.ofNat b) = bp at owns ⊢
    -- the indirect block is a data block, so the bitmap is as `balloc` left it
    have taken : Taken s.sb s.disk (update disk ((v i).addrs (Fin.last NDIRECT)).toNat bp) b :=
      ⟨alloc.low,alloc.high,alloc.free,fun c high => by
        rw [bitAt_data holds.core.layout range.1 high]
        exact alloc.bits c high⟩
    refine ⟨update disk ((v i).addrs (Fin.last NDIRECT)).toNat bp,?_,?_,?_,by omega,
      .one holds low before' taken holds.type (by rwa [update_eq_self]),fun some' => absurd before some'⟩
    · simp only [State.put,← holds.node,update_eq_self]
    · refine .of_insert holds low before' taken ?_ (by rwa [update_eq_self]) rfl (fun c low' => ?_) fun l leaf some' => ?_
      · rw [update_of_ne (Ne.symm apart)]
        exact alloc.zero
      · rw [update_of_ne (by omega)]
        exact alloc.inodes holds.core.layout low'
      · have other : own s.sb s.disk v l ≠ own s.sb s.disk v (i,NDIRECT) := by
          intro same
          have := holds.core.partition.once _ _ some' same
          exact leaf (by rw [this])
        rw [mine] at other
        rw [update_of_ne other]
        exact alloc.same_owned holds.core some'
    · rw [← own_of_allocated holds.inside holds.type low,owns,update_self]
  · next some' =>
    have there : (get32 (s.disk ((v i).addrs (Fin.last NDIRECT)).toNat) (4 * n)).toNat ≠ 0 := fun zero => some' (UInt32.toNat_inj.mp zero)
    refine ⟨s.disk,(put_self holds.node).symm,.refl holds.core,read s.disk,there,.there fun q on' => ?_,fun _ => rfl⟩
    rw [Finset.mem_singleton.mp on',read]
    exact there

attribute [local irreducible] bmap_entry in
theorem bmap_spec (holds : Holds s v ip i) {bn : Nat} (small : bn < MAXFILE) :
    post (bmap ip bn) (fun b s' => ∃ disk d, s' = s.put disk ip d ∧ Grown s v i disk d ∧ blk disk d bn = b ∧ b ≠ 0 ∧
      Mapped s v i disk d (wayTo bn) ∧ (blk s.disk (v i) bn ≠ 0 → disk = s.disk ∧ d = v i))
      (fun why => Full why ∧ Short s v i (wayTo bn)) s := by
  have max : MAXFILE = NDIRECT + NINDIRECT := rfl
  have ptrs : NPTR = NDIRECT + 1 + NINDIRECT := rfl
  unfold bmap wayTo
  split
  · next direct =>
    have pos : position bn = bn := if_pos direct
    refine post_use (bmap_addr_spec holds ⟨bn,by omega⟩) fun b s' ⟨disk,d,same,grown,here,some',mapped,old⟩ => ?_
    have read (disk : Disk) (d : Dinode) : blk disk d bn = (d.addrs ⟨bn,by omega⟩).toNat := by
      rw [blk,pos]
      exact ptr_direct disk d ⟨bn,by omega⟩
    refine ⟨disk,d,same,grown,by rw [read,here],?_,mapped,fun some₀ => old ?_⟩
    · rw [← here]
      exact fun zero => some' (UInt32.toNat_inj.mp zero)
    · rw [read] at some₀
      exact fun zero => some₀ (by rw [zero]; rfl)
  · next high =>
    have pos : position bn = NDIRECT + 1 + (bn - NDIRECT) := by
      rw [position,if_neg high]
      omega
    have union : ({NDIRECT,bn + 1} : Finset Nat) = {NDIRECT} ∪ {NDIRECT + 1 + (bn - NDIRECT)} := by
      rw [show NDIRECT + 1 + (bn - NDIRECT) = bn + 1 by omega]
      rfl
    have inside : ∀ k ∈ ({NDIRECT + 1 + (bn - NDIRECT)} : Finset Nat), k < NPTR := by
      intro k on'
      rw [Finset.mem_singleton.mp on']
      omega
    rw [if_pos (by omega),post_bind,union]
    refine post_mono (bmap_addr_spec holds (Fin.last NDIRECT)) (fun addr s₁ ⟨disk,d,same,grown,here,some',mapped,old⟩ => ?_)
      fun _ ⟨full,short⟩ => ⟨full,short.mono Finset.subset_union_left⟩
    subst same
    have holds₁ := holds.put grown.core grown.attr
    have indirect : (update v i d i).addrs (Fin.last NDIRECT) ≠ 0 := by rwa [update_self]
    have entry := bmap_entry_spec holds₁ indirect (n := bn - NDIRECT) (by omega)
    rw [update_self,here] at entry
    refine post_mono entry (fun b s₂ ⟨disk₂,same₂,grown₂,here₂,some₂,mapped₂,old₂⟩ => ?_)
      fun _ ⟨full,short⟩ => ⟨full,short.later mapped inside⟩
    refine ⟨disk₂,d,?_,grown.trans grown₂,by rw [blk,pos,here₂],some₂,mapped.trans mapped₂ inside,fun some₀ => ?_⟩
    · rw [same₂]
      simp [State.put]
    · rw [blk,pos] at some₀
      have before : (v i).addrs (Fin.last NDIRECT) ≠ 0 := by
        intro zero
        rw [ptr_entry _ _ (by omega),if_pos zero] at some₀
        exact some₀ rfl
      obtain ⟨rfl,rfl⟩ := old before
      exact ⟨old₂ some₀,rfl⟩

end Xv6
