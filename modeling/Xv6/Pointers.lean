import Xv6.Alloc

/-!
The pointers of the inodes, and what changes when one of them gets a block.
-/
namespace Xv6
open Xv6.Lib Function

variable {sb : Superblock} {disk disk' : Disk} {v v' : Nat → Dinode}

/-! ### Pointers of the allocated inodes -/

theorem own_of_allocated {i k : Nat} (inside : i < sb.ninodes) (type : (v i).type ≠ 0) (small : k < NPTR) :
    own sb disk v (i,k) = ptr disk (v i) k := if_pos ⟨inside,type,small⟩

theorem own_eq_zero {i k : Nat} (free : ¬(i < sb.ninodes ∧ (v i).type ≠ 0 ∧ k < NPTR)) : own sb disk v (i,k) = 0 :=
  if_neg free

theorem NDIRECT_lt_NPTR : NDIRECT < NPTR := by decide

theorem blk_eq_own {i bn : Nat} (inside : i < sb.ninodes) (type : (v i).type ≠ 0) (small : bn < MAXFILE) :
    blk disk (v i) bn = own sb disk v (i,position bn) := (own_of_allocated inside type (position_lt small)).symm

theorem own_indirect {i : Nat} (inside : i < sb.ninodes) (type : (v i).type ≠ 0) :
    own sb disk v (i,NDIRECT) = ((v i).addrs (Fin.last NDIRECT)).toNat := by
  rw [own_of_allocated inside type NDIRECT_lt_NPTR]
  exact ptr_direct disk (v i) (Fin.last NDIRECT)

theorem ptr_same {i : Nat} (inside : i < sb.ninodes) (type : (v i).type ≠ 0)
    (same : own sb disk v (i,NDIRECT) ≠ 0 → disk' (own sb disk v (i,NDIRECT)) = disk (own sb disk v (i,NDIRECT)))
    (k : Nat) : ptr disk' (v i) k = ptr disk (v i) k := by
  rw [own_indirect inside type] at same
  exact ptr_congr (fun some' => same fun zero => some' (UInt32.toNat_inj.mp zero)) k

theorem Core.grow (core : Core sb disk v) {b : Nat} {key : Nat × Nat} (none' : own sb disk v key = 0)
    (alloc : Taken sb disk disk' b) (super : disk' 1 = disk 1)
    (owns : ∀ l, own sb disk' v' l = update (own sb disk v) key b l) : Core sb disk' v' where
  layout := core.layout
  super := by rw [super]; exact core.super
  reserved c low := by
    have := core.layout.data
    have := alloc.low
    rw [alloc.bits c (by omega),if_neg (by omega)]
    exact core.reserved c low
  partition := by
    refine (core.partition.insert core.layout.positive none' alloc.low alloc.high alloc.free).congr ?_ owns
    intro c _ high
    rw [alloc.bits c high]
    by_cases here : c = b
    · subst here; simp
    · rw [if_neg here,update_of_ne here]

theorem content_grow (core : Core sb disk v) {b : Nat} {key : Nat × Nat} (none' : own sb disk v key = 0)
    (alloc : Taken sb disk disk' b) (zero : disk' b = fun _ => 0)
    (owns : ∀ l, own sb disk' v' l = update (own sb disk v) key b l)
    (same : ∀ l, l.2 ≠ NDIRECT → own sb disk v l ≠ 0 → disk' (own sb disk v l) = disk (own sb disk v l))
    {j : Nat} (inside : j < sb.ninodes) (type : (v j).type ≠ 0) (type' : (v' j).type ≠ 0) {off : Nat}
    (small : off < MAXFILE * BSIZE) : content disk' (v' j) off = content disk (v j) off := by
  have bn : off / BSIZE < MAXFILE := Nat.div_lt_of_lt_mul (by rwa [Nat.mul_comm])
  unfold content
  rw [blk_eq_own inside type bn,blk_eq_own inside type' bn,owns]
  by_cases here : (j,position (off / BSIZE)) = key
  · have positive := core.layout.positive
    have low := alloc.low
    rw [here,update_self,none',if_pos rfl,if_neg (by omega),zero]
    unfold byteAt
    split <;> rfl
  · rw [update_of_ne here]
    by_cases some' : own sb disk v (j,position (off / BSIZE)) = 0
    · rw [if_pos some',if_pos some']
    · rw [same _ (position_ne_last _) some']

/-- An inode with one of its own pointers set. -/
def Dinode.setAddr (d : Dinode) (k : Fin (NDIRECT + 1)) (b : Nat) : Dinode :=
  { d with addrs := update d.addrs k (UInt32.ofNat b) }

theorem setAddr_self (d : Dinode) (k : Fin (NDIRECT + 1)) (b : Nat) : (d.setAddr k b).addrs k = UInt32.ofNat b :=
  update_self ..

theorem toNat_ofNat_lt {b : Nat} (small : b < 2 ^ 31) : (UInt32.ofNat b).toNat = b :=
  UInt32.toNat_ofNat_of_lt' (lt_trans small (by decide))

theorem Allocated.same_owned (core : Core sb disk v) {b : Nat} (alloc : Allocated sb disk disk' b) {l : Nat × Nat}
    (some' : own sb disk v l ≠ 0) : disk' (own sb disk v l) = disk (own sb disk v l) := by
  have inside := core.partition.range l some'
  exact alloc.same _ (core.partition.free alloc.low alloc.high alloc.free l) (.inr inside.1)

theorem own_setAddr (core : Core sb disk v) {i b : Nat} (inside : i < sb.ninodes) (type : (v i).type ≠ 0)
    {k : Fin (NDIRECT + 1)} (none' : (v i).addrs k = 0) (alloc : Allocated sb disk disk' b) (l : Nat × Nat) :
    own sb disk' (update v i ((v i).setAddr k b)) l = update (own sb disk v) (i,k.val) b l := by
  obtain ⟨j,q⟩ := l
  have small : b < 2 ^ 31 := lt_trans alloc.high core.layout.small
  have kept (j : Nat) (inside : j < sb.ninodes) (type : (v j).type ≠ 0) := ptr_same inside type
    (alloc.same_owned (l := (j,NDIRECT)) core)
  have allocated : (i < sb.ninodes ∧ (v i).type ≠ 0 ∧ k.val < NPTR) :=
    ⟨inside,type,lt_of_lt_of_le k.isLt NDIRECT_lt_NPTR⟩
  rcases eq_or_ne j i with rfl | other
  · have type' : (update v j ((v j).setAddr k b) j).type ≠ 0 := by rwa [update_self]
    by_cases high : q < NPTR
    · rw [own_of_allocated inside type' high,update_self]
      by_cases here : q = k.val
      · subst here
        rw [update_self,ptr_direct]
        simp [Dinode.setAddr,toNat_ofNat_lt small]
      · have apart : (j,q) ≠ (j,k.val) := by simpa using here
        rw [update_of_ne apart,own_of_allocated inside type high]
        by_cases direct : q < NDIRECT + 1
        · have ne : (⟨q,direct⟩ : Fin (NDIRECT + 1)) ≠ k := fun same => here (congrArg Fin.val same)
          rw [show q = (⟨q,direct⟩ : Fin (NDIRECT + 1)).val from rfl,ptr_direct,ptr_direct,Dinode.setAddr]
          simp only [update_of_ne ne]
        · rw [ptr_entry _ _ (by omega)]
          by_cases last : k = Fin.last NDIRECT
          · -- the indirect block itself is fresh: its entries are zero
            subst last
            have before : ptr disk (v j) q = 0 := by rw [ptr_entry _ _ (by omega),if_pos none']
            have entries : get32 (disk' b) (4 * (q - (NDIRECT + 1))) = 0 := by
              rw [alloc.zero,get32,getLE]
              have zeros : leNat (fun k => byteAt (fun _ => 0 : Block) (4 * (q - (NDIRECT + 1)) + k)) 4 = 0 := by
                simp [leNat,byteAt]
              rw [zeros]
              rfl
            rw [before]
            simp [Dinode.setAddr,toNat_ofNat_lt small,entries]
          · have keep : ((v j).setAddr k b).addrs (Fin.last NDIRECT) = (v j).addrs (Fin.last NDIRECT) := by
              simp [Dinode.setAddr,Ne.symm last]
            rw [keep,← kept j inside type,ptr_entry _ _ (by omega)]
    · rw [own_eq_zero (by tauto),update_of_ne,own_eq_zero (by tauto)]
      intro same
      have here : q = k.val := (Prod.ext_iff.mp same).2
      exact high (here ▸ allocated.2.2)
  · have apart : (j,q) ≠ (i,k.val) := fun same => other (Prod.ext_iff.mp same).1
    rw [update_of_ne apart]
    by_cases alloc' : j < sb.ninodes ∧ (v j).type ≠ 0 ∧ q < NPTR
    · have type' : (update v i ((v i).setAddr k b) j).type ≠ 0 := by rw [update_of_ne other]; exact alloc'.2.1
      rw [own_of_allocated alloc'.1 type' alloc'.2.2,own_of_allocated alloc'.1 alloc'.2.1 alloc'.2.2,
        update_of_ne other,kept j alloc'.1 alloc'.2.1]
    · rw [own_eq_zero alloc',own_eq_zero (by rwa [update_of_ne other])]

/-- An inode with an entry of its indirect block set: block `c` is its indirect block. -/
theorem own_setEntry (core : Core sb disk v) {i b : Nat} (inside : i < sb.ninodes) (type : (v i).type ≠ 0)
    (indirect : (v i).addrs (Fin.last NDIRECT) ≠ 0) {n : Nat} (small : n < NINDIRECT)
    (alloc : Allocated sb disk disk' b) (l : Nat × Nat) :
    own sb (update disk' ((v i).addrs (Fin.last NDIRECT)).toNat
        (put32 (disk ((v i).addrs (Fin.last NDIRECT)).toNat) (4 * n) (UInt32.ofNat b))) v l =
      update (own sb disk v) (i,NDIRECT + 1 + n) b l := by
  have high : b < 2 ^ 31 := lt_trans alloc.high core.layout.small
  have mine : own sb disk v (i,NDIRECT) = _ := own_indirect inside type
  have mine' : own sb disk v (i,NDIRECT) ≠ 0 := by
    rw [mine]
    exact fun zero => indirect (UInt32.toNat_inj.mp zero)
  have count : NPTR = NDIRECT + 1 + NINDIRECT := rfl
  have words : 4 * NINDIRECT = BSIZE := rfl
  obtain ⟨j,q⟩ := l
  by_cases allocated : j < sb.ninodes ∧ (v j).type ≠ 0 ∧ q < NPTR
  · rw [own_of_allocated allocated.1 allocated.2.1 allocated.2.2]
    rcases eq_or_ne j i with rfl | other
    · by_cases low : q ≤ NDIRECT
      · have apart : (j,q) ≠ (j,NDIRECT + 1 + n) := by
          simp only [ne_eq,Prod.mk.injEq,true_and]
          omega
        rw [update_of_ne apart,own_of_allocated allocated.1 allocated.2.1 allocated.2.2]
        have direct : q < NDIRECT + 1 := by omega
        rw [show q = (⟨q,direct⟩ : Fin (NDIRECT + 1)).val from rfl,ptr_direct,ptr_direct]
      · rw [ptr_entry _ _ (by omega),if_neg indirect,update_self]
        by_cases here : q = NDIRECT + 1 + n
        · subst here
          rw [update_self,Nat.add_sub_cancel_left,get32_put32 _ (by omega),toNat_ofNat_lt high]
        · have apart : (j,q) ≠ (j,NDIRECT + 1 + n) := by simpa using here
          rw [update_of_ne apart,own_of_allocated allocated.1 allocated.2.1 allocated.2.2,
            ptr_entry _ _ (by omega),if_neg indirect,get32_put32_apart _ (by omega)]
    · have apart : (j,q) ≠ (i,NDIRECT + 1 + n) := fun same => other (Prod.ext_iff.mp same).1
      rw [update_of_ne apart,own_of_allocated allocated.1 allocated.2.1 allocated.2.2]
      refine ptr_same allocated.1 allocated.2.1 (fun some' => ?_) q
      have ne : own sb disk v (j,NDIRECT) ≠ own sb disk v (i,NDIRECT) := fun same =>
        other (Prod.ext_iff.mp (core.partition.once _ _ some' same)).1
      rw [← mine,update_of_ne ne]
      exact alloc.same_owned core some'
  · have apart : (j,q) ≠ (i,NDIRECT + 1 + n) := by
      rintro same
      have left : j = i := (Prod.ext_iff.mp same).1
      have right : q = NDIRECT + 1 + n := (Prod.ext_iff.mp same).2
      subst left
      exact allocated ⟨inside,type,by omega⟩
    rw [own_eq_zero allocated,update_of_ne apart,own_eq_zero allocated]

/-! ### One inode changes -/

/-- The cache entry `ip` holds the allocated inode `i`, and the inodes `v` partition the blocks. -/
structure Holds (s : State) (v : Nat → Dinode) (ip : Slot) (i : Nat) : Prop where
  core : Core s.sb s.disk v
  inside : i < s.sb.ninodes
  node : (s.icache ip).node = v i
  type : (v i).type ≠ 0

/-- The state with another disk and another copy of the inode in an entry of the cache. -/
def State.put (s : State) (disk : Disk) (ip : Slot) (d : Dinode) : State :=
  { s with disk := disk, icache := update s.icache ip ({ s.icache ip with node := d }) }

/-- The inode `i` is now `d` and has the contents `file`; the other inodes are as they were. -/
structure Written (s : State) (v : Nat → Dinode) (i : Nat) (disk : Disk) (d : Dinode) (file : Nat → UInt8) : Prop where
  core : Core s.sb disk (update v i d)
  attr : d.toAttr = (v i).toAttr
  mine : ∀ off < MAXFILE * BSIZE, content disk d off = file off
  others : ∀ j < s.sb.ninodes, j ≠ i → (v j).type ≠ 0 → ∀ off < MAXFILE * BSIZE,
    content disk (v j) off = content s.disk (v j) off
  blocks : ∀ j < s.sb.ninodes, j ≠ i → (v j).type ≠ 0 → ∀ k < NPTR, ptr disk (v j) k = ptr s.disk (v j) k
  inodes : ∀ c, c < s.sb.bmapstart → disk c = s.disk c
  kept : ∀ k < NPTR, ptr s.disk (v i) k ≠ 0 → ptr disk d k = ptr s.disk (v i) k

/-- Blocks have been allocated for the inode `i`, which is now `d`; nothing else has changed. -/
abbrev Grown (s : State) (v : Nat → Dinode) (i : Nat) (disk : Disk) (d : Dinode) : Prop :=
  Written s v i disk d (content s.disk (v i))

variable {s : State} {ip : Slot} {i : Nat}

theorem Grown.refl (core : Core s.sb s.disk v) : Grown s v i s.disk (v i) where
  core := by rwa [update_eq_self]
  attr := rfl
  mine _ _ := rfl
  others _ _ _ _ _ _ := rfl
  blocks _ _ _ _ _ _ := rfl
  inodes _ _ := rfl
  kept _ _ _ := rfl

theorem put_self (node : (s.icache ip).node = v i) : s.put s.disk ip (v i) = s := by
  unfold State.put
  rw [← node,update_eq_self]

theorem Holds.put (holds : Holds s v ip i) {disk : Disk} {d : Dinode} (core : Core s.sb disk (update v i d))
    (attr : d.toAttr = (v i).toAttr) : Holds (s.put disk ip d) (update v i d) ip i where
  core := core
  inside := holds.inside
  node := by simp [State.put]
  type := by
    rw [update_self,attr]
    exact holds.type

theorem Written.trans {disk' : Disk} {d d' : Dinode} {file file' : Nat → UInt8} (one : Written s v i disk d file)
    (two : Written (s.put disk ip d) (update v i d) i disk' d' file') : Written s v i disk' d' file' where
  core := by simpa [State.put] using two.core
  attr := by simpa [one.attr] using two.attr
  mine := two.mine
  others j inside other type off small := by
    have later := two.others j inside other (by rwa [update_of_ne other]) off small
    rw [update_of_ne other] at later
    rw [later]
    exact one.others j inside other type off small
  blocks j inside other type k small := by
    have later := two.blocks j inside other (by rwa [update_of_ne other]) k small
    rw [update_of_ne other] at later
    rw [later]
    exact one.blocks j inside other type k small
  inodes c low := (two.inodes c low).trans (one.inodes c low)
  kept k small some' := by
    have same := one.kept k small some'
    have := two.kept k small (by rw [update_self]; simpa [State.put,same] using some')
    rw [update_self] at this
    rw [this]
    exact same

theorem Written.congr {d : Dinode} {file file' : Nat → UInt8} (written : Written s v i disk d file)
    (same : ∀ off < MAXFILE * BSIZE, file off = file' off) : Written s v i disk d file' :=
  { written with mine := fun off small => (written.mine off small).trans (same off small) }

theorem Grown.trans {disk' : Disk} {d d' : Dinode} (one : Grown s v i disk d)
    (two : Grown (s.put disk ip d) (update v i d) i disk' d') : Grown s v i disk' d' := by
  refine (Written.trans one two).congr fun off small => ?_
  rw [update_self]
  exact one.mine off small

/-- One pointer position of the inode has got a zeroed block. -/
theorem Grown.of_insert (holds : Holds s v ip i) {disk : Disk} {d : Dinode} {b k : Nat} (small : k < NPTR)
    (none' : own s.sb s.disk v (i,k) = 0) (alloc : Taken s.sb s.disk disk b) (zero : disk b = fun _ => 0)
    (owns : ∀ l, own s.sb disk (update v i d) l = update (own s.sb s.disk v) (i,k) b l)
    (attr : d.toAttr = (v i).toAttr) (inodes : ∀ c, c < s.sb.bmapstart → disk c = s.disk c)
    (same : ∀ l, l.2 ≠ NDIRECT → own s.sb s.disk v l ≠ 0 → disk (own s.sb s.disk v l) = s.disk (own s.sb s.disk v l)) :
    Grown s v i disk d where
  core := holds.core.grow none' alloc (inodes 1 holds.core.layout.bmapstart_low) owns
  attr := attr
  mine off small := by
    have := content_grow holds.core none' alloc zero owns same holds.inside holds.type
      (by rw [update_self,attr]; exact holds.type) small
    rwa [update_self] at this
  others j inside other type off small := by
    have := content_grow holds.core none' alloc zero owns same inside type (by rwa [update_of_ne other]) small
    rwa [update_of_ne other] at this
  blocks j inside other type q small := by
    have type' : (update v i d j).type ≠ 0 := by rwa [update_of_ne other]
    have apart : (j,q) ≠ (i,k) := fun here => other (Prod.ext_iff.mp here).1
    have now := owns (j,q)
    rwa [own_of_allocated inside type' small,update_of_ne apart,own_of_allocated inside type small,
      update_of_ne other] at now
  inodes := inodes
  kept q small' some' := by
    have type' : (update v i d i).type ≠ 0 := by rw [update_self,attr]; exact holds.type
    have now : own s.sb disk _ _ = _ := own_of_allocated holds.inside type' small'
    have before : own s.sb s.disk _ _ = _ := own_of_allocated holds.inside holds.type small'
    rw [update_self] at now
    have apart : (i,q) ≠ (i,k) := by
      intro here
      have : q = k := (Prod.ext_iff.mp here).2
      subst this
      exact some' (before ▸ none')
    rw [← now,owns,update_of_ne apart,before]

theorem Allocated.inodes {b : Nat} (lay : Layout sb) (alloc : Allocated sb disk disk' b) {c : Nat}
    (low : c < sb.bmapstart) : disk' c = disk c := by
  have := lay.datastart_low
  have := alloc.low
  exact alloc.same c (by omega) (.inl low)

end Xv6
