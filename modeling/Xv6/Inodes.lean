import Xv6.Contents

/-!
Inodes on disk: `iupdate`, `itrunc` and `ialloc`. They change inode blocks and the
bitmap. An inode block holds no data and no pointers to data, so storing an inode
does not move the blocks of any other one.
-/
namespace Xv6
open Xv6.Lib Function

variable {s : State} {v : Nat → Dinode} {ip : Slot} {i : Nat}

/-! ### Storing an inode -/

/-- The inode `i` has been written to its inode block. -/
structure Stored (sb : Superblock) (disk disk' : Disk) (i : Nat) (d : Dinode) : Prop where
  here : dinodeAt sb disk' i = d
  others : ∀ j, j ≠ i → dinodeAt sb disk' j = dinodeAt sb disk j
  same : ∀ c, sb.bmapstart ≤ c → disk' c = disk c
  super : disk' 1 = disk 1

variable {sb : Superblock}

theorem Stored.of_block (lay : Layout sb) (disk : Disk) (inside : sb.iblock i < sb.bmapstart) (d : Dinode) :
    Stored sb disk (update disk (sb.iblock i) (putDinode (disk (sb.iblock i)) (i % IPB) d)) i d where
  here := by
    rw [dinodeAt,update_self]
    exact dinodeIn_putDinode_self _ (Nat.mod_lt _ (by decide)) d
  others j other := by
    unfold dinodeAt
    by_cases block : sb.iblock j = sb.iblock i
    · have apart : j % IPB ≠ i % IPB := by
        intro same
        unfold Superblock.iblock at block
        rw [IPB_eq] at *
        omega
      rw [block,update_self,dinodeIn_putDinode_other _ apart]
    · rw [update_of_ne block]
  same c low := update_of_ne (by omega) ..
  super := update_of_ne (by have := lay.iblock_low i; omega) ..

theorem Stored.of_put (lay : Layout sb) (disk : Disk) (inside : i < sb.ninodes) (d : Dinode) :
    Stored sb disk (update disk (sb.iblock i) (putDinode (disk (sb.iblock i)) (i % IPB) d)) i d :=
  .of_block lay disk (lay.iblock_high inside) d

@[simp] theorem post_modifyNode_put {Q : Unit → State → Prop} {E : String → Prop} (disk : Disk) (d : Dinode)
    (f : Dinode → Dinode) : post (modifyNode ip f) Q E (s.put disk ip d) = Q () (s.put disk ip (f d)) := by
  simp [modifyNode,State.put]

theorem iupdate_spec (lay : Layout s.sb) (inum : (s.icache ip).inum = i) (inside : i < s.sb.ninodes) (disk : Disk)
    (d : Dinode) : post (iupdate ip) (fun _ s' => ∃ disk', s' = s.put disk' ip d ∧ Stored s.sb disk disk' i d)
      (fun _ => False) (s.put disk ip d) := by
  subst inum
  refine ⟨_,rfl,?_⟩
  simp only [State.put,update_self]
  exact .of_put lay disk inside d

section
variable {sb : Superblock} {disk disk' : Disk}

variable {d : Dinode}

theorem Stored.bits (stored : Stored sb disk disk' i d) (b : Nat) : bitAt sb disk' b = bitAt sb disk b := by
  rw [bitAt,bitAt,stored.same _ (Layout.bblock_low b)]

theorem Stored.owned {own : Nat × Nat → Nat} (stored : Stored sb disk disk' i d) (owned : Owned sb disk own) :
    Owned sb disk' own where
  layout := owned.layout
  super := by rw [stored.super]; exact owned.super
  reserved b low := by rw [stored.bits]; exact owned.reserved b low
  partition := owned.partition.congr (fun b _ _ => stored.bits b) fun _ => rfl

theorem ptr_data (core : Core sb disk v) (same : ∀ c, sb.datastart ≤ c → disk' c = disk c) {j : Nat}
    (inside : j < sb.ninodes) (type : (v j).type ≠ 0) (k : Nat) : ptr disk' (v j) k = ptr disk (v j) k :=
  ptr_same inside type (fun some' => same _ (core.partition.range _ some').1) k

theorem own_data (core : Core sb disk v) (same : ∀ c, sb.datastart ≤ c → disk' c = disk c) (l : Nat × Nat) :
    own sb disk' v l = own sb disk v l := by
  obtain ⟨j,k⟩ := l
  by_cases allocated : j < sb.ninodes ∧ (v j).type ≠ 0 ∧ k < NPTR
  · rw [own_of_allocated allocated.1 allocated.2.1 allocated.2.2,own_of_allocated allocated.1 allocated.2.1 allocated.2.2]
    exact ptr_data core same allocated.1 allocated.2.1 k
  · rw [own_eq_zero allocated,own_eq_zero allocated]

theorem content_data (core : Core sb disk v) (same : ∀ c, sb.datastart ≤ c → disk' c = disk c) {j : Nat}
    (inside : j < sb.ninodes) (type : (v j).type ≠ 0) {off : Nat} (small : off < MAXFILE * BSIZE) :
    content disk' (v j) off = content disk (v j) off := by
  have bn : off / BSIZE < MAXFILE := Nat.div_lt_of_lt_mul (by rwa [Nat.mul_comm])
  have block : blk disk' (v j) (off / BSIZE) = blk disk (v j) (off / BSIZE) := ptr_data core same inside type _
  unfold content
  rw [block]
  split
  · rfl
  · next some' =>
    have range := core.partition.range (j,position (off / BSIZE))
    rw [← blk_eq_own inside type bn] at range
    rw [same _ (range some').1]

theorem Stored.core (stored : Stored sb disk disk' i d) (core : Core sb disk v) : Core sb disk' v := by
  have start := core.layout.datastart_low
  have same := funext (own_data core fun c low => stored.same c (by omega))
  unfold Core
  rw [same]
  exact stored.owned core

theorem own_attr (addrs : d.addrs = (v i).addrs) (type : d.type ≠ 0 ↔ (v i).type ≠ 0) (l : Nat × Nat) :
    own sb disk (update v i d) l = own sb disk v l := by
  obtain ⟨j,k⟩ := l
  rcases eq_or_ne j i with rfl | other
  · have same : ptr disk d k = ptr disk (v j) k := by
      unfold ptr
      rw [addrs]
    unfold own
    simp only [update_self,same,type]
  · unfold own
    simp only [update_of_ne other]

end

/-! ### `itrunc` -/

/-- The pointers, without those positions of the inode `i` that are gone. -/
def without (own : Nat × Nat → Nat) (i : Nat) (gone : Nat → Bool) (l : Nat × Nat) : Nat :=
  if l.1 = i ∧ gone l.2 then 0 else own l

/-- Some blocks have been freed; inode blocks and data blocks are as they were. -/
structure Cleared (sb : Superblock) (disk disk' : Disk) (own : Nat × Nat → Nat) : Prop where
  owned : Owned sb disk' own
  same : ∀ c, c < sb.bmapstart ∨ sb.datastart ≤ c → disk' c = disk c

theorem Cleared.trans {disk disk' disk'' : Disk} {own own' : Nat × Nat → Nat}
    (one : Cleared sb disk disk' own) (two : Cleared sb disk' disk'' own') : Cleared sb disk disk'' own' :=
  ⟨two.owned,fun c region => (two.same c region).trans (one.same c region)⟩

theorem bfree_without {own : Nat × Nat → Nat} {gone gone' : Nat → Bool} {k b : Nat}
    (owned : Owned s.sb s.disk (without own i gone)) (there : gone k = false) (here : own (i,k) = b) (some' : b ≠ 0)
    (next : ∀ q, gone' q = (gone q || q == k)) :
    post (bfree b) (fun _ s' => ∃ disk, s' = { s with disk := disk } ∧
      Cleared s.sb s.disk disk (without own i gone')) (fun _ => False) s := by
  have now : without own i gone (i,k) = b := by simp [without,there,here]
  have freed := bfree_owned owned (now.trans_ne some')
  rw [now] at freed
  refine post_use freed fun _ s' ⟨disk,same,owned',region⟩ => ⟨disk,same,?_,region⟩
  have update' : update (without own i gone) (i,k) 0 = without own i gone' := by
    funext l
    rcases eq_or_ne l (i,k) with rfl | other
    · simp [without,next]
    · have apart : ¬(l.1 = i ∧ l.2 = k) := fun both => other (Prod.ext both.1 both.2)
      rw [update_of_ne other]
      unfold without
      by_cases mine : l.1 = i
      · have : l.2 ≠ k := fun same => apart ⟨mine,same⟩
        simp [mine,next,this]
      · simp [mine]
  rwa [update'] at owned'

theorem without_zero {own : Nat × Nat → Nat} {gone gone' : Nat → Bool} {k : Nat} (here : own (i,k) = 0)
    (next : ∀ q, gone' q = (gone q || q == k)) : without own i gone' = without own i gone := by
  funext l
  unfold without
  by_cases this : l = (i,k)
  · subst this; simp [here]
  · by_cases mine : l.1 = i
    · have : l.2 ≠ k := fun same => this (Prod.ext mine same)
      simp [next,this]
    · simp [mine]

theorem itrunc_direct_spec (holds : Holds s v ip i) (n : Nat) (small : n ≤ NDIRECT + 1) :
    post (itrunc_direct ip n) (fun _ s' => ∃ disk d, s' = s.put disk ip d ∧ d.toAttr = (v i).toAttr ∧
      (∀ k : Fin (NDIRECT + 1), d.addrs k = if k.val < n then 0 else (v i).addrs k) ∧
      Cleared s.sb s.disk disk (without (own s.sb s.disk v) i (· < n))) (fun _ => False) s := by
  induction n with
  | zero =>
    refine ⟨s.disk,v i,(put_self holds.node).symm,rfl,fun k => by simp,?_,fun _ _ => rfl⟩
    have same : without (own s.sb s.disk v) i (fun k => decide (k < 0)) = own s.sb s.disk v := by
      funext l
      simp [without]
    rw [same]
    exact holds.core
  | succ n ih =>
    have here : own s.sb s.disk v (i,n) = ((v i).addrs ⟨n,by omega⟩).toNat := by
      rw [own_of_allocated holds.inside holds.type (lt_of_lt_of_le small NDIRECT_lt_NPTR)]
      exact ptr_direct s.disk (v i) ⟨n,by omega⟩
    have next (q : Nat) : decide (q < n + 1) = (decide (q < n) || q == n) := by
      rw [Bool.eq_iff_iff]
      simp
      omega
    unfold itrunc_direct
    rw [post_bind]
    refine post_use (ih (by omega)) ?_
    rintro _ _ ⟨disk,d,rfl,attr,addrs,cleared⟩
    rw [dif_pos (show n < NDIRECT + 1 by omega)]
    simp only [post_bind,post_get]
    have now : ((s.put disk ip d).icache ip).node.addrs ⟨n,by omega⟩ = (v i).addrs ⟨n,by omega⟩ := by
      simp [State.put,addrs]
    rw [now]
    split
    · next some' =>
      have nonzero : ((v i).addrs ⟨n,by omega⟩).toNat ≠ 0 := fun zero => some' (UInt32.toNat_inj.mp zero)
      rw [post_bind]
      refine post_use (bfree_without (s := s.put disk ip d) cleared.owned (by simp) here nonzero next) ?_
      rintro _ _ ⟨disk₂,rfl,cleared₂⟩
      rw [modifyNode,post_modifyInode]
      refine ⟨disk₂,{ d with addrs := update d.addrs ⟨n,by omega⟩ 0 },?_,attr,fun k => ?_,cleared.trans cleared₂⟩
      · simp [State.put]
      · rcases eq_or_ne k ⟨n,by omega⟩ with rfl | other
        · simp
        · have apart : k.val ≠ n := fun same => other (Fin.ext same)
          simp only [update_of_ne other,addrs]
          by_cases low : k.val < n
          · rw [if_pos low,if_pos (by omega)]
          · rw [if_neg low,if_neg (by omega)]
    · next none' =>
      have zero : (v i).addrs ⟨n,by omega⟩ = 0 := by simpa using none'
      refine ⟨disk,d,rfl,attr,fun k => ?_,?_⟩
      · rw [addrs]
        by_cases low : k.val < n
        · rw [if_pos low,if_pos (by omega)]
        · rw [if_neg low]
          by_cases last : k.val < n + 1
          · have this : k = ⟨n,by omega⟩ := Fin.ext (by simp; omega)
            rw [if_pos last,this,zero]
          · rw [if_neg last]
      · rw [without_zero (by rw [here,zero]; rfl) next]
        exact cleared

/-- The positions freed by `n` rounds of the loop over the indirect block. -/
def entriesGone (n q : Nat) : Bool := q < NDIRECT || (NDIRECT < q && q < NDIRECT + 1 + n)

theorem itrunc_entries_spec (own : Nat × Nat → Nat) (bp : Block)
    (entries : ∀ k < NINDIRECT, own (i,NDIRECT + 1 + k) = (get32 bp (4 * k)).toNat)
    (owned : Owned s.sb s.disk (without own i (entriesGone 0))) (n : Nat) (small : n ≤ NINDIRECT) :
    post (itrunc_entries bp n) (fun _ s' => ∃ disk, s' = { s with disk := disk } ∧
      Cleared s.sb s.disk disk (without own i (entriesGone n))) (fun _ => False) s := by
  induction n with
  | zero => exact ⟨s.disk,rfl,owned,fun _ _ => rfl⟩
  | succ n ih =>
    have next (q : Nat) : entriesGone (n + 1) q = (entriesGone n q || q == NDIRECT + 1 + n) := by
      unfold entriesGone
      rw [Bool.eq_iff_iff]
      simp
      omega
    unfold itrunc_entries
    rw [post_bind]
    refine post_use (ih (by omega)) fun _ s₁ ⟨disk,same,cleared⟩ => ?_
    subst same
    split
    · next some' =>
      have nonzero : (get32 bp (4 * n)).toNat ≠ 0 := fun zero => some' (UInt32.toNat_inj.mp zero)
      have there : entriesGone n (NDIRECT + 1 + n) = false := by
        simp [entriesGone]
        omega
      refine post_use (bfree_without (s := { s with disk := disk }) cleared.owned there (entries n (by omega)) nonzero next)
        fun _ s₂ ⟨disk₂,same₂,cleared₂⟩ => ?_
      subst same₂
      exact ⟨disk₂,rfl,cleared.trans cleared₂⟩
    · next none' =>
      have zero : get32 bp (4 * n) = 0 := by simpa using none'
      refine ⟨disk,rfl,?_⟩
      rw [without_zero (by rw [entries n (by omega),zero]; rfl) next]
      exact cleared

theorem without_all {disk : Disk} {gone : Nat → Bool}
    (rest : ∀ k < NPTR, gone k = false → own sb disk v (i,k) = 0) :
    without (own sb disk v) i (fun _ => true) = without (own sb disk v) i gone := by
  funext l
  obtain ⟨j,k⟩ := l
  unfold without
  by_cases mine : j = i
  · subst mine
    cases there : gone k
    · have zero : own sb disk v (j,k) = 0 := by
        by_cases small : k < NPTR
        · exact rest k small there
        · exact own_eq_zero fun both => small both.2.2
      simp [zero]
    · simp
  · simp [mine]

theorem itrunc_indirect_spec (holds : Holds s v ip i) {disk : Disk} {d : Dinode}
    (addrs : ∀ k : Fin (NDIRECT + 1), d.addrs k = if k.val < NDIRECT then 0 else (v i).addrs k)
    (cleared : Cleared s.sb s.disk disk (without (own s.sb s.disk v) i (· < NDIRECT))) :
    post (itrunc_indirect ip) (fun _ s' => ∃ disk₂ d₂, s' = s.put disk₂ ip d₂ ∧ d₂.toAttr = d.toAttr ∧
      (∀ k, d₂.addrs k = 0) ∧ Cleared s.sb s.disk disk₂ (without (own s.sb s.disk v) i fun _ => true))
      (fun _ => False) (s.put disk ip d) := by
  have count : NPTR = NDIRECT + 1 + NINDIRECT := rfl
  have last : d.addrs (Fin.last NDIRECT) = (v i).addrs (Fin.last NDIRECT) := by simp [addrs]
  have zeros (k : Fin (NDIRECT + 1)) (low : k ≠ Fin.last NDIRECT) : d.addrs k = 0 := by
    rw [addrs,if_pos]
    have apart : k.val ≠ NDIRECT := fun same => low (Fin.ext same)
    omega
  have mine : own s.sb s.disk v (i,NDIRECT) = ((v i).addrs (Fin.last NDIRECT)).toNat := own_indirect holds.inside holds.type
  have node : ((s.put disk ip d).icache ip).node = d := by simp [State.put]
  unfold itrunc_indirect
  simp only [post_bind,post_get,node,last]
  split
  · next some' =>
    have nonzero : ((v i).addrs (Fin.last NDIRECT)).toNat ≠ 0 := fun zero => some' (UInt32.toNat_inj.mp zero)
    have range := holds.core.partition.range (i,NDIRECT) (mine.trans_ne nonzero)
    have read : (s.put disk ip d).disk ((v i).addrs (Fin.last NDIRECT)).toNat =
        s.disk ((v i).addrs (Fin.last NDIRECT)).toNat := cleared.same _ (.inr (by rw [← mine]; exact range.1))
    rw [post_bind,post_bread,read,post_bind]
    have entries (k : Nat) (small : k < NINDIRECT) : own s.sb s.disk v (i,NDIRECT + 1 + k) =
        (get32 (s.disk ((v i).addrs (Fin.last NDIRECT)).toNat) (4 * k)).toNat := by
      rw [own_of_allocated holds.inside holds.type (by omega),ptr_entry _ _ (by omega),if_neg some',
        Nat.add_sub_cancel_left]
    have start : entriesGone 0 = fun q => decide (q < NDIRECT) := by
      funext q
      unfold entriesGone
      rw [Bool.eq_iff_iff]
      simp
    have owned : Owned (s.put disk ip d).sb (s.put disk ip d).disk (without (own s.sb s.disk v) i (entriesGone 0)) := by
      rw [start]
      exact cleared.owned
    have loop := itrunc_entries_spec (s := s.put disk ip d) (own s.sb s.disk v) _ entries owned
    have full : NINDIRECT ≤ NINDIRECT := Nat.le_refl _
    generalize NINDIRECT = n at loop count full ⊢
    refine post_use (loop n full) ?_
    rintro _ _ ⟨disk₁,rfl,cleared₁⟩
    have next (q : Nat) : (entriesGone n q || q == NDIRECT) = (entriesGone n q || q == NDIRECT) := rfl
    have there : entriesGone n NDIRECT = false := by simp [entriesGone]
    rw [post_bind]
    refine post_use (bfree_without (s := { s.put disk ip d with disk := disk₁ }) cleared₁.owned there mine nonzero next) ?_
    rintro _ _ ⟨disk₂,rfl,cleared₂⟩
    rw [modifyNode,post_modifyInode]
    refine ⟨disk₂,{ d with addrs := update d.addrs (Fin.last NDIRECT) 0 },?_,rfl,fun k => ?_,?_⟩
    · simp [State.put]
    · rcases eq_or_ne k (Fin.last NDIRECT) with rfl | low
      · simp
      · simp only [update_of_ne low,zeros k low]
    · rw [without_all fun k small there => ?_]
      · exact (cleared.trans cleared₁).trans cleared₂
      · simp [entriesGone] at there
        omega
  · next none' =>
    have zero : (v i).addrs (Fin.last NDIRECT) = 0 := by simpa using none'
    refine ⟨disk,d,rfl,rfl,fun k => ?_,?_⟩
    · rcases eq_or_ne k (Fin.last NDIRECT) with rfl | low
      · rw [last,zero]
      · exact zeros k low
    · rw [without_all fun k small there => ?_]
      · exact cleared
      · have high : NDIRECT ≤ k := by simpa using there
        rcases Nat.eq_or_lt_of_le high with rfl | more
        · rw [mine,zero]; rfl
        · rw [own_of_allocated holds.inside holds.type small,ptr_entry _ _ more,if_pos zero]

theorem Cleared.dinodeAt {disk disk' : Disk} {own : Nat × Nat → Nat}
    (cleared : Cleared sb disk disk' own) {j : Nat} (inside : j < sb.ninodes) :
    dinodeAt sb disk' j = dinodeAt sb disk j := by
  rw [Xv6.dinodeAt,Xv6.dinodeAt,cleared.same _ (.inl (cleared.owned.layout.iblock_high inside))]

theorem itrunc_spec (holds : Holds s v ip i) (inum : (s.icache ip).inum = i) :
    post (itrunc ip) (fun _ s' => ∃ disk d, s' = s.put disk ip d ∧ d.toAttr = { (v i).toAttr with size := 0 } ∧
      (∀ k, d.addrs k = 0) ∧ Owned s.sb disk (without (own s.sb s.disk v) i fun _ => true) ∧
      (∀ j < s.sb.ninodes, j ≠ i → dinodeAt s.sb disk j = dinodeAt s.sb s.disk j) ∧
      ∀ c, s.sb.datastart ≤ c → disk c = s.disk c) (fun _ => False) s := by
  unfold itrunc
  rw [post_bind]
  refine post_use (itrunc_direct_spec holds NDIRECT (Nat.le_succ _)) fun _ s₁ ⟨disk,d,same,attr,addrs,cleared⟩ => ?_
  subst same
  rw [post_bind]
  refine post_use (itrunc_indirect_spec holds addrs cleared) fun _ s₂ ⟨disk₂,d₂,same₂,attr₂,zeros,cleared₂⟩ => ?_
  subst same₂
  rw [post_bind,post_modifyNode_put]
  refine post_use (iupdate_spec holds.core.layout inum holds.inside disk₂ _) fun _ s₃ ⟨disk₃,same₃,stored⟩ => ?_
  subst same₃
  have start := holds.core.layout.datastart_low
  refine ⟨disk₃,{ d₂ with size := 0 },rfl,by simp [attr₂,attr],zeros,stored.owned cleared₂.owned,
    fun j inside other => ?_,fun c low => ?_⟩
  · exact (stored.others j other).trans (cleared₂.dinodeAt inside)
  · exact (stored.same c (le_trans (Nat.le_of_lt start) low)).trans (cleared₂.same c (.inr low))

/-- The on-disk inode that `iput` leaves when it frees one. -/
def Dinode.freed (d : Dinode) : Dinode := ⟨{ d.toAttr with type := 0, size := 0 },fun _ => 0⟩

theorem ifree_spec (holds : Holds s v ip i) (inum : (s.icache ip).inum = i) :
    post (ifree ip) (fun _ s' => ∃ disk, s' = { s with
        disk := disk
        icache := update s.icache ip { s.icache ip with node := (v i).freed, valid := false } } ∧
      Core s.sb disk (update v i (v i).freed) ∧ dinodeAt s.sb disk i = (v i).freed ∧
      (∀ j < s.sb.ninodes, j ≠ i → dinodeAt s.sb disk j = dinodeAt s.sb s.disk j) ∧
      ∀ c, s.sb.datastart ≤ c → disk c = s.disk c) (fun _ => False) s := by
  unfold ifree
  rw [post_bind]
  refine post_use (itrunc_spec holds inum) fun _ s₁ ⟨disk,d,same,attr,zeros,owned,others,data⟩ => ?_
  subst same
  have node : ({ d with type := 0 } : Dinode) = (v i).freed := by
    refine Dinode.ext ?_ ?_ ?_ ?_ ?_ (funext zeros) <;> simp [attr,Dinode.freed]
  rw [post_bind,post_modifyNode_put,node,post_bind]
  refine post_use (iupdate_spec holds.core.layout inum holds.inside disk _) fun _ s₂ ⟨disk₂,same₂,stored⟩ => ?_
  subst same₂
  rw [post_modifyInode]
  have start := holds.core.layout.datastart_low
  have data₂ (c : Nat) (low : s.sb.datastart ≤ c) : disk₂ c = s.disk c :=
    (stored.same c (le_trans (Nat.le_of_lt start) low)).trans (data c low)
  refine ⟨disk₂,?_,?_,stored.here,fun j inside other => (stored.others j other).trans (others j inside other),data₂⟩
  · simp [State.put]
  · have owns : own s.sb disk₂ (update v i (v i).freed) = without (own s.sb s.disk v) i fun _ => true := by
      funext l
      obtain ⟨j,k⟩ := l
      rcases eq_or_ne j i with rfl | other
      · rw [own_eq_zero]
        · simp [without]
        · simp [Dinode.freed]
      · rw [without,if_neg (by simp [other]),← own_data holds.core data₂]
        simp [own,other]
    unfold Core
    rw [owns]
    exact stored.owned owned

/-! ### `ialloc` -/

/-- The on-disk inode of a type that `ialloc` writes. -/
def Dinode.fresh (type : UInt16) : Dinode := ⟨⟨type,0,0,0,0⟩,fun _ => 0⟩

/-- The first free inode of a range of inode numbers. -/
def freeInode (free : Nat → Bool) : Nat → Nat → Option Nat
  | 0,_ => none
  | n + 1,inum => if free inum then some inum else freeInode free n (inum + 1)

theorem freeInode_some {free : Nat → Bool} {n start i : Nat} (found : freeInode free n start = some i) :
    start ≤ i ∧ i < start + n ∧ free i = true := by
  induction n generalizing start with
  | zero => cases found
  | succ n ih =>
    unfold freeInode at found
    split at found
    · next here =>
      cases found
      exact ⟨Nat.le_refl _,by omega,here⟩
    · obtain ⟨low,high,here⟩ := ih found
      exact ⟨by omega,by omega,here⟩

theorem ialloc_from_spec (core : Core s.sb s.disk v) (type : UInt16) (free : Nat → Bool) (n inum : Nat)
    (decides : ∀ j < s.sb.ninodes, free j = decide ((dinodeAt s.sb s.disk j).type = 0)) :
    post (ialloc_from type n inum) (fun j s' => freeInode free (min n (s.sb.ninodes - inum)) inum = some j ∧
      inum ≤ j ∧ j < s.sb.ninodes ∧ (dinodeAt s.sb s.disk j).type = 0 ∧
      ∃ disk, s' = { s with disk := disk } ∧ Stored s.sb s.disk disk j (.fresh type))
      (fun why => why = "ialloc: no inodes" ∧ freeInode free (min n (s.sb.ninodes - inum)) inum = none) s := by
  induction n generalizing inum with
  | zero => exact ⟨rfl,by simp [freeInode]⟩
  | succ n ih =>
    unfold ialloc_from
    simp only [post_bind,post_get]
    split
    · next inside =>
      have count : min (n + 1) (s.sb.ninodes - inum) = min n (s.sb.ninodes - (inum + 1)) + 1 := by omega
      rw [count,freeInode]
      split
      · next zero =>
        rw [post_bind,post_bread,post_bind,post_log_write,post_pure]
        have here : free inum = true := by rw [decides inum inside]; simpa using zero
        rw [if_pos here]
        exact ⟨rfl,Nat.le_refl _,inside,zero,_,rfl,.of_put core.layout s.disk inside _⟩
      · next taken =>
        have here : ¬free inum = true := by rw [decides inum inside]; simpa using taken
        rw [if_neg here]
        exact post_use (ih (inum + 1)) fun j s' ⟨found,low,rest⟩ => ⟨found,by omega,rest⟩
    · next outside =>
      have count : min (n + 1) (s.sb.ninodes - inum) = 0 := by omega
      rw [count]
      exact ⟨rfl,rfl⟩

theorem own_fresh {disk : Disk} {type : UInt16} (free : (v i).type = 0) (l : Nat × Nat) :
    own sb disk (update v i (.fresh type)) l = own sb disk v l := by
  obtain ⟨j,k⟩ := l
  rcases eq_or_ne j i with rfl | other
  · have none' : own sb disk v (j,k) = 0 := own_eq_zero fun both => both.2.1 free
    rw [none',own]
    simp [Dinode.fresh,ptr]
  · simp [own,other]

end Xv6
