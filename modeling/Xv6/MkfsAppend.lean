import Xv6.Mkfs

/-!
What `iappend` does to the image.
-/
namespace Xv6
open Xv6.Lib Function

theorem Written.own_kept {s : State} {v : Nat → Dinode} {i : Nat} {disk : Disk} {d : Dinode} {file : Nat → UInt8}
    (written : Written s v i disk d file) {l : Nat × Nat} (some' : own s.sb s.disk v l ≠ 0) :
    own s.sb disk (update v i d) l = own s.sb s.disk v l := by
  obtain ⟨j,k⟩ := l
  by_cases allocated : j < s.sb.ninodes ∧ (v j).type ≠ 0 ∧ k < NPTR
  · obtain ⟨inside,type,small⟩ := allocated
    rw [own_of_allocated inside type small] at some' ⊢
    rcases eq_or_ne j i with rfl | other
    · have type' : (update v j d j).type ≠ 0 := by rw [update_self,written.attr]; exact type
      rw [own_of_allocated inside type' small,update_self]
      exact written.kept k small some'
    · have type' : (update v i d j).type ≠ 0 := by rwa [update_of_ne other]
      rw [own_of_allocated inside type' small,update_of_ne other]
      exact written.blocks j inside other type k small
  · exact absurd (own_eq_zero allocated) some'

namespace Mkfs

theorem layout : Layout sb := by decide

theorem datastart_eq : sb.datastart = nmeta := rfl
theorem nmeta_eq : nmeta = 59 := rfl
theorem FSSIZE_eq : FSSIZE = 1000 := rfl
theorem bmapstart_eq : sb.bmapstart = 58 := rfl
theorem ninodes_eq : sb.ninodes = 200 := rfl

/-! ### The bitmap -/

theorem setBits_bit {n : Nat} (small : n ≤ BPB) (k : Nat) : bitIn (setBits n) k = decide (k < n) := by
  induction n with
  | zero =>
    simp only [setBits,bitIn,byteAt]
    split <;> simp
  | succ n ih =>
    rw [setBits,bitIn_set _ (by omega),ih (by omega)]
    by_cases here : k = n
    · simp [here]
    · rw [if_neg here]
      simp only [decide_eq_decide]
      omega

/-- The image with the bitmap of the blocks that are taken. -/
def vdisk (s : Fs) : Disk := update s.img sb.bmapstart (setBits s.freeblock)

theorem vdisk_of_ne (s : Fs) {b : Nat} (other : b ≠ sb.bmapstart) : vdisk s b = s.img b := update_of_ne other ..

theorem bitAt_vdisk {s : Fs} (high : s.freeblock ≤ FSSIZE) {b : Nat} (inside : b < FSSIZE) :
    bitAt sb (vdisk s) b = decide (b < s.freeblock) := by
  have size := FSSIZE_eq
  have bits := BPB_eq
  have block : sb.bblock b = sb.bmapstart := by
    rw [Superblock.bblock,Nat.div_eq_of_lt (by omega),Nat.zero_add]
  unfold bitAt vdisk
  rw [block,update_self,setBits_bit (by omega),Nat.mod_eq_of_lt (by omega)]

/-! ### The invariant -/

/-- A write has gone where it belongs: an inode to its inode block, the data of an inode to a block that it points to. -/
def Fine (s : Fs) (v : Nat → Dinode) (w : Use × Nat) : Prop :=
  match w.1 with
  | .zeroes => w.2 < FSSIZE
  | .super => w.2 = 1
  | .inode i => w.2 = sb.iblock i ∧ i < s.freeinode
  | .indirect i => ∃ k, own sb (vdisk s) v (i,k) = w.2 ∧ w.2 ≠ 0
  | .data i => ∃ k, own sb (vdisk s) v (i,k) = w.2 ∧ w.2 ≠ 0
  | .bitmap => w.2 = sb.bmapstart

/-- The image while the inodes are `v`, of which one may be in memory. -/
structure Img (s : Fs) (v : Nat → Dinode) : Prop where
  len : s.len = FSSIZE
  core : Core sb (vdisk s) v
  low : nmeta ≤ s.freeblock
  high : s.freeblock ≤ FSSIZE
  zero : ∀ b, s.freeblock ≤ b → s.img b = fun _ => 0
  log : ∀ w ∈ s.log, Fine s v w

variable {s s' : Fs} {v v' : Nat → Dinode} {i : Nat} {d : Dinode}

theorem Fine.kept {w : Use × Nat} (fine : Fine s v w) (inodes : s.freeinode ≤ s'.freeinode)
    (same : ∀ l, own sb (vdisk s) v l ≠ 0 → own sb (vdisk s') v' l = own sb (vdisk s) v l) : Fine s' v' w := by
  obtain ⟨use,sec⟩ := w
  cases use with
  | inode i => exact ⟨fine.1,lt_of_lt_of_le fine.2 inodes⟩
  | indirect i | data i =>
    obtain ⟨k,here,some'⟩ := fine
    exact ⟨k,(same _ (by rwa [here])).trans here,some'⟩
  | _ => exact fine

/-- A kernel state with the disk, which has the inode in its cache. -/
def stub (disk : Disk) (d : Dinode) : State where
  sb := sb
  disk := disk
  icache _ := ⟨ROOTDEV,0,1,none,true,d⟩
  tables := bootTables
  devsw _ := ⟨none,none⟩

/-- The inode `i` has been written in memory, and the image is that of the new one. -/
structure Wrote (s : Fs) (v : Nat → Dinode) (i : Nat) (s' : Fs) (d : Dinode) (file : Nat → UInt8) : Prop where
  img : Img s' (update v i d)
  written : Written (stub (vdisk s) (v i)) v i (vdisk s') d file
  inodes : s'.freeinode = s.freeinode

theorem Img.holds (img : Img s v) (inside : i < sb.ninodes) (type : (v i).type ≠ 0) :
    Holds (stub (vdisk s) (v i)) v 0 i := ⟨img.core,inside,rfl,type⟩

theorem Wrote.refl (img : Img s v) (i : Nat) : Wrote s v i s (v i) (content (vdisk s) (v i)) :=
  ⟨by rwa [update_eq_self],Grown.refl img.core,rfl⟩

theorem Wrote.trans {d' : Dinode} {s'' : Fs} {file file' : Nat → UInt8} (one : Wrote s v i s' d file)
    (two : Wrote s' (update v i d) i s'' d' file') : Wrote s v i s'' d' file' := by
  have written : Written ((stub (vdisk s) (v i)).put (vdisk s') 0 d) (update v i d) i (vdisk s'') d' file' :=
    ⟨two.written.core,two.written.attr,two.written.mine,two.written.others,two.written.blocks,two.written.inodes,
      two.written.kept⟩
  refine ⟨?_,one.written.trans written,two.inodes.trans one.inodes⟩
  have img := two.img
  rwa [update_idem] at img

theorem Wrote.congr {file file' : Nat → UInt8} (wrote : Wrote s v i s' d file)
    (same : ∀ off < MAXFILE * BSIZE, file off = file' off) : Wrote s v i s' d file' :=
  { wrote with written := wrote.written.congr same }

/-! ### Taking a block -/

/-- The image with one more block taken. -/
def Fs.taken (s : Fs) : Fs := { s with freeblock := s.freeblock + 1 }

theorem Img.allocated (img : Img s v) (room : s.freeblock < FSSIZE) :
    Allocated sb (vdisk s) (vdisk s.taken) s.freeblock where
  low := img.low
  high := room
  free := by simp [bitAt_vdisk img.high room]
  bits c inside := by
    rw [bitAt_vdisk (s := s.taken) room inside,bitAt_vdisk img.high inside]
    show decide (c < s.freeblock + 1) = _
    by_cases here : c = s.freeblock
    · simp [here]
    · rw [if_neg here]
      simp only [decide_eq_decide]
      omega
  zero := by
    have low := img.low
    rw [vdisk_of_ne _ (by rw [bmapstart_eq]; rw [nmeta_eq] at low; omega)]
    exact img.zero _ (le_refl _)
  same c other region := by
    have low := img.low
    rw [bmapstart_eq,datastart_eq,nmeta_eq] at region
    rw [vdisk_of_ne _ (by rw [bmapstart_eq]; omega),vdisk_of_ne _ (by rw [bmapstart_eq]; omega)]
    rfl

variable {disk disk' : Disk}

theorem ptr_of_own {b k : Nat} (inside : i < sb.ninodes) (type : (v i).type ≠ 0)
    (attr : d.toAttr = (v i).toAttr)
    (owns : ∀ l, own sb disk' (update v i d) l = update (own sb disk v) (i,k) b l) {q : Nat} (small : q < NPTR) :
    ptr disk' d q = if q = k then b else ptr disk (v i) q := by
  have type' : (update v i d i).type ≠ 0 := by rw [update_self,attr]; exact type
  have now := owns (i,q)
  rw [own_of_allocated inside type' small,update_self] at now
  rw [now]
  by_cases here : q = k
  · rw [if_pos here,here,update_self]
  · rw [if_neg here,update_of_ne (by simpa using here),own_of_allocated inside type small]

theorem Img.taken_pointer (img : Img s v) (inside : i < sb.ninodes) (type : (v i).type ≠ 0) (room : s.freeblock < FSSIZE)
    {k : Fin (NDIRECT + 1)} (none' : (v i).addrs k = 0) :
    Wrote s v i s.taken ((v i).setAddr k s.freeblock) (content (vdisk s) (v i)) ∧
    ∀ q < NPTR, ptr (vdisk s.taken) ((v i).setAddr k s.freeblock) q =
      if q = k.val then s.freeblock else ptr (vdisk s) (v i) q := by
  have holds := img.holds inside type
  have alloc := img.allocated room
  have small : k.val < NPTR := lt_of_lt_of_le k.isLt NDIRECT_lt_NPTR
  have before : own sb (vdisk s) v (i,k.val) = 0 := by
    rw [own_of_allocated inside type small,ptr_direct,none']
    rfl
  have grown : Grown (stub (vdisk s) (v i)) v i (vdisk s.taken) ((v i).setAddr k s.freeblock) :=
    .of_insert holds small before alloc.toTaken alloc.zero (own_setAddr img.core inside type none' alloc) rfl
      (fun c low => alloc.inodes layout low) fun l _ some' => alloc.same_owned img.core some'
  refine ⟨⟨⟨img.len,grown.core,?_,room,?_,fun w listed => ?_⟩,grown,rfl⟩,fun q high => ?_⟩
  · exact le_trans img.low (Nat.le_succ _)
  · exact fun b high => img.zero b (le_trans (Nat.le_succ _) high)
  · exact (img.log w listed).kept (le_refl _) fun l some' => grown.own_kept some'
  · exact ptr_of_own (d := (v i).setAddr k s.freeblock) inside type rfl (own_setAddr img.core inside type none' alloc) high

/-- The image with a block written. -/
def Fs.put (s : Fs) (use : Use) (b : Nat) (buf : Block) : Fs :=
  { s with img := update s.img b buf, log := s.log ++ [(use,b)] }

theorem vdisk_put {use : Use} {b : Nat} {buf : Block} (other : b ≠ sb.bmapstart) :
    vdisk (s.put use b buf) = update (vdisk s) b buf := update_comm other ..

theorem Img.range (img : Img s v) {l : Nat × Nat} (some' : own sb (vdisk s) v l ≠ 0) :
    nmeta ≤ own sb (vdisk s) v l ∧ own sb (vdisk s) v l < s.freeblock := by
  obtain ⟨low,high⟩ := img.core.partition.range l some'
  have used := img.core.partition.inUse some'
  rw [bitAt_vdisk img.high high] at used
  exact ⟨low,by simpa using used⟩

theorem Img.taken_entry (img : Img s v) (inside : i < sb.ninodes) (type : (v i).type ≠ 0) (room : s.freeblock < FSSIZE)
    {a : Nat} (indirect : ((v i).addrs (Fin.last NDIRECT)).toNat = a) (some' : a ≠ 0) {n : Nat} (small : n < NINDIRECT)
    (none' : ptr (vdisk s) (v i) (NDIRECT + 1 + n) = 0) :
    let s' := s.taken.put (.indirect i) a (put32 (s.img a) (4 * n) (UInt32.ofNat s.freeblock))
    Wrote s v i s' (v i) (content (vdisk s) (v i)) ∧
    ∀ q < NPTR, ptr (vdisk s') (v i) q = if q = NDIRECT + 1 + n then s.freeblock else ptr (vdisk s) (v i) q := by
  intro s'
  have holds := img.holds inside type
  have alloc := img.allocated room
  have low : NDIRECT + 1 + n < NPTR := Nat.add_lt_add_left small _
  have mine : own sb (vdisk s) v (i,NDIRECT) = a := by rw [own_indirect inside type,indirect]
  have nonzero : (v i).addrs (Fin.last NDIRECT) ≠ 0 := by
    intro zero
    rw [zero] at indirect
    exact some' indirect.symm
  have range := img.range (l := (i,NDIRECT)) (by rwa [mine])
  rw [mine,nmeta_eq] at range
  have apart : a ≠ sb.bmapstart := by rw [bmapstart_eq]; omega
  have disk : vdisk s' = update (vdisk s.taken) a (put32 (vdisk s a) (4 * n) (UInt32.ofNat s.freeblock)) := by
    rw [vdisk_put apart,vdisk_of_ne s apart]
  have owns := own_setEntry img.core inside type nonzero small alloc
  rw [indirect,← disk] at owns
  have before : own sb (vdisk s) v (i,NDIRECT + 1 + n) = 0 := by rwa [own_of_allocated inside type low]
  have grown : Grown (stub (vdisk s) (v i)) v i (vdisk s') (v i) := by
    have taken : Taken sb (vdisk s) (vdisk s') s.freeblock :=
      ⟨alloc.low,alloc.high,alloc.free,fun c high => by
        rw [disk,bitAt_data layout (by rw [datastart_eq,nmeta_eq]; omega) high]
        exact alloc.bits c high⟩
    refine .of_insert holds low before taken ?_ (by rwa [update_eq_self]) rfl (fun c low' => ?_) fun l leaf some₁ => ?_
    · rw [disk,update_of_ne (by omega)]
      exact alloc.zero
    · have below : c < sb.bmapstart := low'
      rw [bmapstart_eq] at below
      rw [disk,update_of_ne (by omega)]
      exact alloc.inodes layout low'
    · have other : own sb (vdisk s) v l ≠ a := by
        intro same
        have := img.core.partition.once _ _ some₁ (same.trans mine.symm)
        exact leaf (by rw [this])
      show vdisk s' (own sb (vdisk s) v l) = _
      rw [disk,update_of_ne other]
      exact alloc.same_owned img.core some₁
  refine ⟨⟨?_,grown,rfl⟩,fun q high => ptr_of_own (d := v i) inside type rfl (by rwa [update_eq_self]) high⟩
  refine ⟨img.len,grown.core,le_trans img.low (Nat.le_succ _),room,fun b high => ?_,fun w listed => ?_⟩
  · have high : s.freeblock + 1 ≤ b := high
    show update s.img a _ b = _
    rw [update_of_ne (by omega)]
    exact img.zero b (by omega)
  · rcases List.mem_append.mp listed with old | new
    · exact (img.log w old).kept (le_refl _) fun l some' => grown.own_kept some'
    · obtain rfl := List.mem_singleton.mp new
      refine ⟨NDIRECT,?_,some'⟩
      have kept := grown.own_kept (l := (i,NDIRECT)) (show own sb (vdisk s) v (i,NDIRECT) ≠ 0 by rwa [mine])
      exact kept.trans mine

/-! ### The block for an offset -/

section
variable {E : String → Prop}

variable {sec : Nat}

theorem sector_eq (small : sec < 2 ^ 23) : sector sec = sec := by
  unfold sector
  rw [BSIZE_eq]
  omega

theorem post_wsect {Q : Unit → Fs → Prop} (len : s.len = FSSIZE) (use : Use) (small : sec < FSSIZE) (buf : Block) :
    post (wsect use sec buf) Q E s = Q () (s.put use sec buf) := by
  have size := FSSIZE_eq
  have same : max s.len (sec + 1) = s.len := by omega
  unfold wsect
  rw [post_modify,sector_eq (by omega),same]
  rfl

theorem post_rsect {Q : Block → Fs → Prop} (len : s.len = FSSIZE) (small : sec < FSSIZE) :
    post (rsect sec) Q E s = Q (s.img sec) s := by
  have size := FSSIZE_eq
  unfold rsect
  rw [post_bind,post_get,sector_eq (by omega),if_pos (by omega)]
  rfl

theorem post_rsect_end {Q : Block → Fs → Prop} (len : s.len = FSSIZE) (small : sec < 2 ^ 23) (past : FSSIZE ≤ sec) :
    post (rsect sec) Q E s = E "read" := by
  unfold rsect
  rw [post_bind,post_get,sector_eq small,if_neg (by omega)]
  rfl

@[simp] theorem post_takeBlock {Q : Nat → Fs → Prop} : post takeBlock Q E s = Q s.freeblock s.taken := rfl

end

/-- The blocks that an inode lacks for the `fbn`-th block of its file. -/
def lacks (disk : Disk) (d : Dinode) (fbn : Nat) : Nat :=
  (if blk disk d fbn = 0 then 1 else 0) + if NDIRECT ≤ fbn ∧ d.addrs (Fin.last NDIRECT) = 0 then 1 else 0

/-- The pointers on the way to the `fbn`-th block of a file. -/
def OnWay (fbn k : Nat) : Prop := k = position fbn ∨ NDIRECT ≤ fbn ∧ k = NDIRECT

/-- The inode has the `fbn`-th block of its file, which is `x`. -/
structure Found (s : Fs) (v : Nat → Dinode) (i fbn : Nat) (s' : Fs) (d : Dinode) (x : Nat) : Prop where
  wrote : Wrote s v i s' d (content (vdisk s) (v i))
  here : blk (vdisk s') d fbn = x
  some' : x ≠ 0
  count : s'.freeblock = s.freeblock + lacks (vdisk s) (v i) fbn
  ptrs : ∀ k < NPTR, ptr (vdisk s') d k ≠ 0 ↔ ptr (vdisk s) (v i) k ≠ 0 ∨ OnWay fbn k

/-- There is no room for the block: its number is past the end of the image. -/
structure Past (s : Fs) (v : Nat → Dinode) (i fbn : Nat) (s' : Fs) (x : Nat) : Prop where
  len : s'.len = FSSIZE
  past : FSSIZE ≤ x
  small : x < 2 ^ 23
  full : FSSIZE < s.freeblock + lacks (vdisk s) (v i) fbn

variable {fbn : Nat}

theorem Found.old (img : Img s v) (some' : blk (vdisk s) (v i) fbn ≠ 0)
    (way : NDIRECT ≤ fbn → (v i).addrs (Fin.last NDIRECT) ≠ 0) : Found s v i fbn s (v i) (blk (vdisk s) (v i) fbn) where
  wrote := .refl img i
  here := rfl
  some' := some'
  count := by
    unfold lacks
    rw [if_neg some',if_neg (by tauto)]
    rfl
  ptrs k small := by
    constructor
    · exact .inl
    · rintro (there | rfl | ⟨high,rfl⟩)
      · exact there
      · exact some'
      · intro zero
        have last := ptr_direct (vdisk s) (v i) (Fin.last NDIRECT)
        exact way high (UInt32.toNat_inj.mp (last.symm.trans zero))

theorem iappend_addr_spec (d : Dinode) (k : Fin (NDIRECT + 1)) :
    post (iappend_addr d k) (fun d' s' => d.addrs k ≠ 0 ∧ d' = d ∧ s' = s ∨
      d.addrs k = 0 ∧ d' = d.setAddr k s.freeblock ∧ s' = s.taken) (fun _ => False) s := by
  unfold iappend_addr
  split
  · next none' => exact .inr ⟨none',rfl,rfl⟩
  · next some' => exact .inl ⟨some',rfl,rfl⟩

theorem direct_spec (img : Img s v) (inside : i < sb.ninodes) (type : (v i).type ≠ 0) (direct : fbn < NDIRECT) :
    post (iappend_block i (v i) fbn) (fun r s' => Found s v i fbn s' r.1 r.2 ∨ Past s v i fbn s' r.2)
      (fun _ => False) s := by
  have read (disk : Disk) (d : Dinode) : blk disk d fbn = (d.addrs ⟨fbn,by omega⟩).toNat := by
    rw [blk,show position fbn = fbn from if_pos direct]
    exact ptr_direct disk d ⟨fbn,by omega⟩
  unfold iappend_block
  rw [dif_pos direct,post_bind]
  refine post_use (iappend_addr_spec _ _) fun d s' ends => ?_
  rw [post_pure]
  rcases ends with ⟨some',rfl,rfl⟩ | ⟨none',rfl,rfl⟩
  · left
    have nonzero : blk (vdisk s') (v i) fbn ≠ 0 := by
      rw [read]
      exact fun zero => some' (UInt32.toNat_inj.mp zero)
    have found := Found.old img nonzero fun high => absurd direct (by omega)
    rwa [read] at found
  · have size := FSSIZE_eq
    have high := img.high
    have low := img.low
    have value : (((v i).setAddr ⟨fbn,by omega⟩ s.freeblock).addrs ⟨fbn,by omega⟩).toNat = s.freeblock := by
      rw [setAddr_self,toNat_ofNat_lt (by omega)]
    have lacking : lacks (vdisk s) (v i) fbn = 1 := by
      unfold lacks
      rw [if_pos (by rw [read,none']; rfl),if_neg (by omega)]
    rw [value]
    by_cases room : s.freeblock < FSSIZE
    · left
      obtain ⟨wrote,ptrs⟩ := img.taken_pointer inside type room none'
      refine ⟨wrote,by rw [read,value],by rw [nmeta_eq] at low; omega,by rw [lacking]; rfl,fun k small => ?_⟩
      rw [ptrs k small]
      unfold OnWay
      rw [show position fbn = fbn from if_pos direct]
      rw [nmeta_eq] at low
      by_cases here : k = fbn
      · subst here
        rw [if_pos rfl]
        exact iff_of_true (by omega) (.inr (.inl rfl))
      · rw [if_neg here]
        constructor
        · exact .inl
        · rintro (there | same | ⟨high,_⟩)
          · exact there
          · exact absurd same here
          · omega
    · right
      exact ⟨img.len,not_lt.mp room,by omega,by omega⟩

theorem position_indirect (high : NDIRECT ≤ fbn) : position fbn = NDIRECT + 1 + (fbn - NDIRECT) := by
  rw [position,if_neg (by omega)]
  omega

theorem entry_spec (img : Img s v) (inside : i < sb.ninodes) (type : (v i).type ≠ 0) (indirect : NDIRECT ≤ fbn)
    (small : fbn < MAXFILE) (way : (v i).addrs (Fin.last NDIRECT) ≠ 0) :
    post (iappend_entry i (v i) (fbn - NDIRECT)) (fun x s' => Found s v i fbn s' (v i) x ∨ Past s v i fbn s' x)
      (fun _ => False) s := by
  have size := FSSIZE_eq
  have max : MAXFILE = NDIRECT + NINDIRECT := rfl
  have high := img.high
  have low := img.low
  have pos := position_indirect indirect
  obtain ⟨a,here⟩ : ∃ a, ((v i).addrs (Fin.last NDIRECT)).toNat = a := ⟨_,rfl⟩
  have nonzero : a ≠ 0 := by
    rw [← here]
    exact fun zero => way (UInt32.toNat_inj.mp zero)
  have mine : own sb (vdisk s) v (i,NDIRECT) = a := by rw [own_indirect inside type,here]
  have range := img.range (l := (i,NDIRECT)) (by rwa [mine])
  rw [mine,nmeta_eq] at range
  have read : blk (vdisk s) (v i) fbn = (get32 (s.img a) (4 * (fbn - NDIRECT))).toNat := by
    rw [blk,pos,ptr_entry _ _ (by omega),if_neg way,here,Nat.add_sub_cancel_left,
      vdisk_of_ne _ (by rw [bmapstart_eq]; omega)]
  unfold iappend_entry
  rw [here,post_bind,post_rsect img.len (by omega)]
  split
  · next none' =>
    have missing : blk (vdisk s) (v i) fbn = 0 := by rw [read,none']; rfl
    have lacking : lacks (vdisk s) (v i) fbn = 1 := by
      unfold lacks
      rw [if_pos missing,if_neg (by tauto)]
    rw [post_bind,post_takeBlock,post_bind,post_wsect (s := s.taken) img.len _ (by omega),post_pure,toNat_ofNat_lt (by omega)]
    by_cases room : s.freeblock < FSSIZE
    · left
      obtain ⟨wrote,ptrs⟩ := img.taken_entry inside type room here nonzero (n := fbn - NDIRECT) (by omega)
        (by rw [← pos]; exact missing)
      have at_fbn := ptrs (position fbn) (position_lt small)
      rw [if_pos pos] at at_fbn
      refine ⟨wrote,at_fbn,by rw [nmeta_eq] at low; omega,by rw [lacking]; rfl,fun k small => ?_⟩
      rw [ptrs k small,← pos]
      rw [nmeta_eq] at low
      by_cases this : k = position fbn
      · rw [if_pos this]
        exact iff_of_true (by omega) (.inr (.inl this))
      · rw [if_neg this]
        constructor
        · exact .inl
        · rintro (there | same | ⟨_,rfl⟩)
          · exact there
          · exact absurd same this
          · rw [show ptr (vdisk s) (v i) NDIRECT = a from (ptr_direct (vdisk s) (v i) (Fin.last NDIRECT)).trans here]
            exact nonzero
    · right
      exact ⟨img.len,not_lt.mp room,by omega,by omega⟩
  · next some' =>
    left
    have nonzero : blk (vdisk s) (v i) fbn ≠ 0 := by
      rw [read]
      exact fun zero => some' (UInt32.toNat_inj.mp zero)
    have found := Found.old img nonzero fun _ => way
    rwa [read] at found

theorem iappend_block_spec (img : Img s v) (inside : i < sb.ninodes) (type : (v i).type ≠ 0)
    (small : fbn < MAXFILE) :
    post (iappend_block i (v i) fbn) (fun r s' => Found s v i fbn s' r.1 r.2 ∨ Past s v i fbn s' r.2)
      (fun _ => FSSIZE < s.freeblock + lacks (vdisk s) (v i) fbn) s := by
  by_cases direct : fbn < NDIRECT
  · exact post_mono (direct_spec img inside type direct) (fun _ _ => id) fun _ => False.elim
  have size := FSSIZE_eq
  have high := img.high
  have low := img.low
  have indirect : NDIRECT ≤ fbn := not_lt.mp direct
  have pos := position_indirect indirect
  unfold iappend_block
  rw [dif_neg direct,post_bind]
  refine post_mono (iappend_addr_spec _ _) (fun d s' ends => ?_) fun _ => False.elim
  rw [post_bind]
  rcases ends with ⟨way,rfl,rfl⟩ | ⟨none',rfl,rfl⟩
  · exact post_mono (entry_spec img inside type indirect small way) (fun x s' ends => ends) fun _ => False.elim
  · -- the indirect block is taken first, and its entry afterwards
    have missing : blk (vdisk s) (v i) fbn = 0 := by rw [blk,pos,ptr_entry _ _ (by omega),if_pos none']
    have lacking : lacks (vdisk s) (v i) fbn = 2 := by
      unfold lacks
      rw [if_pos missing,if_pos ⟨indirect,none'⟩]
    rw [nmeta_eq] at low
    have value : ((v i).setAddr (Fin.last NDIRECT) s.freeblock).addrs (Fin.last NDIRECT) = UInt32.ofNat s.freeblock :=
      setAddr_self _ _ _
    by_cases room : s.freeblock < FSSIZE
    · obtain ⟨wrote,ptrs⟩ := img.taken_pointer inside type room none'
      simp only [Fin.val_last] at ptrs
      have way : (update v i ((v i).setAddr (Fin.last NDIRECT) s.freeblock) i).addrs (Fin.last NDIRECT) ≠ 0 := by
        rw [update_self,value]
        intro zero
        have := congrArg UInt32.toNat zero
        rw [toNat_ofNat_lt (by omega)] at this
        simp at this
        omega
      have type' : (update v i ((v i).setAddr (Fin.last NDIRECT) s.freeblock) i).type ≠ 0 := by rwa [update_self]
      have entry := entry_spec wrote.img inside type' indirect small way
      rw [update_self] at entry
      have now : blk (vdisk s.taken) ((v i).setAddr (Fin.last NDIRECT) s.freeblock) fbn = 0 := by
        rw [blk,ptrs _ (position_lt small),if_neg (position_ne_last fbn)]
        exact missing
      have lacking' : lacks (vdisk s.taken) (update v i ((v i).setAddr (Fin.last NDIRECT) s.freeblock) i) fbn = 1 := by
        unfold lacks
        rw [update_self,if_pos now,if_neg]
        rintro ⟨_,zero⟩
        rw [update_self] at way
        exact way zero
      refine post_mono entry (fun x s' ends => ?_) fun _ => False.elim
      rw [post_pure]
      rcases ends with found | past
      · left
        have ptrs' := found.ptrs
        rw [update_self] at ptrs'
        have found' := found.wrote
        rw [update_self] at found'
        refine ⟨(wrote.trans found').congr fun off small => wrote.written.mine off small,found.here,found.some',?_,fun k small => ?_⟩
        · have count := found.count
          rw [lacking'] at count
          rw [lacking,count]
          rfl
        · rw [ptrs' k small,ptrs k small]
          by_cases this : k = NDIRECT
          · subst this
            rw [if_pos rfl]
            exact iff_of_true (.inl (by omega)) (.inr (.inr ⟨indirect,rfl⟩))
          · rw [if_neg this]
      · right
        have full := past.full
        rw [lacking'] at full
        refine ⟨past.len,past.past,past.small,?_⟩
        rw [lacking]
        exact full
    · unfold iappend_entry
      rw [post_bind,value,toNat_ofNat_lt (by omega),post_rsect_end (s := s.taken) img.len (by omega) (not_lt.mp room)]
      omega

/-! ### The loop -/

/-- The blocks of a file of `n` bytes. -/
def blocksOf (n : Nat) : Nat := (n + (BSIZE - 1)) / BSIZE

/-- The blocks that a file of `n` bytes takes, with the indirect block. -/
def needed (n : Nat) : Nat := if blocksOf n ≤ NDIRECT then blocksOf n else blocksOf n + 1

/-- The pointers that a file of `n` bytes has. -/
def Used (n k : Nat) : Prop :=
  if k < NDIRECT then k * BSIZE < n else if k = NDIRECT then NDIRECT * BSIZE < n else (k - 1) * BSIZE < n

theorem used_position {n fbn : Nat} : Used n (position fbn) ↔ fbn * BSIZE < n := by
  unfold Used position
  by_cases direct : fbn < NDIRECT
  · rw [if_pos direct,if_pos direct]
  · rw [if_neg direct,if_neg (by omega),if_neg (by omega),Nat.add_sub_cancel]

theorem used_last {n : Nat} : Used n NDIRECT ↔ NDIRECT * BSIZE < n := by
  unfold Used
  rw [if_neg (by omega),if_pos rfl]

theorem position_cases (k : Nat) : k = NDIRECT ∨ ∃ fbn, k = position fbn := by
  unfold position
  rcases lt_trichotomy k NDIRECT with low | same | high
  · exact .inr ⟨k,by rw [if_pos low]⟩
  · exact .inl same
  · exact .inr ⟨k - 1,by rw [if_neg (by omega)]; omega⟩

theorem used_step {off n k : Nat} (some' : 0 < n) (fits : off % BSIZE + n ≤ BSIZE) :
    Used off k ∨ OnWay (off / BSIZE) k ↔ Used (off + n) k := by
  have direct : NDIRECT = 12 := rfl
  have rem := Nat.mod_lt off (show 0 < BSIZE by decide)
  rcases position_cases k with rfl | ⟨fbn,rfl⟩
  · rw [used_last,used_last]
    unfold OnWay
    have apart := position_ne_last (off / BSIZE)
    rw [BSIZE_eq] at *
    omega
  · rw [used_position,used_position]
    unfold OnWay
    have apart := position_ne_last fbn
    have same : position fbn = position (off / BSIZE) ↔ fbn = off / BSIZE := ⟨position_inj,fun equal => by rw [equal]⟩
    rw [same]
    rw [BSIZE_eq] at *
    omega

theorem lacks_step {disk : Disk} {d : Dinode} {off n : Nat} (dense : ∀ k < NPTR, ptr disk d k ≠ 0 ↔ Used off k)
    (small : off / BSIZE < MAXFILE) (some' : 0 < n) (fits : off % BSIZE + n ≤ BSIZE) :
    needed off + lacks disk d (off / BSIZE) = needed (off + n) := by
  have direct : NDIRECT = 12 := rfl
  have rem := Nat.mod_lt off (show 0 < BSIZE by decide)
  have here : blk disk d (off / BSIZE) = 0 ↔ ¬off / BSIZE * BSIZE < off := by
    rw [← used_position,← dense _ (position_lt small),not_not]
    rfl
  have last : d.addrs (Fin.last NDIRECT) = 0 ↔ ¬NDIRECT * BSIZE < off := by
    rw [← used_last,← dense _ NDIRECT_lt_NPTR,not_not,show ptr disk d NDIRECT = _ from ptr_direct disk d (Fin.last NDIRECT)]
    exact UInt32.toNat_inj.symm
  unfold lacks needed blocksOf
  simp only [here,last]
  rw [BSIZE_eq] at *
  split_ifs <;> omega

theorem Img.data (img : Img s v) (inside : i < sb.ninodes) (type : (v i).type ≠ 0) {bn x : Nat} (small : bn < MAXFILE)
    (here : blk (vdisk s) (v i) bn = x) (some' : x ≠ 0) (buf : Block) :
    Wrote s v i (s.put (.data i) x buf) (v i)
      (fun o => if o / BSIZE = bn then byteAt buf (o % BSIZE) else content (vdisk s) (v i) o) ∧
    ∀ k < NPTR, ptr (vdisk (s.put (.data i) x buf)) (v i) k = ptr (vdisk s) (v i) k := by
  subst here
  have mine : blk (vdisk s) (v i) bn = own sb (vdisk s) v (i,position bn) := blk_eq_own inside type small
  have range := img.range (l := (i,position bn)) (by rwa [← mine])
  rw [← mine,nmeta_eq] at range
  have written := Written.block (img.holds inside type) small some' buf
  have disk : vdisk (s.put (.data i) (blk (vdisk s) (v i) bn) buf) = update (vdisk s) (blk (vdisk s) (v i) bn) buf :=
    vdisk_put (by rw [bmapstart_eq]; omega)
  have same : (stub (vdisk s) (v i)).disk = vdisk s := rfl
  rw [same,← disk] at written
  have owns := own_write img.core (i,position bn) (position_ne_last bn) buf
  rw [← mine,← disk] at owns
  refine ⟨⟨⟨img.len,written.core,img.low,img.high,fun b high => ?_,fun w listed => ?_⟩,written,rfl⟩,fun k high => ?_⟩
  · have high : s.freeblock ≤ b := high
    show update s.img _ buf b = _
    rw [update_of_ne (by omega)]
    exact img.zero b high
  · rcases List.mem_append.mp listed with old | new
    · exact (img.log w old).kept (le_refl _) fun l some' => written.own_kept some'
    · obtain rfl := List.mem_singleton.mp new
      refine ⟨position bn,?_,some'⟩
      rw [update_eq_self,owns]
      exact mine.symm
  · have now := owns (i,k)
    rwa [own_of_allocated inside type high,own_of_allocated inside type high] at now

theorem needed_mono {m n : Nat} (le : m ≤ n) : needed m ≤ needed n := by
  unfold needed blocksOf
  rw [BSIZE_eq]
  split_ifs <;> omega

/-- The bytes `p` have been appended to the inode `i` at `off`; the inode `d` is still in memory. -/
structure Appended (s : Fs) (v : Nat → Dinode) (i off : Nat) (p : List UInt8) (s' : Fs) (d : Dinode) : Prop where
  wrote : Wrote s v i s' d (overlay (content (vdisk s) (v i)) off p)
  dense : ∀ k < NPTR, ptr (vdisk s') d k ≠ 0 ↔ Used (off + p.length) k
  count : s'.freeblock + needed off = s.freeblock + needed (off + p.length)
  bound : off + p.length ≤ MAXFILE * BSIZE

/-- Why bytes cannot be appended at `off`: the file or the image would be too large. -/
def NoRoom (s : Fs) (off n : Nat) : Prop := MAXFILE * BSIZE < off + n ∨ FSSIZE + needed off < s.freeblock + needed (off + n)

theorem iappend_from_spec (img : Img s v) (inside : i < sb.ninodes) (type : (v i).type ≠ 0) (fuel off : Nat)
    (p : List UInt8) (enough : p.length ≤ fuel) (bound : off ≤ MAXFILE * BSIZE)
    (dense : ∀ k < NPTR, ptr (vdisk s) (v i) k ≠ 0 ↔ Used off k) :
    post (iappend_from i fuel (v i) off p) (fun r s' => r.2 = off + p.length ∧ Appended s v i off p s' r.1)
      (fun _ => NoRoom s off p.length) s := by
  have nothing (s : Fs) (v : Nat → Dinode) (img : Img s v) (off : Nat) (p : List UInt8) (bound : off ≤ MAXFILE * BSIZE)
      (dense : ∀ k < NPTR, ptr (vdisk s) (v i) k ≠ 0 ↔ Used off k) (none' : p = []) :
      off = off + p.length ∧ Appended s v i off p s (v i) := by
    subst none'
    exact ⟨rfl,by rw [overlay_nil]; exact .refl img i,dense,rfl,bound⟩
  induction fuel generalizing s v off p with
  | zero => exact nothing s v img off p bound dense (List.length_eq_zero_iff.mp (by omega))
  | succ fuel ih =>
    unfold iappend_from
    split
    · next none' => exact nothing s v img off p bound dense (List.length_eq_zero_iff.mp none')
    · next some' =>
      have bsize := BSIZE_eq
      have rem := Nat.mod_lt off (show 0 < BSIZE by decide)
      dsimp only
      split
      · next past =>
        left
        rw [bsize] at past ⊢
        omega
      · next fits =>
        have bn : off / BSIZE < MAXFILE := not_le.mp fits
        have start : off - off / BSIZE * BSIZE = off % BSIZE := by rw [bsize]; omega
        have left : (off / BSIZE + 1) * BSIZE - off = BSIZE - off % BSIZE := by rw [bsize]; omega
        rw [start,left]
        generalize part : min p.length (BSIZE - off % BSIZE) = m
        have low : 0 < m := by omega
        have high : m ≤ p.length := by omega
        have within : off % BSIZE + m ≤ BSIZE := by omega
        have more := lacks_step dense bn low within
        have total : needed (off + m) ≤ needed (off + p.length) := needed_mono (by omega)
        rw [post_bind]
        refine post_mono (iappend_block_spec img inside type bn) (fun r s₁ ends => ?_) fun _ full => .inr (by omega)
        obtain ⟨d,x⟩ := r
        dsimp only at ends ⊢
        rcases ends with found | past
        · have type₁ : (update v i d i).type ≠ 0 := by rw [update_self,found.wrote.written.attr]; exact type
          have img₁ := found.wrote.img
          have at_x : blk (vdisk s₁) (update v i d i) (off / BSIZE) = x := by rw [update_self]; exact found.here
          have mine : own sb (vdisk s₁) (update v i d) (i,position (off / BSIZE)) = x := by
            rw [← blk_eq_own inside type₁ bn,at_x]
          have range := img₁.range (l := (i,position (off / BSIZE))) (by rw [mine]; exact found.some')
          rw [mine,nmeta_eq] at range
          have size := img₁.high
          rw [post_bind,post_rsect img₁.len (by omega),post_bind,post_wsect img₁.len _ (by omega)]
          obtain ⟨wrote₂,ptrs₂⟩ := img₁.data inside type₁ bn at_x found.some'
            (splice (s₁.img x) (off % BSIZE) m fun k => p.getD k 0)
          rw [update_self] at wrote₂ ptrs₂
          have read : s₁.img x = vdisk s₁ x := (vdisk_of_ne _ (by rw [bmapstart_eq]; omega)).symm
          have one := (found.wrote.trans wrote₂).congr fun o small =>
            (splice_eq_overlay (content (vdisk s₁) d) off p high within (s₁.img x)
              (fun o same => by rw [content,same,found.here,if_neg found.some',read]) o).trans
              (overlay_congr _ _ (found.wrote.written.mine o small))
          generalize writing : s₁.put (.data i) x (splice (s₁.img x) (off % BSIZE) m fun k => p.getD k 0) = s₂ at *
          have count₂ : s₂.freeblock = s₁.freeblock := by rw [← writing]; rfl
          have count₁ := found.count
          have dense₂ (k : Nat) (small : k < NPTR) : ptr (vdisk s₂) (update v i d i) k ≠ 0 ↔ Used (off + m) k := by
            rw [update_self,ptrs₂ k small,found.ptrs k small,dense k small,used_step low within]
          have bound₂ : off + m ≤ MAXFILE * BSIZE := by
            rw [bsize] at *
            omega
          have type₂ := type₁
          have rest := ih one.img type₂ (off + m) (p.drop m) (by rw [List.length_drop]; omega) bound₂ dense₂
          rw [update_self,List.length_drop] at rest
          have length : off + m + (p.length - m) = off + p.length := by omega
          unfold NoRoom at rest
          rw [length] at rest
          refine post_mono rest (fun r s₃ ends => ?_) fun _ full => ?_
          · obtain ⟨where',appended⟩ := ends
            have wrote₃ := appended.wrote
            have dense₃ := appended.dense
            have count₃ := appended.count
            rw [List.length_drop,length] at dense₃ count₃
            rw [update_self] at wrote₃
            refine ⟨where',?_,dense₃,by omega,?_⟩
            · refine (one.trans wrote₃).congr fun o small => ?_
              rw [← overlay_append (content (vdisk s) (v i)) off p high]
              exact overlay_congr _ _ (one.written.mine o small)
            · have bound₃ := appended.bound
              rwa [List.length_drop,length] at bound₃
          · rcases full with big | big
            · exact .inl big
            · exact .inr (by omega)
        · rw [post_bind,post_rsect_end past.len past.small past.past]
          have full := past.full
          exact .inr (by omega)

/-! ### Inodes on the image -/

theorem own_congr {disk : Disk} (same : ∀ j < sb.ninodes, v' j = v j) (l : Nat × Nat) :
    own sb disk v' l = own sb disk v l := by
  obtain ⟨j,k⟩ := l
  by_cases inside : j < sb.ninodes
  · unfold own
    simp only [same j inside]
  · rw [own_eq_zero (fun both => inside both.1),own_eq_zero (fun both => inside both.1)]

theorem Img.congr (img : Img s v) (same : ∀ l, own sb (vdisk s) v' l = own sb (vdisk s) v l) : Img s v' where
  len := img.len
  core := by
    have core := img.core
    unfold Core at core ⊢
    rwa [funext same]
  low := img.low
  high := img.high
  zero := img.zero
  log w listed := (img.log w listed).kept (le_refl _) fun l _ => same l

/-- The image with an inode written. -/
def Fs.inode (s : Fs) (i : Nat) (d : Dinode) : Fs :=
  s.put (.inode i) (sb.iblock i) (putDinode (s.img (sb.iblock i)) (i % IPB) d)

/-- The inode blocks are between the log and the bitmap. -/
def InBlocks (i : Nat) : Prop := sb.iblock i < sb.bmapstart

theorem inBlocks (inside : i < sb.ninodes) : InBlocks i := layout.iblock_high inside

theorem InBlocks.small (inside : InBlocks i) : sb.iblock i < FSSIZE := by
  unfold InBlocks at inside
  rw [bmapstart_eq] at inside
  rw [FSSIZE_eq]
  omega

theorem stored_inode (inside : InBlocks i) (d : Dinode) : Stored sb (vdisk s) (vdisk (s.inode i d)) i d := by
  have apart : sb.iblock i ≠ sb.bmapstart := Nat.ne_of_lt inside
  unfold Fs.inode
  rw [vdisk_put apart,← vdisk_of_ne s apart]
  exact .of_block layout (vdisk s) inside d

theorem dinodeAt_vdisk (inside : InBlocks i) : dinodeAt sb (vdisk s) i = dinodeAt sb s.img i := by
  rw [dinodeAt,dinodeAt,vdisk_of_ne _ (Nat.ne_of_lt inside)]

theorem Img.inode (img : Img s v) (inside : InBlocks i) (old : i < s.freeinode)
    (same : ∀ l, own sb (vdisk s) v' l = own sb (vdisk s) v l) : Img (s.inode i d) v' := by
  have stored := stored_inode (s := s) inside d
  have img' := img.congr same
  have data := own_data img'.core fun c low => stored.same c (le_trans (by decide) low)
  refine ⟨img.len,stored.core img'.core,img.low,img.high,fun b high => ?_,fun w listed => ?_⟩
  · have low := img.low
    have high : s.freeblock ≤ b := high
    have below : sb.iblock i < sb.bmapstart := inside
    rw [bmapstart_eq] at below
    rw [nmeta_eq] at low
    show update s.img _ _ b = _
    rw [update_of_ne (by omega)]
    exact img.zero b high
  · rcases List.mem_append.mp listed with before | new
    · exact (img'.log w before).kept (le_refl _) fun l _ => data l
    · obtain rfl := List.mem_singleton.mp new
      exact ⟨rfl,old⟩

section
variable {E : String → Prop}

theorem post_winode {Q : Unit → Fs → Prop} (len : s.len = FSSIZE) (inside : InBlocks i) (d : Dinode) :
    post (winode i d) Q E s = Q () (s.inode i d) := by
  unfold winode
  rw [post_bind,post_rsect len inside.small,post_wsect len _ inside.small]
  rfl

theorem post_rinode {Q : Dinode → Fs → Prop} (len : s.len = FSSIZE) (inside : InBlocks i) :
    post (rinode i) Q E s = Q (dinodeAt sb s.img i) s := by
  unfold rinode
  rw [post_bind,post_rsect len inside.small]
  rfl

end

/-- The inodes on the image. -/
abbrev Fs.node (s : Fs) : Nat → Dinode := dinodeAt sb s.img

/-- An inode stores `bytes`, in the blocks that they need; after them there are zeros. -/
structure Stores (disk : Disk) (d : Dinode) (bytes : List UInt8) : Prop where
  small : bytes.length ≤ MAXFILE * BSIZE
  data : ∀ off < MAXFILE * BSIZE, content disk d off = bytes.getD off 0
  dense : ∀ k < NPTR, ptr disk d k ≠ 0 ↔ Used bytes.length k

/-- An inode has the contents `bytes`. -/
structure Filled (disk : Disk) (d : Dinode) (bytes : List UInt8) : Prop extends Stores disk d bytes where
  size : d.size.toNat = bytes.length

variable {bytes : List UInt8}

theorem Stores.congr {d' : Dinode} (stores : Stores disk d bytes)
    (data : ∀ off < MAXFILE * BSIZE, content disk' d' off = content disk d off)
    (ptrs : ∀ k < NPTR, ptr disk' d' k = ptr disk d k) : Stores disk' d' bytes where
  small := stores.small
  data off small := (data off small).trans (stores.data off small)
  dense k small := by rw [ptrs k small,stores.dense k small]

theorem Filled.congr (filled : Filled disk d bytes)
    (data : ∀ off < MAXFILE * BSIZE, content disk' d off = content disk d off)
    (ptrs : ∀ k < NPTR, ptr disk' d k = ptr disk d k) : Filled disk' d bytes :=
  ⟨filled.toStores.congr data ptrs,filled.size⟩

theorem overlay_getD (bytes p : List UInt8) (o : Nat) : overlay (fun o => bytes.getD o 0) bytes.length p o = (bytes ++ p).getD o 0 := by
  unfold overlay
  simp only [List.getD_eq_getElem?_getD,List.getElem?_append]
  by_cases before : o < bytes.length
  · rw [if_neg (by omega),if_pos before]
  · rw [if_neg before]
    split
    · rfl
    · rw [List.getElem?_eq_none (by omega),List.getElem?_eq_none (by omega)]

/-- The image after an append: the inode `i` has more bytes, and the other inodes are as they were. -/
structure Grows (s : Fs) (i : Nat) (bytes p : List UInt8) (s' : Fs) : Prop where
  img : Img s' s'.node
  filled : Filled (vdisk s') (s'.node i) (bytes ++ p)
  attr : (s'.node i).toAttr = { (s.node i).toAttr with size := UInt32.ofNat (bytes ++ p).length }
  inodes : s'.freeinode = s.freeinode
  count : s'.freeblock + needed bytes.length = s.freeblock + needed (bytes.length + p.length)
  others : ∀ j < sb.ninodes, j ≠ i → s'.node j = s.node j
  kept : ∀ j < sb.ninodes, j ≠ i → (s.node j).type ≠ 0 → ∀ {bs}, Filled (vdisk s) (s.node j) bs → Filled (vdisk s') (s.node j) bs

theorem iappend_spec (img : Img s s.node) (inside : i < sb.ninodes) (old : i < s.freeinode)
    (type : (s.node i).type ≠ 0) (filled : Filled (vdisk s) (s.node i) bytes) (p : List UInt8) :
    post (iappend i p) (fun _ s' => Grows s i bytes p s') (fun _ => NoRoom s bytes.length p.length) s := by
  have blocks := inBlocks inside
  have loop := iappend_from_spec img inside type p.length bytes.length p (le_refl _) filled.small filled.dense
  unfold iappend
  rw [post_bind,post_rinode img.len blocks,filled.size,post_bind]
  refine post_use loop fun r s₁ ends => ?_
  obtain ⟨d,off⟩ := r
  obtain ⟨rfl,appended⟩ := ends
  have wrote := appended.wrote
  have written := wrote.written
  have img₁ := wrote.img
  dsimp only
  rw [post_winode img₁.len blocks]
  -- the inodes that are on the image have not changed yet
  have before (j : Nat) (low : InBlocks j) : s₁.node j = s.node j := by
    show dinodeAt sb s₁.img j = dinodeAt sb s.img j
    rw [← dinodeAt_vdisk low,← dinodeAt_vdisk low,dinodeAt,dinodeAt]
    exact congrArg (dinodeIn · _) (written.inodes _ low)
  generalize new : ({ d with size := UInt32.ofNat (bytes.length + p.length) } : Dinode) = d'
  have addrs : d'.addrs = d.addrs := by rw [← new]
  have stored := stored_inode (s := s₁) blocks d'
  have node (j : Nat) (low : j < sb.ninodes) : (s₁.inode i d').node j = update s.node i d' j := by
    show dinodeAt sb (s₁.inode i d').img j = _
    rw [← dinodeAt_vdisk (inBlocks low)]
    rcases eq_or_ne j i with rfl | other
    · rw [update_self]
      exact stored.here
    · rw [update_of_ne other,stored.others j other,dinodeAt_vdisk (inBlocks low)]
      exact before j (inBlocks low)
  have type' : d'.type = (s.node i).type := by
    rw [← new,show ({ d with size := UInt32.ofNat (bytes.length + p.length) } : Dinode).type = d.type from rfl,written.attr]
  have owns (l : Nat × Nat) : own sb (vdisk s₁) (s₁.inode i d').node l = own sb (vdisk s₁) (update s.node i d) l := by
    rw [own_congr node]
    have attr : own sb (vdisk s₁) (update (update s.node i d) i d') l = own sb (vdisk s₁) (update s.node i d) l :=
      own_attr (by rw [update_self,addrs]) (by rw [update_self,type',written.attr]) l
    rwa [update_idem] at attr
  have data (c : Nat) (low : sb.datastart ≤ c) : vdisk (s₁.inode i d') c = vdisk s₁ c :=
    stored.same c (le_trans (by decide) low)
  have small : bytes.length + p.length ≤ MAXFILE * BSIZE := appended.bound
  have type₁ : (update s.node i d i).type ≠ 0 := by rw [update_self,written.attr]; exact type
  have ptrs (k : Nat) : ptr (vdisk (s₁.inode i d')) d' k = ptr (vdisk s₁) d k := by
    have same := ptr_data img₁.core data inside type₁ k
    rw [update_self] at same
    rw [← same]
    unfold ptr
    rw [addrs]
  refine ⟨img₁.inode blocks (by rw [wrote.inodes]; exact old) owns,?_,?_,wrote.inodes,appended.count,fun j low other => ?_,
    fun j low other typed bs full => ?_⟩
  · rw [node i inside,update_self]
    refine ⟨⟨by rwa [List.length_append],fun off small' => ?_,fun k small' => ?_⟩,?_⟩
    · have contents := content_data img₁.core data inside type₁ small'
      rw [update_self] at contents
      have same : content (vdisk (s₁.inode i d')) d' off = content (vdisk (s₁.inode i d')) d off := by
        unfold content blk ptr
        rw [addrs]
      rw [same,contents,written.mine off small',← overlay_getD]
      exact overlay_congr _ _ (filled.data off small')
    · rw [ptrs k,List.length_append]
      exact appended.dense k small'
    · rw [← new,List.length_append]
      exact UInt32.toNat_ofNat_of_lt' (lt_of_le_of_lt small (by decide))
  · rw [node i inside,update_self,← new,List.length_append]
    show ({ d.toAttr with size := UInt32.ofNat (bytes.length + p.length) } : Attr) = _
    rw [written.attr]
  · rw [node j low,update_of_ne other]
  · have typed₁ : (update s.node i d j).type ≠ 0 := by rwa [update_of_ne other]
    refine full.congr (fun off small' => ?_) fun k small' => ?_
    · have contents := content_data img₁.core data low typed₁ small'
      rw [update_of_ne other] at contents
      rw [contents]
      exact written.others j low other typed off small'
    · have pointers := ptr_data img₁.core data low typed₁ k
      rw [update_of_ne other] at pointers
      rw [pointers]
      exact written.blocks j low other typed k small'

end Mkfs
end Xv6
