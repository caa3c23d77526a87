import Xv6.Blocks
import Xv6.Lib.Partition

/-!
How the blocks of a disk are laid out and read. The superblock, the inodes and the bitmap have their own blocks before
the data area (`Layout`); writing one inode or one bit leaves the others as they are.
-/
namespace Xv6
open Xv6.Lib Function

/-- The first block of the data area. -/
def Superblock.datastart (sb : Superblock) : Nat := sb.size - sb.nblocks

/-- The disk layout: boot block, super block, log, inode blocks, free bit map, data blocks. -/
structure Layout (sb : Superblock) : Prop where
  super : 1 < sb.inodestart
  inodes : sb.inodestart + sb.ninodes / IPB < sb.bmapstart
  bitmap : sb.bmapstart + sb.size / BPB < sb.datastart
  data : sb.datastart ≤ sb.size
  -- block numbers are `int` in `balloc`
  small : sb.size < 2 ^ 31

instance (sb : Superblock) : Decidable (Layout sb) :=
  decidable_of_iff (1 < sb.inodestart ∧ sb.inodestart + sb.ninodes / IPB < sb.bmapstart ∧
      sb.bmapstart + sb.size / BPB < sb.datastart ∧ sb.datastart ≤ sb.size ∧ sb.size < 2 ^ 31)
    ⟨fun ⟨a,b,c,d,e⟩ => ⟨a,b,c,d,e⟩,fun ⟨a,b,c,d,e⟩ => ⟨a,b,c,d,e⟩⟩

theorem IPB_eq : IPB = 8 := rfl
theorem BPB_eq : BPB = 4096 := rfl
theorem BSIZE_eq : BSIZE = 512 := rfl

section
variable {sb : Superblock}

theorem Layout.iblock_low (lay : Layout sb) (i : Nat) : 1 < sb.iblock i := by
  have := lay.super
  rw [Superblock.iblock,IPB_eq]
  omega

theorem Layout.iblock_high (lay : Layout sb) {i : Nat} (inside : i < sb.ninodes) : sb.iblock i < sb.bmapstart := by
  have := lay.inodes
  rw [IPB_eq] at this
  rw [Superblock.iblock,IPB_eq]
  omega

theorem Layout.bblock_low (b : Nat) : sb.bmapstart ≤ sb.bblock b := by
  rw [Superblock.bblock,BPB_eq]
  omega

theorem Layout.bblock_high (lay : Layout sb) {b : Nat} (inside : b < sb.size) : sb.bblock b < sb.datastart := by
  have := lay.bitmap
  rw [BPB_eq] at this
  rw [Superblock.bblock,BPB_eq]
  omega

theorem Layout.datastart_low (lay : Layout sb) : sb.bmapstart < sb.datastart := by
  have := lay.bitmap
  rw [BPB_eq] at this
  omega

theorem Layout.bmapstart_low (lay : Layout sb) : 1 < sb.bmapstart := by
  have := lay.super
  have := lay.inodes
  rw [IPB_eq] at this
  omega

theorem Layout.positive (lay : Layout sb) : 0 < sb.datastart := by
  have := lay.bitmap
  rw [BPB_eq] at this
  omega

end

/-! ### Inodes in blocks -/

theorem leNat_byte {d : Dinode} {k w v : Nat} (field : ∀ j < w, d.byte (k + j) = leByte v j) :
    leNat (fun j => d.byte (k + j)) w = v % 256 ^ w := by
  rw [leNat_congr field,leNat_leByte]

theorem dinodeIn_putDinode_self (b : Block) {i : Nat} (inside : i < IPB) (d : Dinode) :
    dinodeIn (putDinode b i d) i = d := by
  have ipb : IPB = 8 := rfl
  have fits : 64 * i + 64 ≤ BSIZE := by unfold BSIZE; omega
  have short (k v : Nat) (inside : k + 2 ≤ 64) (field : ∀ j < 2, d.byte (k + j) = leByte v j) :
      getLE (putDinode b i d) (64 * i + k) 2 = v % 256 ^ 2 := by
    rw [putDinode,getLE_splice_inside b fits inside,leNat_byte field]
  have word (k v : Nat) (inside : k + 4 ≤ 64) (field : ∀ j < 4, d.byte (k + j) = leByte v j) :
      getLE (putDinode b i d) (64 * i + k) 4 = v % 256 ^ 4 := by
    rw [putDinode,getLE_splice_inside b fits inside,leNat_byte field]
  unfold dinodeIn get16 get32
  ext k
  · rw [← Nat.add_zero (64 * i),short 0 d.type.toNat (by omega) fun j inside => by simp [Dinode.byte,inside]]
    simp
  · rw [short 2 d.major.toNat (by omega) fun j inside => by
      simp [Dinode.byte,show 2 + j < 4 by omega,show ¬2 + j < 2 by omega]]
    simp
  · rw [short 4 d.minor.toNat (by omega) fun j inside => by
      simp [Dinode.byte,show 4 + j < 6 by omega,show ¬4 + j < 2 by omega,show ¬4 + j < 4 by omega]]
    simp
  · rw [short 6 d.nlink.toNat (by omega) fun j inside => by
      simp [Dinode.byte,show 6 + j < 8 by omega,show ¬6 + j < 2 by omega,show ¬6 + j < 4 by omega,
        show ¬6 + j < 6 by omega]]
    simp
  · rw [word 8 d.size.toNat (by omega) fun j inside => by
      simp [Dinode.byte,show 8 + j < 12 by omega,show ¬8 + j < 2 by omega,show ¬8 + j < 4 by omega,
        show ¬8 + j < 6 by omega,show ¬8 + j < 8 by omega]]
    simp
  · have last : k.val < 13 := k.isLt
    dsimp only
    rw [Nat.add_assoc,word (12 + 4 * k) (d.addrs k).toNat (by omega) fun j inside => by
      have index : (12 + 4 * k.val + j - 12) / 4 = k.val := by omega
      have digit : (12 + 4 * k.val + j - 12) % 4 = j := by omega
      unfold Dinode.byte
      rw [if_neg (by omega),if_neg (by omega),if_neg (by omega),if_neg (by omega),if_neg (by omega),
        dif_pos (by rw [index]; exact k.isLt),digit]
      simp only [index,Fin.eta]]
    simp

theorem dinodeIn_putDinode_other (b : Block) {i j : Nat} (other : j ≠ i) (d : Dinode) :
    dinodeIn (putDinode b i d) j = dinodeIn b j := by
  have apart (k w : Nat) (inside : k + w ≤ 64) :
      getLE (putDinode b i d) (64 * j + k) w = getLE b (64 * j + k) w :=
    getLE_splice_apart b _ (by omega)
  unfold dinodeIn get16 get32
  ext k
  · rw [← Nat.add_zero (64 * j),apart 0 2 (by omega)]
  · rw [apart 2 2 (by omega)]
  · rw [apart 4 2 (by omega)]
  · rw [apart 6 2 (by omega)]
  · rw [apart 8 4 (by omega)]
  · have last : k.val < 13 := k.isLt
    dsimp only
    rw [Nat.add_assoc,apart (12 + 4 * k) 4 (by omega)]

/-! ### Bits in blocks -/

theorem mask_bit (bi : Nat) {j : Nat} (inside : j < 8) : (mask bi).toBitVec.getLsbD j = decide (j = bi % 8) := by
  have all : ∀ i < 8, ∀ j < 8, (1 <<< UInt8.ofNat i : UInt8).toBitVec.getLsbD j = decide (j = i) := by decide
  exact all (bi % 8) (Nat.mod_lt _ (by decide)) j inside

theorem bitIn_eq (bp : Block) (bi : Nat) : bitIn bp bi = (byteAt bp (bi / 8)).toBitVec.getLsbD (bi % 8) := by
  have small : bi % 8 < 8 := Nat.mod_lt _ (by decide)
  unfold bitIn
  generalize byteAt bp (bi / 8) = x
  have zero : x &&& mask bi = 0 ↔ x.toBitVec.getLsbD (bi % 8) = false := by
    rw [← UInt8.toBitVec_inj,UInt8.toBitVec_and]
    constructor
    · intro none'
      have := congrArg (·.getLsbD (bi % 8)) none'
      simpa [mask_bit bi small] using this
    · intro none'
      refine BitVec.eq_of_getLsbD_eq fun j inside => ?_
      rw [BitVec.getLsbD_and,mask_bit bi inside]
      rcases eq_or_ne j (bi % 8) with rfl | other
      · simp [none']
      · simp [other]
  by_cases bit : x.toBitVec.getLsbD (bi % 8)
  · simp [bit,zero]
  · simp [bit,zero]

theorem byteAt_putByte (bp : Block) {bi : Nat} (inside : bi < BPB) (v : UInt8) (k : Nat) :
    byteAt (putByte bp bi v) k = if k = bi / 8 then v else byteAt bp k := by
  unfold putByte
  have bsize := BSIZE_eq
  rw [BPB_eq] at inside
  rw [byteAt_splice]
  by_cases here : k = bi / 8
  · rw [if_pos (by omega),if_pos here]
  · rw [if_neg (by omega),if_neg here]

theorem bitIn_set (bp : Block) {bi bj : Nat} (inside : bi < BPB) :
    bitIn (putByte bp bi (byteAt bp (bi / 8) ||| mask bi)) bj = if bj = bi then true else bitIn bp bj := by
  have small : bj % 8 < 8 := Nat.mod_lt _ (by decide)
  rw [bitIn_eq,bitIn_eq,byteAt_putByte bp inside]
  by_cases byte : bj / 8 = bi / 8
  · rw [if_pos byte,UInt8.toBitVec_or,BitVec.getLsbD_or,mask_bit bi small,byte]
    by_cases bit : bj % 8 = bi % 8
    · rw [if_pos (by omega)]; simp [bit]
    · rw [if_neg (by omega)]; simp [bit]
  · rw [if_neg byte,if_neg (by omega)]

theorem bitIn_clear (bp : Block) {bi bj : Nat} (inside : bi < BPB) :
    bitIn (putByte bp bi (byteAt bp (bi / 8) &&& ~~~mask bi)) bj = if bj = bi then false else bitIn bp bj := by
  have small : bj % 8 < 8 := Nat.mod_lt _ (by decide)
  rw [bitIn_eq,bitIn_eq,byteAt_putByte bp inside]
  by_cases byte : bj / 8 = bi / 8
  · rw [if_pos byte,UInt8.toBitVec_and,UInt8.toBitVec_not,BitVec.getLsbD_and,BitVec.getLsbD_not,mask_bit bi small,byte]
    by_cases bit : bj % 8 = bi % 8
    · rw [if_pos (by omega)]; simp [bit]
    · rw [if_neg (by omega)]; simp [bit,small]
  · rw [if_neg byte,if_neg (by omega)]

/-- The bitmap bit of a block. -/
def bitAt (sb : Superblock) (disk : Disk) (b : Nat) : Bool := bitIn (disk (sb.bblock b)) (b % BPB)

/-! ### Pointers and contents -/

/-- The block pointer at a position of an inode: its own pointers, then the entries of its indirect block. -/
def ptr (disk : Disk) (d : Dinode) (k : Nat) : Nat :=
  if h : k < NDIRECT + 1 then (d.addrs ⟨k,h⟩).toNat
  else if d.addrs (Fin.last NDIRECT) = 0 then 0
  else (get32 (disk (d.addrs (Fin.last NDIRECT)).toNat) (4 * (k - (NDIRECT + 1)))).toNat

/-- The number of pointer positions. -/
def NPTR : Nat := NDIRECT + 1 + NINDIRECT

/-- The position that `bmap` consults for the `bn`-th block. -/
def position (bn : Nat) : Nat := if bn < NDIRECT then bn else bn + 1

/-- The disk block of the `bn`-th block of an inode, zero if there is none. -/
def blk (disk : Disk) (d : Dinode) (bn : Nat) : Nat := ptr disk d (position bn)

/-- The byte at an offset of an inode's contents; a block that is missing reads as zeros. -/
def content (disk : Disk) (d : Dinode) (off : Nat) : UInt8 :=
  if blk disk d (off / BSIZE) = 0 then 0 else byteAt (disk (blk disk d (off / BSIZE))) (off % BSIZE)

/-- The pointers of the allocated inodes, by inode number and position. -/
def own (sb : Superblock) (disk : Disk) (v : Nat → Dinode) (k : Nat × Nat) : Nat :=
  if k.1 < sb.ninodes ∧ (v k.1).type ≠ 0 ∧ k.2 < NPTR then ptr disk (v k.1) k.2 else 0

theorem position_lt {bn : Nat} (inside : bn < MAXFILE) : position bn < NPTR := by
  have max : MAXFILE = 140 := rfl
  have direct : NDIRECT = 12 := rfl
  have count : NPTR = 141 := rfl
  unfold position
  split <;> omega

theorem position_inj {bn bn' : Nat} (same : position bn = position bn') : bn = bn' := by
  have direct : NDIRECT = 12 := rfl
  unfold position at same
  split at same <;> split at same <;> omega

theorem position_ne_last (bn : Nat) : position bn ≠ NDIRECT := by
  unfold position
  split <;> omega

theorem ptr_direct (disk : Disk) (d : Dinode) (k : Fin (NDIRECT + 1)) : ptr disk d k = (d.addrs k).toNat := by
  unfold ptr
  rw [dif_pos k.isLt]

theorem ptr_entry (disk : Disk) (d : Dinode) {k : Nat} (high : NDIRECT < k) :
    ptr disk d k = if d.addrs (Fin.last NDIRECT) = 0 then 0
      else (get32 (disk (d.addrs (Fin.last NDIRECT)).toNat) (4 * (k - (NDIRECT + 1)))).toNat := by
  unfold ptr
  rw [dif_neg (by omega)]

theorem ptr_congr {disk disk' : Disk} {d : Dinode}
    (same : d.addrs (Fin.last NDIRECT) ≠ 0 →
      disk' (d.addrs (Fin.last NDIRECT)).toNat = disk (d.addrs (Fin.last NDIRECT)).toNat) (k : Nat) :
    ptr disk' d k = ptr disk d k := by
  unfold ptr
  split
  · rfl
  · split
    · rfl
    · next some' => rw [same some']

end Xv6
