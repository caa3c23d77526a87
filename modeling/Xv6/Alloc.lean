import Xv6.Layout
import Xv6.Lib.Post

/-!
The block allocator and the pointers to its blocks. `Core` is the invariant: the pointers of the allocated inodes
partition the used blocks of the data area.
-/
namespace Xv6
open Xv6.Lib Function

/-- The used blocks of the data area are those that the pointers `own` name, and no block has two uses. -/
structure Owned (sb : Superblock) (disk : Disk) (own : Nat × Nat → Nat) : Prop where
  layout : Layout sb
  super : superblockAt (disk 1) = sb
  reserved : ∀ b < sb.datastart, bitAt sb disk b = true
  partition : Partition sb.datastart sb.size (bitAt sb disk) own

/-- The used blocks of the disk are those of the inodes `v`. -/
abbrev Core (sb : Superblock) (disk : Disk) (v : Nat → Dinode) : Prop := Owned sb disk (own sb disk v)

section
variable {Q : Unit → State → Prop} {E : String → Prop} {s : State}

@[simp] theorem post_bread {Q : Block → State → Prop} (b : Nat) : post (bread b) Q E s = Q (s.disk b) s := rfl

@[simp] theorem post_log_write (b : Nat) (data : Block) :
    post (log_write b data) Q E s = Q () { s with disk := update s.disk b data } := rfl

@[simp] theorem post_modifyInode (ip : Slot) (f : Inode → Inode) :
    post (modifyInode ip f) Q E s = Q () { s with icache := update s.icache ip (f (s.icache ip)) } := rfl

end

/-! ### `balloc` -/

/-- The panic of `balloc`. -/
def Full (why : String) : Prop := why = "balloc: out of blocks"

variable {sb : Superblock} {disk disk' : Disk}

/-- The blocks that the bitmap has as free. -/
def freeBlocks (sb : Superblock) (disk : Disk) : Finset Nat := (Finset.range sb.size).filter fun b => bitAt sb disk b = false

theorem mem_freeBlocks {b : Nat} : b ∈ freeBlocks sb disk ↔ b < sb.size ∧ bitAt sb disk b = false := by
  rw [freeBlocks,Finset.mem_filter,Finset.mem_range]

theorem freeBlocks_congr (same : ∀ b < sb.size, bitAt sb disk' b = bitAt sb disk b) : freeBlocks sb disk' = freeBlocks sb disk := by
  ext b
  rw [mem_freeBlocks,mem_freeBlocks]
  exact and_congr_right fun inside => by rw [same b inside]

/-- The data block `b` was free and is now in use. -/
structure Taken (sb : Superblock) (disk disk' : Disk) (b : Nat) : Prop where
  low : sb.datastart ≤ b
  high : b < sb.size
  free : bitAt sb disk b = false
  bits : ∀ c < sb.size, bitAt sb disk' c = if c = b then true else bitAt sb disk c

/-- What `balloc` has done when it returns `b`. -/
structure Allocated (sb : Superblock) (disk disk' : Disk) (b : Nat) : Prop extends Taken sb disk disk' b where
  zero : disk' b = fun _ => 0
  same : ∀ c, c ≠ b → c < sb.bmapstart ∨ sb.datastart ≤ c → disk' c = disk c

theorem Taken.card_freeBlocks {b : Nat} (taken : Taken sb disk disk' b) :
    (freeBlocks sb disk').card + 1 = (freeBlocks sb disk).card := by
  have erased : freeBlocks sb disk' = (freeBlocks sb disk).erase b := by
    ext c
    rw [Finset.mem_erase,mem_freeBlocks,mem_freeBlocks]
    constructor
    · intro ⟨inside,clear⟩
      rw [taken.bits c inside] at clear
      split at clear
      · cases clear
      · next other => exact ⟨other,inside,clear⟩
    · intro ⟨other,inside,clear⟩
      exact ⟨inside,by rw [taken.bits c inside,if_neg other,clear]⟩
  rw [erased]
  exact Finset.card_erase_add_one (mem_freeBlocks.mpr ⟨taken.high,taken.free⟩)

theorem balloc_bits_found {bp : Block} {b size n bi j : Nat} (from' : bi ≤ j) (inside : j < bi + n) (low : b + j < size)
    (clear : bitIn bp j = false) : balloc_bits bp b size n bi ≠ none := by
  induction n generalizing bi with
  | zero => omega
  | succ n ih =>
    unfold balloc_bits
    rw [if_pos (by omega)]
    by_cases this : bi = j
    · subst this
      simp [clear]
    · split
      · exact ih (by omega) (by omega)
      · exact Option.some_ne_none _

theorem balloc_bits_spec {bp : Block} {b size n bi k : Nat} (found : balloc_bits bp b size n bi = some k) :
    k < bi + n ∧ b + k < size ∧ bitIn bp k = false := by
  induction n generalizing bi with
  | zero => cases found
  | succ n ih =>
    unfold balloc_bits at found
    split at found
    · next inside =>
      split at found
      · obtain ⟨small,rest⟩ := ih found
        exact ⟨by omega,rest⟩
      · next clear =>
        cases found
        exact ⟨by omega,inside,by simpa using clear⟩
    · cases found

theorem bitAt_write {b c : Nat} {bp : Block} {v : Bool}
    (written : ∀ bj, bitIn bp bj = if bj = b % BPB then v else bitIn (disk (sb.bblock b)) bj) :
    bitAt sb (update disk (sb.bblock b) bp) c = if c = b then v else bitAt sb disk c := by
  unfold bitAt
  have split' (n : Nat) : n = BPB * (n / BPB) + n % BPB := (Nat.div_add_mod n BPB).symm
  by_cases block : sb.bblock c = sb.bblock b
  · rw [block,update_self,written]
    have same : c / BPB = b / BPB := by
      unfold Superblock.bblock at block
      omega
    by_cases bit : c % BPB = b % BPB
    · rw [if_pos bit,if_pos (by rw [split' c,split' b,same,bit])]
    · rw [if_neg bit,if_neg fun equal => bit (by rw [equal])]
  · rw [update_of_ne block,if_neg fun equal => block (by rw [equal])]

theorem bitAt_data (lay : Layout sb) {b c : Nat} (low : sb.datastart ≤ b)
    (high : c < sb.size) (bp : Block) : bitAt sb (update disk b bp) c = bitAt sb disk c := by
  unfold bitAt
  have := lay.bblock_high high
  rw [update_of_ne (by omega)]

theorem balloc_from_spec {s : State} (lay : Layout s.sb) (reserved : ∀ b < s.sb.datastart, bitAt s.sb s.disk b = true)
    (n b : Nat) (aligned : b % BPB = 0) :
    post (balloc_from n b) (fun b s' => ∃ disk', s' = { s with disk := disk' } ∧ Allocated s.sb s.disk disk' b)
      (fun why => Full why ∧ ∀ j, b ≤ j → j < b + n * BPB → j < s.sb.size → bitAt s.sb s.disk j = true) s := by
  induction n generalizing b with
  | zero => exact ⟨rfl,fun j low high => by omega⟩
  | succ n ih =>
    unfold balloc_from
    simp only [post_bind,post_get]
    split
    · rw [post_bind,post_bread]
      split
      · next bi found =>
        obtain ⟨small,inside,clear⟩ := balloc_bits_spec found
        rw [Nat.zero_add] at small
        have block : s.sb.bblock (b + bi) = s.sb.bblock b := by
          rw [BPB_eq] at aligned small
          rw [Superblock.bblock,Superblock.bblock,BPB_eq]
          omega
        have bit : (b + bi) % BPB = bi := by
          rw [BPB_eq] at aligned small ⊢
          omega
        have free : bitAt s.sb s.disk (b + bi) = false := by
          unfold bitAt
          rw [block,bit,clear]
        have low : s.sb.datastart ≤ b + bi := by
          by_contra low
          simp [reserved (b + bi) (by omega)] at free
        unfold bzero
        simp only [post_bind,post_log_write,post_pure]
        refine ⟨_,rfl,⟨low,inside,free,fun c high => ?_⟩,update_self ..,fun c other region => ?_⟩
        · rw [bitAt_data lay low high,← block]
          exact bitAt_write fun bj => by
            rw [block,bit]
            exact bitIn_set _ (by omega)
        · have := lay.bblock_high (b := b) (by omega)
          have : s.sb.bmapstart ≤ _ := Layout.bblock_low b
          rw [update_of_ne other,update_of_ne (by omega)]
      · next none' =>
        refine post_mono (ih (b + BPB) (by rw [Nat.add_mod_right]; exact aligned)) (fun _ _ => id) fun why rest => ?_
        obtain ⟨full,used⟩ := rest
        refine ⟨full,fun j low high inside => ?_⟩
        by_cases here : j < b + BPB
        · by_contra clear
          have block : s.sb.bblock j = s.sb.bblock b := by
            rw [BPB_eq] at aligned here
            rw [Superblock.bblock,Superblock.bblock,BPB_eq]
            omega
          have bit : j % BPB = j - b := by
            rw [BPB_eq] at aligned here ⊢
            omega
          unfold bitAt at clear
          rw [block,bit] at clear
          exact balloc_bits_found (j := j - b) (Nat.zero_le _) (by omega) (by omega) (by simpa using clear) none'
        · exact used j (by omega) (by rw [Nat.succ_mul] at high; omega) inside
    · exact ⟨rfl,fun j low _ inside => by omega⟩

theorem balloc_spec {s : State} {v : Nat → Dinode} (core : Core s.sb s.disk v) :
    post balloc (fun b s' => ∃ disk', s' = { s with disk := disk' } ∧ Allocated s.sb s.disk disk' b)
      (fun why => Full why ∧ freeBlocks s.sb s.disk = ∅) s := by
  unfold balloc
  simp only [post_bind,post_get]
  refine post_mono (balloc_from_spec core.layout core.reserved _ _ (Nat.zero_mod _)) (fun _ _ => id)
    fun why ⟨full,used⟩ => ⟨full,Finset.eq_empty_of_forall_notMem fun b free => ?_⟩
  obtain ⟨inside,clear⟩ := mem_freeBlocks.mp free
  have := Nat.lt_div_mul_add (a := s.sb.size) (show 0 < BPB by decide)
  rw [used b (Nat.zero_le _) (by rw [Nat.succ_mul]; omega) inside] at clear
  cases clear

/-! ### `bfree` -/

/-- What `bfree(b)` has done. -/
structure Freed (sb : Superblock) (disk disk' : Disk) (b : Nat) : Prop where
  bits : ∀ c < sb.size, bitAt sb disk' c = if c = b then false else bitAt sb disk c
  same : ∀ c, c < sb.bmapstart ∨ sb.datastart ≤ c → disk' c = disk c

theorem bfree_spec {s : State} (lay : Layout s.sb) (super : superblockAt (s.disk 1) = s.sb) {b : Nat}
    (high : b < s.sb.size) (inUse : bitAt s.sb s.disk b = true) :
    post (bfree b) (fun _ s' => ∃ disk', s' = { s with disk := disk' } ∧ Freed s.sb s.disk disk' b)
      (fun _ => False) s := by
  unfold bfree readsb
  simp only [post_bind,post_modify,post_get,post_bread,super]
  unfold bitAt at inUse
  rw [if_pos inUse,post_log_write]
  refine ⟨_,rfl,fun c _ => ?_,fun c region => ?_⟩
  · exact bitAt_write fun bj => bitIn_clear _ (Nat.mod_lt _ (by decide))
  · have := lay.bblock_high high
    have : s.sb.bmapstart ≤ _ := Layout.bblock_low b
    exact update_of_ne (by omega) ..

theorem bfree_owned {s : State} {own : Nat × Nat → Nat} (owned : Owned s.sb s.disk own) {key : Nat × Nat}
    (some' : own key ≠ 0) :
    post (bfree (own key)) (fun _ s' => ∃ disk', s' = { s with disk := disk' } ∧ Owned s.sb disk' (update own key 0) ∧
      ∀ c, c < s.sb.bmapstart ∨ s.sb.datastart ≤ c → disk' c = s.disk c) (fun _ => False) s := by
  have range := owned.partition.range _ some'
  refine post_use (bfree_spec owned.layout owned.super range.2 (owned.partition.inUse some'))
    fun _ s' ⟨disk',same,freed⟩ => ⟨disk',same,⟨owned.layout,?_,fun b low => ?_,?_⟩,freed.same⟩
  · rw [freed.same 1 (.inl owned.layout.bmapstart_low)]
    exact owned.super
  · have := owned.layout.data
    rw [freed.bits b (by omega),if_neg (by omega)]
    exact owned.reserved b low
  · refine (owned.partition.erase owned.layout.positive some').congr (fun c _ high => ?_) fun _ => rfl
    rw [freed.bits c high]
    by_cases here : c = own key
    · subst here; simp
    · rw [if_neg here,update_of_ne here]

end Xv6
