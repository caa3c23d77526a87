import Xv6.Refine
import Xv6.Image

/-!
States in which every inode is saved.
-/
namespace Xv6
open Xv6.Lib Function

variable {sb : Superblock} {disk : Disk} {v : Nat → Dinode}

/-! ### Pointers as a list -/

/-- The pointers that name a block. -/
def pointers (sb : Superblock) (disk : Disk) (v : Nat → Dinode) : List (Nat × Nat) :=
  ((List.range sb.ninodes).flatMap fun i => (List.range NPTR).map fun k => (i,k)).filter fun l => own sb disk v l ≠ 0

/-- The blocks that are named. -/
def targets (sb : Superblock) (disk : Disk) (v : Nat → Dinode) : List Nat := (pointers sb disk v).map (own sb disk v)

theorem mem_pointers {l : Nat × Nat} : l ∈ pointers sb disk v ↔ own sb disk v l ≠ 0 := by
  unfold pointers
  rw [List.mem_filter]
  refine ⟨fun both => by simpa using both.2,fun some' => ⟨?_,by simpa using some'⟩⟩
  have bounds : l.1 < sb.ninodes ∧ (v l.1).type ≠ 0 ∧ l.2 < NPTR := by
    by_contra out
    exact some' (if_neg out)
  exact List.mem_flatMap.mpr ⟨l.1,List.mem_range.mpr bounds.1,List.mem_map.mpr ⟨l.2,List.mem_range.mpr bounds.2.2,rfl⟩⟩

theorem core_of_lists (layout : Layout sb) (super : superblockAt (disk 1) = sb)
    (reserved : ∀ b < sb.datastart, bitAt sb disk b = true) {l : List Nat} (list : targets sb disk v = l) (once : l.Nodup)
    (range : ∀ b ∈ l, sb.datastart ≤ b ∧ b < sb.size)
    (used : ∀ b < sb.size, sb.datastart ≤ b → bitAt sb disk b = decide (b ∈ l)) : Core sb disk v := by
  subst list
  have mem {l : Nat × Nat} (some' : own sb disk v l ≠ 0) : own sb disk v l ∈ targets sb disk v :=
    List.mem_map_of_mem (mem_pointers.mpr some')
  have positive := layout.positive
  refine ⟨layout,super,reserved,fun l some' => range _ (mem some'),fun k l some' same => ?_,fun b low high => ?_⟩
  · exact List.inj_on_of_nodup_map once (mem_pointers.mpr some') (mem_pointers.mpr (same ▸ some')) same
  · rw [used b high low,decide_eq_true_iff]
    refine ⟨fun listed => ?_,fun ⟨l,here⟩ => here ▸ mem (by omega)⟩
    obtain ⟨l,_,here⟩ := List.mem_map.mp listed
    exact ⟨l,here⟩

/-! ### The files on a disk -/

/-- The files that a state represents when all its inodes are saved. -/
def view (s : State) : Files where
  ninodes := s.sb.ninodes
  node i := ⟨(dinodeAt s.sb s.disk i).toAttr,content s.disk (dinodeAt s.sb s.disk i)⟩
  hole i bn := decide (bn * BSIZE < (dinodeAt s.sb s.disk i).size.toNat ∧ blk s.disk (dinodeAt s.sb s.disk i) bn = 0)
  unsaved _ := false
  slot ip := if (s.icache ip).ref = 0 then none
    else some ⟨(s.icache ip).inum,(s.icache ip).ref.toNat,(s.icache ip).lock,(s.icache ip).valid⟩
  tables := s.tables
  devsw := s.devsw

/-- The entry of the cache is not in use, or it is that of an inode of the disk. -/
def Saved (s : State) (i : Inode) : Prop :=
  if i.ref = 0 then i.lock = none
  else 0 < i.ref ∧ i.dev = ROOTDEV ∧ i.inum < s.sb.ninodes ∧
    (i.valid = true → i.node = dinodeAt s.sb s.disk i.inum ∧ i.node.type ≠ 0)

instance (s : State) (i : Inode) : Decidable (Saved s i) := by
  unfold Saved
  infer_instance

/-- Every inode is saved, and the disk is in order. -/
structure Clean (s : State) : Prop where
  core : Core s.sb s.disk (dinodeAt s.sb s.disk)
  small : ∀ i < s.sb.ninodes, (dinodeAt s.sb s.disk i).type ≠ 0 → (dinodeAt s.sb s.disk i).size.toNat ≤ MAXFILE * BSIZE
  slots : ∀ ip, Saved s (s.icache ip)
  unique : ∀ ip jp, (s.icache ip).ref ≠ 0 → (s.icache jp).ref ≠ 0 → (s.icache ip).inum = (s.icache jp).inum → ip = jp

theorem Clean.represents {s : State} (clean : Clean s) : Represents s (view s) := by
  have slot {ip : Slot} {h : Handle} (here : (view s).slot ip = some h) : (s.icache ip).ref ≠ 0 ∧ (s.icache ip).inum = h.inum := by
    unfold view at here
    dsimp only at here
    split at here
    · cases here
    · next used =>
      cases here
      exact ⟨used,rfl⟩
  refine ⟨dinodeAt s.sb s.disk,clean.core,rfl,rfl,rfl,fun ip => ?_,fun ip jp h k here there same => ?_,fun i inside => ?_,
    fun _ _ => rfl,fun _ _ _ => rfl⟩
  · have saved := clean.slots ip
    unfold Saved at saved
    unfold view
    dsimp only
    split at saved
    · next free =>
      rw [if_pos free]
      exact ⟨free,saved⟩
    · next used =>
      obtain ⟨positive,dev,inside,node⟩ := saved
      rw [if_neg used]
      refine ⟨(Int.toNat_of_nonneg positive.le).symm,by show 0 < (s.icache ip).ref.toNat; omega,dev,rfl,inside,rfl,rfl,fun valid => ?_⟩
      obtain ⟨same,typed⟩ := node valid
      exact ⟨same,same ▸ typed⟩
  · obtain ⟨used,one⟩ := slot here
    obtain ⟨used',two⟩ := slot there
    exact clean.unique ip jp used used' (by rw [one,two,same])
  · exact ⟨rfl,fun _ _ _ => rfl,fun _ bn _ low none' => decide_eq_true ⟨low,none'⟩,clean.small i inside⟩

end Xv6
