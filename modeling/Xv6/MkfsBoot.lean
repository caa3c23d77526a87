import Xv6.MkfsMain
import Xv6.Reading
import Xv6.Writing

/-!
The kernel on an image that `mkfs` made.
-/
namespace Xv6.Mkfs
open Xv6 Xv6.Lib Prog Function

variable {s : Fs} {d : Dinode} {disk : Disk} {bytes : List UInt8} {args : List Arg}

/-! ### No holes -/

theorem Stores.there (stores : Stores disk d bytes) {bn : Nat} (inside : bn * BSIZE < bytes.length) : blk disk d bn ≠ 0 := by
  have small : bn < MAXFILE := Nat.lt_of_mul_lt_mul_right (lt_of_lt_of_le inside stores.small)
  have max : MAXFILE = NDIRECT + NINDIRECT := rfl
  have ptrs : NPTR = NDIRECT + 1 + NINDIRECT := rfl
  refine (stores.dense (position bn) ?_).mpr (used_position.mpr inside)
  unfold position
  split <;> omega

theorem root_length (args : List Arg) : (dots ++ dirents 2 args).length = 16 * (args.length + 2) := by
  rw [List.length_append,dots_length,dirents_length]
  omega

/-- The size of the root directory. -/
def rootSize (args : List Arg) : Nat := rounded (16 * (args.length + 2))

theorem rootSize_small (few : args.length + 2 ≤ sb.ninodes) : rootSize args ≤ NDIRECT * BSIZE := by
  have nodes := ninodes_eq
  have direct : NDIRECT = 12 := rfl
  unfold rootSize rounded
  rw [BSIZE_eq]
  omega

theorem rootSize_full (part : (args.length + 2) % (BSIZE / 16) = 0) : rootSize args = 16 * (args.length + 2 + 32) := by
  unfold rootSize rounded
  rw [BSIZE_eq] at part ⊢
  omega

theorem contents_at {k : Nat} {a : Arg} (there : args[k]? = some a) : (contents args)[k]? = some (a.reads.getD []).flatten := by
  rw [contents,List.getElem?_map,there]
  rfl

variable {devsw : Fin NDEV → Driver} {p : Pid}

/-- The kernel after boot, where process `p` has locked the root directory. -/
def opened (disk : Disk) (devsw : Fin NDEV → Driver) (p : Pid) : State :=
  { boot disk devsw with
    icache ip := if ip = 0 then ⟨ROOTDEV,ROOTINO,2,some p,true,dinodeAt (superblockAt (disk 1)) disk ROOTINO⟩
      else ⟨0,0,0,none,false,.zero⟩ }

theorem Complete.super {root : List UInt8} {files : List (List UInt8)} (complete : Complete s root files) :
    superblockAt (s.img 1) = sb := by
  rw [← complete.disk]
  exact complete.img.core.super

section
variable (complete : Complete s (dots ++ dirents 2 args) (contents args)) (few : args.length + 2 ≤ sb.ninodes)
include complete few

theorem Complete.root_attr : (s.node ROOTINO).type = T_DIR ∧ (s.node ROOTINO).size.toNat = rootSize args := by
  have small := rootSize_small few
  have bound : NDIRECT * BSIZE < 2 ^ 32 := by decide
  constructor
  · rw [complete.dir]
  · rw [complete.dir,root_length]
    exact UInt32.toNat_ofNat_of_lt' (lt_of_le_of_lt small bound)

omit few in
theorem Complete.in_use {i : Nat} (inside : i < sb.ninodes)
    (type : (s.node i).type ≠ 0) : i = ROOTINO ∨ ∃ k a, i = k + 2 ∧ args[k]? = some a := by
  have count : (contents args).length = args.length := by simp [contents]
  have region : ¬(i = 0 ∨ args.length + 2 ≤ i) := by
    rw [← count]
    exact fun free => type (complete.free i inside free)
  by_cases root : i = ROOTINO
  · exact .inl root
  · have one : ROOTINO = 1 := rfl
    have high : i - 2 < args.length := by omega
    exact .inr ⟨i - 2,args[i - 2],by omega,List.getElem?_eq_getElem high⟩

theorem Complete.regular {i : Nat} (inside : i < sb.ninodes) (type : (s.node i).type ≠ 0) :
    (s.node i).type ≠ T_DEV ∧ (s.node i).size.toNat ≤ MAXFILE * BSIZE := by
  rcases complete.in_use inside type with rfl | ⟨k,a,rfl,there⟩
  · obtain ⟨dir,size⟩ := complete.root_attr few
    have small := rootSize_small few
    have direct : NDIRECT * BSIZE ≤ MAXFILE * BSIZE := by decide
    exact ⟨by rw [dir]; decide,by omega⟩
  · have file := complete.file inside (contents_at there)
    refine ⟨?_,by rw [file.size]; exact file.small⟩
    rw [complete.attr inside (contents_at there)]
    exact (by decide : T_FILE ≠ T_DEV)

theorem Complete.hole (full : (args.length + 2) % (BSIZE / 16) = 0) : blk s.img (s.node ROOTINO) (16 * (args.length + 2) / BSIZE) = 0 := by
  have nodes := ninodes_eq
  have direct : NDIRECT = 12 := rfl
  have ptrs : NPTR = NDIRECT + 1 + NINDIRECT := rfl
  by_contra some'
  have pos : position (16 * (args.length + 2) / BSIZE) < NPTR := by
    rw [BSIZE_eq]
    unfold position
    split <;> omega
  have used := used_position.mp ((complete.entries.dense _ pos).mp some')
  rw [root_length] at used
  rw [BSIZE_eq] at used full
  omega

theorem Complete.holds : Holds (opened s.img devsw p) s.node 0 ROOTINO where
  core := by
    show Core (superblockAt (s.img 1)) s.img s.node
    have core := complete.img.core
    rw [complete.disk] at core
    rwa [complete.super]
  inside := by
    show ROOTINO < (superblockAt (s.img 1)).ninodes
    rw [complete.super]
    decide
  node := by
    show dinodeAt (superblockAt (s.img 1)) s.img ROOTINO = _
    rw [complete.super]
  type := by
    rw [(complete.root_attr few).1]
    decide

end

/-- An image has no holes, and no read of one of its inodes allocates anything, exactly if the entries of the root
    directory do not end at a block boundary. -/
theorem mkfs_no_holes {args : List Arg} (few : args.length + 2 ≤ sb.ninodes) (accepted : Accepted args) :
    ∃ s, mkfs args = .ok s ∧ ((∀ i < sb.ninodes, (s.node i).type ≠ 0 →
      (∀ bn, bn * BSIZE < (s.node i).size.toNat → blk s.img (s.node i) bn ≠ 0) ∧
      ∀ (k : State) (ip : Slot), k.disk = s.img → (k.icache ip).node = s.node i →
        ∀ off n, ∃ r, readi ip off n k = .ok (r,k)) ↔ (args.length + 2) % (BSIZE / 16) ≠ 0) := by
  obtain ⟨s,made,complete⟩ := mkfs_complete few accepted
  obtain ⟨dir,size⟩ := complete.root_attr few
  refine ⟨s,made,fun whole full => ?_,fun part i inside type => ?_⟩
  · refine (whole ROOTINO (by decide) (by rw [dir]; decide)).1 _ ?_ (complete.hole few full)
    rw [size,rootSize_full full]
    have floor := Nat.div_mul_le_self (16 * (args.length + 2)) BSIZE
    omega
  obtain ⟨dev,small⟩ := complete.regular few inside type
  have there (bn : Nat) (low : bn * BSIZE < (s.node i).size.toNat) : blk s.img (s.node i) bn ≠ 0 := by
    rcases complete.in_use inside type with rfl | ⟨k,a,rfl,there⟩
    · refine complete.entries.there ?_
      rw [size,rootSize,rounded] at low
      rw [root_length]
      rw [BSIZE_eq] at low part ⊢
      omega
    · have file := complete.file inside (contents_at there)
      exact file.there (by rwa [file.size] at low)
  refine ⟨there,fun k ip same node off n => readi_harmless node dev small (fun bn low => ?_) off n⟩
  rw [same]
  exact there bn low

/-- The image of one empty file. -/
theorem mkfs_no_holes_one : ∃ s, mkfs (empties 1) = .ok s ∧ ∀ i < sb.ninodes, (s.node i).type ≠ 0 →
    (∀ bn, bn * BSIZE < (s.node i).size.toNat → blk s.img (s.node i) bn ≠ 0) ∧
    ∀ (k : State) (ip : Slot), k.disk = s.img → (k.icache ip).node = s.node i → ∀ off n, ∃ r, readi ip off n k = .ok (r,k) := by
  obtain ⟨s,made,whole⟩ := @mkfs_no_holes (empties 1) (by decide) (accepted_empties (by decide))
  exact ⟨s,made,whole.mpr (by decide)⟩

/-- The root directory of thirty files has a hole. -/
theorem mkfs_hole : ∃ s, mkfs (empties 30) = .ok s ∧ 1 * BSIZE < (s.node ROOTINO).size.toNat ∧
    blk s.img (s.node ROOTINO) 1 = 0 := by
  have few : (empties 30).length + 2 ≤ sb.ninodes := by decide
  obtain ⟨s,made,complete⟩ := mkfs_complete few (accepted_empties (by decide))
  refine ⟨s,made,?_,complete.hole few (by decide)⟩
  rw [(complete.root_attr few).2]
  decide

end Xv6.Mkfs
