import Xv6.DirMap

/-!
What the kernel finds and reads on an image that `mkfs` made.
-/
namespace Xv6

/-! ### Locking -/

section
open Xv6.Lib Prog Function

variable {s : State} {p : Pid} {ip : Slot} {Q : Unit → State → Prop} {E : Stop Wait → Prop}

/-- The state in which `p` has locked and read an inode that was not read before. -/
def State.locked (s : State) (p : Pid) (ip : Slot) : State :=
  { s with
    icache := update s.icache ip
      { s.icache ip with lock := some p, valid := true, node := dinodeAt s.sb s.disk (s.icache ip).inum } }

theorem wp_ilock_unread (used : 0 < (s.icache ip).ref) (free : (s.icache ip).lock = none) (unread : (s.icache ip).valid = false)
    (typed : (dinodeAt s.sb s.disk (s.icache ip).inum).type ≠ 0) : wp (kernel p) (ilock ip) Q E s = Q () (s.locked p ip) := by
  rw [wp_ilock used,if_pos free]
  unfold iload
  simp only [post_bind,post_get,State.setLock,update_self,unread]
  rw [if_neg Bool.false_ne_true,post_bind,post_modifyInode,post_ite,if_neg typed]
  simp only [post_pure,update_self,update_idem]
  rfl

end

namespace Mkfs
open Xv6.Lib Prog Function

variable {s : Fs} {disk : Disk} {args : List Arg} {devsw : Fin NDEV → Driver} {p : Pid} {name : List UInt8}
  {Q : Option (Slot × Nat) → State → Prop} {E : Stop Wait → Prop}

/-! ### The entries of the root directory -/

/-- The entries of the arguments, from the inode number `n` on. -/
def named (n : Nat) : List Arg → List Dirent
  | [] => []
  | a :: args => ⟨UInt16.ofNat n,strncpy (skip a.name) DIRSIZ⟩ :: named (n + 1) args

/-- The entries of the root directory. -/
def rootEntries (args : List Arg) : List Dirent :=
  ⟨UInt16.ofNat ROOTINO,strncpy dot DIRSIZ⟩ :: ⟨UInt16.ofNat ROOTINO,strncpy dotdot DIRSIZ⟩ :: named 2 args

theorem dirents_named (n : Nat) (args : List Arg) : dirents n args = (named n args).flatMap Dirent.encode := by
  induction args generalizing n with
  | nil => rfl
  | cons a args ih => rw [dirents,named,List.flatMap_cons,ih]; rfl

theorem root_entries (args : List Arg) : dots ++ dirents 2 args = (rootEntries args).flatMap Dirent.encode := by
  rw [dirents_named,rootEntries,List.flatMap_cons,List.flatMap_cons,dots,List.append_assoc]
  rfl

theorem named_at {n k : Nat} : (named n args)[k]? = args[k]?.map fun a => ⟨UInt16.ofNat (n + k),strncpy (skip a.name) DIRSIZ⟩ := by
  induction args generalizing n k with
  | nil => simp [named]
  | cons a args ih =>
    cases k with
    | zero => simp [named]
    | succ k =>
      rw [named,List.getElem?_cons_succ,ih,List.getElem?_cons_succ,show n + 1 + k = n + (k + 1) by omega]

theorem named_full {n : Nat} : ∀ e ∈ named n args, e.name.length = DIRSIZ := by
  induction args generalizing n with
  | nil => simp [named]
  | cons a args ih =>
    intro e mem
    rcases List.mem_cons.mp mem with rfl | mem
    · exact strncpy_length _ _
    · exact ih e mem

theorem rootEntries_full : ∀ e ∈ rootEntries args, e.name.length = DIRSIZ := by
  intro e mem
  rcases List.mem_cons.mp mem with rfl | mem
  · exact strncpy_length _ _
  · rcases List.mem_cons.mp mem with rfl | mem
    · exact strncpy_length _ _
    · exact named_full e mem

theorem slice_getD (l l' : List UInt8) : slice (fun off => (l ++ l').getD off 0) 0 l.length = l := by
  refine List.ext_getElem (by simp [slice]) fun k inside inside' => ?_
  simp only [slice,List.getElem_map,List.getElem_range,Nat.zero_add]
  rw [List.getD_eq_getElem?_getD,List.getElem?_append_left inside',List.getElem?_eq_getElem inside',Option.getD_some]

theorem decode_entries {es : List Dirent} (full : ∀ e ∈ es, e.name.length = DIRSIZ) (j : Nat) :
    Dirent.decode (slice (fun off => (es.flatMap Dirent.encode).getD off 0) (16 * j) 16) =
      es.getD j ⟨0,List.replicate DIRSIZ 0⟩ := by
  induction es generalizing j with
  | nil =>
    have zeros : slice (fun off => (List.flatMap Dirent.encode []).getD off 0) (16 * j) 16 = List.replicate 16 0 := by
      simp [slice]
    rw [zeros,← encode_empty,decode_encode _ (by simp)]
    rfl
  | cons e es ih =>
    have len := encode_length e (full e List.mem_cons_self)
    cases j with
    | zero =>
      have first := slice_getD e.encode (es.flatMap Dirent.encode)
      rw [len] at first
      rw [List.flatMap_cons,Nat.mul_zero,first,decode_encode e (full e List.mem_cons_self)]
      rfl
    | succ j =>
      have later : slice (fun off => ((e :: es).flatMap Dirent.encode).getD off 0) (16 * (j + 1)) 16 =
          slice (fun off => (es.flatMap Dirent.encode).getD off 0) (16 * j) 16 := by
        unfold slice
        refine List.map_congr_left fun k _ => ?_
        dsimp only
        rw [List.flatMap_cons,List.getD_eq_getElem?_getD,List.getElem?_append_right (by omega),len,
          show 16 * (j + 1) + k - 16 = 16 * j + k by omega,← List.getD_eq_getElem?_getD]
      rw [later,ih fun e mem => full e (List.mem_cons_of_mem _ mem)]
      rfl

/-- The names of the files, as the kernel compares them. -/
def keys (args : List Arg) : List (List UInt8) := args.map fun a => key (skip a.name)

/-! ### The root directory -/

/-- The root directory on a disk. -/
def rootDir (disk : Disk) : Node :=
  ⟨(dinodeAt (superblockAt (disk 1)) disk ROOTINO).toAttr,content disk (dinodeAt (superblockAt (disk 1)) disk ROOTINO)⟩

theorem rootEntries_file (m : Nat) :
    (rootEntries args)[m + 2]? = args[m]?.map fun a => ⟨UInt16.ofNat (m + 2),strncpy (skip a.name) DIRSIZ⟩ := by
  rw [rootEntries,List.getElem?_cons_succ,List.getElem?_cons_succ,named_at,Nat.add_comm 2 m]

/-! ### The booted kernel -/

/-- Look a name up in the root directory. -/
def lookup (name : List UInt8) : Call (Option (Slot × Nat)) := do
  let dp ← call (.iget ROOTDEV ROOTINO)
  ilock dp
  dirlookup dp name

/-- The size and the contents of the file with a name in the root directory. -/
def readFile (name : List UInt8) : Call (Option (Nat × Option (List UInt8))) := do
  match ← lookup name with
  | none => return none
  | some (ip,_) =>
    ilock ip
    let d ← call (.attr ip)
    let bytes ← call (.readi ip 0 d.size.toNat)
    return some (d.size.toNat,bytes)

theorem wp_lookup (typed : (rootDir disk).type = T_DIR) :
    wp (kernel p) (lookup name) Q E (boot disk devsw) = wp (kernel p) (dirlookup 0 name) Q E (opened disk devsw p) := by
  let s₁ : State := { boot disk devsw with icache := update (boot disk devsw).icache 0 ⟨ROOTDEV,ROOTINO,2,none,false,.zero⟩ }
  have got : iget ROOTDEV ROOTINO (boot disk devsw) = .ok (0,s₁) := rfl
  have typed' : (dinodeAt s₁.sb s₁.disk (s₁.icache 0).inum).type ≠ 0 := by
    show (rootDir disk).type ≠ 0
    rw [typed]
    decide
  have locked : s₁.locked p 0 = opened disk devsw p := by
    unfold State.locked opened
    congr 1
    funext ip
    by_cases first : ip = 0
    · subst first
      rw [update_self,if_pos rfl]
      rfl
    · rw [update_of_ne first,if_neg first]
      show update (boot disk devsw).icache 0 _ ip = _
      rw [update_of_ne first]
      exact if_neg first
  rw [lookup,wp_bind,Refs.wp_kernel]
  show post (iget ROOTDEV ROOTINO) _ _ _ = _
  unfold post
  rw [got]
  dsimp only
  rw [wp_bind,wp_ilock_unread (show (0 : Int) < 2 by decide) rfl rfl typed',locked]

theorem iget_next {dev inum : Nat} (apart : inum ≠ ROOTINO) :
    iget dev inum (opened disk devsw p) = .ok (1,{ opened disk devsw p with
      icache := update (opened disk devsw p).icache 1 ⟨dev,inum,1,none,false,.zero⟩ }) := by
  have absent : ((List.finRange NINODE).find? fun ip => ((opened disk devsw p).icache ip).ref > 0 &&
      ((opened disk devsw p).icache ip).dev == dev && ((opened disk devsw p).icache ip).inum == inum) = none := by
    refine List.find?_eq_none.mpr fun ip _ => ?_
    unfold opened
    dsimp only
    split
    · simp [Ne.symm apart]
    · simp
  have free : ((List.finRange NINODE).find? fun ip => ((opened disk devsw p).icache ip).ref == 0) = some 1 := by
    have same : (fun ip => ((opened disk devsw p).icache ip).ref == 0) = fun ip : Slot => decide (ip ≠ 0) := by
      funext ip
      unfold opened
      dsimp only
      split <;> simp [*]
    rw [same]
    decide
  refine post_run ?_
  unfold iget
  simp only [post_bind,post_get]
  rw [absent]
  simp only [free]
  rw [post_bind,post_modifyInode,post_pure]
  exact ⟨rfl,rfl⟩

/-- The kernel that has found the file `m`. -/
def found (disk : Disk) (devsw : Fin NDEV → Driver) (p : Pid) (m : Nat) : State :=
  { opened disk devsw p with icache := update (opened disk devsw p).icache 1 ⟨ROOTDEV,m + 2,1,none,false,.zero⟩ }

section
variable (complete : Complete s (dots ++ dirents 2 args) (contents args)) (few : args.length + 2 ≤ sb.ninodes)
include complete few

omit few in
theorem Complete.dir_eq : rootDir s.img = ⟨(s.node ROOTINO).toAttr,content s.img (s.node ROOTINO)⟩ := by
  rw [rootDir,complete.super]

theorem Complete.root_size : (rootDir s.img).size.toNat = rootSize args := by
  rw [complete.dir_eq]
  exact (complete.root_attr few).2

theorem Complete.root_type : (rootDir s.img).type = T_DIR := by
  rw [complete.dir_eq]
  exact (complete.root_attr few).1

theorem Complete.aligned : (rootDir s.img).aligned := by
  rw [Node.aligned,complete.root_size few,rootSize,rounded,BSIZE_eq]
  omega

theorem Complete.entry {j : Nat} (inside : j < (rootDir s.img).count) :
    (rootDir s.img).entry j = (rootEntries args).getD j ⟨0,List.replicate DIRSIZ 0⟩ := by
  have small := rootSize_small few
  have direct : NDIRECT * BSIZE ≤ MAXFILE * BSIZE := by decide
  rw [Node.count,complete.root_size few] at inside
  rw [← decode_entries rootEntries_full,← root_entries,complete.dir_eq]
  exact congrArg Dirent.decode (slice_congr _ fun k low => complete.entries.data _ (by omega))

theorem Complete.find {j : Nat} (dot' : key name ≠ key dot) (dotdot' : key name ≠ key dotdot)
    (found : (rootDir s.img).find name = some j) : ∃ k a, j = k + 2 ∧ args[k]? = some a ∧ key name = key (skip a.name) := by
  obtain ⟨⟨inside,used⟩,same⟩ := find_some found
  rw [complete.entry few inside] at used same
  match j with
  | 0 => exact absurd (same.symm.trans (key_strncpy dot)) dot'
  | 1 => exact absurd (same.symm.trans (key_strncpy dotdot)) dotdot'
  | k + 2 =>
    rw [List.getD_eq_getElem?_getD,rootEntries_file] at used same
    cases there : args[k]? with
    | none =>
      rw [there] at used
      exact absurd rfl used
    | some a =>
      rw [there] at same
      exact ⟨k,a,rfl,there,same.symm.trans (key_strncpy _)⟩

theorem Complete.find_absent (absent : key name ∉ keys args) (dot' : key name ≠ key dot) (dotdot' : key name ≠ key dotdot) :
    (rootDir s.img).find name = none := by
  refine Option.eq_none_iff_forall_ne_some.mpr fun j found => ?_
  obtain ⟨k,a,_,there,same⟩ := complete.find few dot' dotdot' found
  exact absent (List.mem_map.mpr ⟨a,List.mem_of_getElem? there,same.symm⟩)

theorem Complete.find_file {m : Nat} {a : Arg} (there : args[m]? = some a) (distinct : (keys args).Nodup)
    (dot' : key (skip a.name) ≠ key dot) (dotdot' : key (skip a.name) ≠ key dotdot) (same : key name = key (skip a.name)) :
    (rootDir s.img).find name = some (m + 2) ∧ ((rootDir s.img).entry (m + 2)).inum.toNat = m + 2 := by
  have low : m < args.length := (List.getElem?_eq_some_iff.mp there).1
  have nodes := ninodes_eq
  have inside : m + 2 < (rootDir s.img).count := by
    rw [Node.count,complete.root_size few,rootSize,rounded,BSIZE_eq]
    omega
  have entry : (rootDir s.img).entry (m + 2) = ⟨UInt16.ofNat (m + 2),strncpy (skip a.name) DIRSIZ⟩ := by
    rw [complete.entry few inside,List.getD_eq_getElem?_getD,rootEntries_file,there]
    rfl
  have inum : ((rootDir s.img).entry (m + 2)).inum.toNat = m + 2 := by
    rw [entry]
    exact UInt16.toNat_ofNat_of_lt' (show m + 2 < 65536 by omega)
  have live : (rootDir s.img).live (m + 2) := by
    refine ⟨inside,fun zero => ?_⟩
    rw [zero] at inum
    cases inum
  refine ⟨?_,inum⟩
  obtain ⟨j,found⟩ := find_live live (show _ = key name by rw [entry,key_strncpy,same])
  obtain ⟨k,b,rfl,other,equal⟩ := complete.find few (by rwa [same]) (by rwa [same]) found
  have one : (keys args)[k]? = some (key name) := by rw [keys,List.getElem?_map,other,Option.map_some,equal]
  have two : (keys args)[m]? = some (key name) := by rw [keys,List.getElem?_map,there,Option.map_some,same]
  rwa [(List.getElem?_inj (List.getElem?_eq_some_iff.mp one).1 distinct).mp (one.trans two.symm)] at found

theorem Complete.reads {j : Nat} (low : j < args.length + 2) : readi 0 (16 * j) 16 (opened s.img devsw p) =
    .ok (some (slice (rootDir s.img).data (16 * j) 16),opened s.img devsw p) := by
  obtain ⟨type,size⟩ := complete.root_attr few
  have small := rootSize_small few
  have direct : NDIRECT * BSIZE ≤ MAXFILE * BSIZE := by decide
  have inside : 16 * (args.length + 2) ≤ rootSize args := by
    unfold rootSize rounded
    rw [BSIZE_eq]
    omega
  rw [complete.dir_eq]
  refine readi_there (complete.holds few).node (by rw [type]; decide) (by omega) (by omega) fun bn touches => complete.entries.there ?_
  have high := touches.2.2
  rw [root_length]
  omega

/-- What the root directory lacks is the block of a hole at its end. -/
theorem Complete.lacks {k : Nat} (lacks : k ∈ lacking s.img (s.node ROOTINO) (way 0 (rootSize args))) :
    (args.length + 2) % (BSIZE / 16) = 0 ∧ k = 16 * (args.length + 2) / BSIZE := by
  have small := rootSize_small few
  have direct : NDIRECT * BSIZE ≤ MAXFILE * BSIZE := by decide
  obtain ⟨on',zero⟩ := Finset.mem_filter.mp lacks
  obtain ⟨bn,⟨_,_,high⟩,here⟩ := (mem_way (by omega)).mp on'
  have low : bn < NDIRECT := Nat.lt_of_mul_lt_mul_right (show bn * BSIZE < NDIRECT * BSIZE by omega)
  rw [wayTo,if_pos low,Finset.mem_singleton] at here
  subst here
  have past : ¬k * BSIZE < 16 * (args.length + 2) := fun inside => by
    refine complete.entries.there (by rwa [root_length]) ?_
    rwa [blk,position,if_pos low]
  unfold rootSize rounded at high
  rw [BSIZE_eq] at high past ⊢
  omega

theorem Complete.listed (room : (args.length + 2) % (BSIZE / 16) ≠ 0 ∨ s.freeblock < FSSIZE) :
    Listed (opened s.img devsw p) 0 (rootDir s.img) (rootSize args) := by
  have small := rootSize_small few
  have direct : NDIRECT * BSIZE ≤ MAXFILE * BSIZE := by decide
  refine Listed.of_clean (complete.clean few) (show (0 : Int) < 2 by decide) rfl (complete.root_type few)
    (complete.root_size few).le (by omega) ?_
  rw [(complete.holds few).node]
  change (lacking s.img _ _).card ≤ _
  rcases room with part | free
  · rw [Finset.eq_empty_of_forall_notMem fun k lacks => part (complete.lacks few lacks).1]
    exact Nat.zero_le _
  · have super : (opened s.img devsw p).sb = sb := complete.super
    have clear : bitAt (opened s.img devsw p).sb s.img s.freeblock = false := by
      rw [super,← complete.disk,bitAt_vdisk complete.img.high free]
      simp
    have spare := Finset.card_pos.mpr ⟨s.freeblock,mem_freeBlocks.mpr ⟨by rwa [super],clear⟩⟩
    exact (Finset.card_le_one.mpr fun k one l two =>
      (complete.lacks few one).2.trans (complete.lacks few two).2.symm).trans spare

/-! ### Lookups -/

theorem Complete.lookup_file {m : Nat} {a : Arg} (there : args[m]? = some a) (distinct : (keys args).Nodup)
    (dot' : key (skip a.name) ≠ key dot) (dotdot' : key (skip a.name) ≠ key dotdot) (same : key name = key (skip a.name)) :
    wp (kernel p) (lookup name) (fun r k => r = some (1,16 * (m + 2)) ∧ k = found s.img devsw p m) (fun _ => False)
      (boot s.img devsw) := by
  have low : m < args.length := (List.getElem?_eq_some_iff.mp there).1
  obtain ⟨find,inum⟩ := complete.find_file few there distinct dot' dotdot' same
  rw [wp_lookup (complete.root_type few)]
  refine wp_dirlookup (I := fun _ k => k = opened s.img devsw p) rfl (complete.root_type few) (complete.aligned few) rfl ?_ ?_ ?_
  · rintro _ l rfl _ first
    have before := first _ find
    rw [Refs.wp_kernel]
    exact post_of_run (complete.reads few (by omega)) ⟨rfl,rfl⟩
  · intro _ _ none'
    rw [find] at none'
    cases none'
  · rintro _ k rfl found
    rw [find] at found
    cases found
    rw [inum]
    exact post_of_run (iget_next (by simp [ROOTINO])) ⟨rfl,rfl⟩

/-- The file that is found has the contents that were copied. -/
theorem Complete.read_file {m : Nat} {a : Arg} (there : args[m]? = some a) (distinct : (keys args).Nodup)
    (dot' : key (skip a.name) ≠ key dot) (dotdot' : key (skip a.name) ≠ key dotdot) (same : key name = key (skip a.name)) :
    ∃ k, exec (kernel p) (readFile name) (boot s.img devsw) =
      .ok (some ((a.reads.getD []).flatten.length,some (a.reads.getD []).flatten),k) := by
  have inside : m + 2 < sb.ninodes := by
    have := (List.getElem?_eq_some_iff.mp there).1
    omega
  have attr := complete.attr inside (contents_at there)
  have file := complete.file inside (contents_at there)
  have node : dinodeAt (superblockAt (s.img 1)) s.img (m + 2) = s.node (m + 2) := by rw [complete.super]
  have typed : (s.node (m + 2)).type = T_FILE := by rw [attr]
  have bytes : slice (content s.img (s.node (m + 2))) 0 (s.node (m + 2)).size.toNat = (a.reads.getD []).flatten := by
    have whole := slice_getD (a.reads.getD []).flatten []
    rw [List.append_nil] at whole
    rw [file.size]
    exact (slice_congr _ fun k low => file.data (0 + k) (by have := file.small; omega)).trans whole
  have here : (((found s.img devsw p m).locked p 1).icache 1).node = s.node (m + 2) := node
  have read : readi 1 0 (s.node (m + 2)).size.toNat ((found s.img devsw p m).locked p 1) =
      .ok (some (a.reads.getD []).flatten,(found s.img devsw p m).locked p 1) := by
    rw [← bytes]
    refine readi_there here (by rw [typed]; decide) (by omega) (by rw [file.size]; exact file.small) fun bn touches => ?_
    exact file.there (by
      have := touches.2.2
      rw [file.size] at this
      omega)
  have goes : wp (kernel p) (readFile name) (fun r _ => r = some ((a.reads.getD []).flatten.length,some (a.reads.getD []).flatten))
      (fun _ => False) (boot s.img devsw) := by
    rw [readFile,wp_bind]
    refine wp_use (complete.lookup_file few there distinct dot' dotdot' same) ?_
    rintro _ _ ⟨rfl,rfl⟩
    dsimp only
    rw [wp_bind,wp_ilock_unread (show (0 : Int) < 1 by decide) rfl rfl (by
      show (dinodeAt (superblockAt (s.img 1)) s.img (m + 2)).type ≠ 0
      rw [node,typed]
      decide),wp_bind,wp_attr_kernel,here,wp_bind,Refs.wp_kernel]
    exact post_of_run read (by rw [file.size]; rfl)
  obtain ⟨_,k,ran,rfl⟩ := wp_returns goes
  exact ⟨k,ran⟩

theorem Complete.lookup_absent (room : (args.length + 2) % (BSIZE / 16) ≠ 0 ∨ s.freeblock < FSSIZE)
    (absent : key name ∉ keys args) (dot' : key name ≠ key dot) (dotdot' : key name ≠ key dotdot) :
    ∃ k, exec (kernel p) (lookup name) (boot s.img devsw) = .ok (none,k) := by
  have find := complete.find_absent few absent dot' dotdot'
  have goes : wp (kernel p) (lookup name) (fun r _ => r = none) (fun _ => False) (boot s.img devsw) := by
    rw [wp_lookup (complete.root_type few)]
    refine (complete.listed few room).dirlookup (complete.aligned few) ⟨1,rfl⟩ (fun _ _ _ _ => rfl) fun _ _ _ _ _ _ found => ?_
    rw [find] at found
    cases found
  obtain ⟨_,k,ran,rfl⟩ := wp_returns goes
  exact ⟨k,ran⟩

theorem Complete.lookup_panics (part : (args.length + 2) % (BSIZE / 16) = 0) (full : s.freeblock = FSSIZE)
    (absent : key name ∉ keys args) (dot' : key name ≠ key dot) (dotdot' : key name ≠ key dotdot) :
    wp (kernel p) (lookup name) (fun _ _ => False) (· = .panic "balloc: out of blocks") (boot s.img devsw) := by
  obtain ⟨type,size⟩ := complete.root_attr few
  have nodes := ninodes_eq
  have rounds := rootSize_full part
  have super : (opened s.img devsw p).sb = sb := complete.super
  have read : readi 0 (16 * (args.length + 2)) 16 (opened s.img devsw p) = .error "balloc: out of blocks" := by
    have direct : NDIRECT = 12 := rfl
    have small := rootSize_small few
    have fits : NDIRECT * BSIZE ≤ MAXFILE * BSIZE := by decide
    refine (readi_enough (complete.holds few) (by rw [type]; decide) (by omega) ?_ (show min 16 _ = 16 by omega)).2 ?_
    · rw [size,Nat.mod_eq_of_lt (by omega)]
      omega
    · have here := complete.hole few part
      rw [BSIZE_eq] at part
      rw [way_one (by decide) (by rw [BSIZE_eq]; omega) (by rw [BSIZE_eq]; omega) (by omega)]
      refine .one (Finset.eq_empty_of_forall_notMem fun b free => ?_) ?_
      · obtain ⟨inside,clear⟩ := mem_freeBlocks.mp free
        rw [super] at inside clear
        change bitAt sb s.img b = false at clear
        rw [← complete.disk,bitAt_vdisk complete.img.high inside,full] at clear
        exact of_decide_eq_false clear inside
      · rwa [blk,position,if_pos (by rw [BSIZE_eq]; omega)] at here
  have find := complete.find_absent few absent dot' dotdot'
  rw [wp_lookup (complete.root_type few)]
  refine wp_dirlookup (I := fun l k => k = opened s.img devsw p ∧ l ≤ args.length + 2) rfl (complete.root_type few)
    (complete.aligned few) ⟨rfl,Nat.zero_le _⟩ ?_ ?_ ?_
  · rintro _ l ⟨rfl,low⟩ _ _
    rw [Refs.wp_kernel]
    rcases Nat.lt_or_eq_of_le low with low | rfl
    · exact post_of_run (complete.reads few low) ⟨rfl,rfl,low⟩
    · show post (readi _ _ _) _ _ _
      unfold post
      rw [read]
  · rintro _ ⟨_,past⟩ _
    rw [Node.count,complete.root_size few] at past
    omega
  · intro _ _ _ found
    rw [find] at found
    cases found

end

/-! ### What the kernel reads is what was copied -/

/-- The kernel, booted on the image of a list of files with different names, finds each of them under its name and
    reads its contents; it finds no other name, exactly if there is a block for a hole in the root directory. The
    bitmap has exactly the blocks before the first free one, and each of those behind the metadata has one owner. -/
theorem kernel_reads_mkfs {args : List Arg} (few : args.length + 2 ≤ sb.ninodes) (accepted : Accepted args)
    (distinct : (keys args).Nodup) (dot' : key dot ∉ keys args) (dotdot' : key dotdot ∉ keys args) :
    ∃ s, mkfs args = .ok s ∧
      (∀ a ∈ args, ∀ name, key name = key (skip a.name) → ∀ (p : Pid) (devsw : Fin NDEV → Driver),
        ∃ k, exec (kernel p) (readFile name) (boot s.img devsw) =
          .ok (some ((a.reads.getD []).flatten.length,some (a.reads.getD []).flatten),k)) ∧
      (∀ name, key name ∉ keys args → key name ≠ key dot → key name ≠ key dotdot → ∀ (p : Pid) (devsw : Fin NDEV → Driver),
        ((∃ k, exec (kernel p) (lookup name) (boot s.img devsw) = .ok (none,k)) ↔ (args.length + 2) % (BSIZE / 16) ≠ 0 ∨
          nmeta + needed (16 * (args.length + 2)) + taken (contents args) < FSSIZE)) ∧
      (∀ b < BPB, bitIn (s.img sb.bmapstart) b = decide (b < s.freeblock)) ∧
      ∀ b, nmeta ≤ b → b < s.freeblock → ∃! l, own sb s.img s.node l = b := by
  obtain ⟨s,made,complete⟩ := mkfs_complete few accepted
  refine ⟨s,made,fun a mem name same p devsw => ?_,fun name absent one two p devsw => ?_,fun b small => ?_,fun b low high => ?_⟩
  · obtain ⟨m,there⟩ := List.mem_iff_getElem?.mp mem
    have listed : key (skip a.name) ∈ keys args := List.mem_map.mpr ⟨a,mem,rfl⟩
    exact complete.read_file few there distinct (fun equal => dot' (equal ▸ listed)) (fun equal => dotdot' (equal ▸ listed)) same
  · rw [← root_length,← complete.count]
    refine ⟨fun ⟨k,found⟩ => ?_,fun room => complete.lookup_absent few room absent one two⟩
    by_contra none'
    obtain ⟨part,full⟩ := not_or.mp none'
    have high := complete.img.high
    exact wp_ok (complete.lookup_panics few (not_not.mp part) (le_antisymm high (not_lt.mp full)) absent one two) found
  · have bitmap : s.img sb.bmapstart = setBits s.freeblock := (congrFun complete.disk _).symm.trans (update_self ..)
    have high := complete.img.high
    have size : FSSIZE ≤ BPB := by decide
    rw [bitmap,setBits_bit (by omega)]
  · have high' : b < FSSIZE := lt_of_lt_of_le high complete.img.high
    have core := complete.img.core
    have used : bitAt sb (vdisk s) b = true := by
      rw [bitAt_vdisk complete.img.high high']
      exact decide_eq_true high
    obtain ⟨l,here⟩ := (core.partition.used_iff b low high').mp used
    have positive : 0 < nmeta := by decide
    rw [complete.disk] at here core
    refine ⟨l,here,fun l' here' => ?_⟩
    exact core.partition.once l' l (by rw [here']; omega) (here'.trans here.symm)

/-- The image of one file. -/
theorem kernel_reads_mkfs_one : ∃ s, mkfs [⟨[95,99,97,116],some [[104],[105]]⟩] = .ok s ∧
    ∀ (p : Pid) (devsw : Fin NDEV → Driver), ∃ k,
      exec (kernel p) (readFile [99,97,116]) (boot s.img devsw) = .ok (some (2,some [104,105]),k) := by
  have accepted : Accepted [⟨[95,99,97,116],some [[104],[105]]⟩] := by
    unfold Accepted Fits Arg.Ok
    decide
  obtain ⟨s,made,reads,_⟩ := kernel_reads_mkfs (by decide) accepted (by decide) (by decide) (by decide)
  exact ⟨s,made,fun p devsw => reads _ List.mem_cons_self _ rfl p devsw⟩

/-- Thirty files that take all the blocks that the root directory leaves. -/
def fillers : List Arg := (List.range 30).map fun i =>
  ⟨[UInt8.ofNat (97 + i)],some (List.replicate (if i < 6 then 140 else if i = 6 then 93 else 0) (List.replicate BSIZE 0))⟩

theorem contents_fillers : (contents fillers).map List.length =
    (List.range 30).map fun i => (if i < 6 then 140 else if i = 6 then 93 else 0) * BSIZE := by
  simp [contents,fillers]

theorem taken_fillers : taken (contents fillers) = 940 := by
  have lengths : taken (contents fillers) = (((contents fillers).map List.length).map needed).sum := by
    rw [taken,List.map_map]
    rfl
  rw [lengths,contents_fillers]
  decide

theorem root_fillers : (dots ++ dirents 2 fillers).length = 512 := by
  rw [root_length]
  decide

theorem accepted_fillers : Accepted fillers := by
  refine ⟨fun a mem => ?_,fun f mem => ?_,?_,?_⟩
  · obtain ⟨i,low,rfl⟩ := List.mem_map.mp mem
    refine ⟨?_,rfl⟩
    have names : ∀ i < 30, slash ∉ [UInt8.ofNat (97 + i)] := by decide
    exact names i (List.mem_range.mp low)
  · have length : f.length ∈ (contents fillers).map List.length := List.mem_map_of_mem mem
    rw [contents_fillers] at length
    have small : ∀ n ∈ (List.range 30).map (fun i => (if i < 6 then 140 else if i = 6 then 93 else 0) * BSIZE),
      n ≤ MAXFILE * BSIZE := by decide
    exact small _ length
  · rw [root_fillers]
    decide
  · rw [root_fillers,taken_fillers]
    decide

/-- No block is free on the image of these files, and the root directory has a hole: the kernel panics when it looks
    for another name. -/
theorem kernel_panics_mkfs : Accepted fillers ∧ (keys fillers).Nodup ∧ key dot ∉ keys fillers ∧ key dotdot ∉ keys fillers ∧
    key [65] ∉ keys fillers ∧ ∃ s, mkfs fillers = .ok s ∧ ∀ (p : Pid) (devsw : Fin NDEV → Driver),
      exec (kernel p) (lookup [65]) (boot s.img devsw) = .error (.panic "balloc: out of blocks") := by
  have few : fillers.length + 2 ≤ sb.ninodes := by decide
  have absent : key [65] ∉ keys fillers := by decide
  refine ⟨accepted_fillers,by decide,by decide,by decide,absent,?_⟩
  obtain ⟨s,made,complete⟩ := mkfs_complete few accepted_fillers
  have full : s.freeblock = FSSIZE := by
    rw [complete.count,root_fillers,taken_fillers]
    decide
  refine ⟨s,made,fun p devsw => ?_⟩
  have stops : wp (kernel p) (lookup [65]) _ _ (boot s.img devsw) :=
    complete.lookup_panics few (by decide) full absent (by decide) (by decide)
  obtain ⟨_,ran,rfl⟩ := wp_stops stops
  exact ran

end Mkfs

end Xv6
