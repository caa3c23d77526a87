import Xv6.MkfsAppend
import Xv6.Dirs

/-!
What `mkfs` makes.
-/
namespace Xv6.Mkfs
open Xv6 Xv6.Lib Function

variable {s s' : Fs} {v : Nat → Dinode} {i : Nat} {d : Dinode} {root bytes : List UInt8} {files : List (List UInt8)}

/-! ### A new inode -/

/-- The image with a new inode. -/
def Fs.newInode (s : Fs) (type : UInt16) : Fs :=
  ({ s with freeinode := s.freeinode + 1 } : Fs).inode s.freeinode (Mkfs.newInode type)

variable {E : String → Prop}

theorem post_ialloc {Q : Nat → Fs → Prop} (len : s.len = FSSIZE) (inside : InBlocks s.freeinode)
    (type : UInt16) : post (ialloc type) Q E s = Q s.freeinode (s.newInode type) := by
  unfold ialloc
  simp only [post_bind,post_get,post_modify,post_pure]
  rw [post_winode (s := { s with freeinode := s.freeinode + 1 }) len inside]
  rfl

theorem newInode_empty (disk : Disk) (type : UInt16) : Filled disk (newInode type) [] := by
  have none' (k : Nat) : ptr disk (newInode type) k = 0 := by
    unfold ptr newInode
    split <;> simp
  refine ⟨⟨by simp,fun off _ => ?_,fun k _ => ?_⟩,rfl⟩
  · unfold content blk
    rw [if_pos (none' _)]
    simp
  · rw [none']
    unfold Used
    simp

/-- The image after `ialloc`: the other inodes are as they were. -/
structure Added (s : Fs) (type : UInt16) (s' : Fs) : Prop where
  img : Img s' s'.node
  here : s.freeinode < sb.ninodes → s'.node s.freeinode = newInode type
  others : ∀ j < sb.ninodes, j ≠ s.freeinode → s'.node j = s.node j
  kept : ∀ j < sb.ninodes, (s.node j).type ≠ 0 → ∀ {bs}, Filled (vdisk s) (s.node j) bs → Filled (vdisk s') (s.node j) bs

theorem Img.newInode (img : Img s s.node) (inside : InBlocks s.freeinode) (type : UInt16)
    (free : s.freeinode < sb.ninodes → (s.node s.freeinode).type = 0) : Added s type (s.newInode type) := by
  obtain ⟨s₁,start⟩ : ∃ s₁ : Fs, s₁ = { s with freeinode := s.freeinode + 1 } := ⟨_,rfl⟩
  have disk : vdisk s₁ = vdisk s := by rw [start]; rfl
  have node : s₁.node = s.node := by rw [start]
  have img₁ : Img s₁ s.node := by
    subst start
    refine ⟨img.len,img.core,img.low,img.high,img.zero,fun w listed => ?_⟩
    exact (img.log w listed).kept (Nat.le_succ _) fun _ _ => rfl
  have made : s.newInode type = s₁.inode s.freeinode (Mkfs.newInode type) := by rw [start]; rfl
  have stored := stored_inode (s := s₁) inside (Mkfs.newInode type)
  have nodes (j : Nat) (low : j < sb.ninodes) :
      (s₁.inode s.freeinode (Mkfs.newInode type)).node j = update s.node s.freeinode (Mkfs.newInode type) j := by
    show dinodeAt sb (s₁.inode s.freeinode (Mkfs.newInode type)).img j = _
    rw [← dinodeAt_vdisk (inBlocks low)]
    rcases eq_or_ne j s.freeinode with rfl | other
    · rw [update_self]
      exact stored.here
    · rw [update_of_ne other,stored.others j other,dinodeAt_vdisk (inBlocks low)]
      exact congrFun node j
  have owns (l : Nat × Nat) : own sb (vdisk s₁) (s₁.inode s.freeinode (Mkfs.newInode type)).node l = own sb (vdisk s₁) s.node l := by
    rw [own_congr nodes]
    obtain ⟨j,k⟩ := l
    rcases eq_or_ne j s.freeinode with rfl | other
    · by_cases low : s.freeinode < sb.ninodes
      · rw [own_eq_zero (v := s.node) fun both => both.2.1 (free low),own]
        simp [Mkfs.newInode,ptr]
      · rw [own_eq_zero fun both => low both.1,own_eq_zero fun both => low both.1]
    · simp [own,other]
  have data (c : Nat) (low : sb.datastart ≤ c) : vdisk (s₁.inode s.freeinode (Mkfs.newInode type)) c = vdisk s c := by
    rw [← disk]
    exact stored.same c (le_trans (by decide) low)
  rw [made]
  refine ⟨img₁.inode inside (by rw [start]; exact Nat.lt_succ_self _) owns,fun low => ?_,fun j low other => ?_,
    fun j low typed bs full => ?_⟩
  · rw [nodes _ low,update_self]
  · rw [nodes j low,update_of_ne other]
  · exact full.congr (fun off small => content_data img.core data low typed small) fun k _ => ptr_data img.core data low typed k

/-! ### The files so far -/

/-- The blocks that files take. -/
def taken (files : List (List UInt8)) : Nat := (files.map fun f => needed f.length).sum

/-- The image with the entries `root` in the root directory and the files, as far as their inodes are counted by the
    superblock. -/
structure Made (s : Fs) (root : List UInt8) (files : List (List UInt8)) : Prop where
  img : Img s s.node
  inodes : s.freeinode = files.length + 2
  dir : (s.node ROOTINO).toAttr = ⟨T_DIR,0,0,1,UInt32.ofNat root.length⟩
  entries : Filled (vdisk s) (s.node ROOTINO) root
  attr : ∀ {k bytes}, k + 2 < sb.ninodes → files[k]? = some bytes →
    (s.node (k + 2)).toAttr = ⟨T_FILE,0,0,1,UInt32.ofNat bytes.length⟩
  file : ∀ {k bytes}, k + 2 < sb.ninodes → files[k]? = some bytes → Filled (vdisk s) (s.node (k + 2)) bytes
  free : ∀ i < sb.ninodes, i = 0 ∨ files.length + 2 ≤ i → (s.node i).type = 0
  count : s.freeblock = nmeta + needed root.length + taken files

theorem taken_append (files files' : List (List UInt8)) : taken (files ++ files') = taken files + taken files' := by
  simp [taken]

theorem taken_one (bytes : List UInt8) : taken [bytes] = needed bytes.length := by simp [taken]

theorem Made.root_typed (made : Made s root files) : (s.node ROOTINO).type ≠ 0 := by
  rw [made.dir]
  show T_DIR ≠ 0
  decide

theorem Made.file_typed (made : Made s root files) {k : Nat} (inside : k + 2 < sb.ninodes) (there : files[k]? = some bytes) :
    (s.node (k + 2)).type ≠ 0 := by
  rw [made.attr inside there]
  show T_FILE ≠ 0
  decide

theorem Made.newInode (made : Made s root files) (inside : InBlocks (files.length + 2)) :
    Made (s.newInode T_FILE) root (files ++ [[]]) := by
  have here := made.inodes
  have low : ROOTINO < sb.ninodes := by decide
  have added := made.img.newInode (by rw [here]; exact inside) T_FILE fun low => made.free _ low (.inr here.ge)
  have root_typed := made.root_typed
  have root_same : (s.newInode T_FILE).node ROOTINO = s.node ROOTINO :=
    added.others _ low (by rw [here,show ROOTINO = 1 from rfl]; omega)
  have cases' {k : Nat} {bytes : List UInt8} (there : (files ++ [[]])[k]? = some bytes) :
      files[k]? = some bytes ∨ k = files.length ∧ bytes = [] := by
    rw [List.getElem?_append] at there
    split at there
    · exact .inl there
    · obtain ⟨less,same⟩ := List.getElem?_eq_some_iff.mp there
      simp only [List.length_singleton] at less
      have last : k - files.length = 0 := by omega
      simp only [last,List.getElem_cons_zero] at same
      exact .inr ⟨by omega,same.symm⟩
  have old {k : Nat} {bytes : List UInt8} (inside : k + 2 < sb.ninodes) (there : files[k]? = some bytes) :
      (s.newInode T_FILE).node (k + 2) = s.node (k + 2) := by
    have less := (List.getElem?_eq_some_iff.mp there).1
    exact added.others _ inside (by omega)
  refine ⟨added.img,?_,?_,?_,?_,?_,?_,?_⟩
  · show s.freeinode + 1 = _
    rw [here,List.length_append,List.length_singleton]
  · rw [root_same]
    exact made.dir
  · rw [root_same]
    exact added.kept _ low root_typed made.entries
  · intro k bytes inside there
    rcases cases' there with before | ⟨rfl,rfl⟩
    · rw [old inside before]
      exact made.attr inside before
    · rw [← here,added.here (by rw [here]; exact inside)]
      rfl
  · intro k bytes inside there
    rcases cases' there with before | ⟨rfl,rfl⟩
    · rw [old inside before]
      exact added.kept _ inside (made.file_typed inside before) (made.file inside before)
    · rw [← here,added.here (by rw [here]; exact inside)]
      exact newInode_empty _ _
  · intro i low region
    rw [List.length_append,List.length_singleton] at region
    rw [added.others i low (by omega)]
    exact made.free i low (by omega)
  · show s.freeblock = _
    rw [made.count,taken_append,taken_one]
    rfl

theorem Made.appendRoot (made : Made s root files) {p : List UInt8} (grows : Grows s ROOTINO root p s') :
    Made s' (root ++ p) files := by
  have apart (k : Nat) : k + 2 ≠ ROOTINO := by rw [show ROOTINO = 1 from rfl]; omega
  refine ⟨grows.img,by rw [grows.inodes,made.inodes],by rw [grows.attr,made.dir],grows.filled,?_,?_,?_,?_⟩
  · intro k bytes inside there
    rw [grows.others _ inside (apart k)]
    exact made.attr inside there
  · intro k bytes inside there
    rw [grows.others _ inside (apart k)]
    exact grows.kept _ inside (apart k) (made.file_typed inside there) (made.file inside there)
  · intro i low region
    rw [grows.others i low (by rw [show ROOTINO = 1 from rfl]; omega)]
    exact made.free i low region
  · have count := grows.count
    rw [made.count] at count
    rw [List.length_append]
    omega

theorem Made.appendLast (made : Made s root (files ++ [bytes])) {p : List UInt8} (inside : files.length + 2 < sb.ninodes)
    (grows : Grows s (files.length + 2) bytes p s') : Made s' root (files ++ [bytes ++ p]) := by
  have low : ROOTINO < sb.ninodes := by decide
  have apart : ROOTINO ≠ files.length + 2 := by rw [show ROOTINO = 1 from rfl]; omega
  have last : (files ++ [bytes])[files.length]? = some bytes := by simp
  have old {k : Nat} {bs : List UInt8} (other : k ≠ files.length) (there : (files ++ [bytes ++ p])[k]? = some bs) :
      (files ++ [bytes])[k]? = some bs := by
    rw [List.getElem?_append] at there ⊢
    split
    · next less => rwa [if_pos less] at there
    · next more =>
      rw [if_neg more] at there
      have bound := (List.getElem?_eq_some_iff.mp there).1
      simp only [List.length_singleton] at bound
      omega
  have mine {bs : List UInt8} (there : (files ++ [bytes ++ p])[files.length]? = some bs) : bs = bytes ++ p := by
    simpa using there.symm
  refine ⟨grows.img,by rw [grows.inodes,made.inodes]; simp,?_,?_,?_,?_,?_,?_⟩
  · rw [grows.others _ low apart]
    exact made.dir
  · rw [grows.others _ low apart]
    exact grows.kept _ low apart made.root_typed made.entries
  · intro k bs small there
    by_cases this : k = files.length
    · subst this
      rw [mine there,grows.attr,made.attr inside last]
    · rw [grows.others _ small (by omega)]
      exact made.attr small (old this there)
  · intro k bs small there
    by_cases this : k = files.length
    · subst this
      rw [mine there]
      exact grows.filled
    · rw [grows.others _ small (by omega)]
      exact grows.kept _ small (by omega) (made.file_typed small (old this there)) (made.file small (old this there))
  · intro i small region
    rw [List.length_append,List.length_singleton] at region
    rw [grows.others i small (by omega)]
    exact made.free i small (by rw [List.length_append,List.length_singleton]; exact region)
  · have count := grows.count
    rw [made.count,taken_append,taken_one] at count
    rw [taken_append,taken_one,List.length_append]
    omega

/-! ### The loops -/

/-- The contents of a file fit, with those that are on the image. -/
def Fits (root : List UInt8) (files : List (List UInt8)) : Prop :=
  (∀ f ∈ files, f.length ≤ MAXFILE * BSIZE) ∧ root.length ≤ MAXFILE * BSIZE ∧
    nmeta + needed root.length + taken files ≤ FSSIZE

theorem copy_spec (made : Made s root (files ++ [bytes])) (inside : files.length + 2 < sb.ninodes) (reads : List (List UInt8)) :
    post (copy (files.length + 2) reads) (fun _ s' => Made s' root (files ++ [bytes ++ reads.flatten]))
      (fun _ => ¬Fits root (files ++ [bytes ++ reads.flatten])) s := by
  induction reads generalizing s bytes with
  | nil => simpa [copy] using made
  | cons buf reads ih =>
    have last : (files ++ [bytes])[files.length]? = some bytes := by simp
    have old : files.length + 2 < s.freeinode := by rw [made.inodes]; simp
    have append := iappend_spec made.img inside old (made.file_typed inside last) (made.file inside last) buf
    have flat : bytes ++ (buf :: reads).flatten = bytes ++ buf ++ reads.flatten := by simp
    unfold copy
    rw [post_bind,flat]
    refine post_mono append (fun _ s₁ grows => ih (made.appendLast inside grows)) fun _ full fits => ?_
    have count := made.count
    have small := fits.1 (bytes ++ buf ++ reads.flatten) (by simp)
    have total := fits.2.2
    have more : needed (bytes.length + buf.length) ≤ needed (bytes ++ buf ++ reads.flatten).length :=
      needed_mono (by simp)
    rw [taken_append,taken_one] at count total
    rw [List.length_append,List.length_append] at small
    rcases full with big | big
    · omega
    · omega

theorem dirent_length (inum : Nat) (name : List UInt8) : (dirent inum name).length = 16 :=
  encode_length _ (strncpy_length _ _)

/-- The contents of the files that the arguments name. -/
def contents (args : List Arg) : List (List UInt8) := args.map fun a => (a.reads.getD []).flatten

/-- The directory entries of the arguments, from the inode number `n` on. -/
def dirents (n : Nat) : List Arg → List UInt8
  | [] => []
  | a :: args => dirent n (skip a.name) ++ dirents (n + 1) args

/-- The argument names a file that can be read. -/
def Arg.Ok (a : Arg) : Prop := slash ∉ a.name ∧ a.reads.isSome

theorem add_spec (made : Made s root files) (a : Arg) (inside : InBlocks (files.length + 2))
    (counted : files.length + 2 < sb.ninodes ∨ a.reads = some []) :
    post (add a) (fun _ s' => a.Ok ∧ Made s' (root ++ dirent (files.length + 2) (skip a.name)) (files ++ contents [a]))
      (fun _ => ¬(a.Ok ∧ Fits (root ++ dirent (files.length + 2) (skip a.name)) (files ++ contents [a]))) s := by
  unfold add
  split
  · next bad => exact fun both => both.1.1 bad
  · next fine =>
    cases reads : a.reads with
    | none => exact fun both => by simpa [reads] using both.1.2
    | some reads' =>
      have ok : a.Ok := ⟨fine,by rw [reads]; rfl⟩
      have made₁ := made.newInode inside
      have low : ROOTINO < sb.ninodes := by decide
      have old : ROOTINO < (s.newInode T_FILE).freeinode := by
        rw [made₁.inodes,show ROOTINO = 1 from rfl]
        omega
      have append := iappend_spec made₁.img low old made₁.root_typed made₁.entries (dirent (files.length + 2) (skip a.name))
      have content : contents [a] = [reads'.flatten] := by simp [contents,reads]
      dsimp only
      rw [post_bind,post_ialloc made.img.len (by rw [made.inodes]; exact inside),made.inodes,post_bind,content]
      refine post_mono append (fun _ s₁ grows => ?_) fun _ full both => ?_
      · have made₂ := made₁.appendRoot grows
        rcases counted with counted | none'
        · refine post_mono (copy_spec made₂ counted reads') (fun _ s₂ done => ⟨ok,by simpa using done⟩) fun _ full both => ?_
          exact full (by simpa using both.2)
        · rw [reads] at none'
          cases none'
          exact ⟨ok,made₂⟩
      · obtain ⟨_,_,small,total⟩ := both
        have count := made₁.count
        rw [taken_append,taken_one] at count total
        rw [List.length_append] at small total
        have zero : needed ([] : List UInt8).length = 0 := rfl
        rcases full with big | big
        · omega
        · omega

theorem taken_contents_cons (a : Arg) (args : List Arg) : contents (a :: args) = contents [a] ++ contents args := rfl

theorem Fits.before {root root' : List UInt8} {files files' : List (List UInt8)}
    (fits : Fits (root ++ root') (files ++ files')) : Fits root files := by
  obtain ⟨each,small,total⟩ := fits
  have more : needed root.length ≤ needed (root ++ root').length := needed_mono (by simp)
  rw [taken_append] at total
  rw [List.length_append] at small
  exact ⟨fun f listed => each f (List.mem_append_left _ listed),by omega,by omega⟩

theorem adds_spec (made : Made s root files) (args : List Arg) (few : files.length + args.length + 2 ≤ sb.ninodes) :
    post (adds args) (fun _ s' => (∀ a ∈ args, a.Ok) ∧ Made s' (root ++ dirents (files.length + 2) args) (files ++ contents args))
      (fun _ => ¬((∀ a ∈ args, a.Ok) ∧ Fits (root ++ dirents (files.length + 2) args) (files ++ contents args))) s := by
  induction args generalizing s root files with
  | nil => simpa [adds,dirents,contents] using made
  | cons a args ih =>
    rw [List.length_cons] at few
    have counted : files.length + 2 < sb.ninodes := by omega
    have one := add_spec made a (inBlocks counted) (.inl counted)
    unfold adds
    rw [post_bind,dirents,taken_contents_cons,← List.append_assoc,← List.append_assoc]
    have length : (files ++ contents [a]).length = files.length + 1 := by simp [contents]
    refine post_mono one (fun _ s₁ ⟨ok,made₁⟩ => ?_) fun _ bad both => ?_
    · have rest := ih made₁ (by rw [length]; omega)
      rw [length,Nat.add_right_comm] at rest
      refine post_mono rest (fun _ s₂ ⟨oks,made₂⟩ => ⟨List.forall_mem_cons.mpr ⟨ok,oks⟩,made₂⟩) fun _ bad both => ?_
      exact bad ⟨(List.forall_mem_cons.mp both.1).2,both.2⟩
    · exact bad ⟨(List.forall_mem_cons.mp both.1).1,both.2.before⟩

/-! ### The beginning and the end -/

theorem zero_spec (n : Nat) (small : n ≤ FSSIZE) (img : s.img = fun _ _ => 0) (len : s.len = 0) (log : s.log = []) :
    post (zero n) (fun _ s' => s'.img = (fun _ _ => 0) ∧ s'.len = n ∧ s'.freeinode = s.freeinode ∧
      s'.freeblock = s.freeblock ∧ ∀ w ∈ s'.log, w.1 = .zeroes ∧ w.2 < FSSIZE) (fun _ => False) s := by
  induction n with
  | zero =>
    rw [zero_none,post_pure]
    exact ⟨img,len,rfl,rfl,by rw [log]; exact fun _ listed => absurd listed List.not_mem_nil⟩
  | succ n ih =>
    have size := FSSIZE_eq
    rw [zero_succ,post_bind]
    refine post_use (ih (by omega)) fun _ s₁ ⟨img₁,len₁,inode₁,block₁,log₁⟩ => ?_
    unfold wsect
    rw [post_modify,sector_eq (by omega)]
    refine ⟨?_,by dsimp only; omega,inode₁,block₁,fun w listed => ?_⟩
    · dsimp only
      rw [img₁]
      exact update_eq_self n _
    · rcases List.mem_append.mp listed with old | new
      · exact log₁ w old
      · obtain rfl := List.mem_singleton.mp new
        exact ⟨rfl,by omega⟩

variable {n : Nat} {Q : Unit → Fs → Prop}

theorem post_zero (small : n ≤ FSSIZE) (rest : Unit → Mk Unit)
    (goes : ∀ log : List (Use × Nat), (∀ w ∈ log, w.1 = .zeroes ∧ w.2 < FSSIZE) →
      post (rest ()) Q (fun _ => False) ⟨fun _ _ => 0,n,1,nmeta,log⟩) :
    post (zero n >>= rest) Q (fun _ => False) ⟨fun _ _ => 0,0,1,nmeta,[]⟩ := by
  rw [post_bind]
  refine post_use (zero_spec n small rfl rfl rfl) ?_
  rintro _ ⟨_,_,_,_,log⟩ ⟨rfl,rfl,rfl,rfl,zeroes⟩
  exact goes log zeroes

theorem superblockAt_sb : superblockAt (Image.sbBlock sb) = sb := by decide

theorem zero_node (i : Nat) : (dinodeIn (fun _ => 0 : Block) i).type = 0 := by
  simp [dinodeIn,get16,getLE,leNat,byteAt]

theorem img_empty {log : List (Use × Nat)} (fine : ∀ w ∈ log, w.1 = .zeroes ∧ w.2 < FSSIZE) :
    let s : Fs := ⟨update (fun _ _ => 0) 1 (Image.sbBlock sb),FSSIZE,1,nmeta,log ++ [(.super,1)]⟩
    Img s s.node ∧ ∀ i < sb.ninodes, (s.node i).type = 0 := by
  intro s
  have free (i : Nat) (low : i < sb.ninodes) : (s.node i).type = 0 := by
    have apart : sb.iblock i ≠ 1 := Nat.ne_of_gt (layout.iblock_low i)
    show (dinodeIn (update (fun _ _ => 0) 1 (Image.sbBlock sb) (sb.iblock i)) _).type = 0
    rw [update_of_ne apart]
    exact zero_node _
  have none' (l : Nat × Nat) : own sb (vdisk s) s.node l = 0 := own_eq_zero fun both => both.2.1 (free _ both.1)
  have high : s.freeblock ≤ FSSIZE := by
    show nmeta ≤ FSSIZE
    decide
  refine ⟨⟨rfl,⟨layout,?_,fun b low => ?_,fun l some' => absurd (none' l) some',fun l _ some' => absurd (none' l) some',
    fun b low inside => ?_⟩,le_refl _,high,fun b after => ?_,fun w listed => ?_⟩,free⟩
  · rw [vdisk_of_ne _ (by decide)]
    exact superblockAt_sb
  · have inside : b < FSSIZE := lt_trans low (by decide)
    rw [bitAt_vdisk high inside]
    exact decide_eq_true (show b < nmeta from low)
  · rw [bitAt_vdisk high inside]
    have free : ¬b < nmeta := not_lt.mpr low
    have positive : nmeta ≤ b := low
    rw [nmeta_eq] at positive
    refine iff_of_false (fun used => free (of_decide_eq_true used)) ?_
    rintro ⟨l,here⟩
    rw [none' l] at here
    omega
  · have after : nmeta ≤ b := after
    rw [nmeta_eq] at after
    show update (fun _ _ => 0) 1 (Image.sbBlock sb) b = _
    rw [update_of_ne (by omega)]
  · rcases List.mem_append.mp listed with old | new
    · obtain ⟨use,sec⟩ := w
      obtain ⟨rfl,small⟩ := fine _ old
      exact small
    · obtain rfl := List.mem_singleton.mp new
      exact rfl

/-- The entries of an empty root. -/
def dots : List UInt8 := dirent ROOTINO dot ++ dirent ROOTINO dotdot

theorem start_spec : post start (fun _ s => Made s dots []) (fun _ => False) ⟨fun _ _ => 0,0,1,0,[]⟩ := by
  unfold start
  rw [post_bind,post_modify]
  refine post_zero (le_refl FSSIZE) _ fun log zeroes => ?_
  rw [post_bind,post_wsect rfl _ (by decide)]
  obtain ⟨img,free⟩ := img_empty zeroes
  change post _ _ _ (⟨update (fun _ _ => 0) 1 (Image.sbBlock sb),FSSIZE,1,nmeta,log ++ [(.super,1)]⟩ : Fs)
  obtain ⟨s,state⟩ : ∃ s : Fs, s = ⟨update (fun _ _ => 0) 1 (Image.sbBlock sb),FSSIZE,1,nmeta,log ++ [(.super,1)]⟩ := ⟨_,rfl⟩
  rw [← state] at img free ⊢
  have first : s.freeinode = ROOTINO := by rw [state]; rfl
  have blocks : s.freeblock = nmeta := by rw [state]
  have inside : ROOTINO < sb.ninodes := by decide
  rw [post_bind,post_ialloc img.len (by rw [first]; exact inBlocks inside),first,if_pos rfl]
  have added := img.newInode (by rw [first]; exact inBlocks inside) T_DIR fun low => free _ low
  have here : (s.newInode T_DIR).node ROOTINO = newInode T_DIR := by
    have here := added.here (by rw [first]; exact inside)
    rwa [first] at here
  have made : Made (s.newInode T_DIR) [] [] := by
    refine ⟨added.img,?_,?_,?_,nofun,nofun,fun i low region => ?_,?_⟩
    · show s.freeinode + 1 = _
      rw [first]
      rfl
    · rw [here]
      rfl
    · rw [here]
      exact newInode_empty _ _
    · have other : i ≠ s.freeinode := by
        rw [first,show ROOTINO = 1 from rfl]
        simp only [List.length_nil] at region
        omega
      rw [added.others i low other]
      exact free i low
    · exact blocks
  have old : ROOTINO < (s.newInode T_DIR).freeinode := by rw [made.inodes]; decide
  rw [post_bind]
  refine post_mono (iappend_spec made.img inside old made.root_typed made.entries _) (fun _ s₁ grows => ?_) fun _ full => ?_
  · have made₁ := made.appendRoot grows
    have old₁ : ROOTINO < s₁.freeinode := by rw [made₁.inodes]; decide
    refine post_mono (iappend_spec made₁.img inside old₁ made₁.root_typed made₁.entries _) (fun _ s₂ grows₂ => ?_)
      fun _ full => ?_
    · exact made₁.appendRoot grows₂
    · rw [List.nil_append] at full
      unfold NoRoom at full
      rw [made₁.count,dirent_length,List.nil_append,dirent_length] at full
      revert full
      decide
  · unfold NoRoom at full
    rw [made.count,dirent_length] at full
    revert full
    decide

/-! ### `mkfs` -/

/-- The size of the root when it is fixed. -/
def rounded (n : Nat) : Nat := (n / BSIZE + 1) * BSIZE

/-- The finished image: the bitmap is written, and the size of the root is fixed. -/
structure Complete (s : Fs) (root : List UInt8) (files : List (List UInt8)) : Prop where
  img : Img s s.node
  disk : vdisk s = s.img
  inodes : s.freeinode = files.length + 2
  dir : (s.node ROOTINO).toAttr = ⟨T_DIR,0,0,1,UInt32.ofNat (rounded root.length)⟩
  entries : Stores s.img (s.node ROOTINO) root
  attr : ∀ {k bytes}, k + 2 < sb.ninodes → files[k]? = some bytes →
    (s.node (k + 2)).toAttr = ⟨T_FILE,0,0,1,UInt32.ofNat bytes.length⟩
  file : ∀ {k bytes}, k + 2 < sb.ninodes → files[k]? = some bytes → Filled s.img (s.node (k + 2)) bytes
  free : ∀ i < sb.ninodes, i = 0 ∨ files.length + 2 ≤ i → (s.node i).type = 0
  count : s.freeblock = nmeta + needed root.length + taken files

theorem finish_spec (made : Made s root files) :
    post finish (fun _ s' => Complete s' root files) (fun _ => False) s := by
  have inside : ROOTINO < sb.ninodes := by decide
  have blocks := inBlocks inside
  have img := made.img
  have size := FSSIZE_eq
  have high := img.high
  unfold finish
  rw [post_bind,post_rinode img.len blocks,post_bind,post_winode img.len blocks,made.entries.size]
  change post _ _ _ (s.inode ROOTINO { s.node ROOTINO with size := UInt32.ofNat (rounded root.length) })
  generalize new : ({ s.node ROOTINO with size := UInt32.ofNat (rounded root.length) } : Dinode) = d
  have addrs : d.addrs = (s.node ROOTINO).addrs := by rw [← new]
  have type : d.type = (s.node ROOTINO).type := by rw [← new]
  have stored := stored_inode (s := s) blocks d
  have nodes (j : Nat) (low : j < sb.ninodes) : (s.inode ROOTINO d).node j = update s.node ROOTINO d j := by
    show dinodeAt sb (s.inode ROOTINO d).img j = _
    rw [← dinodeAt_vdisk (inBlocks low)]
    rcases eq_or_ne j ROOTINO with rfl | other
    · rw [update_self]
      exact stored.here
    · rw [update_of_ne other,stored.others j other,dinodeAt_vdisk (inBlocks low)]
  have old : ROOTINO < s.freeinode := by
    rw [made.inodes,show ROOTINO = 1 from rfl]
    omega
  have img₁ : Img (s.inode ROOTINO d) (s.inode ROOTINO d).node := by
    refine img.inode blocks old fun l => ?_
    rw [own_congr nodes]
    exact own_attr addrs (by rw [type]) l
  have data (c : Nat) (low : sb.datastart ≤ c) : vdisk (s.inode ROOTINO d) c = vdisk s c :=
    stored.same c (le_trans (by decide) low)
  obtain ⟨s₁,state⟩ : ∃ s₁, s₁ = s.inode ROOTINO d := ⟨_,rfl⟩
  have count₁ : s₁.freeblock = s.freeblock := by rw [state]; rfl
  have inodes₁ : s₁.freeinode = s.freeinode := by rw [state]; rfl
  rw [← state] at img₁ nodes data ⊢
  rw [post_bind,post_get]
  unfold balloc
  rw [if_pos (by rw [count₁,BSIZE_eq]; omega),post_wsect img₁.len _ (by decide)]
  -- the bitmap that is written is the one that the disk was thought to have
  obtain ⟨s₂,written⟩ : ∃ s₂, s₂ = s₁.put .bitmap sb.bmapstart (setBits s₁.freeblock) := ⟨_,rfl⟩
  rw [← written]
  have disk : s₂.img = vdisk s₁ := by rw [written]; rfl
  have same : vdisk s₂ = s₂.img := by
    rw [disk,written]
    exact update_idem ..
  have node₂ (j : Nat) (low : j < sb.ninodes) : s₂.node j = s₁.node j := by
    show dinodeAt sb s₂.img j = _
    rw [disk]
    exact dinodeAt_vdisk (inBlocks low)
  have root₂ : s₂.node ROOTINO = d := by rw [node₂ _ inside,nodes _ inside,update_self]
  have file₂ {k : Nat} (small : k + 2 < sb.ninodes) : s₂.node (k + 2) = s.node (k + 2) := by
    rw [node₂ _ small,nodes _ small,update_of_ne]
    rw [show ROOTINO = 1 from rfl]
    omega
  refine ⟨?_,same,?_,?_,?_,?_,?_,?_,?_⟩
  · have owns (l : Nat × Nat) : own sb (vdisk s₂) s₂.node l = own sb (vdisk s₁) s₁.node l := by
      rw [own_congr node₂,same,disk]
    refine ⟨?_,?_,?_,?_,fun b above => ?_,fun w listed => ?_⟩
    · rw [written]
      exact img₁.len
    · have core := img₁.core
      unfold Core at core ⊢
      rw [funext owns,same,disk]
      exact core
    · rw [written]
      exact img₁.low
    · rw [written]
      exact img₁.high
    · have low := img₁.low
      rw [written] at above
      have above : s₁.freeblock ≤ b := above
      rw [nmeta_eq] at low
      rw [disk,vdisk_of_ne _ (by rw [bmapstart_eq]; omega)]
      exact img₁.zero b above
    · rw [written] at listed
      rcases List.mem_append.mp listed with before | last
      · exact (img₁.log w before).kept (by rw [written]; exact le_refl _) fun l _ => owns l
      · obtain rfl := List.mem_singleton.mp last
        exact rfl
  · rw [written]
    exact inodes₁.trans made.inodes
  · rw [root₂,← new]
    show ({ (s.node ROOTINO).toAttr with size := UInt32.ofNat (rounded root.length) } : Attr) = _
    rw [made.dir]
  · rw [root₂,disk]
    refine made.entries.toStores.congr (fun off small => ?_) fun k small => ?_
    · have contents := content_data img.core data inside made.root_typed small
      rw [← contents]
      unfold content blk ptr
      rw [addrs]
    · have pointers := ptr_data img.core data inside made.root_typed k
      rw [← pointers]
      unfold ptr
      rw [addrs]
  · intro k bytes small there
    rw [file₂ small]
    exact made.attr small there
  · intro k bytes small there
    rw [file₂ small,disk]
    have typed := made.file_typed small there
    exact (made.file small there).congr (fun off small' => content_data img.core data small typed small')
      fun q _ => ptr_data img.core data small typed q
  · intro i low region
    have other : i ≠ ROOTINO := by
      rw [show ROOTINO = 1 from rfl]
      omega
    rw [node₂ i low,nodes i low,update_of_ne other]
    exact made.free i low region
  · rw [written]
    exact count₁.trans made.count

/-- The files are read, and they fit into the image. -/
def Accepted (args : List Arg) : Prop := (∀ a ∈ args, a.Ok) ∧ Fits (dots ++ dirents 2 args) (contents args)

variable {args : List Arg}

theorem main_spec (few : args.length + 2 ≤ sb.ninodes) :
    post (main args) (fun _ s => (∀ a ∈ args, a.Ok) ∧ Complete s (dots ++ dirents 2 args) (contents args))
      (fun _ => ¬Accepted args) ⟨fun _ _ => 0,0,1,0,[]⟩ := by
  unfold main
  rw [post_bind]
  refine post_mono start_spec (fun _ s made => ?_) fun _ => False.elim
  rw [post_bind]
  refine post_mono (adds_spec made args (by simpa using few)) (fun _ s₁ ⟨oks,made₁⟩ => ?_) fun _ bad => bad
  exact post_mono (finish_spec made₁) (fun _ s₂ complete => ⟨oks,complete⟩) fun _ => False.elim

theorem mkfs_ok
    (spec : post (main args) Q E ⟨fun _ _ => 0,0,1,0,[]⟩) (made : mkfs args = .ok s) : Q () s := by
  unfold mkfs at made
  unfold post at spec
  cases run : main args ⟨fun _ _ => 0,0,1,0,[]⟩ with
  | error why =>
    rw [run] at made
    cases made
  | ok r =>
    rw [run] at made spec
    cases made
    exact spec

theorem mkfs_returns
    (spec : post (main args) Q E ⟨fun _ _ => 0,0,1,0,[]⟩) (sound : ∀ why, ¬E why) : ∃ s, mkfs args = .ok s ∧ Q () s := by
  unfold post at spec
  unfold mkfs
  cases run : main args ⟨fun _ _ => 0,0,1,0,[]⟩ with
  | error why =>
    rw [run] at spec
    exact absurd spec (sound why)
  | ok r =>
    rw [run] at spec
    exact ⟨r.2,rfl,spec⟩

theorem mkfs_complete (few : args.length + 2 ≤ sb.ninodes) (accepted : Accepted args) :
    ∃ s, mkfs args = .ok s ∧ Complete s (dots ++ dirents 2 args) (contents args) := by
  obtain ⟨s,made,_,complete⟩ := mkfs_returns (main_spec few) fun _ bad => bad accepted
  exact ⟨s,made,complete⟩

/-! ### Overfull images -/

/-- The write is one of the data of an inode, or of its indirect block. -/
def Use.dataOf (i : Nat) (use : Use) : Prop := use = .data i ∨ use = .indirect i

/-- Code that takes `n` inodes, if it goes on. -/
def Counts {α : Type} (n : Nat) (m : Mk α) : Prop :=
  ∀ s, post m (fun _ s' => s'.freeinode = s.freeinode + n) (fun _ => True) s

section
variable {α β : Type} {m : Mk α} {f : α → Mk β} {n k : Nat}

theorem Counts.bind (first : Counts n m) (rest : ∀ a, Counts k (f a)) : Counts (n + k) (m >>= f) := by
  intro s
  rw [post_bind]
  refine post_use (first s) fun a s₁ one => post_use (rest a s₁) fun b s₂ two => ?_
  rw [two,one,Nat.add_assoc]

theorem Counts.keep (first : Counts 0 m) (rest : ∀ a, Counts n (f a)) : Counts n (m >>= f) := by
  have both := first.bind rest
  rwa [Nat.zero_add] at both

variable {inum sec : Nat} {din : Dinode}

theorem counts_pure {a : α} : Counts 0 (pure a) := fun _ => rfl
theorem counts_throw {why : String} : Counts n (throw why : Mk α) := fun _ => trivial
theorem counts_wsect {use : Use} {buf : Block} : Counts 0 (wsect use sec buf) := fun _ => rfl
theorem counts_takeBlock : Counts 0 takeBlock := fun _ => rfl

theorem counts_rsect : Counts 0 (rsect sec) := by
  intro s
  unfold rsect
  rw [post_bind,post_get]
  split <;> trivial

theorem counts_winode : Counts 0 (winode inum din) :=
  counts_rsect.keep fun _ => counts_wsect

theorem counts_rinode : Counts 0 (rinode inum) := counts_rsect.keep fun _ => counts_pure

theorem counts_iappend_addr {k : Fin (NDIRECT + 1)} : Counts 0 (iappend_addr din k) := by
  unfold iappend_addr
  split
  · exact counts_takeBlock.keep fun _ => counts_pure
  · exact counts_pure

theorem counts_iappend_block {fbn : Nat} : Counts 0 (iappend_block inum din fbn) := by
  unfold iappend_block
  split
  · exact counts_iappend_addr.keep fun _ => counts_pure
  · refine counts_iappend_addr.keep fun din => .keep (counts_rsect.keep fun indirect => ?_) fun _ => counts_pure
    split
    · exact counts_takeBlock.keep fun _ => counts_wsect.keep fun _ => counts_pure
    · exact counts_pure

theorem counts_iappend {p : List UInt8} : Counts 0 (iappend inum p) := by
  have loop {fuel : Nat} {din : Dinode} {off : Nat} {p : List UInt8} : Counts 0 (iappend_from inum fuel din off p) := by
    induction fuel generalizing din off p with
    | zero => exact counts_pure
    | succ fuel ih =>
      unfold iappend_from
      split
      · exact counts_pure
      · dsimp only
        split
        · exact counts_throw
        · exact counts_iappend_block.keep fun _ => counts_rsect.keep fun _ => counts_wsect.keep fun _ => ih
  exact counts_rinode.keep fun _ => loop.keep fun _ => counts_winode

theorem counts_ialloc {type : UInt16} : Counts 1 (ialloc type) := by
  intro s
  unfold ialloc
  rw [post_bind,post_get,post_bind,post_modify]
  exact counts_winode.keep (fun _ => counts_pure) { s with freeinode := s.freeinode + 1 }

theorem counts_adds (args : List Arg) : Counts args.length (adds args) := by
  have copies {inum : Nat} {reads : List (List UInt8)} : Counts 0 (copy inum reads) := by
    induction reads with
    | nil => exact counts_pure
    | cons buf reads ih => exact counts_iappend.keep fun _ => ih
  induction args with
  | nil => exact counts_pure
  | cons a args ih =>
    have one : Counts 1 (add a) := by
      unfold add
      split
      · exact counts_throw
      · split
        · exact counts_throw
        · exact counts_ialloc.bind fun _ => counts_iappend.keep fun _ => copies
    have all := one.bind fun _ => ih
    rwa [Nat.add_comm] at all

end

/-- Every argument takes an inode, whether the superblock counts it or not. -/
theorem main_inodes : post (main args) (fun _ s => s.freeinode = args.length + 2) (fun _ => True) ⟨fun _ _ => 0,0,1,0,[]⟩ := by
  have ends : Counts args.length (do adds args; finish) := by
    refine (counts_adds args).bind (k := 0) fun _ => counts_rinode.keep fun _ => counts_winode.keep fun _ s => ?_
    rw [post_bind,post_get]
    unfold balloc
    split <;> trivial
  unfold main
  rw [post_bind]
  refine post_mono start_spec (fun _ s made => post_use (ends s) fun _ s' count => ?_) fun _ => False.elim
  rw [count,made.inodes]
  exact Nat.add_comm ..

/-- If `mkfs` reaches its end, then the inodes and blocks that it has allocated are those that the superblock counts, inodes
    were written to inode blocks, and data to data blocks that no other inode has written to, exactly if there are not more
    files than inodes. -/
theorem mkfs_never_overfull {args : List Arg} {s : Fs} (made : mkfs args = .ok s) :
    (s.freeinode ≤ sb.ninodes ∧ s.freeblock ≤ sb.size ∧
    (∀ i sec, (.inode i,sec) ∈ s.log → i < sb.ninodes ∧ sec = sb.iblock i ∧ sb.inodestart ≤ sec ∧ sec < sb.bmapstart) ∧
    ∀ use i sec, (use,sec) ∈ s.log → use.dataOf i → sb.datastart ≤ sec ∧ sec < s.freeblock ∧
      ∀ use' j, (use',sec) ∈ s.log → use'.dataOf j → j = i) ↔ args.length + 2 ≤ sb.ninodes := by
  have count := mkfs_ok main_inodes made
  refine ⟨fun inside => count ▸ inside.1,fun few => ?_⟩
  obtain ⟨_,complete⟩ := mkfs_ok (main_spec few) made
  have img := complete.img
  have inodes : s.freeinode ≤ sb.ninodes := by rwa [count]
  have owner {use : Use} {i sec : Nat} (listed : (use,sec) ∈ s.log) (data : use.dataOf i) :
      ∃ k, own sb (vdisk s) s.node (i,k) = sec ∧ sec ≠ 0 := by
    have fine := img.log _ listed
    rcases data with rfl | rfl
    · exact fine
    · exact fine
  refine ⟨inodes,img.high,fun i sec listed => ?_,fun use i sec listed data => ?_⟩
  · obtain ⟨where',old⟩ := img.log _ listed
    have low : i < sb.ninodes := lt_of_lt_of_le old inodes
    have where' : sec = sb.iblock i := where'
    refine ⟨low,where',?_,?_⟩
    · rw [where']
      exact Nat.le_add_left _ _
    · rw [where']
      exact inBlocks low
  · obtain ⟨k,here,some'⟩ := owner listed data
    have range := img.range (l := (i,k)) (by rw [here]; exact some')
    rw [here] at range
    refine ⟨range.1,range.2,fun use' j listed' data' => ?_⟩
    obtain ⟨k',here',_⟩ := owner listed' data'
    have once := img.core.partition.once (j,k') (i,k) (by rw [here']; exact some') (here'.trans here.symm)
    exact congrArg Prod.fst once

/-- Empty files. -/
def empties (n : Nat) : List Arg := (List.range n).map fun i => ⟨[UInt8.ofNat (97 + i / 16),UInt8.ofNat (97 + i % 16)],some []⟩

theorem dirents_length (n : Nat) (args : List Arg) : (dirents n args).length = 16 * args.length := by
  induction args generalizing n with
  | nil => rfl
  | cons a args ih =>
    rw [dirents,List.length_append,ih,dirent_length,List.length_cons]
    omega

theorem dirents_append (n : Nat) (args args' : List Arg) :
    dirents n (args ++ args') = dirents n args ++ dirents (n + args.length) args' := by
  induction args generalizing n with
  | nil => simp [dirents]
  | cons a args ih =>
    rw [List.cons_append,dirents,dirents,ih,List.append_assoc,List.length_cons,Nat.add_right_comm,Nat.add_assoc]

theorem dots_length : dots.length = 32 := by
  rw [dots,List.length_append,dirent_length,dirent_length]

theorem contents_empties (n : Nat) : contents (empties n) = List.replicate n [] := by
  simp [contents,empties,Function.comp_def]

theorem taken_empties (n : Nat) : taken (List.replicate n []) = 0 := by
  have zero : needed 0 = 0 := rfl
  simp [taken,zero]

theorem empties_ok (small : n ≤ 256) : ∀ a ∈ empties n, a.Ok := by
  intro a listed
  obtain ⟨i,inside,rfl⟩ := List.mem_map.mp listed
  have all : ∀ i < 256, slash ∉ [UInt8.ofNat (97 + i / 16),UInt8.ofNat (97 + i % 16)] := by decide +kernel
  exact ⟨all i (lt_of_lt_of_le (List.mem_range.mp inside) small),rfl⟩

theorem fits_empties (small : n ≤ 206) : Fits (dots ++ dirents 2 (empties n)) (List.replicate n []) := by
  have length : (dots ++ dirents 2 (empties n)).length = 32 + 16 * n := by
    rw [List.length_append,dots_length,dirents_length]
    simp [empties]
  refine ⟨fun f listed => ?_,?_,?_⟩
  · rw [List.eq_of_mem_replicate listed]
    exact Nat.zero_le _
  · rw [length]
    refine le_trans (show 32 + 16 * n ≤ 32 + 16 * 206 by omega) (by decide)
  · rw [length,taken_empties]
    have most : needed (32 + 16 * n) ≤ needed (32 + 16 * 206) := needed_mono (by omega)
    have value : needed (32 + 16 * 206) = 7 := by decide
    rw [nmeta_eq,FSSIZE_eq]
    omega

theorem accepted_empties (small : n ≤ 206) : Accepted (empties n) :=
  ⟨empties_ok (by omega),by rw [contents_empties]; exact fits_empties small⟩

/-- The largest number of files that have inodes. -/
theorem mkfs_never_overfull_empties : ∃ s, mkfs (empties 198) = .ok s ∧ s.freeinode ≤ sb.ninodes ∧ s.freeblock ≤ sb.size := by
  have few : (empties 198).length + 2 ≤ sb.ninodes := by
    rw [empties,List.length_map,List.length_range]
    decide
  obtain ⟨s,made,_⟩ := mkfs_complete few (accepted_empties (by decide))
  obtain ⟨inodes,blocks,_⟩ := (mkfs_never_overfull made).mpr few
  exact ⟨s,made,inodes,blocks⟩

theorem adds_append (args args' : List Arg) : adds (args ++ args') = (do adds args; adds args') := by
  induction args with
  | nil => simp [adds]
  | cons a args ih => simp [adds,ih]

theorem empties_succ (n : Nat) :
    empties (n + 1) = empties n ++ [⟨[UInt8.ofNat (97 + n / 16),UInt8.ofNat (97 + n % 16)],some []⟩] := by
  rw [empties,List.range_succ,List.map_append]
  rfl

theorem main_empties (few : n + 2 ≤ sb.ninodes) (inside : InBlocks (n + 2)) (small : n + 1 ≤ 206) :
    post (main (empties (n + 1))) (fun _ s => s.freeinode = n + 3) (fun _ => False) ⟨fun _ _ => 0,0,1,0,[]⟩ := by
  have count : (empties n).length = n := by simp [empties]
  have length : (List.replicate n ([] : List UInt8)).length = n := List.length_replicate
  unfold main
  rw [post_bind,empties_succ,adds_append]
  refine post_use start_spec fun _ s made => ?_
  rw [post_bind,post_bind]
  refine post_mono (adds_spec made (empties n) (by rw [count,List.length_nil,Nat.zero_add]; exact few))
    (fun _ s₁ ⟨_,made₁⟩ => ?_) fun _ bad => bad ⟨?_,?_⟩
  · rw [List.nil_append,contents_empties] at made₁
    have one := add_spec made₁ ⟨[UInt8.ofNat (97 + n / 16),UInt8.ofNat (97 + n % 16)],some []⟩ (by rwa [length]) (.inr rfl)
    unfold adds
    rw [post_bind]
    refine post_mono one (fun _ s₂ ⟨_,made₂⟩ => ?_) fun _ bad => bad ⟨?_,?_⟩
    · rw [adds,post_pure]
      refine post_use (finish_spec made₂) fun _ s₃ complete => ?_
      rw [complete.inodes,List.length_append,length]
      rfl
    · exact empties_ok (n := n + 1) (by omega) _ (by rw [empties_succ]; exact List.mem_append_right _ List.mem_cons_self)
    · have fits := fits_empties (n := n + 1) small
      rw [empties_succ,dirents_append,count,List.replicate_succ',← List.append_assoc,Nat.add_comm 2 n] at fits
      rw [length]
      simpa [contents,dirents] using fits
  · exact empties_ok (by omega)
  · rw [List.nil_append,contents_empties]
    exact fits_empties (by omega)

/-- With as many files as there are inodes in the superblock but one, the last file gets an inode that the superblock does
    not count, and `mkfs` reaches its end. -/
theorem mkfs_overfull : ∃ s, mkfs (empties 199) = .ok s ∧ ¬s.freeinode ≤ sb.ninodes := by
  obtain ⟨s,made,inodes⟩ := mkfs_returns (main_empties (n := 198) (by decide) (by unfold InBlocks; decide) (by decide)) fun _ => id
  refine ⟨s,made,?_⟩
  rw [inodes]
  decide

end Xv6.Mkfs
