import Xv6.Refs

/-!
The reference counts of the file table, and the pipes. `pipealloc` and `sys_pipe` join the calls of the kernel here;
the page of a pipe is what `kalloc` answers.
-/
namespace Xv6.FileRefs
open Xv6.Lib Xv6.Refs Function Prog

/-! ### `pipe.c` and `sys_pipe` -/

/-- The new pipe, and the two files that are its ends. -/
def pipealloc_set (page : Nat) (f0 f1 : FileId) (t : Tables) : Except String (Unit × Tables) :=
  let t := t.setFile f0 { t.file f0 with type := .FD_PIPE, readable := true, writable := false, pipe := page }
  let t := t.setFile f1 { t.file f1 with type := .FD_PIPE, readable := false, writable := true, pipe := page }
  .ok ((),{ t with pipe := update t.pipe page (some ⟨true,true⟩) })

/-- `pipealloc`; what `kalloc` answers is `page`. -/
def pipealloc (page : Option Nat) : Call (Option (FileId × FileId)) := do
  let f0 ← call (.tables filealloc)
  match f0 with
  | none => return none
  | some f0 =>
    let f1 ← call (.tables filealloc)
    match f1,page with
    | none,_ =>
      fileclose f0
      return none
    | some f1,none =>
      fileclose f0
      fileclose f1
      return none
    | some f1,some page =>
      call (.tables (pipealloc_set page f0 f1))
      return some (f0,f1)

/-- The way out of `sys_pipe` without descriptors. -/
def sys_pipe_bad (rf wf : FileId) : Call Int := do
  fileclose rf
  fileclose wf
  return -1

/-- `sys_pipe`; `fd` says whether `argptr` finds the array. -/
def sys_pipe (p : Pid) (fd : Bool) (page : Option Nat) : Call Int :=
  if fd = false then ret (-1)
  else do
    let files ← pipealloc page
    match files with
    | none => return -1
    | some (rf,wf) =>
      let fd0 ← call (.tables (fdalloc p rf))
      match fd0 with
      | none => sys_pipe_bad rf wf
      | some fd0 =>
        let fd1 ← call (.tables (fdalloc p wf))
        match fd1 with
        | none =>
          call (.tables fun t => .ok ((),setOfile p fd0 none t))
          sys_pipe_bad rf wf
        | some _ => return 0

/-- The system calls with `pipe`. -/
inductive FileCall where
  | sys (c : SysCall)
  | pipe (fd : Bool) (page : Option Nat)

def FileCall.prog (p : Pid) : FileCall → Call Int
  | .sys c => c.prog p
  | .pipe fd page => sys_pipe p fd page

/-- `kalloc` answers with a page that is not in use. -/
def FileCall.Fresh (t : Tables) : FileCall → Prop
  | .pipe _ (some page) => t.pipe page = none
  | _ => True

/-- Complete calls one after the other, by processes that can run. -/
inductive FileCalls : State → State → Prop where
  | refl (s : State) : FileCalls s s
  | step {s t u : State} {p : Pid} {c : FileCall} {r : Int} (before : FileCalls s t)
    (runnable : (t.tables.proc p).state = .RUNNABLE) (fresh : c.Fresh t.tables)
    (ran : Lib.exec (kernel p) (c.prog p) t = .ok (r,u)) : FileCalls s u

/-! ### The ends of the pipes -/

/-- The end of a pipe that a file is: its page, and whether it is the end for writing. -/
def pipeEnd (x : File) : Option (Nat × Bool) := if x.type = .FD_PIPE then some (x.pipe,x.writable) else none

/-- Whether an end of the pipe is open. -/
def opened (pi : Pipe) (writable : Bool) : Bool := if writable then pi.writeopen else pi.readopen

/-- Every end that is open is one file, and a page with no open end is freed. -/
structure Piped (ends : FileId → Option (Nat × Bool)) (pipe : Nat → Option Pipe) : Prop where
  sole : ∀ f g e, ends f = some e → ends g = some e → f = g
  opened : ∀ page writable, (∃ f, ends f = some (page,writable)) ↔ ∃ pi, pipe page = some pi ∧ opened pi writable = true
  used : ∀ page pi, pipe page = some pi → pi.readopen = true ∨ pi.writeopen = true

variable {ends : FileId → Option (Nat × Bool)} {pipe : Nat → Option Pipe}

theorem Piped.alloc (piped : Piped ends pipe) {f0 f1 : FileId} {page : Nat} (apart : f0 ≠ f1) (none0 : ends f0 = none)
    (none1 : ends f1 = none) (fresh : pipe page = none) :
    Piped (update (update ends f0 (some (page,false))) f1 (some (page,true))) (update pipe page (some ⟨true,true⟩)) := by
  have old (f : FileId) (w : Bool) : ends f ≠ some (page,w) := by
    intro here
    obtain ⟨pi,there,_⟩ := (piped.opened page w).mp ⟨f,here⟩
    rw [fresh] at there
    cases there
  have new (f : FileId) (e : Nat × Bool) : update (update ends f0 (some (page,false))) f1 (some (page,true)) f = some e ↔
      f = f0 ∧ (page,false) = e ∨ f = f1 ∧ (page,true) = e ∨ ends f = some e := by
    rcases eq_or_ne f f1 with rfl | other1
    · simp [apart.symm,none1]
    · rcases eq_or_ne f f0 with rfl | other0
      · simp [other1,none0]
      · simp [other0,other1]
  refine ⟨fun f g e => ?_,fun page' w => ?_,fun page' pi => ?_⟩
  · simp only [new]
    rintro (⟨rfl,rfl⟩ | ⟨rfl,rfl⟩ | mine) (⟨rfl,same⟩ | ⟨rfl,same⟩ | his)
    · rfl
    · simp at same
    · exact absurd his (old _ _)
    · simp at same
    · rfl
    · exact absurd his (old _ _)
    · exact absurd (same ▸ mine) (old _ _)
    · exact absurd (same ▸ mine) (old _ _)
    · exact piped.sole f g e mine his
  · simp only [new]
    rcases eq_or_ne page' page with rfl | other
    · cases w <;> simp [FileRefs.opened]
    · simp [other.symm,update_of_ne other,piped.opened]
  · rcases eq_or_ne page' page with rfl | other
    · rw [update_self]
      rintro ⟨⟩
      exact .inl rfl
    · rw [update_of_ne other]
      exact piped.used page' pi

/-- The page of a pipe after one end of it is closed. -/
def shut (pi : Pipe) (writable : Bool) : Pipe :=
  if writable then { pi with writeopen := false } else { pi with readopen := false }

/-- The page that is left, if it is not freed. -/
def remains (pi : Pipe) (writable : Bool) : Option Pipe :=
  if (shut pi writable).readopen ∨ (shut pi writable).writeopen then some (shut pi writable) else none

theorem remains_opened (pi : Pipe) (writable w : Bool) :
    (∃ pi', remains pi writable = some pi' ∧ opened pi' w = true) ↔ w ≠ writable ∧ opened pi w = true := by
  obtain ⟨r,wr⟩ := pi
  revert r wr writable w
  decide

variable {f : FileId}

theorem Piped.close (piped : Piped ends pipe) {page : Nat} {writable : Bool} {pi : Pipe}
    (here : ends f = some (page,writable)) (there : pipe page = some pi) :
    Piped (update ends f none) (update pipe page (remains pi writable)) := by
  have kept (g : FileId) (e : Nat × Bool) : update ends f none g = some e ↔ ends g = some e ∧ e ≠ (page,writable) := by
    rcases eq_or_ne g f with rfl | other
    · simp [here,eq_comm]
    · rw [update_of_ne other]
      refine ⟨fun mine => ⟨mine,?_⟩,And.left⟩
      rintro rfl
      exact other (piped.sole g f _ mine here)
  refine ⟨fun g h e => ?_,fun page' w => ?_,fun page' pi' => ?_⟩
  · simp only [kept]
    exact fun mine his => piped.sole g h e mine.1 his.1
  · simp only [kept]
    rcases eq_or_ne page' page with rfl | other
    · have before := piped.opened page' w
      simp only [there,Option.some.injEq,exists_eq_left'] at before
      rw [update_self,remains_opened,← before]
      simp [and_comm]
    · simp [other,piped.opened]
  · rcases eq_or_ne page' page with rfl | other
    · rw [update_self]
      unfold remains
      split
      · next still =>
        rintro ⟨⟩
        exact still
      · rintro ⟨⟩
    · rw [update_of_ne other]
      exact piped.used page' pi'

/-! ### The books -/

/-- The descriptors of all processes. -/
def ofile (t : Tables) (x : Pid × Fin NOFILE) : Option FileId := (t.proc x.1).ofile x.2

/-- The number of descriptors of a file. -/
def descriptors (t : Tables) (f : FileId) : Nat := (Finset.univ.filter fun x => ofile t x = some f).card

/-- Every file is counted, with the references `held` by the call in progress. -/
structure Books (held : FileId → Int) (t : Tables) : Prop where
  count : ∀ f, (t.file f).ref = descriptors t f + held f
  pos : ∀ f, 0 ≤ (t.file f).ref
  -- a file that is not in use is recycled as it is
  free : ∀ f, (t.file f).ref = 0 → (t.file f).type = .FD_NONE
  gone : ∀ p, (t.proc p).state = .UNUSED ∨ (t.proc p).state = .ZOMBIE → ∀ fd, (t.proc p).ofile fd = none
  readable : ∀ f page writable, pipeEnd (t.file f) = some (page,writable) → (t.file f).readable = !writable
  piped : Piped (fun f => pipeEnd (t.file f)) t.pipe

variable {held : FileId → Int} {t : Tables}

variable {held' : FileId → Int}

theorem Books.repipe (books : Books held t) {file : FileId → File} {pipe : Nat → Option Pipe}
    (ref : ∀ f, (file f).ref = (t.file f).ref + (held' f - held f)) (pos : ∀ f, 0 ≤ (file f).ref)
    (free : ∀ f, (file f).ref = 0 → (file f).type = .FD_NONE)
    (readable : ∀ f page writable, pipeEnd (file f) = some (page,writable) → (file f).readable = !writable)
    (piped : Piped (fun f => pipeEnd (file f)) pipe) : Books held' { t with file := file, pipe := pipe } where
  count f := by
    show (file f).ref = descriptors t f + held' f
    rw [ref,books.count f]
    omega
  pos := pos
  free := free
  gone := books.gone
  readable := readable
  piped := piped

theorem Books.setFile (books : Books held t) (f : FileId) (x : File)
    (ref : x.ref = (t.file f).ref + (held' f - held f)) (others : ∀ g, g ≠ f → held' g = held g) (pos : 0 ≤ x.ref)
    (free : x.ref = 0 → x.type = .FD_NONE) (same : pipeEnd x = pipeEnd (t.file f))
    (readable : x.type = .FD_PIPE → x.readable = (t.file f).readable) : Books held' (t.setFile f x) := by
  have look (P : FileId → File → Prop) (mine : P f x) (his : ∀ g, g ≠ f → P g (t.file g)) :
      ∀ g, P g (update t.file f x g) := (forall_update_iff t.file P).mpr ⟨mine,his⟩
  have ends := look (fun g y => pipeEnd y = pipeEnd (t.file g)) same fun _ _ => rfl
  refine books.repipe (look (fun g y => y.ref = (t.file g).ref + (held' g - held g)) ref fun g other => ?_)
    (look (fun _ y => 0 ≤ y.ref) pos fun g _ => books.pos g)
    (look (fun _ y => y.ref = 0 → y.type = .FD_NONE) free fun g _ => books.free g)
    (look (fun _ y => ∀ page writable, pipeEnd y = some (page,writable) → y.readable = !writable) ?_
      fun g _ => books.readable g) (funext ends ▸ books.piped)
  · rw [others g other]
    omega
  · intro page writable here
    have pipe : x.type = .FD_PIPE := by
      by_contra other
      simp [pipeEnd,other] at here
    rw [readable pipe]
    exact books.readable f page writable (by rwa [← same])

theorem descriptors_setOfile (t : Tables) (p : Pid) (fd : Fin NOFILE) (new : Option FileId) (f : FileId) :
    descriptors (setOfile p fd new t) f + (if (t.proc p).ofile fd = some f then 1 else 0) =
      descriptors t f + (if new = some f then 1 else 0) := by
  have entries : ofile (setOfile p fd new t) = update (ofile t) (p,fd) new := by
    funext x
    obtain ⟨q,fe⟩ := x
    rcases eq_or_ne q p with rfl | other
    · rcases eq_or_ne fe fd with rfl | apart
      · simp [ofile,setOfile,Tables.setProc]
      · simp [ofile,setOfile,Tables.setProc,apart]
    · simp [ofile,setOfile,Tables.setProc,other]
  have change := card_update (ofile t) (p,fd) new fun e => e = some f
  rw [← entries] at change
  exact change

/-- A reference to a file. -/
abbrev one (f : FileId) : FileId → Int := Pi.single f 1

/-- The references of an entry. -/
def entry : Option FileId → FileId → Int
  | none => 0
  | some f => one f

theorem entry_apply (e : Option FileId) (f : FileId) : entry e f = if e = some f then 1 else 0 := by
  cases e with
  | none => rfl
  | some g => simp [entry,Pi.single_apply,eq_comm]

theorem Books.setOfile (books : Books held t) {p : Pid} (fd : Fin NOFILE) (new : Option FileId)
    (alive : ¬((t.proc p).state = .UNUSED ∨ (t.proc p).state = .ZOMBIE)) :
    Books (held + entry ((t.proc p).ofile fd) - entry new) (setOfile p fd new t) where
  count f := by
    have change := descriptors_setOfile t p fd new f
    have before := books.count f
    simp only [Pi.sub_apply,Pi.add_apply,entry_apply]
    show (t.file f).ref = _
    split_ifs at change ⊢ <;> omega
  pos := books.pos
  free := books.free
  gone q state := by
    rcases eq_or_ne q p with rfl | other
    · simp [Xv6.setOfile,Tables.setProc] at state
      exact absurd state alive
    · simp only [Xv6.setOfile,Tables.setProc,update_of_ne other] at state ⊢
      exact books.gone q state
  readable := books.readable
  piped := books.piped

theorem Books.reproc (books : Books held t) {proc : Pid → Proc} (same : ∀ p, (proc p).ofile = (t.proc p).ofile)
    (gone : ∀ p, (proc p).state = .UNUSED ∨ (proc p).state = .ZOMBIE → ∀ fd, (t.proc p).ofile fd = none) :
    Books held { t with proc := proc } where
  count f := by
    have entries : ofile { t with proc := proc } = ofile t := by
      funext x
      simp [ofile,same]
    show (t.file f).ref = _
    rw [books.count f,descriptors,descriptors,entries]
  pos := books.pos
  free := books.free
  gone p dead := by
    rw [same]
    exact gone p dead
  readable := books.readable
  piped := books.piped

theorem Books.setProc (books : Books held t) (p : Pid) (x : Proc) (same : x.ofile = (t.proc p).ofile)
    (gone : x.state = .UNUSED ∨ x.state = .ZOMBIE → ∀ fd, (t.proc p).ofile fd = none) : Books held (t.setProc p x) := by
  have look (P : Pid → Proc → Prop) (mine : P p x) (his : ∀ q, P q (t.proc q)) :=
    (forall_update_iff t.proc P).mpr ⟨mine,fun q _ => his q⟩
  exact books.reproc (look (fun q y => y.ofile = (t.proc q).ofile) same fun _ => rfl)
    (look (fun q y => y.state = .UNUSED ∨ y.state = .ZOMBIE → ∀ fd, (t.proc q).ofile fd = none) gone books.gone)

/-! ### `file.c` and `pipe.c` on the books -/

theorem Books.recount (books : Books held t) (f : FileId) (n : Int) (pos : 0 < n)
    (ref : n = (t.file f).ref + (held' f - held f)) (others : ∀ g, g ≠ f → held' g = held g) :
    Books held' (t.setFile f { t.file f with ref := n }) :=
  books.setFile f _ ref others (le_of_lt pos) (fun zero => absurd zero (ne_of_gt pos)) rfl fun _ => rfl

theorem add_one_self (held : FileId → Int) (f : FileId) : (held + one f) f = held f + 1 := by simp

theorem sub_one_self (held : FileId → Int) (f : FileId) : (held - one f) f = held f - 1 := by simp

theorem add_one_other (held : FileId → Int) (f g : FileId) (other : g ≠ f) : (held + one f) g = held g := by simp [other]

theorem sub_one_other (held : FileId → Int) (f g : FileId) (other : g ≠ f) : (held - one f) g = held g := by simp [other]

theorem filealloc_cases (t : Tables) : filealloc t = .ok (none,t) ∨
    ∃ f, (t.file f).ref = 0 ∧ filealloc t = .ok (some f,t.setFile f { t.file f with ref := 1 }) := by
  unfold filealloc
  cases found : (List.finRange NFILE).find? fun f => (t.file f).ref = 0 with
  | none => exact .inl rfl
  | some f =>
    have unused := List.find?_some found
    exact .inr ⟨f,by simpa using unused,rfl⟩

theorem Books.alloc (books : Books held t) (unused : (t.file f).ref = 0) :
    Books (held + one f) (t.setFile f { t.file f with ref := 1 }) :=
  books.recount f 1 (by decide) (by rw [unused,add_one_self]; omega) (add_one_other held f)

theorem fdalloc_cases (p : Pid) (f : FileId) (t : Tables) : fdalloc p f t = .ok (none,t) ∨
    ∃ fd, (t.proc p).ofile fd = none ∧ fdalloc p f t = .ok (some fd,setOfile p fd (some f) t) := by
  unfold fdalloc
  cases found : (List.finRange NOFILE).find? fun fd => (t.proc p).ofile fd = none with
  | none => exact .inl rfl
  | some fd =>
    have unused := List.find?_some found
    exact .inr ⟨fd,by simpa using unused,rfl⟩

variable {fd : Fin NOFILE}

section
variable (books : Books held t)
include books

theorem Books.enter {p : Pid} (f : FileId) (unused : (t.proc p).ofile fd = none)
    (alive : ¬((t.proc p).state = .UNUSED ∨ (t.proc p).state = .ZOMBIE)) :
    Books (held - one f) (Xv6.setOfile p fd (some f) t) := by
  have entered := books.setOfile fd (some f) alive
  rwa [unused,entry,add_zero] at entered

theorem Books.leave {p : Pid} (used : (t.proc p).ofile fd = some f)
    (alive : ¬((t.proc p).state = .UNUSED ∨ (t.proc p).state = .ZOMBIE)) :
    Books (held + one f) (Xv6.setOfile p fd none t) := by
  have entered := books.setOfile fd none alive
  rw [used] at entered
  simpa [entry] using entered

theorem Books.dup (used : 0 < (t.file f).ref) :
    filedup f t = .ok ((),t.setFile f { t.file f with ref := (t.file f).ref + 1 }) ∧
      Books (held + one f) (t.setFile f { t.file f with ref := (t.file f).ref + 1 }) := by
  refine ⟨?_,books.recount f _ (by omega) (by rw [add_one_self]; omega) (add_one_other held f)⟩
  rw [filedup,if_neg (by omega)]

theorem Books.used {p : Pid} (here : (t.proc p).ofile fd = some f)
    (debt : 0 ≤ held f) : 0 < (t.file f).ref := by
  have some' : 0 < descriptors t f := card_filter_pos (fun x => ofile t x = some f) (k := (p,fd)) here
  have := books.count f
  omega

theorem Books.last (used : (t.file f).ref = 1) (other : (t.file f).type ≠ .FD_PIPE) :
    Books (held - one f) (t.setFile f { t.file f with ref := 0, type := .FD_NONE }) := by
  refine books.setFile f _ ?_ (sub_one_other held f) le_rfl (fun _ => rfl) ?_ fun never => by cases never
  · rw [used,sub_one_self]
    show (0 : Int) = _
    omega
  · simp [pipeEnd,other]

theorem Books.openInode (x : File) (fresh : (t.file f).type = .FD_NONE)
    (inode : x.type = .FD_INODE) (ref : x.ref = (t.file f).ref) (used : 0 < (t.file f).ref) : Books held (t.setFile f x) := by
  refine books.setFile f x (by omega) (fun _ _ => rfl) (by omega) (fun zero => by omega) ?_ fun never => ?_
  · simp [pipeEnd,inode,fresh]
  · rw [inode] at never
    cases never

end

theorem pipeEnd_pipe {x : File} (pipe : x.type = .FD_PIPE) : pipeEnd x = some (x.pipe,x.writable) := if_pos pipe

/-- The last reference to the end of a pipe is dropped, and the end is closed. -/
theorem Books.lastPipe (books : Books held t) (used : (t.file f).ref = 1) (pipe : (t.file f).type = .FD_PIPE) :
    ∃ t', pipeclose (t.file f).pipe (t.file f).writable (t.setFile f { t.file f with ref := 0, type := .FD_NONE }) =
      .ok ((),t') ∧ Books (held - one f) t' ∧ t'.proc = t.proc := by
  obtain ⟨pi,there,_⟩ := (books.piped.opened _ _).mp ⟨f,pipeEnd_pipe pipe⟩
  have closed := books.piped.close (pipeEnd_pipe pipe) there
  refine ⟨{ t with
    file := update t.file f { t.file f with ref := 0, type := .FD_NONE },
    pipe := update t.pipe (t.file f).pipe (remains pi (t.file f).writable) },?_,?_,rfl⟩
  · simp only [pipeclose,Tables.setFile,there]
    rfl
  · have look (P : FileId → File → Prop) (mine : P f { t.file f with ref := 0, type := .FD_NONE })
        (his : ∀ g, g ≠ f → P g (t.file g)) := (forall_update_iff t.file P).mpr ⟨mine,his⟩
    have ends := look (fun g y => pipeEnd y = update (fun g => pipeEnd (t.file g)) f none g) (by simp [pipeEnd])
      fun g other => by simp [other]
    refine books.repipe (look (fun g y => y.ref = (t.file g).ref + ((held - one f) g - held g)) ?_ fun g other => ?_)
      (look (fun _ y => 0 ≤ y.ref) le_rfl fun g _ => books.pos g)
      (look (fun _ y => y.ref = 0 → y.type = .FD_NONE) (fun _ => rfl) fun g _ => books.free g)
      (look (fun _ y => ∀ page writable, pipeEnd y = some (page,writable) → y.readable = !writable) (by simp [pipeEnd])
        fun g _ => books.readable g) (funext ends ▸ closed)
    · rw [sub_one_self,used]
      show (0 : Int) = _
      omega
    · rw [sub_one_other held f g other]
      omega

theorem Books.newPipe (books : Books held t) {f0 f1 : FileId} {page : Nat} (apart : f0 ≠ f1) (fresh : t.pipe page = none)
    (none0 : (t.file f0).type = .FD_NONE) (none1 : (t.file f1).type = .FD_NONE) (used0 : 0 < (t.file f0).ref)
    (used1 : 0 < (t.file f1).ref) :
    ∃ t', pipealloc_set page f0 f1 t = .ok ((),t') ∧ Books held t' ∧ t'.proc = t.proc ∧ ∀ f, (t'.file f).ref = (t.file f).ref := by
  let x0 : File := { t.file f0 with type := .FD_PIPE, readable := true, writable := false, pipe := page }
  let x1 : File := { t.file f1 with type := .FD_PIPE, readable := false, writable := true, pipe := page }
  have file (P : FileId → File → Prop) (one : P f0 x0) (two : P f1 x1) (others : ∀ g, P g (t.file g)) :
      ∀ g, P g (update (update t.file f0 x0) f1 x1 g) :=
    (forall_update_iff _ P).mpr ⟨two,fun g _ => (forall_update_iff t.file P).mpr ⟨one,fun g _ => others g⟩ g⟩
  have ref := file (fun g x => x.ref = (t.file g).ref) rfl rfl fun _ => rfl
  have ends : (fun g => pipeEnd (update (update t.file f0 x0) f1 x1 g)) =
      update (update (fun g => pipeEnd (t.file g)) f0 (some (page,false))) f1 (some (page,true)) :=
    (comp_update pipeEnd _ f1 x1).trans (congrArg (update · f1 _) (comp_update pipeEnd t.file f0 x0))
  refine ⟨{ t with file := update (update t.file f0 x0) f1 x1, pipe := update t.pipe page (some ⟨true,true⟩) },?_,?_,rfl,ref⟩
  · simp only [pipealloc_set,Tables.setFile,update_of_ne apart.symm]
    rfl
  · refine books.repipe (fun g => by rw [ref]; omega) (fun g => by rw [ref]; exact books.pos g)
      (file (fun _ x => x.ref = 0 → x.type = .FD_NONE) (fun zero => ?_) (fun zero => ?_) books.free)
      (file (fun _ x => ∀ page writable, pipeEnd x = some (page,writable) → x.readable = !writable) ?_ ?_ books.readable) ?_
    · exact absurd zero (ne_of_gt used0)
    · exact absurd zero (ne_of_gt used1)
    · rintro _ _ ⟨⟩
      rfl
    · rintro _ _ ⟨⟩
      rfl
    · rw [ends]
      exact books.piped.alloc apart (by simp [pipeEnd,none0]) (by simp [pipeEnd,none1]) fresh

end Xv6.FileRefs
