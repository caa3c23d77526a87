import Xv6.FileRefs
import Xv6.RefCalls

/-!
The books of the file table through every system call. Most of a call is blind to the tables: whatever the inodes and
the disk answer, the tables stay as they are. What it does to the inodes is in `Xv6.RefCalls`.
-/
namespace Xv6.FileRefs
open Xv6.Lib Xv6.Refs Function Prog

variable {α β : Type} {p : Pid}

/-- The operations that are not on the tables. -/
def beside : Op α → Bool
  | .tables _ => false
  | _ => true

theorem iget_tables (dev inum : Nat) (s : State) :
    post (iget dev inum) (fun _ s' => s'.tables = s.tables) (· ∉ filePanics) s := by
  unfold iget
  rw [post_bind,post_get]
  split
  · exact rfl
  · split
    · exact rfl
    · exact (by decide : "iget: no inodes" ∉ filePanics)

theorem step_tables {o : Op α} (other : beside o = true) (s : State) :
    post (kernelStep p o) (fun _ s' => s'.tables = s.tables) (· ∉ filePanics) s := by
  have keep {m : M α} (kept : Kept m) : post m (fun _ s' => s'.tables = s.tables) (· ∉ filePanics) s :=
    post_use (kept s) fun _ _ keeps => keeps.tables
  cases o with
  | tables g => cases other
  | iget dev inum => exact iget_tables dev inum s
  | idup ip | unref ip | ref ip | dev ip | inum ip | holdingsleep ip | lock ip | unlock ip | valid ip | attr ip => exact rfl
  | iload ip => exact keep (kept_iload _).files
  | isetattr ip major minor nlink => exact keep (kept_isetattr _ _ _ _).files
  | ialloc type => exact keep (kept_ialloc_inum _).files
  | ifree ip => exact keep (kept_ifree _).files
  | readi ip off n => exact keep (kept_readi _ _ _)
  | writei ip src off => exact keep (kept_writei _ _ _)

/-! ### Blind to the tables -/

/-- A program that leaves the tables alone. -/
def Passes (p : Pid) (c : Call α) : Prop := ∀ s, wp (kernel p) c (fun _ s' => s'.tables = s.tables) Fine s

theorem Passes.ret (a : α) : Passes p (ret a) := fun _ => rfl

theorem Passes.fail {why : String} (other : why ∉ filePanics) : Passes p (fail why : Call α) := fun _ => other

theorem Passes.call {o : Op α} (other : beside o = true) : Passes p (call o) := by
  intro s
  rw [wp_kernel]
  exact step_tables other s

theorem Passes.bind {c : Call α} {f : α → Call β} (first : Passes p c) (rest : ∀ a, Passes p (f a)) : Passes p (c >>= f) := by
  intro s
  rw [wp_bind]
  exact wp_use (first s) fun a s' same => wp_use (rest a s') fun _ _ same' => same'.trans same

theorem blind_kept {c : Call α} (kept : KeptCall p c) : Passes p c :=
  fun s => wp_use (kept s) fun _ _ keeps => keeps.tables

theorem blind_ilock (ip : Slot) : Passes p (ilock ip) := blind_kept (kept_ilock ip)

theorem blind_iunlock (ip : Slot) : Passes p (iunlock ip) := blind_kept (kept_iunlock ip)

theorem blind_iput (ip : Slot) : Passes p (iput ip) :=
  .bind (blind_kept (kept_acquiresleep _ _)) fun _ => .bind (blind_kept (kept_iput_free _)) fun _ =>
    .bind (blind_kept (kept_releasesleep _)) fun _ => .call rfl

theorem blind_iunlockput (ip : Slot) : Passes p (iunlockput ip) := .bind (blind_iunlock ip) fun _ => blind_iput ip

theorem blind_cwdOf (q : Pid) : Passes p (cwdOf q) := by
  refine .bind ?_ fun cwd => ?_
  · intro s
    rw [wp_kernel]
    exact rfl
  cases cwd with
  | none => exact .fail (by decide)
  | some ip => exact .ret _

/-! ### The calls that change the tables -/

/-- From the tables `t` the program returns in `Q`, without a panic of `file.c`. -/
def Safe (p : Pid) (c : Call α) (Q : α → Tables → Prop) (t : Tables) : Prop :=
  ∀ s, s.tables = t → wp (kernel p) c (fun a s' => Q a s'.tables) Fine s

variable {held : FileId → Int} {t : Tables} {Q : α → Tables → Prop}

theorem safe_ret {a : α} (done : Q a t) : Safe p (ret a) Q t := by
  rintro s rfl
  exact done

theorem safe_fail {why : String} (other : why ∉ filePanics) : Safe p (fail why) Q t := fun _ _ => other

theorem safe_tables {f : Tables → Except String (α × Tables)} {a : α} {t' : Tables} (ran : f t = .ok (a,t')) (done : Q a t') :
    Safe p (call (.tables f)) Q t := by
  rintro s rfl
  rw [wp_kernel]
  show post (fun s => _) _ _ s
  unfold post
  simp only [kernelStep,ran]
  exact done

theorem Passes.safe {c : Call α} (passes : Passes p c) (done : ∀ a, Q a t) : Safe p c Q t := by
  rintro s rfl
  refine wp_use (passes s) fun a s' same => ?_
  rw [same]
  exact done a

theorem safe_mono {c : Call α} {Q' : α → Tables → Prop} (before : Safe p c Q t) (done : ∀ a t', Q a t' → Q' a t') :
    Safe p c Q' t := fun s same => wp_use (before s same) fun a s' => done a s'.tables

theorem Safe.bind {c : Call β} {f : β → Call α} {R : β → Tables → Prop} (first : Safe p c R t)
    (rest : ∀ b t', R b t' → Safe p (f b) Q t') : Safe p (c >>= f) Q t := by
  intro s same
  rw [wp_bind]
  exact wp_use (first s same) fun b s' done => rest b s'.tables done s' rfl

theorem safe_step {f : Tables → Except String (β × Tables)} {k : β → Call α} {b : β} {t' : Tables} (ran : f t = .ok (b,t'))
    (rest : Safe p (k b) Q t') : Safe p (call (.tables f) >>= k) Q t := by
  refine (safe_tables (Q := fun b' u => b' = b ∧ u = t') ran ⟨rfl,rfl⟩).bind ?_
  rintro _ _ ⟨rfl,rfl⟩
  exact rest

theorem Passes.use {c : Call β} {f : β → Call α} (passes : Passes p c) (rest : ∀ b, Safe p (f b) Q t) :
    Safe p (c >>= f) Q t := by
  refine (passes.safe (Q := fun _ u => u = t) fun _ => rfl).bind ?_
  rintro b _ rfl
  exact rest b

/-- A process that can have open files. -/
def Alive (t : Tables) (p : Pid) : Prop := ¬((t.proc p).state = .UNUSED ∨ (t.proc p).state = .ZOMBIE)

theorem state_setOfile (q : Pid) (fd : Fin NOFILE) (f : Option FileId) (t : Tables) (p : Pid) :
    ((setOfile q fd f t).proc p).state = (t.proc p).state := by
  unfold setOfile Tables.setProc
  rcases eq_or_ne p q with rfl | other
  · simp
  · simp [other]

theorem alive_setOfile {q : Pid} {fd : Fin NOFILE} {f : Option FileId} (alive : Alive t p) : Alive (setOfile q fd f t) p := by
  rwa [Alive,state_setOfile]

theorem fileclose_safe (books : Books held t) {f : FileId} (used : 0 < (t.file f).ref) :
    Safe p (fileclose f) (fun _ t' => Books (held - one f) t' ∧ t'.proc = t.proc) t := by
  unfold fileclose
  by_cases more : (t.file f).ref - 1 > 0
  · have ran : fileclose_ref f t = .ok (none,t.setFile f { t.file f with ref := (t.file f).ref - 1 }) := by
      simp only [fileclose_ref]
      rw [if_neg (by omega),if_pos more]
    refine safe_step ran (safe_ret ⟨books.recount f _ more ?_ (sub_one_other held f),rfl⟩)
    rw [sub_one_self]
    omega
  · have only : (t.file f).ref = 1 := by omega
    have ran : fileclose_ref f t = .ok (some (t.file f),t.setFile f { t.file f with ref := 0, type := .FD_NONE }) := by
      simp only [fileclose_ref]
      rw [if_neg (by omega),if_neg more]
    refine safe_step ran ?_
    dsimp only
    split
    · next pipe =>
      obtain ⟨t',ran,books,procs⟩ := books.lastPipe only pipe
      exact safe_tables ran ⟨books,procs⟩
    · next inode => exact (blind_iput _).safe fun _ => ⟨books.last only (by rw [inode]; decide),rfl⟩
    · next none => exact safe_ret ⟨books.last only (by rw [none]; decide),rfl⟩

theorem Books.held_used (books : Books held t) {f : FileId} (mine : 0 < held f) : 0 < (t.file f).ref := by
  have := books.count f
  omega

theorem argfd_some {fd : Int} {fd' : Fin NOFILE} {f : FileId} (found : argfd p fd t = some (fd',f)) :
    (t.proc p).ofile fd' = some f := by
  unfold argfd at found
  split at found
  · obtain ⟨g,here,same⟩ := Option.map_eq_some_iff.mp found
    cases same
    exact here
  · cases found

/-- A call that keeps the books. -/
def Keeps (p : Pid) (c : Call Int) : Prop := ∀ t, Alive t p → Books 0 t → Safe p c (fun _ t' => Books 0 t') t

/-- The same of a call that also takes and drops references to inodes. -/
def Sustains (p : Pid) (c : Call Int) : Prop := ∀ s, Balanced 0 s → Alive s.tables p → Books 0 s.tables →
  wp (kernel p) c (fun _ s' => Books 0 s'.tables) Fine s

theorem Keeps.sustains {c : Call Int} (keeps : Keeps p c) : Sustains p c :=
  fun s _ alive books => keeps s.tables alive books s rfl

/-- A call that begins with inodes. -/
theorem moves_first {s : State} {c : Call β} {f : β → Call α} {after : β → Slot → Int} (moves : Moves p 0 c after)
    (bal : Balanced 0 s) (rest : ∀ b, Safe p (f b) Q s.tables) : wp (kernel p) (c >>= f) (fun a s' => Q a s'.tables) Fine s := by
  rw [wp_bind]
  exact wp_use (moves 0 s (fun _ => le_rfl) (by simpa using bal)) fun b s' ⟨_,same⟩ => rest b s' same

theorem moves_sustains {c : Call Int} {after : Int → Slot → Int} (moves : Moves p 0 c after) : Sustains p c := by
  intro s bal _ books
  refine wp_use (moves 0 s (fun _ => le_rfl) (by simpa using bal)) fun _ s' ⟨_,same⟩ => ?_
  rwa [same]

theorem keeps_dup (fd : Int) : Keeps p (sys_dup p fd) := by
  intro t alive books
  unfold sys_dup
  refine safe_step rfl ?_
  cases found : argfd p fd t with
  | none => exact safe_ret books
  | some x =>
    obtain ⟨fd',f⟩ := x
    have used := books.used (argfd_some found) le_rfl
    rcases fdalloc_cases p f t with ran | ⟨fd,unused,ran⟩
    · exact safe_step ran (safe_ret books)
    · refine safe_step ran ?_
      dsimp only
      obtain ⟨ran,books⟩ := (books.enter f unused alive).dup (f := f) used
      refine safe_step ran ?_
      rw [sub_add_cancel] at books
      exact safe_ret books

theorem keeps_close (fd : Int) : Keeps p (sys_close p fd) := by
  intro t alive books
  unfold sys_close
  refine safe_step rfl ?_
  cases found : argfd p fd t with
  | none => exact safe_ret books
  | some x =>
    obtain ⟨fd',f⟩ := x
    refine safe_step rfl ?_
    have left := books.leave (argfd_some found) alive
    refine (fileclose_safe left (left.held_used (by simp))).bind fun _ t' done => ?_
    have done := done.1
    rw [add_sub_cancel_right] at done
    exact safe_ret done

theorem open_file_safe (alive : Alive t p) (books : Books 0 t) :
    Safe p (sys_open_file p) (fun r t' => Books 0 t' ∧ ∀ x ∈ r, (t'.file x.1).type = .FD_NONE ∧ 0 < (t'.file x.1).ref) t := by
  unfold sys_open_file
  rcases filealloc_cases t with ran | ⟨f,unused,ran⟩
  · exact safe_step ran (safe_ret ⟨books,nofun⟩)
  · refine safe_step ran ?_
    have fresh := books.free f unused
    have held := books.alloc unused
    rcases fdalloc_cases p f (t.setFile f { t.file f with ref := 1 }) with ran | ⟨fd,empty,ran⟩
    · refine safe_step ran ((fileclose_safe held (held.held_used (by simp))).bind fun _ t' ⟨done,_⟩ => ?_)
      rw [add_sub_cancel_right] at done
      exact safe_ret ⟨done,nofun⟩
    · have entered := held.enter f empty alive
      rw [add_sub_cancel_right] at entered
      refine safe_step ran (safe_ret ⟨entered,?_⟩)
      rintro _ ⟨⟩
      simp [Xv6.setOfile,Tables.setProc,Tables.setFile,fresh]

theorem sustains_open (path : Arg) (omode : Nat) : Sustains p (sys_open p path omode) := by
  intro s bal alive books
  unfold sys_open
  split
  · exact books
  · refine moves_first (moves_open_inode _ _) bal fun found => ?_
    split
    · exact safe_ret books
    · refine (open_file_safe alive books).bind fun opened t' ⟨books,fresh⟩ => ?_
      split
      · exact (blind_iunlockput _).use fun _ => safe_ret books
      · obtain ⟨none,used⟩ := fresh _ rfl
        exact (blind_iunlock _).use fun _ => safe_step rfl (safe_ret (books.openInode _ none rfl rfl used))

theorem one_nonneg (f g : FileId) : 0 ≤ one f g := by
  simp only [one,Pi.single_apply]
  split <;> decide

theorem closes_safe {f g : FileId} {c : Call α} {Q : α → Tables → Prop} (books : Books (one f + one g) t)
    (rest : ∀ t', Books 0 t' → t'.proc = t.proc → Safe p c Q t') :
    Safe p (fileclose f >>= fun _ => fileclose g >>= fun _ => c) Q t := by
  refine (fileclose_safe books (books.held_used ?_)).bind fun _ t₁ ⟨books,procs⟩ => ?_
  · have := one_nonneg g f
    simp only [Pi.add_apply,Pi.single_eq_same]
    omega
  · rw [add_sub_cancel_left] at books
    refine (fileclose_safe books (books.held_used (by simp))).bind fun _ t₂ ⟨books,procs'⟩ => ?_
    rw [sub_self] at books
    exact rest t₂ books (procs'.trans procs)

/-- The two ends of a new pipe, or nothing. -/
def Ends (t : Tables) : Option (FileId × FileId) → Tables → Prop
  | none,t' => Books 0 t'
  | some (f,g),t' => Books (one f + one g) t' ∧ t'.proc = t.proc

theorem pipealloc_safe (books : Books 0 t) {page : Option Nat} (fresh : ∀ n, page = some n → t.pipe n = none) :
    Safe p (pipealloc page) (Ends t) t := by
  unfold pipealloc
  rcases filealloc_cases t with ran | ⟨f,unused,ran⟩
  · exact safe_step ran (safe_ret books)
  · refine safe_step ran ?_
    dsimp only
    have none0 := books.free f unused
    have first := books.alloc unused
    rw [zero_add] at first
    rcases filealloc_cases (t.setFile f { t.file f with ref := 1 }) with ran | ⟨g,unused',ran⟩
    · refine safe_step ran ?_
      dsimp only
      refine (fileclose_safe first (first.held_used (by simp))).bind fun _ t' ⟨books,_⟩ => ?_
      rw [sub_self] at books
      exact safe_ret books
    · refine safe_step ran ?_
      have apart : f ≠ g := by
        rintro rfl
        simp [Tables.setFile] at unused'
      have none1 := first.free g unused'
      have second := first.alloc unused'
      cases page with
      | none => exact closes_safe second fun t' books _ => safe_ret books
      | some page =>
        dsimp only
        obtain ⟨t',ran,books,procs,_⟩ := second.newPipe apart (fresh page rfl) (by simpa [Tables.setFile,apart] using none0)
          (by simpa [Tables.setFile] using none1) (by simp [Tables.setFile,apart]) (by simp [Tables.setFile])
        exact safe_step ran (safe_ret ⟨books,procs⟩)

theorem keeps_pipe {fd : Bool} {page : Option Nat} (alive : Alive t p) (books : Books 0 t)
    (fresh : ∀ n, page = some n → t.pipe n = none) : Safe p (sys_pipe p fd page) (fun _ t' => Books 0 t') t := by
  unfold sys_pipe
  split
  · exact safe_ret books
  · refine (pipealloc_safe books fresh).bind fun files t₁ ends => ?_
    cases files with
    | none => exact safe_ret ends
    | some files =>
      obtain ⟨rf,wf⟩ := files
      obtain ⟨books,procs⟩ := ends
      have alive : Alive t₁ p := by rwa [Alive,procs]
      dsimp only
      rcases fdalloc_cases p rf t₁ with ran | ⟨fd0,empty,ran⟩
      · refine safe_step ran ?_
        exact closes_safe books fun t' books _ => safe_ret books
      · refine safe_step ran ?_
        dsimp only
        have one := books.enter rf empty alive
        rw [add_sub_cancel_left] at one
        have alive : Alive (setOfile p fd0 (some rf) t₁) p := alive_setOfile alive
        rcases fdalloc_cases p wf (setOfile p fd0 (some rf) t₁) with ran | ⟨fd1,empty,ran⟩
        · refine safe_step ran ?_
          dsimp only
          refine safe_step rfl ?_
          have used : ((setOfile p fd0 (some rf) t₁).proc p).ofile fd0 = some rf := by simp [setOfile,Tables.setProc]
          have back := one.leave used alive
          rw [add_comm] at back
          exact closes_safe back fun t' books _ => safe_ret books
        · refine safe_step ran ?_
          have two := one.enter wf empty alive
          rw [sub_self] at two
          exact safe_ret two

theorem fork_files_safe {np : Pid} (fds : List (Fin NOFILE)) (distinct : fds.Nodup) {t : Tables}
    (books : Books 0 t) (alive : Alive t np) (empty : ∀ fd ∈ fds, (t.proc np).ofile fd = none) :
    ∃ t', fork_files p np fds t = .ok ((),t') ∧ Books 0 t' ∧ ∀ q, (t'.proc q).state = (t.proc q).state := by
  induction fds generalizing t with
  | nil => exact ⟨t,rfl,books,fun _ => rfl⟩
  | cons fd fds ih =>
    obtain ⟨new,distinct⟩ := List.nodup_cons.mp distinct
    unfold fork_files
    split
    · exact ih distinct books alive fun fe member => empty fe (List.mem_cons_of_mem _ member)
    · next f here =>
      obtain ⟨ran,dup⟩ := books.dup (books.used here le_rfl)
      rw [ran]
      have unused : (t.proc np).ofile fd = none := empty fd List.mem_cons_self
      have entered := dup.enter f unused alive
      rw [add_sub_cancel_right] at entered
      obtain ⟨t',ran,books,states⟩ := ih distinct entered (alive_setOfile alive) fun fe member => by
        have other : fe ≠ fd := by
          rintro rfl
          exact new member
        simpa [setOfile,Tables.setProc,Tables.setFile,other] using empty fe (List.mem_cons_of_mem _ member)
      exact ⟨t',ran,books,fun q => (states q).trans (state_setOfile np fd (some f) _ q)⟩

theorem allocproc_cases (kstack : Bool) (t : Tables) : allocproc kstack t = .ok (none,t) ∨
    ∃ np, (t.proc np).state = .UNUSED ∧ (kstack = false ∧ allocproc kstack t = .ok (none,setState np .UNUSED t) ∨
      allocproc kstack t = .ok (some np,setState np .EMBRYO t)) := by
  unfold allocproc
  cases found : (List.finRange NPROC).find? fun p => (t.proc p).state = .UNUSED with
  | none => exact .inl rfl
  | some np =>
    have unused := List.find?_some found
    refine .inr ⟨np,by simpa using unused,?_⟩
    cases kstack with
    | false => exact .inl ⟨rfl,rfl⟩
    | true => exact .inr rfl

theorem keeps_fork (kstack memory : Bool) : Keeps p (fork p kstack memory) := by
  intro t alive books
  unfold fork
  rcases allocproc_cases kstack t with ran | ⟨np,unused,⟨_,ran⟩ | ran⟩
  · exact safe_step ran (safe_ret books)
  · exact safe_step ran (safe_ret (books.setProc np _ rfl fun _ => books.gone np (.inl unused)))
  · refine safe_step ran ?_
    have empty := books.gone np (.inl unused)
    have embryo : Books 0 (setState np .EMBRYO t) := books.setProc np _ rfl fun _ => empty
    dsimp only
    split
    · refine safe_step rfl (safe_ret (embryo.setProc np _ rfl fun _ => ?_))
      simpa [setState,Tables.setProc] using empty
    · have young : ((setState np .EMBRYO t).proc np).state = .EMBRYO := by simp [setState,Tables.setProc]
      obtain ⟨t₁,ran,books,states⟩ := fork_files_safe (p := p) (List.finRange NOFILE) (List.nodup_finRange _) embryo
        (by rw [Alive,young]; decide) fun fd _ => by simpa [setState,Tables.setProc] using empty fd
      refine safe_step ran ?_
      refine (blind_cwdOf _).use fun cwd => ?_
      refine (Passes.call rfl).use fun _ => ?_
      refine safe_step rfl (safe_ret (books.setProc np _ rfl fun dead => ?_))
      simp at dead

theorem exit_files_safe (fds : List (Fin NOFILE)) {t : Tables} (books : Books 0 t) (alive : Alive t p) :
    Safe p (exit_files p fds) (fun _ t' => Books 0 t' ∧ (∀ q, (t'.proc q).state = (t.proc q).state) ∧
      ∀ fd, fd ∈ fds ∨ (t.proc p).ofile fd = none → (t'.proc p).ofile fd = none) t := by
  induction fds generalizing t with
  | nil => exact safe_ret ⟨books,fun _ => rfl,fun fd => by simp⟩
  | cons fd fds ih =>
    unfold exit_files
    refine safe_step rfl ?_
    cases here : (t.proc p).ofile fd with
    | none =>
      refine safe_mono (ih books alive) fun _ t' rest => ?_
      obtain ⟨books,states,closed⟩ := rest
      refine ⟨books,states,fun fe => ?_⟩
      rintro (listed | none)
      · rcases List.mem_cons.mp listed with rfl | listed
        · exact closed fe (.inr here)
        · exact closed fe (.inl listed)
      · exact closed fe (.inr none)
    | some f =>
      dsimp only
      refine (fileclose_safe books (books.used here le_rfl)).bind fun _ t₁ closed => ?_
      obtain ⟨books₁,procs⟩ := closed
      refine safe_step rfl ?_
      have alive₁ : Alive t₁ p := by rwa [Alive,procs]
      have used : (t₁.proc p).ofile fd = some f := by rw [procs,here]
      have left := books₁.leave used alive₁
      rw [zero_sub,neg_add_cancel] at left
      refine safe_mono (ih left (alive_setOfile alive₁)) fun _ t' rest => ?_
      obtain ⟨books,states,closed⟩ := rest
      refine ⟨books,fun q => ?_,fun fe => ?_⟩
      · rw [states,state_setOfile,procs]
      · have now : ((setOfile p fd none t₁).proc p).ofile fe = if fe = fd then none else (t.proc p).ofile fe := by
          simp [setOfile,Tables.setProc,procs,update_apply]
        rintro (listed | none)
        · rcases List.mem_cons.mp listed with rfl | listed
          · exact closed fe (.inr (by rw [now,if_pos rfl]))
          · exact closed fe (.inl listed)
        · refine closed fe (.inr ?_)
          rw [now,none,ite_self]

theorem reparent_ofile (q init : Pid) (x : Proc) : (reparent q init x).ofile = x.ofile := by
  unfold reparent
  split <;> rfl

theorem Books.reparent (books : Books held t) (q : Pid) :
    Books held { t with proc := fun r => Xv6.reparent q t.initproc (t.proc r) } := by
  refine books.reproc (fun r => reparent_ofile _ _ _) fun r => ?_
  unfold Xv6.reparent
  split <;> exact books.gone r

theorem keeps_exit : Keeps p (exit p) := by
  intro t alive books
  unfold exit
  refine safe_step rfl ?_
  split
  · exact safe_fail (by decide)
  · refine (exit_files_safe (List.finRange NOFILE) books alive).bind fun _ t₁ ⟨books,states,closed⟩ => ?_
    refine (blind_cwdOf _).use fun cwd => ?_
    refine (blind_iput _).use fun _ => ?_
    have noCwd : Books 0 (t₁.setProc p { t₁.proc p with cwd := none }) := books.setProc p _ rfl (books.gone p)
    refine safe_step rfl ?_
    refine safe_step rfl (safe_ret ((noCwd.reparent p).setProc p _ rfl fun _ fd => ?_))
    simpa [Tables.setProc,reparent_ofile] using closed fd (.inl (List.mem_finRange fd))

theorem keeps_wait : Keeps p (wait p) := by
  intro t alive books
  refine (blind_kept (.await .child)).use fun _ => ?_
  cases found : zombie p t with
  | none =>
    have ran : wait_scan p t = .ok (-1,t) := by rw [wait_scan,found]
    exact safe_tables ran books
  | some q =>
    have dead := List.find?_some found
    simp only [decide_eq_true_eq] at dead
    have ran : wait_scan p t = .ok ((q.val : Int),t.setProc q { t.proc q with parent := none, state := .UNUSED }) := by
      rw [wait_scan,found]
    exact safe_tables ran (books.setProc q _ rfl fun _ => books.gone q (.inr dead.2))

theorem sustains_chdir (path : Arg) : Sustains p (sys_chdir p path) := by
  intro s bal alive books
  unfold sys_chdir
  split
  · exact books
  · refine moves_first (moves_namei _) bal fun found => ?_
    split
    · exact safe_ret books
    · refine (blind_ilock _).use fun _ => ?_
      refine (Passes.call rfl).use fun d => ?_
      split
      · exact (blind_iunlockput _).use fun _ => safe_ret books
      · refine (blind_iunlock _).use fun _ => ?_
        refine (blind_cwdOf _).use fun cwd => ?_
        refine (blind_iput _).use fun _ => ?_
        exact safe_step rfl (safe_ret (books.setProc p _ rfl (books.gone p)))

theorem Books.advance (books : Books held t) (f : FileId) (r : Nat) :
    Books held (t.setFile f { t.file f with off := ((t.file f).off + r) % 2 ^ 32 }) :=
  books.setFile f _ (by simp) (fun _ _ => rfl) (books.pos f) (books.free f) rfl fun _ => rfl

theorem filewrite_from_safe (f : FileId) (ip : Slot) (fuel : Nat) (src : List UInt8) {t : Tables} (books : Books held t) :
    Safe p (filewrite_from f ip fuel src) (fun _ t' => Books held t') t := by
  induction fuel generalizing src t with
  | zero => exact safe_ret books
  | succ fuel ih =>
    unfold filewrite_from
    split
    · exact safe_ret books
    · dsimp only
      refine (blind_ilock _).use fun _ => ?_
      refine safe_step rfl ?_
      refine (Passes.call rfl).use fun r => ?_
      refine safe_step rfl ?_
      refine (blind_iunlock _).use fun _ => ?_
      have books := books.advance f r.toNat
      split
      · exact safe_ret books
      · split
        · exact safe_fail (by decide)
        · exact ih _ books

theorem keeps_write (fd : Int) (src : List UInt8) (piped : Int) : Keeps p (sys_write p fd src piped) := by
  intro t alive books
  unfold sys_write filewrite
  refine safe_step rfl ?_
  cases argfd p fd t with
  | none => exact safe_ret books
  | some x =>
    dsimp only
    refine safe_step rfl ?_
    split
    · exact safe_ret books
    · split
      · exact safe_ret books
      · exact (filewrite_from_safe _ _ _ _ books).bind fun _ _ done => safe_ret done
      · exact safe_fail (by decide)

theorem keeps_read (fd : Int) (n : Nat) (piped : Int) : Keeps p (sys_read p fd n piped) := by
  intro t alive books
  unfold sys_read fileread
  refine safe_step rfl ?_
  cases argfd p fd t with
  | none => exact safe_ret books
  | some x =>
    dsimp only
    refine safe_step rfl ?_
    split
    · exact safe_ret books
    · split
      · exact safe_ret books
      · refine (blind_ilock _).use fun _ => ?_
        refine safe_step rfl ?_
        refine (Passes.call rfl).use fun bytes => ?_
        refine safe_step rfl ?_
        exact (blind_iunlock _).use fun _ => safe_ret (books.advance _ _)
      · exact safe_fail (by decide)

/-! ### Every call -/

theorem sustains_sys (c : SysCall) : Sustains p (c.prog p) := by
  cases c with
  | «open» path omode => exact sustains_open path omode
  | close fd => exact (keeps_close fd).sustains
  | dup fd => exact (keeps_dup fd).sustains
  | read fd n piped => exact (keeps_read fd n piped).sustains
  | write fd src piped => exact (keeps_write fd src piped).sustains
  | link old new => exact moves_sustains (moves_link old new)
  | unlink path => exact moves_sustains (moves_unlink path)
  | mkdir path => exact moves_sustains (moves_sys_create path T_DIR 0 0)
  | mknod path major minor => exact moves_sustains (moves_sys_create path T_DEV major minor)
  | chdir path => exact sustains_chdir path
  | exec path pgdir memory stack => exact moves_sustains (moves_exec path pgdir memory stack)
  | fork kstack memory => exact (keeps_fork kstack memory).sustains
  | exit => exact keeps_exit.sustains
  | wait => exact keeps_wait.sustains

theorem keeps_call {s : State} {c : FileCall} (runnable : (s.tables.proc p).state = .RUNNABLE) (fresh : c.Fresh s.tables)
    (bal : Balanced 0 s) (books : Books 0 s.tables) : wp (kernel p) (c.prog p) (fun _ s' => Books 0 s'.tables) Fine s := by
  have alive : Alive s.tables p := by simp [Alive,runnable]
  cases c with
  | sys c => exact sustains_sys c s bal alive books
  | pipe fd page =>
    refine keeps_pipe alive books (fun n same => ?_) s rfl
    subst same
    exact fresh

/-! ### The inodes through `pipe` -/

section
variable {held : Slot → Int} {s : State}

theorem balanced_pipe (bal : Balanced held s) (f : FileId) (x : File) (before : (s.tables.file f).type ≠ .FD_INODE)
    (pipe : x.type = .FD_PIPE) : Balanced held { s with tables := s.tables.setFile f x } :=
  bal.setFile f x (fun ip => by simp [fileRef,before,pipe]) fun _ => by simp [pipe]

theorem pipealloc_balanced (bal : Balanced held s) (page : Option Nat) :
    wp (kernel p) (pipealloc page) (fun _ s' => Balanced held s') (fun _ => True) s := by
  unfold pipealloc
  rw [wp_bind]
  refine wp_use (filealloc_spec bal) fun f s₁ ⟨bal₁,_,_,fresh⟩ => ?_
  cases f with
  | none => exact bal₁
  | some f =>
    refine wp_bind .. ▸ wp_use (filealloc_spec bal₁) fun g s₂ ⟨bal₂,_,types,fresh'⟩ => ?_
    cases g with
    | none => exact wp_bind .. ▸ wp_use (fileclose_spec bal₂ f) fun _ _ done => done.1
    | some g =>
      cases page with
      | none =>
        refine wp_bind .. ▸ wp_use (fileclose_spec bal₂ f) fun _ s₃ ⟨bal₃,_⟩ => ?_
        exact wp_bind .. ▸ wp_use (fileclose_spec bal₃ g) fun _ _ done => done.1
      | some page =>
        refine wp_bind .. ▸ wp_tables fun _ t step => ?_
        cases step
        let x : File := { s₂.tables.file f with type := .FD_PIPE, readable := true, writable := false, pipe := page }
        have bal₃ := balanced_pipe bal₂ f x (by rw [types f]; exact (fresh f rfl).2) rfl
        have bal₄ := balanced_pipe bal₃ g { (s₂.tables.setFile f x).file g with
          type := .FD_PIPE, readable := false, writable := true, pipe := page } ?_ rfl
        · exact bal₄.retable (fun _ => rfl) bal₄.closed bal₄.idle
        · rcases eq_or_ne g f with rfl | other
          · simp [Tables.setFile,x]
          · simpa [Tables.setFile,other] using (fresh' g rfl).2

end

theorem balances_pipe (fd : Bool) (page : Option Nat) : Balances p (sys_pipe p fd page) := by
  intro s _ bal
  have bad {s : State} (bal : Balanced 0 s) (rf wf : FileId) :
      wp (kernel p) (sys_pipe_bad rf wf) (fun _ s' => Balanced 0 s') (fun _ => True) s := by
    refine wp_bind .. ▸ wp_use (fileclose_spec bal rf) fun _ s₁ ⟨bal₁,_⟩ => ?_
    exact wp_bind .. ▸ wp_use (fileclose_spec bal₁ wf) fun _ _ done => done.1
  unfold sys_pipe
  split
  · exact bal
  · refine wp_bind .. ▸ wp_use (pipealloc_balanced bal page) fun files s₁ bal₁ => ?_
    rcases files with _ | ⟨rf,wf⟩
    · exact bal₁
    · refine wp_bind .. ▸ wp_use (fdalloc_spec bal₁ rf) fun fd0 s₂ ⟨bal₂,_,_⟩ => ?_
      cases fd0 with
      | none => exact bad bal₂ rf wf
      | some fd0 =>
        refine wp_bind .. ▸ wp_use (fdalloc_spec bal₂ wf) fun fd1 s₃ ⟨bal₃,_,_⟩ => ?_
        cases fd1 with
        | none =>
          refine wp_bind .. ▸ wp_tables fun _ t step => ?_
          cases step
          exact bad (bal₃.setOfile p fd0 none) rf wf
        | some fd1 => exact bal₃

theorem FileCalls.books {s s' : State} (calls : FileCalls s s') (bal : Balanced 0 s) (books : Books 0 s.tables) :
    Balanced 0 s' ∧ Books 0 s'.tables := by
  induction calls with
  | refl => exact ⟨bal,books⟩
  | @step s t p c r before runnable fresh ran ih =>
    have balances : Balances p (c.prog p) := by
      cases c with
      | sys c => exact Refs.balances c
      | pipe fd page => exact balances_pipe fd page
    have after := wp_ok (balances _ runnable ih.1) ran
    have after' := wp_ok (keeps_call runnable fresh ih.1 ih.2) ran
    exact ⟨after,after'⟩

theorem boot_books : Books 0 bootTables where
  count f := by
    have none : descriptors bootTables f = 0 := by
      refine Finset.card_eq_zero.mpr (Finset.filter_eq_empty_iff.mpr fun x _ => ?_)
      unfold ofile bootTables
      dsimp only
      split <;> simp
    rw [none]
    rfl
  pos f := le_rfl
  free f _ := rfl
  gone p _ fd := by
    unfold bootTables
    dsimp only
    split <;> rfl
  readable f page writable here := by cases here
  piped := by
    refine ⟨fun f g e here => ?_,fun page w => ?_,fun page pi here => ?_⟩
    · cases here
    · simp [pipeEnd,bootTables]
    · cases here

theorem Books.pipeEnd_iff (books : Books held t) (f : FileId) (page : Nat) (writable : Bool) :
    pipeEnd (t.file f) = some (page,writable) ↔
      0 < (t.file f).ref ∧ (t.file f).type = .FD_PIPE ∧ (t.file f).pipe = page ∧ (t.file f).writable = writable := by
  unfold pipeEnd
  split
  · next pipe =>
    have used : 0 < (t.file f).ref := by
      have := books.pos f
      rcases Int.lt_or_eq_of_le this with used | zero
      · exact used
      · have := books.free f zero.symm
        rw [pipe] at this
        cases this
    simp [used,pipe]
  · next other => simp [other]

/-- After any complete system calls of any processes, with every answer of `kalloc`: the count of a `struct file` is the number
    of its descriptors; a process slot that is free, or waits to be freed, has no open files; a pipe page is allocated iff a file
    in use points to it, and each of its ends is open iff the file for it is in use, which is only one file; and no call ends
    with a panic of `file.c` or in a pipe that has been freed, so that no page is freed twice. -/
theorem file_refs_balance (disk : Disk) (devsw : Fin NDEV → Driver) {s : State} (calls : FileCalls (boot disk devsw) s) :
    (∀ f, (s.tables.file f).ref = descriptors s.tables f) ∧
    (∀ p, (s.tables.proc p).state = .UNUSED ∨ (s.tables.proc p).state = .ZOMBIE → ∀ fd, (s.tables.proc p).ofile fd = none) ∧
    (∀ page, (∃ pi, s.tables.pipe page = some pi) ↔
      ∃ f, 0 < (s.tables.file f).ref ∧ (s.tables.file f).type = .FD_PIPE ∧ (s.tables.file f).pipe = page) ∧
    (∀ page pi, s.tables.pipe page = some pi →
      (pi.readopen = true ↔ ∃ f, 0 < (s.tables.file f).ref ∧ (s.tables.file f).type = .FD_PIPE ∧
        (s.tables.file f).pipe = page ∧ (s.tables.file f).readable = true) ∧
      (pi.writeopen = true ↔ ∃ f, 0 < (s.tables.file f).ref ∧ (s.tables.file f).type = .FD_PIPE ∧
        (s.tables.file f).pipe = page ∧ (s.tables.file f).writable = true)) ∧
    (∀ f g, (s.tables.file f).type = .FD_PIPE → (s.tables.file g).type = .FD_PIPE →
      (s.tables.file f).pipe = (s.tables.file g).pipe → (s.tables.file f).writable = (s.tables.file g).writable → f = g) ∧
    (∀ p c why, (s.tables.proc p).state = .RUNNABLE → FileCall.Fresh s.tables c →
      exec (kernel p) (c.prog p) s = .error (.panic why) → why ∉ filePanics) := by
  obtain ⟨bal,books⟩ := calls.books (boot_balanced disk devsw) boot_books
  have ends (page : Nat) (pi : Pipe) (here : s.tables.pipe page = some pi) (w : Bool) :
      opened pi w = true ↔ ∃ f, pipeEnd (s.tables.file f) = some (page,w) := by
    rw [books.piped.opened,here]
    simp
  refine ⟨fun f => (books.count f).trans (add_zero _),books.gone,fun page => ⟨?_,?_⟩,fun page pi here => ⟨?_,?_⟩,
    fun f g pipe pipe' page side => ?_,?_⟩
  · rintro ⟨pi,here⟩
    rcases books.piped.used page pi here with reads | writes
    · obtain ⟨f,isEnd⟩ := (ends page pi here false).mp reads
      obtain ⟨used,pipe,same,_⟩ := (books.pipeEnd_iff f page false).mp isEnd
      exact ⟨f,used,pipe,same⟩
    · obtain ⟨f,isEnd⟩ := (ends page pi here true).mp writes
      obtain ⟨used,pipe,same,_⟩ := (books.pipeEnd_iff f page true).mp isEnd
      exact ⟨f,used,pipe,same⟩
  · rintro ⟨f,used,pipe,rfl⟩
    obtain ⟨pi,here,_⟩ := (books.piped.opened _ _).mp ⟨f,pipeEnd_pipe pipe⟩
    exact ⟨pi,here⟩
  · refine (ends page pi here false).trans (exists_congr fun f => ?_)
    have reads (w : Bool) (isEnd : pipeEnd (s.tables.file f) = some (page,w)) : (s.tables.file f).readable = !w :=
      books.readable f page w isEnd
    refine ⟨fun isEnd => ?_,fun ⟨used,pipe,same,readable⟩ => ?_⟩
    · obtain ⟨used,pipe,same,_⟩ := (books.pipeEnd_iff f page false).mp isEnd
      exact ⟨used,pipe,same,reads false isEnd⟩
    · have isEnd : pipeEnd (s.tables.file f) = some (page,(s.tables.file f).writable) := by rw [pipeEnd_pipe pipe,same]
      have opposite := reads _ isEnd
      rw [readable] at opposite
      rw [isEnd,Bool.not_eq_eq_eq_not.mp opposite.symm]
      rfl
  · refine (ends page pi here true).trans (exists_congr fun f => ?_)
    exact books.pipeEnd_iff f page true
  · exact books.piped.sole f g _ (pipeEnd_pipe pipe) (by rw [pipeEnd_pipe pipe',page,side])
  · intro p c why runnable fresh stopped
    exact wp_error (keeps_call runnable fresh bal books) stopped

/-- A process makes a pipe and forks; the child closes the end for reading. -/
theorem file_refs_balance_pipe : ∃ s : State, FileCalls (boot (fun _ _ => 0) fun _ => ⟨none,none⟩) s ∧
    (s.tables.file 0).ref = 1 ∧ (s.tables.file 1).ref = 2 ∧ ∀ f, (s.tables.file f).ref = descriptors s.tables f := by
  have calls := FileCalls.refl (boot (fun _ _ => 0) fun _ => ⟨none,none⟩)
  replace calls := calls.step (p := 0) (c := .pipe true (some 7)) (r := 0) rfl rfl rfl
  replace calls := calls.step (p := 0) (c := .sys (.fork true true)) (r := 1) rfl trivial rfl
  replace calls := calls.step (p := 1) (c := .sys (.close 0)) (r := 0) rfl trivial rfl
  exact ⟨_,calls,rfl,rfl,(file_refs_balance _ _ calls).1⟩

end Xv6.FileRefs
