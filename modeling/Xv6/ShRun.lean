import Xv6.ShLine
import Xv6.Param

/-!
`runcmd`: the processes of a command and their descriptors. The body of `runcmd` for a command is a sequence of system
calls, some of them forks; any process may take the next step.
-/
namespace Xv6.Sh
open Xv6.Lib Function

variable {α : Type}

/-! ### Processes -/

/-- A step from a command down to one of its parts. -/
inductive Part (α : Type) where
  | redir (file : α) (mode fd : Nat)
  | listLeft | listRight | pipeLeft | pipeRight | back

/-- The place of a command, from there up to the root. -/
abbrev Path (α : Type) := List (Part α)

/-- What a descriptor refers to. -/
inductive File (α : Type) where
  | inherited (fd : Nat)
  | opened (file : α) (mode : Nat) (redir : Path α)
  | readEnd (pipe : Path α)
  | writeEnd (pipe : Path α)

/-- A descriptor: a number, or one that `pipe(p)` has stored. -/
inductive Fd where
  | num (n : Nat)
  | p0 | p1

/-- What a process is still to do. -/
inductive Code (α : Type) where
  | runcmd (place : Path α) (cmd : Cmd α)
  | close (fd : Fd) (next : Code α)
  | open' (file : α) (mode : Nat) (next : Code α)
  | pipe (next : Code α)
  | dup (fd : Fd) (next : Code α)
  | fork (child next : Code α)
  | wait (next : Code α)
  | exec (argv : List α)
  | exit
  | exited

/-- What the left child of a `PIPE` node does. -/
def leftChild (p : Path α) (left : Cmd α) : Code α :=
  .close (.num 1) (.dup .p1 (.close .p0 (.close .p1 (.runcmd (.pipeLeft :: p) left))))

def rightChild (p : Path α) (right : Cmd α) : Code α :=
  .close (.num 0) (.dup .p0 (.close .p0 (.close .p1 (.runcmd (.pipeRight :: p) right))))

/-- What the parent does when it has forked. -/
def pipeParent : Code α := .close .p0 (.close .p1 (.wait (.wait .exit)))

/-- The cases of `runcmd`. -/
def runcmd (p : Path α) : Cmd α → Code α
  | .exec [] => .exit
  | .exec argv => .exec argv
  | .redir cmd file mode fd => .close (.num fd) (.open' file mode (.runcmd (.redir file mode fd :: p) cmd))
  | .list left right => .fork (.runcmd (.listLeft :: p) left) (.wait (.runcmd (.listRight :: p) right))
  | .pipe left right => .pipe (.fork (leftChild p left) (.fork (rightChild p right) pipeParent))
  | .back cmd => .fork (.runcmd (.back :: p) cmd) .exit

/-- A process: the command that it is running, its code, its descriptors, `p[0]` and `p[1]`, and its parent. -/
structure Proc (α : Type) where
  node : Path α
  code : Code α
  fds : Nat → Option (File α)
  p : Nat × Nat
  parent : Option Nat

def Proc.value (q : Proc α) : Fd → Nat
  | .num n => n
  | .p0 => q.p.1
  | .p1 => q.p.2

/-- The lowest free descriptor. -/
def fdalloc (fds : Nat → Option (File α)) : Option Nat := (List.range NOFILE).find? fun fd => (fds fd).isNone

/-- A step that a process takes alone. The program that `exec` starts, or the shell if it fails, ends some time. -/
def Proc.turn (q : Proc α) : Option (Proc α) :=
  match q.code with
  | .runcmd place cmd => some { q with node := place, code := Sh.runcmd place cmd }
  | .close fd next => some { q with code := next, fds := update q.fds (q.value fd) none }
  | .open' file mode next =>
    (fdalloc q.fds).map fun fd => { q with code := next, fds := update q.fds fd (some (.opened file mode q.node)) }
  | .pipe next =>
    (fdalloc q.fds).bind fun r => (fdalloc (update q.fds r (some (.readEnd q.node)))).map fun w =>
      { q with code := next, fds := update (update q.fds r (some (.readEnd q.node))) w (some (.writeEnd q.node)), p := (r,w) }
  | .dup fd next => (fdalloc q.fds).map fun k => { q with code := next, fds := update q.fds k (q.fds (q.value fd)) }
  | .exec _ => some { q with code := .exit }
  | .exit => some { q with code := .exited, fds := fun _ => none }
  | _ => none

/-- A step of the processes. -/
inductive Step (w : List (Proc α)) : List (Proc α) → Prop where
  | alone {i : Nat} {q q' : Proc α} (here : w[i]? = some q) (turn : q.turn = some q') : Step w (w.set i q')
  | fork {i : Nat} {q : Proc α} {child next : Code α} (here : w[i]? = some q) (code : q.code = .fork child next) :
      Step w (w.set i { q with code := next } ++ [{ q with code := child, parent := some i }])
  | wait {i j : Nat} {q r : Proc α} {next : Code α} (here : w[i]? = some q) (code : q.code = .wait next) (there : w[j]? = some r)
      (child : r.parent = some i) (dead : r.code = .exited) : Step w ((w.set i { q with code := next }).set j { r with parent := none })
  | childless {i : Nat} {q : Proc α} {next : Code α} (here : w[i]? = some q) (code : q.code = .wait next)
      (none : ∀ r ∈ w, r.parent ≠ some i) : Step w (w.set i { q with code := next })

/-- The process that runs a command, with the descriptors 0, 1 and 2. -/
def first (c : Cmd α) : Proc α := ⟨[],.runcmd [] c,fun fd => if fd < 3 then some (.inherited fd) else none,(0,0),none⟩

/-! ### Where descriptors come from -/

/-- The command at a place. -/
inductive Sub (c : Cmd α) : Path α → Cmd α → Prop where
  | root : Sub c [] c
  | redir {p cmd file mode fd} (above : Sub c p (.redir cmd file mode fd)) : Sub c (.redir file mode fd :: p) cmd
  | listLeft {p left right} (above : Sub c p (.list left right)) : Sub c (.listLeft :: p) left
  | listRight {p left right} (above : Sub c p (.list left right)) : Sub c (.listRight :: p) right
  | pipeLeft {p left right} (above : Sub c p (.pipe left right)) : Sub c (.pipeLeft :: p) left
  | pipeRight {p left right} (above : Sub c p (.pipe left right)) : Sub c (.pipeRight :: p) right
  | back {p cmd} (above : Sub c p (.back cmd)) : Sub c (.back :: p) cmd

/-- What a descriptor of the command at a place refers to: going up from there, the file of the first redirection of that
    descriptor or the end of the first pipe that sets it, whichever comes first; else what was inherited. -/
def source (fd : Nat) : Path α → File α
  | [] => .inherited fd
  | .redir file mode k :: p => if fd = k then .opened file mode p else source fd p
  | .pipeLeft :: p => if fd = 1 then .writeEnd p else source fd p
  | .pipeRight :: p => if fd = 0 then .readEnd p else source fd p
  | _ :: p => source fd p

/-- Redirections are of descriptors 0 and 1. -/
def Cmd.Standard : Cmd α → Prop
  | .exec _ => True
  | .redir cmd _ _ fd => fd < 2 ∧ cmd.Standard
  | .pipe left right => left.Standard ∧ right.Standard
  | .list left right => left.Standard ∧ right.Standard
  | .back cmd => cmd.Standard

/-- The descriptors with which the command at a place is run. -/
def descriptors (p : Path α) (fd : Nat) : Option (File α) := if fd < 3 then some (source fd p) else none

/-- With the two ends of the pipe of the place. -/
def withPipe (p : Path α) : Nat → Option (File α) :=
  update (update (descriptors p) 3 (some (.readEnd p))) 4 (some (.writeEnd p))

/-- The points of `runcmd` in the command at a place, and the descriptors there. -/
inductive Stage (p : Path α) : Cmd α → Proc α → Prop where
  | start {cmd node ps parent} : Stage p cmd ⟨node,.runcmd p cmd,descriptors p,ps,parent⟩
  | body {cmd ps parent} : Stage p cmd ⟨p,runcmd p cmd,descriptors p,ps,parent⟩
  | exit {cmd ps parent} : Stage p cmd ⟨p,.exit,descriptors p,ps,parent⟩
  | exited {cmd ps parent} : Stage p cmd ⟨p,.exited,fun _ => none,ps,parent⟩
  | opening {cmd file mode fd ps parent} : Stage p (.redir cmd file mode fd)
      ⟨p,.open' file mode (.runcmd (.redir file mode fd :: p) cmd),update (descriptors p) fd none,ps,parent⟩
  | waiting {left right ps parent} : Stage p (.list left right) ⟨p,.wait (.runcmd (.listRight :: p) right),descriptors p,ps,parent⟩
  | forking {left right parent} : Stage p (.pipe left right)
      ⟨p,.fork (leftChild p left) (.fork (rightChild p right) pipeParent),withPipe p,(3,4),parent⟩
  | forking' {left right parent} : Stage p (.pipe left right) ⟨p,.fork (rightChild p right) pipeParent,withPipe p,(3,4),parent⟩
  | closing {left right parent} : Stage p (.pipe left right) ⟨p,pipeParent,withPipe p,(3,4),parent⟩
  | closing' {left right parent} : Stage p (.pipe left right)
      ⟨p,.close .p1 (.wait (.wait .exit)),update (withPipe p) 3 none,(3,4),parent⟩
  | waits {left right ps parent} : Stage p (.pipe left right) ⟨p,.wait (.wait .exit),descriptors p,ps,parent⟩
  | waits' {left right ps parent} : Stage p (.pipe left right) ⟨p,.wait .exit,descriptors p,ps,parent⟩
  | left {left right parent} : Stage p (.pipe left right) ⟨p,leftChild p left,withPipe p,(3,4),parent⟩
  | left₁ {left right parent} : Stage p (.pipe left right)
      ⟨p,.dup .p1 (.close .p0 (.close .p1 (.runcmd (.pipeLeft :: p) left))),update (withPipe p) 1 none,(3,4),parent⟩
  | left₂ {left right parent} : Stage p (.pipe left right)
      ⟨p,.close .p0 (.close .p1 (.runcmd (.pipeLeft :: p) left)),update (withPipe p) 1 (some (.writeEnd p)),(3,4),parent⟩
  | left₃ {left right parent} : Stage p (.pipe left right)
      ⟨p,.close .p1 (.runcmd (.pipeLeft :: p) left),update (update (withPipe p) 1 (some (.writeEnd p))) 3 none,(3,4),parent⟩
  | right {left right parent} : Stage p (.pipe left right) ⟨p,rightChild p right,withPipe p,(3,4),parent⟩
  | right₁ {left right parent} : Stage p (.pipe left right)
      ⟨p,.dup .p0 (.close .p0 (.close .p1 (.runcmd (.pipeRight :: p) right))),update (withPipe p) 0 none,(3,4),parent⟩
  | right₂ {left right parent} : Stage p (.pipe left right)
      ⟨p,.close .p0 (.close .p1 (.runcmd (.pipeRight :: p) right)),update (withPipe p) 0 (some (.readEnd p)),(3,4),parent⟩
  | right₃ {left right parent} : Stage p (.pipe left right)
      ⟨p,.close .p1 (.runcmd (.pipeRight :: p) right),update (update (withPipe p) 0 (some (.readEnd p))) 3 none,(3,4),parent⟩

/-- A process is at some point of some command of the tree. -/
def Placed (c : Cmd α) (q : Proc α) : Prop := ∃ p cmd, Sub c p cmd ∧ Stage p cmd q

variable {c cmd : Cmd α} {p : Path α} {q q' : Proc α} {fds : Nat → Option (File α)} {k : Nat}

theorem fdalloc_eq (below : k < NOFILE) (used : ∀ j < k, fds j ≠ none) (free : fds k = none) : fdalloc fds = some k := by
  rw [fdalloc,List.find?_eq_some_iff_append]
  refine ⟨by simp [free],List.range k,(List.range' (k + 1) (NOFILE - k - 1)),?_,fun j member => ?_⟩
  · rw [List.range_eq_range',List.range_eq_range',show NOFILE = k + ((NOFILE - k - 1) + 1) by omega,← List.range'_append_1,
      List.range'_succ]
    simp
  · have inside := used j (List.mem_range.mp member)
    simpa [Option.isSome_iff_ne_none] using inside

theorem Sub.standard (sub : Sub c p cmd) (standard : c.Standard) : cmd.Standard := by
  induction sub with
  | root => exact standard
  | redir _ ih => exact ih.2
  | listLeft _ ih => exact ih.1
  | listRight _ ih => exact ih.2
  | pipeLeft _ ih => exact ih.1
  | pipeRight _ ih => exact ih.2
  | back _ ih => exact ih

/-! ### Steps -/

theorem descriptors_redir {file : α} {mode fd : Nat} (low : fd < 3) :
    update (update (descriptors p) fd none) fd (some (.opened file mode p)) = descriptors (.redir file mode fd :: p) := by
  funext i
  by_cases same : i = fd
  · subst same
    rw [update_self,descriptors,if_pos low,source,if_pos rfl]
  · rw [update_of_ne same,update_of_ne same,descriptors,descriptors,source,if_neg same]

theorem descriptors_closed : update (update (withPipe p) 3 none) 4 none = descriptors p := by
  funext i
  match i with
  | 0 | 1 | 2 | 3 | 4 => rfl
  | n + 5 => simp [update,withPipe,descriptors,show ¬n + 5 < 3 by omega]

theorem descriptors_left :
    update (update (update (withPipe p) 1 (some (.writeEnd p))) 3 none) 4 none = descriptors (.pipeLeft :: p) := by
  funext i
  match i with
  | 0 | 1 | 2 | 3 | 4 => rfl
  | n + 5 => simp [update,withPipe,descriptors,show ¬n + 5 < 3 by omega]

theorem descriptors_right :
    update (update (update (withPipe p) 0 (some (.readEnd p))) 3 none) 4 none = descriptors (.pipeRight :: p) := by
  funext i
  match i with
  | 0 | 1 | 2 | 3 | 4 => rfl
  | n + 5 => simp [update,withPipe,descriptors,show ¬n + 5 < 3 by omega]

variable {fd : Nat}

theorem descriptors_some (low : fd < 3) : descriptors p fd ≠ none := by
  rw [descriptors,if_pos low]
  exact nofun

/-- A step that a process takes alone leads to the next point. -/
theorem Placed.turn (standard : c.Standard) (placed : Placed c q) (turn : q.turn = some q') : Placed c q' := by
  obtain ⟨p,cmd,sub,stage⟩ := placed
  cases stage with
  | start =>
    cases turn
    exact ⟨p,cmd,sub,.body⟩
  | @body _ ps parent =>
    match cmd with
    | .exec [] =>
      cases turn
      exact ⟨p,_,sub,.exited⟩
    | .exec (a :: argv) =>
      cases turn
      exact ⟨p,_,sub,.exit⟩
    | .redir cmd file mode fd =>
      cases turn
      exact ⟨p,_,sub,.opening⟩
    | .list left right => cases turn
    | .back cmd => cases turn
    | .pipe left right =>
      have reads : fdalloc (descriptors p) = some 3 := fdalloc_eq (by decide) (fun j low => descriptors_some low) rfl
      have writes : fdalloc (update (descriptors p) 3 (some (.readEnd p))) = some 4 :=
        fdalloc_eq (by decide) (fun j low => by
          by_cases third : j = 3
          · subst third
            rw [update_self]
            exact nofun
          · rw [update_of_ne third]
            exact descriptors_some (by omega)) rfl
      simp only [Proc.turn,Sh.runcmd,reads,writes,Option.bind_some,Option.map_some,Option.some.injEq] at turn
      subst turn
      exact ⟨p,_,sub,.forking⟩
  | exit =>
    cases turn
    exact ⟨p,cmd,sub,.exited⟩
  | exited => cases turn
  | @opening cmd file mode fd ps parent =>
    have low := (sub.standard standard).1
    have lowest : fdalloc (update (descriptors p) fd none) = some fd :=
      fdalloc_eq (by simp only [NOFILE]; omega) (fun j below => by
        rw [update_of_ne (by omega)]
        exact descriptors_some (by omega)) (update_self ..)
    simp only [Proc.turn,lowest,Option.map_some,Option.some.injEq,descriptors_redir (show fd < 3 by omega)] at turn
    subst turn
    exact ⟨_,_,.redir sub,.start⟩
  | waiting => cases turn
  | forking => cases turn
  | forking' => cases turn
  | closing =>
    cases turn
    exact ⟨p,_,sub,.closing'⟩
  | closing' =>
    simp only [Proc.turn,Proc.value,Option.some.injEq,descriptors_closed] at turn
    subst turn
    exact ⟨p,_,sub,.waits⟩
  | waits => cases turn
  | waits' => cases turn
  | left =>
    cases turn
    exact ⟨p,_,sub,.left₁⟩
  | left₁ =>
    have lowest : fdalloc (update (withPipe p) 1 none) = some 1 :=
      fdalloc_eq (by decide) (fun j below => by
        obtain rfl : j = 0 := by omega
        exact nofun) rfl
    simp only [Proc.turn,lowest,Option.map_some,Option.some.injEq,update_idem] at turn
    subst turn
    exact ⟨p,_,sub,.left₂⟩
  | left₂ =>
    cases turn
    exact ⟨p,_,sub,.left₃⟩
  | left₃ =>
    simp only [Proc.turn,Proc.value,Option.some.injEq,descriptors_left] at turn
    subst turn
    exact ⟨_,_,.pipeLeft sub,.start⟩
  | right =>
    cases turn
    exact ⟨p,_,sub,.right₁⟩
  | right₁ =>
    have lowest : fdalloc (update (withPipe p) 0 none) = some 0 := fdalloc_eq (by decide) (fun j below => by omega) rfl
    simp only [Proc.turn,lowest,Option.map_some,Option.some.injEq,update_idem] at turn
    subst turn
    exact ⟨p,_,sub,.right₂⟩
  | right₂ =>
    cases turn
    exact ⟨p,_,sub,.right₃⟩
  | right₃ =>
    simp only [Proc.turn,Proc.value,Option.some.injEq,descriptors_right] at turn
    subst turn
    exact ⟨_,_,.pipeRight sub,.start⟩

theorem Placed.fork {child next : Code α} (placed : Placed c q) (code : q.code = .fork child next) (parent : Option Nat) :
    Placed c { q with code := next } ∧ Placed c { q with code := child, parent := parent } := by
  obtain ⟨p,cmd,sub,stage⟩ := placed
  cases stage with
  | @body _ ps parent =>
    match cmd with
    | .exec [] => cases code
    | .exec (a :: argv) => cases code
    | .redir cmd file mode fd => cases code
    | .list left right =>
      cases code
      exact ⟨⟨p,_,sub,.waiting⟩,⟨_,_,.listLeft sub,.start⟩⟩
    | .back cmd =>
      cases code
      exact ⟨⟨p,_,sub,.exit⟩,⟨_,_,.back sub,.start⟩⟩
    | .pipe left right => cases code
  | forking =>
    cases code
    exact ⟨⟨p,_,sub,.forking'⟩,⟨p,_,sub,.left⟩⟩
  | forking' =>
    cases code
    exact ⟨⟨p,_,sub,.closing⟩,⟨p,_,sub,.right⟩⟩
  | _ => cases code

theorem Placed.wait {next : Code α} (placed : Placed c q) (code : q.code = .wait next) : Placed c { q with code := next } := by
  obtain ⟨p,cmd,sub,stage⟩ := placed
  cases stage with
  | @body _ ps parent =>
    match cmd with
    | .exec [] => cases code
    | .exec (a :: argv) => cases code
    | .redir cmd file mode fd => cases code
    | .list left right => cases code
    | .back cmd => cases code
    | .pipe left right => cases code
  | waiting =>
    cases code
    exact ⟨_,_,.listRight sub,.start⟩
  | waits =>
    cases code
    exact ⟨p,_,sub,.waits'⟩
  | waits' =>
    cases code
    exact ⟨p,_,sub,.exit⟩
  | _ => cases code

theorem Placed.orphan (placed : Placed c q) (parent : Option Nat) : Placed c { q with parent := parent } := by
  obtain ⟨p,cmd,sub,stage⟩ := placed
  refine ⟨p,cmd,sub,?_⟩
  cases stage <;> constructor

theorem placed_step {w w' : List (Proc α)} (standard : c.Standard) (placed : ∀ q ∈ w, Placed c q) (step : Step w w') :
    ∀ q ∈ w', Placed c q := by
  have known {i : Nat} {q : Proc α} (here : w[i]? = some q) : Placed c q := placed q (List.mem_of_getElem? here)
  cases step with
  | alone here turn =>
    intro q member
    rcases List.mem_or_eq_of_mem_set member with old | rfl
    · exact placed q old
    · exact (known here).turn standard turn
  | @fork i q child next here code =>
    intro r member
    obtain ⟨parent,forked⟩ := (known here).fork code (some i)
    rcases List.mem_append.mp member with inner | inner
    · rcases List.mem_or_eq_of_mem_set inner with old | rfl
      · exact placed r old
      · exact parent
    · rw [List.mem_singleton.mp inner]
      exact forked
  | wait here code there child dead =>
    intro q member
    rcases List.mem_or_eq_of_mem_set member with inner | rfl
    · rcases List.mem_or_eq_of_mem_set inner with old | rfl
      · exact placed q old
      · exact (known here).wait code
    · exact (known there).orphan none
  | childless here code none =>
    intro q member
    rcases List.mem_or_eq_of_mem_set member with old | rfl
    · exact placed q old
    · exact (known here).wait code

theorem placed_run {w : List (Proc α)} (standard : c.Standard) (run : Relation.ReflTransGen Step [first c] w) : ∀ q ∈ w, Placed c q := by
  induction run with
  | refl =>
    intro q member
    rw [List.mem_singleton.mp member]
    exact ⟨[],c,.root,.start⟩
  | tail _ step ih => exact placed_step standard ih step

/-! ### The wiring -/

/-- The part of the tree that an end of a pipe is for. -/
def File.subtree : File α → Option (Path α)
  | .writeEnd p => some (.pipeLeft :: p)
  | .readEnd p => some (.pipeRight :: p)
  | _ => none

theorem subtree_source {t : Path α} (here : (source fd p).subtree = some t) : t <:+ p := by
  induction p with
  | nil => cases here
  | cons part p ih =>
    cases part with
    | redir file mode k =>
      rw [source] at here
      split at here
      · cases here
      · exact (ih here).trans (List.suffix_cons ..)
    | pipeLeft | pipeRight =>
      rw [source] at here
      split at here
      · cases here
        exact List.suffix_refl _
      · exact (ih here).trans (List.suffix_cons ..)
    | _ => exact (ih here).trans (List.suffix_cons ..)

/-- There are calls of `close(p[0])` or `close(p[1])` to come in this run of `runcmd`. -/
def Code.closes : Code α → Bool
  | .close (.num _) next => next.closes
  | .close _ _ => true
  | .open' _ _ next => next.closes
  | .pipe next => next.closes
  | .dup _ next => next.closes
  | .fork _ next => next.closes
  | .wait next => next.closes
  | _ => false

/-- The place of the command that a process runs or is about to run. -/
def Proc.place (q : Proc α) : Path α :=
  match q.code with
  | .runcmd place _ => place
  | _ => q.node

/-- The ends of pipes among descriptors are for parts of the tree that the place is in, or for its own two parts. -/
def Holds (p : Path α) (fds : Nat → Option (File α)) : Prop :=
  ∀ fd f t, fds fd = some f → f.subtree = some t → t <:+ p ∨ ∃ part, t = part :: p

theorem subtree_descriptors {f : File α} {t : Path α} (here : descriptors p fd = some f) (under : f.subtree = some t) : t <:+ p := by
  unfold descriptors at here
  split at here
  · cases here
    exact subtree_source under
  · cases here

theorem Holds.update {v : Option (File α)} (holds : Holds p fds) (k : Nat)
    (own : ∀ f t, v = some f → f.subtree = some t → ∃ part, t = part :: p) : Holds p (update fds k v) := by
  intro fd f t here under
  by_cases same : fd = k
  · subst same
    rw [update_self] at here
    exact .inr (own f t here under)
  · rw [update_of_ne same] at here
    exact holds fd f t here under

theorem own_end {f : File α} (which : f = .readEnd p ∨ f = .writeEnd p) :
    ∀ g t, some f = some g → g.subtree = some t → ∃ part, t = part :: p := by
  intro g t same under
  cases same
  rcases which with rfl | rfl <;> cases under <;> exact ⟨_,rfl⟩

theorem holds_withPipe : Holds p (withPipe p) :=
  Holds.update (Holds.update (fun _ _ _ here under => .inl (subtree_descriptors here under)) 3 (own_end (.inl rfl))) 4 (own_end (.inr rfl))

/-- A process that holds an end of a pipe is in the part of the tree that it is for, or has not yet closed it. -/
theorem Placed.holds (placed : Placed c q) {f : File α} {t : Path α} (here : q.fds fd = some f)
    (under : f.subtree = some t) : t <:+ q.place ∨ (q.code.closes = true ∧ ∃ part, t = part :: q.node) := by
  obtain ⟨p,cmd,sub,stage⟩ := placed
  have busy {code : Code α} {fds : Nat → Option (File α)} (holds : Holds p fds) (here : fds fd = some f) (yes : code.closes = true)
      (inside : (⟨p,code,fds,(3,4),none⟩ : Proc α).place = p) : t <:+ p ∨ (code.closes = true ∧ ∃ part, t = part :: p) :=
    (holds fd f t here under).imp id fun own => ⟨yes,own⟩
  have closed (k : Nat) (fds : Nat → Option (File α)) (holds : Holds p fds) : Holds p (update fds k none) := holds.update k nofun
  cases stage with
  | start | exit | waiting | waits | waits' => exact .inl (subtree_descriptors here under)
  | body =>
    refine .inl ?_
    match cmd with
    | .exec [] | .exec (_ :: _) | .redir _ _ _ _ | .list _ _ | .pipe _ _ | .back _ => exact subtree_descriptors here under
  | exited => cases here
  | @opening _ _ _ k _ _ =>
    refine .inl ?_
    change update (descriptors p) k none fd = some f at here
    by_cases same : fd = k
    · rw [same,update_self] at here
      cases here
    · rw [update_of_ne same] at here
      exact subtree_descriptors here under
  | forking | forking' | closing | left | right => exact busy holds_withPipe here rfl rfl
  | closing' => exact busy (closed 3 _ holds_withPipe) here rfl rfl
  | left₁ => exact busy (closed 1 _ holds_withPipe) here rfl rfl
  | left₂ => exact busy (holds_withPipe.update 1 (own_end (.inr rfl))) here rfl rfl
  | left₃ => exact busy (closed 3 _ (holds_withPipe.update 1 (own_end (.inr rfl)))) here rfl rfl
  | right₁ => exact busy (closed 0 _ holds_withPipe) here rfl rfl
  | right₂ => exact busy (holds_withPipe.update 0 (own_end (.inl rfl))) here rfl rfl
  | right₃ => exact busy (closed 3 _ (holds_withPipe.update 0 (own_end (.inl rfl)))) here rfl rfl

variable {rs : List (Redirection α)}

theorem standard_nest (standard : c.Standard) (low : ∀ r ∈ rs, r.fd < 2) : (nest c rs).Standard := by
  induction rs using List.reverseRecOn with
  | nil => exact standard
  | append_singleton rs r ih =>
    rw [nest_append]
    exact ⟨low r (by simp),ih fun r member => low r (by simp [member])⟩

variable {ts : List (Token α)}

theorem Redirs.low (redirs : Redirs ts rs) : ∀ r ∈ rs, r.fd < 2 := by
  induction redirs with
  | nil => simp
  | cons redir rest ih =>
    intro r member
    rcases List.mem_cons.mp member with rfl | later
    · cases redir <;> simp
    · exact ih r later

theorem Args.low {ws : List α} (args : Args ts ws rs) : ∀ r ∈ rs, r.fd < 2 := by
  induction args with
  | nil => simp
  | cons redirs rest ih =>
    intro r member
    exact (List.mem_append.mp member).elim (redirs.low r) (ih r)

theorem Derives.standard {k : Nonterm} (derives : Derives k ts c) : c.Standard := by
  have backs {c : Cmd α} (k : Nat) (standard : c.Standard) : (Cmd.back^[k] c).Standard := by
    induction k with
    | zero => exact standard
    | succ k ih =>
      rw [iterate_succ_apply']
      exact ih
  induction derives with
  | line k pipe ih => exact backs k ih
  | list k pipe rest ih ih' => exact ⟨backs k ih,ih'⟩
  | one item ih => exact ih
  | pipe item rest ih ih' => exact ⟨ih,ih'⟩
  | block inner redirs ih => exact standard_nest ih redirs.low
  | exec redirs args few =>
    exact standard_nest trivial fun r member => (List.mem_append.mp member).elim (redirs.low r) (args.low r)

/-- A process that comes to `exec` has the descriptors 0, 1 and 2, and they are the files of the nearest redirection or pipe that sets
    them, or those inherited. Once the close calls at a `PIPE` node are done, its write end is only held in the left part of the tree
    and its read end only in the right part. -/
theorem runcmd_wired {line buf : List UInt8} {n : Nat} {c : Cmd Span} (nul : (0 : UInt8) ∉ line) (parsed : parsecmd line n = .ok (c,buf))
    {w : List (Proc Span)} (run : Relation.ReflTransGen Step [first c] w) :
    (∀ q ∈ w, ∀ argv, q.code = .exec argv → Sub c q.node (.exec argv) ∧
      ∀ fd, q.fds fd = if fd < 3 then some (source fd q.node) else none) ∧
    ∀ r, (∀ q ∈ w, q.node = r → q.code.closes = false) → ∀ q ∈ w, ∀ fd,
      (q.fds fd = some (.writeEnd r) → (.pipeLeft :: r) <:+ q.place) ∧ (q.fds fd = some (.readEnd r) → (.pipeRight :: r) <:+ q.place) := by
  obtain ⟨ts,_,derives,_⟩ := parsecmd_ok nul parsed
  have placed := placed_run derives.standard run
  refine ⟨fun q member argv code => ?_,fun r done q member fd => ?_⟩
  · obtain ⟨p,cmd,sub,stage⟩ := placed q member
    cases stage with
    | @body _ ps parent =>
      match cmd with
      | .exec [] => cases code
      | .exec (a :: rest) =>
        cases code
        exact ⟨sub,fun fd => rfl⟩
      | .redir _ _ _ _ => cases code
      | .list _ _ => cases code
      | .pipe _ _ => cases code
      | .back _ => cases code
    | _ => cases code
  · have held {f : File Span} {part : Part Span} (here : q.fds fd = some f) (under : f.subtree = some (part :: r)) : (part :: r) <:+ q.place := by
      rcases (placed q member).holds here under with inside | ⟨busy,part',same⟩
      · exact inside
      · rw [done q member (List.cons.inj same).2.symm] at busy
        cases busy
    exact ⟨fun here => held here rfl,fun here => held here rfl⟩

/-- The line `a|b`, until the left command comes to `exec`: its output is the pipe. -/
theorem runcmd_wired_pipe : ∃ (buf : List UInt8) (w : List (Proc Span)), parsecmd [97,124,98] 24 = .ok (.pipe (.exec [(0,1)]) (.exec [(2,3)]),buf) ∧
    ∃ q ∈ w, q.code = .exec [(0,1)] ∧ q.fds 1 = some (.writeEnd []) := by
  have accepted : (parsecmd [97,124,98] 24).toOption.map Prod.fst = some (.pipe (.exec [(0,1)]) (.exec [(2,3)])) := by decide +kernel
  cases parsed : parsecmd [97,124,98] 24 with
  | error stop =>
    rw [parsed] at accepted
    cases accepted
  | ok done =>
    obtain ⟨c,buf⟩ := done
    rw [parsed] at accepted
    obtain rfl : c = .pipe (.exec [(0,1)]) (.exec [(2,3)]) := Option.some.inj accepted
    have run : ∃ w q, Relation.ReflTransGen Step [first (.pipe (.exec [(0,1)]) (.exec [(2,3)]) : Cmd Span)] w ∧ w[1]? = some q ∧
        q.code = .exec [(0,1)] ∧ q.node = [.pipeLeft] :=
      ⟨_,_,.head (.alone (i := 0) rfl rfl) <| .head (.alone (i := 0) rfl rfl) <| .head (.fork (i := 0) rfl rfl) <|
        .head (.alone (i := 1) rfl rfl) <| .head (.alone (i := 1) rfl rfl) <| .head (.alone (i := 1) rfl rfl) <|
        .head (.alone (i := 1) rfl rfl) <| .head (.alone (i := 1) rfl rfl) .refl,rfl,rfl,rfl⟩
    obtain ⟨w,q,run,here,code,node⟩ := run
    have member := List.mem_of_getElem? here
    have wired := ((runcmd_wired (by decide) parsed run).1 q member _ code).2 1
    rw [node] at wired
    exact ⟨buf,w,rfl,q,member,code,wired⟩

end Xv6.Sh
