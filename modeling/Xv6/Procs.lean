import Xv6.Param
import Mathlib.Data.List.FinRange
import Mathlib.Data.Fintype.Basic

/-!
The process table of `proc.c`. The functions below are what `allocproc`, `fork`, `exit`,
`wait`, `sleep`, `wakeup`, `kill` and `scheduler` do to the table between the `acquire` and
the `release` (or the switch to the scheduler) of `ptable.lock`. A `Machine` has any number
of CPUs that run processes, each of them somewhere in this code, and a `Step` is one such
section, one write of `fork` that is made without the lock, or a step of a process outside
of all this. The lock passes from a process that gives up its CPU to the scheduler, and
from there to the process that runs next.
-/
namespace Xv6.Procs
open Function

/-- The processes are known by their slots. -/
abbrev Slot := Fin NPROC

/-- `enum procstate` -/
inductive ProcState where
  | UNUSED
  | EMBRYO
  | SLEEPING
  | RUNNABLE
  | RUNNING
  | ZOMBIE
  deriving DecidableEq

/-- What a process sleeps on: a process, in `wait`, or something else in the kernel. -/
inductive Chan (γ : Type) where
  | proc (p : Slot)
  | other (c : γ)
  deriving DecidableEq

/-- `struct proc`, as far as the process table goes -/
structure Proc (γ : Type) where
  state : ProcState
  pid : Int
  parent : Option Slot
  chan : Option (Chan γ)
  killed : Bool
  priority : Int

/-- `ptable.proc` -/
abbrev Table (γ : Type) := Slot → Proc γ

/-- The first process that `userinit` makes. -/
def initproc : Slot := 0

variable {γ : Type} [DecidableEq γ]

/-- The first slot with the property. -/
def first (t : Table γ) (test : Proc γ → Bool) : Option Slot := (List.finRange NPROC).find? fun p => test (t p)

/-- The section of `allocproc`: the slot, the table and `nextpid`. -/
def allocproc (t : Table γ) (nextpid : Int) : Option (Slot × Table γ × Int) :=
  (first t fun p => p.state = .UNUSED).map fun p =>
    (p,update t p { t p with state := .EMBRYO, pid := nextpid, priority := 10 },(nextpid + 1).bmod (2 ^ 32))

/-- Go to sleep. -/
def sleep (chan : Chan γ) (p : Slot) (t : Table γ) : Table γ :=
  update t p { t p with chan := some chan, state := .SLEEPING }

/-- Wake up all processes sleeping on chan. -/
def wakeup1 (chan : Option (Chan γ)) (t : Table γ) : Table γ := fun p =>
  if (t p).state = .SLEEPING ∧ (t p).chan = chan then { t p with state := .RUNNABLE } else t p

/-- One turn of the loop of `exit` that passes abandoned children to init. -/
def abandon (curproc : Slot) (t : Table γ) (p : Slot) : Table γ :=
  if (t p).parent = some curproc then
    let t := update t p { t p with parent := some initproc }
    if (t p).state = .ZOMBIE then wakeup1 (some (.proc initproc)) t else t
  else t

/-- The section of `exit`, until it jumps into the scheduler. -/
def exit (curproc : Slot) (t : Table γ) : Table γ :=
  let t := wakeup1 ((t curproc).parent.map .proc) t
  let t := (List.finRange NPROC).foldl (abandon curproc) t
  update t curproc { t curproc with state := .ZOMBIE }

/-- How a turn of the loop of `wait` ends. -/
inductive Waited where
  | reaped (p : Slot) (pid : Int)
  | failed
  | sleeps

/-- A turn of the loop of `wait`. -/
def wait (curproc : Slot) (t : Table γ) : Waited × Table γ :=
  match first t fun p => p.parent = some curproc ∧ p.state = .ZOMBIE with
  | some p =>
    (.reaped p (t p).pid,update t p { t p with pid := 0, parent := none, killed := false, state := .UNUSED })
  | none =>
    if ¬(∃ p, (t p).parent = some curproc) ∨ (t curproc).killed = true then (.failed,t)
    else (.sleeps,sleep (.proc curproc) curproc t)

/-- The section of `kill`. -/
def kill (pid : Int) (t : Table γ) : Option (Slot × Table γ) :=
  (first t fun p => p.pid = pid).map fun p =>
    (p,update t p { t p with killed := true, state := if (t p).state = .SLEEPING then .RUNNABLE else (t p).state })

/-- The inner loop of `scheduler`: the one with highest priority; larger value, lower priority. -/
def highest (t : Table γ) (p : Slot) : Slot :=
  (List.finRange NPROC).foldl (fun highP p1 =>
    if (t p1).state ≠ .RUNNABLE then highP else if (t highP).priority > (t p1).priority then p1 else highP) p

/-- The process that `scheduler` runs next, when its loop has come to slot `i`. -/
def choose (t : Table γ) (i : Nat) : Option Slot :=
  (((List.finRange NPROC).drop i).find? fun p => (t p).state = .RUNNABLE).map (highest t)

/-! ### The machine -/

/-- Where a process is, without `ptable.lock`. -/
inductive Code where
  /-- in `forkret`, or on the way from there to user space -/
  | fresh
  | user
  /-- in a system call; `trap` has found that the process is not killed -/
  | kernel
  /-- in `fork`, with a new process that has no parent yet -/
  | embryo (np : Slot)
  /-- in `fork`, with a new process that has its parent -/
  | child (np : Slot)
  /-- in `exit`, before the section -/
  | exiting
  /-- in `wait`, before the section -/
  | wait
  /-- `exit` has panicked: "init exiting". -/
  | panicked
  deriving DecidableEq

/-- Where a process goes on when it is given a CPU, or is. -/
inductive Ctl where
  | runs (k : Code)
  /-- in `yield` -/
  | yields (k : Code)
  /-- in `sleep`, called with another lock -/
  | sleeps (k : Code)
  /-- in the `sleep` of `wait` -/
  | waits
  /-- at the start of `forkret` -/
  | forkret
  /-- `exit` has called `sched`. -/
  | exited
  deriving DecidableEq

/-- `struct cpu`, and the loop variable of its `scheduler` -/
structure Cpu where
  proc : Option Slot
  next : Nat

/-- The processes and the CPUs. Every allocation of a process has its number: `allocs` is the number of allocations so
    far, and `life` the number of the one that gave a slot its present process. `hit` is the processes that `kill`
    has been called for. -/
structure Machine (κ γ : Type) where
  proc : Table γ
  nextpid : Int
  lock : Option κ
  cpu : κ → Cpu
  ctl : Slot → Ctl
  allocs : Nat
  life : Slot → Nat
  hit : Slot → Bool

/-- What is seen of a step: a process is allocated, reaped, or `wait` returns -1. -/
inductive Label where
  | tau
  | allocated (np : Slot) (life : Nat) (pid : Int)
  | reaped (p q : Slot) (life : Nat) (pid : Int)
  | failed (p : Slot)

/-- `exit` begins with a look at `initproc`. -/
def callExit (p : Slot) : Code := if p = initproc then .panicked else .exiting

/-- A process goes on, outside of the sections. -/
inductive Moves (p : Slot) (killed : Bool) : Code → Code → Prop where
  | forkret : Moves p killed .fresh .user
  | syscall (alive : killed = false) : Moves p killed .user .kernel
  | killed (dead : killed = true) : Moves p killed .user (callExit p)
  | back : Moves p killed .kernel .user
  | wait : Moves p killed .kernel .wait
  | exit : Moves p killed .kernel (callExit p)

/-- Where `sleep` is called. -/
def Code.MaySleep : Code → Prop
  | .fresh => True
  | .kernel => True
  | .exiting => True
  | _ => False

variable {κ : Type} [DecidableEq κ]

namespace Machine

/-- A process goes on elsewhere. -/
def goto (s : Machine κ γ) (p : Slot) (k : Ctl) : Machine κ γ := { s with ctl := update s.ctl p k }

/-- Process `p` has switched to the scheduler of its CPU, which goes on with the next slot. -/
def sched (s : Machine κ γ) (c : κ) (p : Slot) (k : Ctl) : Machine κ γ :=
  { s with lock := some c, cpu := update s.cpu c ⟨none,p + 1⟩, ctl := update s.ctl p k }

/-- The end of `sleep`: tidy up. -/
def tidy (s : Machine κ γ) (p : Slot) : Machine κ γ := { s with proc := update s.proc p { s.proc p with chan := none } }

/-- The CPU `c` runs the loop of `wait` for process `p`. -/
def wait (s : Machine κ γ) (c : κ) (p : Slot) : Label × Machine κ γ :=
  match Procs.wait p s.proc with
  | (.reaped q pid,t) => (.reaped p q (s.life q) pid,{ s.goto p (.runs .kernel) with proc := t, lock := none })
  | (.failed,t) => (.failed p,{ s.goto p (.runs .kernel) with proc := t, lock := none })
  | (.sleeps,t) => (.tau,{ s with proc := t }.sched c p .waits)

end Machine

/-- A section of `ptable.lock`, or a step without the lock. -/
inductive Step : Label → Machine κ γ → Machine κ γ → Prop where
  | code {s c p k k'} (runs : (s.cpu c).proc = some p) (here : s.ctl p = .runs k) (moves : Moves p (s.proc p).killed k k') :
    Step .tau s (s.goto p (.runs k'))
  /-- `trap` kills a process that misbehaves. -/
  | fault {s c p} (runs : (s.cpu c).proc = some p) (here : s.ctl p = .runs .user) :
    Step .tau s { s.goto p (.runs (callExit p)) with proc := update s.proc p { s.proc p with killed := true } }
  | allocproc {s c p np t n} (runs : (s.cpu c).proc = some p) (here : s.ctl p = .runs .kernel) (free : s.lock = none)
    (found : allocproc s.proc s.nextpid = some (np,t,n)) :
    Step (.allocated np s.allocs s.nextpid) s { s with
      proc := t, nextpid := n, ctl := update (update s.ctl np .forkret) p (.runs (.embryo np)), allocs := s.allocs + 1,
      life := update s.life np s.allocs, hit := update s.hit np false }
  | full {s c p} (runs : (s.cpu c).proc = some p) (here : s.ctl p = .runs .kernel) (free : s.lock = none)
    (found : allocproc s.proc s.nextpid = none) : Step .tau s s
  /-- `kalloc` or `copyuvm` has failed. -/
  | unalloc {s c p np} (runs : (s.cpu c).proc = some p) (here : s.ctl p = .runs (.embryo np)) :
    Step .tau s { s.goto p (.runs .kernel) with proc := update s.proc np { s.proc np with state := .UNUSED } }
  | parent {s c p np} (runs : (s.cpu c).proc = some p) (here : s.ctl p = .runs (.embryo np)) :
    Step .tau s { s.goto p (.runs (.child np)) with proc := update s.proc np { s.proc np with parent := some p } }
  | fork {s c p np} (runs : (s.cpu c).proc = some p) (here : s.ctl p = .runs (.child np)) (free : s.lock = none) :
    Step .tau s { s.goto p (.runs .kernel) with proc := update s.proc np { s.proc np with state := .RUNNABLE } }
  | exit {s c p} (runs : (s.cpu c).proc = some p) (here : s.ctl p = .runs .exiting) (free : s.lock = none) :
    Step .tau s ({ s with proc := exit p s.proc }.sched c p .exited)
  | wait {s c p} (runs : (s.cpu c).proc = some p) (here : s.ctl p = .runs .wait) (free : s.lock = none) :
    Step (s.wait c p).1 s (s.wait c p).2
  | rewait {s c p} (runs : (s.cpu c).proc = some p) (here : s.ctl p = .waits) (held : s.lock = some c) :
    Step ((s.tidy p).wait c p).1 s ((s.tidy p).wait c p).2
  | yield {s c p k} (runs : (s.cpu c).proc = some p) (here : s.ctl p = .runs k) (enabled : k ≠ .panicked)
    (free : s.lock = none) :
    Step .tau s ({ s with proc := update s.proc p { s.proc p with state := .RUNNABLE } }.sched c p (.yields k))
  | unyield {s c p k} (runs : (s.cpu c).proc = some p) (here : s.ctl p = .yields k) (held : s.lock = some c) :
    Step .tau s { s.goto p (.runs k) with lock := none }
  | sleep {s c p k} (chan : γ) (runs : (s.cpu c).proc = some p) (here : s.ctl p = .runs k) (may : k.MaySleep)
    (free : s.lock = none) : Step .tau s ({ s with proc := sleep (.other chan) p s.proc }.sched c p (.sleeps k))
  | unsleep {s c p k} (runs : (s.cpu c).proc = some p) (here : s.ctl p = .sleeps k) (held : s.lock = some c) :
    Step .tau s { (s.tidy p).goto p (.runs k) with lock := none }
  | forkret {s c p} (runs : (s.cpu c).proc = some p) (here : s.ctl p = .forkret) (held : s.lock = some c) :
    Step .tau s { s.goto p (.runs .fresh) with lock := none }
  /-- `wakeup`, of a process or of an interrupt -/
  | wakeup {s} (chan : γ) (free : s.lock = none) : Step .tau s { s with proc := wakeup1 (some (.other chan)) s.proc }
  | kill {s c p q t} (pid : Int) (runs : (s.cpu c).proc = some p) (here : s.ctl p = .runs .kernel) (free : s.lock = none)
    (found : kill pid s.proc = some (q,t)) : Step .tau s { s with proc := t, hit := update s.hit q true }
  | noKill {s c p} (pid : Int) (runs : (s.cpu c).proc = some p) (here : s.ctl p = .runs .kernel) (free : s.lock = none)
    (found : kill pid s.proc = none) : Step .tau s s
  /-- `scheduler` starts its loop over the table. -/
  | loop {s c} (idle : (s.cpu c).proc = none) (free : s.lock = none) :
    Step .tau s { s with lock := some c, cpu := update s.cpu c ⟨none,0⟩ }
  | switch {s c p} (idle : (s.cpu c).proc = none) (held : s.lock = some c) (chosen : choose s.proc (s.cpu c).next = some p) :
    Step .tau s { s with
      proc := update s.proc p { s.proc p with state := .RUNNING }, cpu := update s.cpu c ⟨some p,(s.cpu c).next⟩ }
  | release {s c} (idle : (s.cpu c).proc = none) (held : s.lock = some c) (chosen : choose s.proc (s.cpu c).next = none) :
    Step .tau s { s with lock := none }

/-- `userinit` has returned. -/
def initial (κ γ : Type) : Machine κ γ where
  proc p := if p = initproc then ⟨.RUNNABLE,1,none,none,false,10⟩ else ⟨.UNUSED,0,none,none,false,0⟩
  nextpid := 2
  lock := none
  cpu _ := ⟨none,0⟩
  ctl p := if p = initproc then .forkret else .exited
  allocs := 1
  life _ := 0
  hit _ := false

/-- A run, with its labels, the last one first. -/
inductive Run : List Label → Machine κ γ → Prop where
  | start : Run [] (initial κ γ)
  | step {ls l s s'} (before : Run ls s) (next : Step l s s') : Run (l :: ls) s'

/-! ### What the sections do -/

/-- A process that will run again. -/
def ProcState.Active (st : ProcState) : Prop := st = .SLEEPING ∨ st = .RUNNABLE ∨ st = .RUNNING

variable {t : Table γ} {p : Slot}

section
omit [DecidableEq γ]

theorem first_some {test : Proc γ → Bool} (found : first t test = some p) : test (t p) = true :=
  List.find?_some (p := fun p => test (t p)) found

theorem first_none {test : Proc γ → Bool} (found : first t test = none) (p : Slot) : test (t p) = false := by
  have none := List.find?_eq_none.mp found p (List.mem_finRange p)
  simpa using none
end

variable {t t' : Table γ}

omit [DecidableEq γ] in
theorem allocproc_some {nextpid n : Int} {np : Slot} (found : allocproc t nextpid = some (np,t',n)) :
    (t np).state = .UNUSED ∧ t' = update t np { t np with state := .EMBRYO, pid := nextpid, priority := 10 } ∧
      n = (nextpid + 1).bmod (2 ^ 32) := by
  obtain ⟨p,unused,same⟩ := Option.map_eq_some_iff.mp found
  have unused := first_some unused
  cases same
  exact ⟨by simpa using unused,rfl,rfl⟩

/-- Some sleepers are made runnable. -/
def Woken (t t' : Table γ) : Prop :=
  ∀ q, t' q = t q ∨ (t q).state = .SLEEPING ∧ t' q = { t q with state := .RUNNABLE }

omit [DecidableEq γ] in
theorem Woken.trans {t t' t'' : Table γ} (first : Woken t t') (second : Woken t' t'') : Woken t t'' := by
  intro q
  rcases second q with same | ⟨sleeps,woken⟩
  · rw [same]
    exact first q
  · rcases first q with same | ⟨_,woken'⟩
    · exact .inr ⟨by rwa [← same],by rw [woken,same]⟩
    · rw [woken'] at sleeps
      cases sleeps

theorem wakeup1_woken (chan : Option (Chan γ)) (t : Table γ) : Woken t (wakeup1 chan t) := by
  intro q
  unfold wakeup1
  split
  · next sleeps => exact .inr ⟨sleeps.1,rfl⟩
  · exact .inl rfl

theorem wakeup1_asleep {chan : Option (Chan γ)} {q : Slot} (asleep : (wakeup1 chan t q).state = .SLEEPING) :
    (t q).state = .SLEEPING ∧ (t q).chan ≠ chan := by
  unfold wakeup1 at asleep
  split at asleep
  · cases asleep
  · next other => exact ⟨asleep,fun same => other ⟨asleep,same⟩⟩

/-- A process that has `curproc` as its parent gets `initproc` instead. -/
def adopt (curproc : Slot) (x : Proc γ) : Proc γ :=
  { x with parent := if x.parent = some curproc then some initproc else x.parent }

section
omit [DecidableEq γ]

theorem adopt_adopt (curproc : Slot) (x : Proc γ) : adopt curproc (adopt curproc x) = adopt curproc x := by
  by_cases mine : x.parent = some curproc
  · simp [adopt,mine]
  · simp [adopt,mine]

theorem Woken.adopted (woken : Woken t t') (curproc : Slot) (l : List Slot) :
    Woken (fun q => if q ∈ l then adopt curproc (t q) else t q) fun q => if q ∈ l then adopt curproc (t' q) else t' q := by
  intro q
  by_cases listed : q ∈ l
  · rcases woken q with same | ⟨sleeps,woken⟩
    · exact .inl (by simp only [if_pos listed,same])
    · exact .inr (by simpa only [if_pos listed,woken] using ⟨sleeps,rfl⟩)
  · simpa only [if_neg listed] using woken q

theorem Woken.asleep (woken : Woken t t') {q : Slot} (asleep : (t' q).state = .SLEEPING) : t' q = t q := by
  rcases woken q with same | ⟨_,woken⟩
  · exact same
  · rw [woken] at asleep
    cases asleep
end

theorem abandon_woken (curproc : Slot) (t : Table γ) (p : Slot) :
    Woken (update t p (adopt curproc (t p))) (abandon curproc t p) := by
  unfold abandon
  by_cases mine : (t p).parent = some curproc
  · have adopted : adopt curproc (t p) = { t p with parent := some initproc } := by simp [adopt,mine]
    simp only [if_pos mine,adopted]
    split
    · exact wakeup1_woken _ _
    · exact fun q => .inl rfl
  · have adopted : adopt curproc (t p) = t p := by simp [adopt,mine]
    simp only [if_neg mine,adopted,update_eq_self]
    exact fun q => .inl rfl

theorem foldl_abandon_woken (curproc : Slot) (l : List Slot) (t : Table γ) :
    Woken (fun q => if q ∈ l then adopt curproc (t q) else t q) (l.foldl (abandon curproc) t) := by
  induction l generalizing t with
  | nil => exact fun q => .inl (by simp)
  | cons p l ih =>
    have turn := (abandon_woken curproc t p).adopted curproc l
    have same : (fun q => if q ∈ l then adopt curproc (update t p (adopt curproc (t p)) q)
        else update t p (adopt curproc (t p)) q) = fun q => if q ∈ p :: l then adopt curproc (t q) else t q := by
      funext q
      rcases eq_or_ne q p with rfl | other
      · simp [adopt_adopt]
      · simp [other]
    rw [same] at turn
    exact turn.trans (ih _)

/-- If a child is a zombie, init does not sleep in `wait` afterwards. -/
theorem foldl_abandon_zombie {curproc : Slot} {l : List Slot} {q p : Slot} (listed : q ∈ l)
    (mine : (t q).parent = some curproc) (zombie : (t q).state = .ZOMBIE)
    (asleep : (l.foldl (abandon curproc) t p).state = .SLEEPING) :
    (l.foldl (abandon curproc) t p).chan ≠ some (.proc initproc) := by
  induction l generalizing t with
  | nil => cases listed
  | cons r l ih =>
    rcases eq_or_ne q r with rfl | other
    · -- the wakeup is made for this slot, and nobody goes to sleep afterwards
      have woken := foldl_abandon_woken curproc l (abandon curproc t q)
      have same := woken.asleep asleep
      have asleep' : (abandon curproc t q p).state = .SLEEPING := by
        rw [List.foldl_cons,same] at asleep
        split at asleep <;> exact asleep
      have now : abandon curproc t q =
          wakeup1 (some (.proc initproc)) (update t q { t q with parent := some initproc }) := by
        simp [abandon,mine,zombie]
      have off : (abandon curproc t q p).chan ≠ some (.proc initproc) := by
        rw [now] at asleep' ⊢
        obtain ⟨before,chan⟩ := wakeup1_asleep asleep'
        rwa [(wakeup1_woken _ _).asleep asleep']
      rw [List.foldl_cons,same]
      split <;> exact off
    · have turn := abandon_woken curproc t r q
      rw [update_of_ne other] at turn
      have kept : abandon curproc t r q = t q := by
        rcases turn with same | ⟨sleeps,_⟩
        · exact same
        · rw [zombie] at sleeps
          cases sleeps
      exact ih ((List.mem_cons.mp listed).resolve_left other) (by rw [kept]; exact mine) (by rw [kept]; exact zombie) asleep

theorem exit_spec (curproc : Slot) (t : Table γ) : ∃ u, exit curproc t = update u curproc { u curproc with state := .ZOMBIE } ∧
    Woken (fun q => adopt curproc (t q)) u ∧
    ∀ p, (u p).state = .SLEEPING → (u p).chan ≠ (t curproc).parent.map .proc ∧
      ∀ q, (t q).parent = some curproc → (t q).state = .ZOMBIE → (u p).chan ≠ some (.proc initproc) := by
  have all (w : Table γ) : (fun q => if q ∈ List.finRange NPROC then adopt curproc (w q) else w q) =
      fun q => adopt curproc (w q) := by
    funext q
    rw [if_pos (List.mem_finRange q)]
  have parent := wakeup1_woken ((t curproc).parent.map .proc) t
  have children := foldl_abandon_woken curproc (List.finRange NPROC) (wakeup1 ((t curproc).parent.map .proc) t)
  have adopted := parent.adopted curproc (List.finRange NPROC)
  rw [all,all] at adopted
  rw [all] at children
  refine ⟨_,rfl,adopted.trans children,fun p asleep => ⟨?_,fun q mine zombie => ?_⟩⟩
  · have same := children.asleep asleep
    rw [same] at asleep ⊢
    have asleep' : (wakeup1 ((t curproc).parent.map .proc) t p).state = .SLEEPING := asleep
    show (wakeup1 ((t curproc).parent.map .proc) t p).chan ≠ _
    rw [parent.asleep asleep']
    exact (wakeup1_asleep asleep').2
  · have kept : wakeup1 ((t curproc).parent.map .proc) t q = t q := by
      rcases parent q with same | ⟨sleeps,_⟩
      · exact same
      · rw [zombie] at sleeps
        cases sleeps
    exact foldl_abandon_zombie (List.mem_finRange q) (by rw [kept]; exact mine) (by rw [kept]; exact zombie) asleep

theorem exit_self (curproc : Slot) (t : Table γ) : (exit curproc t curproc).state = .ZOMBIE := by
  obtain ⟨u,same,_⟩ := exit_spec curproc t
  rw [same,update_self]

theorem exit_state {curproc q : Slot} (other : q ≠ curproc) (t : Table γ) :
    (exit curproc t q).state = (t q).state ∨ (t q).state = .SLEEPING ∧ (exit curproc t q).state = .RUNNABLE := by
  obtain ⟨u,same,woken,_⟩ := exit_spec curproc t
  rw [same,update_of_ne other]
  rcases woken q with same | ⟨sleeps,same⟩
  · exact .inl (by rw [same]; rfl)
  · exact .inr ⟨sleeps,by rw [same]⟩

theorem exit_fields (curproc : Slot) (t : Table γ) (q : Slot) :
    (exit curproc t q).parent = (adopt curproc (t q)).parent ∧ (exit curproc t q).pid = (t q).pid ∧
      (exit curproc t q).killed = (t q).killed := by
  obtain ⟨u,same,woken,_⟩ := exit_spec curproc t
  have after : (u q).parent = (adopt curproc (t q)).parent ∧ (u q).pid = (t q).pid ∧ (u q).killed = (t q).killed := by
    rcases woken q with same | ⟨_,same⟩ <;> rw [same] <;> exact ⟨rfl,rfl,rfl⟩
  rcases eq_or_ne q curproc with rfl | other
  · rw [same,update_self]
    exact after
  · rw [same,update_of_ne other]
    exact after

theorem exit_asleep {curproc : Slot} (asleep : (exit curproc t p).state = .SLEEPING) :
    (t p).state = .SLEEPING ∧ (exit curproc t p).chan = (t p).chan ∧ (t p).chan ≠ (t curproc).parent.map .proc ∧
      ∀ q, (t q).parent = some curproc → (t q).state = .ZOMBIE → (t p).chan ≠ some (.proc initproc) := by
  obtain ⟨u,same,woken,off⟩ := exit_spec curproc t
  have other : p ≠ curproc := by
    rintro rfl
    rw [exit_self] at asleep
    cases asleep
  rw [same,update_of_ne other] at asleep ⊢
  have slept := woken.asleep asleep
  have chan : (u p).chan = (t p).chan := by rw [slept]; rfl
  have state : (t p).state = .SLEEPING := by rw [slept] at asleep; exact asleep
  rw [← chan]
  exact ⟨state,rfl,off p asleep⟩

section
omit [DecidableEq γ]

theorem highest_runnable (runnable : (t p).state = .RUNNABLE) :
    (t (highest t p)).state = .RUNNABLE := by
  unfold highest
  refine List.foldlRecOn (motive := fun q => (t q).state = .RUNNABLE) _ _ runnable fun q before p1 _ => ?_
  split
  · exact before
  · next also =>
    split
    · simpa using also
    · exact before

theorem choose_runnable {i : Nat} (chosen : choose t i = some p) : (t p).state = .RUNNABLE := by
  obtain ⟨q,found,rfl⟩ := Option.map_eq_some_iff.mp chosen
  have runnable := List.find?_some found
  exact highest_runnable (by simpa using runnable)
end

end Xv6.Procs
