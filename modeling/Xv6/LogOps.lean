import Xv6.Param
import Mathlib.Data.Fintype.Card
import Mathlib.Data.Finset.Card
import Mathlib.Algebra.BigOperators.Group.Finset.Basic

/-!
The group commit of `log.c`. Any number of processes run `begin_op`, `log_write`
and `end_op`; one step is one critical section of `log.lock`, or a stretch of
code that runs without it (the tests at the start of `log_write`, the stages of
`commit`). A process asleep in `begin_op` is woken by `wakeup(&log)` or by a kill
and then tests again. A step is labelled with what it did, and a run is its
history, the newest step first.
-/
namespace Xv6.LogOps
open Function

/-- The stages of `commit`, called by the `end_op` that ended the last operation. -/
inductive Stage where
  | enter | writeLog | writeHead | install | clear | eraseHead | done
  deriving DecidableEq, Repr

/-- Where a process stands. -/
inductive Pc where
  /-- outside every operation -/
  | idle
  /-- in `begin_op`, about to test -/
  | begin
  /-- in `begin_op`, sleeping on `&log` -/
  | asleep
  /-- between `begin_op` and `end_op` -/
  | op
  /-- in `log_write` of the block, its tests passed, about to take `log.lock` -/
  | logging (b : Nat)
  /-- in the `commit` of its `end_op` -/
  | commit (stage : Stage)
  deriving DecidableEq, Repr

/-- A process is between `begin_op` and `end_op`. -/
def InOp : Pc → Prop
  | .op => True
  | .logging _ => True
  | _ => False

/-- A process is in `commit` or about to reset `log.committing` after it. -/
def InCommit : Pc → Prop
  | .commit _ => True
  | _ => False

instance : DecidablePred InOp
  | .op | .logging _ => isTrue trivial
  | .idle | .begin | .asleep | .commit _ => isFalse id

/-- `struct log`, the processes, and the message of a panic. The array bound of
    `lh.block` is not part of the model: `LogSpace.run_reserved` shows that it is kept. -/
structure State (np : Nat) where
  size : Int
  outstanding : Int
  committing : Bool
  lh : List Nat
  pc : Fin np → Pc
  panic : Option String

/-- What a process does next: the call it makes, or going on in the one it is in. -/
inductive Act where
  | begin_op | log_write (b : Nat) | end_op | run
  deriving DecidableEq, Repr

/-- What a step did. -/
inductive Event (np : Nat) where
  /-- `begin_op` was called -/
  | call (p : Fin np)
  /-- its test failed -/
  | sleep (p : Fin np)
  /-- a sleeper was woken by a kill -/
  | wake (p : Fin np)
  /-- its test passed: the operation begins -/
  | begin (p : Fin np)
  /-- `log_write` was called and tested the log's space -/
  | log_write (p : Fin np) (b : Nat)
  /-- its critical section put the block into the header -/
  | logged (p : Fin np) (b : Nat)
  /-- `end_op` of an operation that was not the last -/
  | ended (p : Fin np)
  /-- `end_op` of the last operation, which commits -/
  | last (p : Fin np)
  /-- `write_head` of the commit wrote these block numbers -/
  | commit (p : Fin np) (header : List Nat)
  /-- another stage of the commit -/
  | stage (p : Fin np) (stage : Stage)
  deriving DecidableEq, Repr

variable {np : Nat}

/-- The log after `initlog`, with no operation in progress. -/
def initial (np : Nat) (size : Int) : State np := ⟨size,0,false,[],fun _ => .idle,none⟩

/-- log absorbtion -/
def absorb : List Nat → Nat → List Nat
  | [], b => [b]
  | x :: rest, b => if x = b then x :: rest else x :: absorb rest b

/-- `wakeup(&log)`: every sleeper will test again. -/
def wakeup (pc : Fin np → Pc) : Fin np → Pc := fun p => if pc p = .asleep then .begin else pc p

/-- The next step of process `p`. -/
def next (s : State np) (p : Fin np) (a : Act) : Option (Event np × State np) :=
  if s.panic.isSome then none else
  match s.pc p, a with
  | .idle, .begin_op => some (.call p,{ s with pc := update s.pc p .begin })
  | .begin, .run =>
    if s.committing then some (.sleep p,{ s with pc := update s.pc p .asleep })
    else if s.lh.length + (s.outstanding + 1) * MAXOPBLOCKS > LOGSIZE then
      some (.sleep p,{ s with pc := update s.pc p .asleep })
    else some (.begin p,{ s with outstanding := s.outstanding + 1, pc := update s.pc p .op })
  | .asleep, .run => some (.wake p,{ s with pc := update s.pc p .begin })
  | .op, .log_write b =>
    if s.lh.length ≥ LOGSIZE ∨ s.lh.length ≥ s.size - 1 then
      some (.log_write p b,{ s with panic := some "too big a transaction" })
    else if s.outstanding < 1 then
      some (.log_write p b,{ s with panic := some "log_write outside of trans" })
    else some (.log_write p b,{ s with pc := update s.pc p (.logging b) })
  | .logging b, .run => some (.logged p b,{ s with lh := absorb s.lh b, pc := update s.pc p .op })
  | .op, .end_op =>
    if s.committing then
      some (.ended p,{ s with outstanding := s.outstanding - 1, panic := some "log.committing" })
    else if s.outstanding - 1 = 0 then
      some (.last p,{ s with outstanding := 0, committing := true, pc := update s.pc p (.commit .enter) })
    else some (.ended p,{ s with outstanding := s.outstanding - 1, pc := wakeup (update s.pc p .idle) })
  | .commit .enter, .run =>
    some (.stage p .enter,{ s with pc := update s.pc p (.commit (if 0 < s.lh.length then .writeLog else .done)) })
  | .commit .writeLog, .run => some (.stage p .writeLog,{ s with pc := update s.pc p (.commit .writeHead) })
  | .commit .writeHead, .run => some (.commit p s.lh,{ s with pc := update s.pc p (.commit .install) })
  | .commit .install, .run => some (.stage p .install,{ s with pc := update s.pc p (.commit .clear) })
  | .commit .clear, .run => some (.stage p .clear,{ s with lh := [], pc := update s.pc p (.commit .eraseHead) })
  | .commit .eraseHead, .run => some (.stage p .eraseHead,{ s with pc := update s.pc p (.commit .done) })
  | .commit .done, .run =>
    some (.stage p .done,{ s with committing := false, pc := wakeup (update s.pc p .idle) })
  | _, _ => none

/-- A run from the initial state of a log of `size` blocks: its history and the state it leads to. -/
inductive Run (size : Int) : List (Event np) → State np → Prop where
  | init : Run size [] (initial np size)
  | step {es s p a e s'} : Run size es s → next s p a = some (e,s') → Run size (e :: es) s'

/-- Run a list of process steps. -/
def exec (s : State np) (es : List (Event np)) : List (Fin np × Act) → Option (List (Event np) × State np)
  | [] => some (es,s)
  | (p,a) :: rest =>
    match next s p a with
    | some (e,s') => exec s' (e :: es) rest
    | none => none

theorem exec_run {size : Int} : ∀ {acts : List (Fin np × Act)} {es es' : List (Event np)} {s s' : State np},
    Run size es s → exec s es acts = some (es',s') → Run size es' s'
  | [], _, _, _, _, run, done => by
    cases done
    exact run
  | (p,a) :: rest, es, es', s, s', run, done => by
    rw [exec] at done
    cases stepped : next s p a with
    | none => simp [stepped] at done
    | some pair =>
      rw [stepped] at done
      exact exec_run (run.step stepped) done

theorem run_suffix {size : Int} : ∀ {new : List (Event np)} {e : Event np} {old : List (Event np)} {s : State np},
    Run size (new ++ e :: old) s → ∃ s₀ s₁ p a, Run size old s₀ ∧ next s₀ p a = some (e,s₁)
  | [], _, _, _, run => by
    cases run with
    | step older stepped => exact ⟨_,_,_,_,older,stepped⟩
  | _ :: _, _, _, _, run => by
    cases run with
    | step older _ => exact run_suffix older

/-! ### What a step can do -/

/-- The steps, one constructor for each branch of the code. -/
inductive Step (s : State np) : Event np → State np → Prop where
  | call {p} (here : s.pc p = .idle) : Step s (.call p) { s with pc := update s.pc p .begin }
  | sleep {p} (here : s.pc p = .begin)
      (full : s.committing = true ∨ s.lh.length + (s.outstanding + 1) * MAXOPBLOCKS > LOGSIZE) :
      Step s (.sleep p) { s with pc := update s.pc p .asleep }
  | wake {p} (here : s.pc p = .asleep) : Step s (.wake p) { s with pc := update s.pc p .begin }
  | begin {p} (here : s.pc p = .begin) (free : s.committing = false)
      (room : s.lh.length + (s.outstanding + 1) * MAXOPBLOCKS ≤ LOGSIZE) :
      Step s (.begin p) { s with outstanding := s.outstanding + 1, pc := update s.pc p .op }
  | tooBig {p b} (here : s.pc p = .op) (full : s.lh.length ≥ LOGSIZE ∨ s.lh.length ≥ s.size - 1) :
      Step s (.log_write p b) { s with panic := some "too big a transaction" }
  | outside {p b} (here : s.pc p = .op) (room : ¬ (s.lh.length ≥ LOGSIZE ∨ s.lh.length ≥ s.size - 1))
      (none : s.outstanding < 1) :
      Step s (.log_write p b) { s with panic := some "log_write outside of trans" }
  | log_write {p b} (here : s.pc p = .op) (room : ¬ (s.lh.length ≥ LOGSIZE ∨ s.lh.length ≥ s.size - 1)) :
      Step s (.log_write p b) { s with pc := update s.pc p (.logging b) }
  | logged {p b} (here : s.pc p = .logging b) :
      Step s (.logged p b) { s with lh := absorb s.lh b, pc := update s.pc p .op }
  | broken {p} (here : s.pc p = .op) (busy : s.committing = true) :
      Step s (.ended p) { s with outstanding := s.outstanding - 1, panic := some "log.committing" }
  | last {p} (here : s.pc p = .op) (free : s.committing = false) (only : s.outstanding = 1) :
      Step s (.last p) { s with outstanding := 0, committing := true, pc := update s.pc p (.commit .enter) }
  | ended {p} (here : s.pc p = .op) (free : s.committing = false) (more : s.outstanding ≠ 1) :
      Step s (.ended p) { s with outstanding := s.outstanding - 1, pc := wakeup (update s.pc p .idle) }
  | enter {p} (here : s.pc p = .commit .enter) : Step s (.stage p .enter)
      { s with pc := update s.pc p (.commit (if 0 < s.lh.length then .writeLog else .done)) }
  | writeLog {p} (here : s.pc p = .commit .writeLog) :
      Step s (.stage p .writeLog) { s with pc := update s.pc p (.commit .writeHead) }
  | writeHead {p} (here : s.pc p = .commit .writeHead) :
      Step s (.commit p s.lh) { s with pc := update s.pc p (.commit .install) }
  | install {p} (here : s.pc p = .commit .install) :
      Step s (.stage p .install) { s with pc := update s.pc p (.commit .clear) }
  | clear {p} (here : s.pc p = .commit .clear) :
      Step s (.stage p .clear) { s with lh := [], pc := update s.pc p (.commit .eraseHead) }
  | eraseHead {p} (here : s.pc p = .commit .eraseHead) :
      Step s (.stage p .eraseHead) { s with pc := update s.pc p (.commit .done) }
  | done {p} (here : s.pc p = .commit .done) :
      Step s (.stage p .done) { s with committing := false, pc := wakeup (update s.pc p .idle) }

/-- A step of a process is one of the branches, and the system has not stopped before. -/
theorem next_step {s s' : State np} {p : Fin np} {a : Act} {e : Event np} (stepped : next s p a = some (e,s')) :
    s.panic = none ∧ Step s e s' := by
  unfold next at stepped
  split at stepped
  · cases stepped
  · rename_i running
    refine ⟨by simpa using running,?_⟩
    split at stepped
    · cases stepped; exact .call ‹_›
    · split at stepped
      · cases stepped; exact .sleep ‹_› (.inl ‹_›)
      · split at stepped
        · cases stepped; exact .sleep ‹_› (.inr ‹_›)
        · cases stepped; exact .begin ‹_› (Bool.eq_false_of_not_eq_true ‹_›) (Int.not_lt.mp ‹_›)
    · cases stepped; exact .wake ‹_›
    · split at stepped
      · cases stepped; exact .tooBig ‹_› ‹_›
      · split at stepped
        · cases stepped; exact .outside ‹_› ‹_› ‹_›
        · cases stepped; exact .log_write ‹_› ‹_›
    · cases stepped; exact .logged ‹_›
    · split at stepped
      · cases stepped; exact .broken ‹_› ‹_›
      · split at stepped
        · cases stepped; exact .last ‹_› (Bool.eq_false_of_not_eq_true ‹_›) (by omega)
        · cases stepped; exact .ended ‹_› (Bool.eq_false_of_not_eq_true ‹_›) (by omega)
    · cases stepped; exact .enter ‹_›
    · cases stepped; exact .writeLog ‹_›
    · cases stepped; exact .writeHead ‹_›
    · cases stepped; exact .install ‹_›
    · cases stepped; exact .clear ‹_›
    · cases stepped; exact .eraseHead ‹_›
    · cases stepped; exact .done ‹_›
    · cases stepped

theorem Run.invariant {size : Int} {I : List (Event np) → State np → Prop} (start : I [] (initial np size))
    (kept : ∀ es s e s', I es s → s.panic = none → Step s e s' → I (e :: es) s')
    {es : List (Event np)} {s : State np} (run : Run size es s) : I es s := by
  induction run with
  | init => exact start
  | step _ stepped ih =>
    obtain ⟨running,step⟩ := next_step stepped
    exact kept _ _ _ _ ih running step

/-! ### Counting processes -/

theorem wakeup_inOp (pc : Fin np → Pc) (p : Fin np) : InOp (wakeup pc p) ↔ InOp (pc p) := by
  unfold wakeup
  split_ifs with asleep
  · simp [asleep,InOp]
  · rfl

theorem wakeup_commit (pc : Fin np → Pc) (p : Fin np) (stage : Stage) :
    wakeup pc p = .commit stage ↔ pc p = .commit stage := by
  unfold wakeup
  split_ifs with asleep
  · simp [asleep]
  · rfl

end Xv6.LogOps
