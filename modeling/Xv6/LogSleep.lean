import Xv6.Lib.Monitor
import Xv6.LogOps

/-!
Who sleeps in `begin_op`. Here the calls of `log.c` run at the granularity of `log.lock` and of the lock of the
process table, so that `sleep` and `wakeup` are as in `proc.c`.
-/
namespace Xv6.LogSleep
open Xv6.Lib Xv6.LogOps Function

/-- `struct log` -/
structure Log where
  size : Int
  outstanding : Int
  committing : Bool
  lh : List Nat

/-- The panics of `log.c`. -/
inductive Panic where
  /-- "log.committing" -/
  | committing
  /-- "too big a transaction" -/
  | tooBig
  /-- "log_write outside of trans" -/
  | noTrans
  deriving DecidableEq

/-- Where a process is. -/
inductive Point where
  | idle
  /-- `begin_op` is called -/
  | calls
  /-- `begin_op`, at the head of its loop -/
  | test
  /-- `begin_op`, before `release` -/
  | admitted
  /-- between `begin_op` and `end_op` -/
  | op
  /-- `log_write`, with its tests passed -/
  | logs (b : Nat)
  /-- `log_write`, after `acquire` -/
  | logging (b : Nat)
  /-- `log_write`, before `release` -/
  | logged
  /-- `end_op` is called -/
  | ends
  /-- `end_op`, after `acquire` -/
  | ending
  /-- `end_op` of an operation that is not the last, before `wakeup` -/
  | ended
  /-- `end_op`, before a `release` after which it returns -/
  | returns
  /-- `end_op` of the last operation, before `release` -/
  | last
  /-- in `commit` -/
  | commit (stage : Stage)
  /-- `end_op`, after `commit` and `acquire` -/
  | reset
  /-- `end_op` after a commit, before `wakeup` -/
  | resetting
  /-- The kernel has panicked. -/
  | panicked (why : Panic)
  deriving DecidableEq

/-- `begin_op` has to wait. -/
def Log.Busy (log : Log) : Prop :=
  log.committing = true ∨ log.lh.length + (log.outstanding + 1) * MAXOPBLOCKS > LOGSIZE

instance (log : Log) : Decidable log.Busy := inferInstanceAs (Decidable (_ ∨ _))

/-- What a process does next with `log.lock`. -/
def act (k : Point) (log : Log) : Act Unit Log Point :=
  match k with
  | .test => if log.Busy then .sleep () .test else .go { log with outstanding := log.outstanding + 1 } .admitted
  | .admitted => .release .op
  | .logging b => .go { log with lh := absorb log.lh b } .logged
  | .logged => .release .op
  | .ending =>
    if log.committing then .go { log with outstanding := log.outstanding - 1 } (.panicked .committing)
    else if log.outstanding - 1 = 0 then .go { log with outstanding := 0, committing := true } .last
    else .go { log with outstanding := log.outstanding - 1 } .ended
  | .ended => .wakeup () .returns
  | .returns => .release .idle
  | .last => .release (.commit .enter)
  | .reset => .go { log with committing := false } .resetting
  | .resetting => .wakeup () .returns
  | .panicked why => .go log (.panicked why)
  | .idle => .release .idle
  | .calls => .release .calls
  | .op => .release .op
  | .logs b => .release (.logs b)
  | .ends => .release .ends
  | .commit stage => .release (.commit stage)

/-- The sections of `log.lock`. -/
def enter : Point → Point → Prop
  | .calls,.test => True
  | .logs b,.logging b' => b = b'
  | .ends,.ending => True
  | .commit .done,.reset => True
  | _,_ => False

/-- What a process does without the lock: it makes a call, runs the tests of `log_write`, or goes on in `commit`. -/
inductive Outside (log : Log) : Point → Point → Log → Prop where
  | begin_op : Outside log .idle .calls log
  | end_op : Outside log .op .ends log
  | log_write (b : Nat) (room : ¬(log.lh.length ≥ LOGSIZE ∨ log.lh.length ≥ log.size - 1)) (inside : ¬log.outstanding < 1) :
    Outside log .op (.logs b) log
  | tooBig (full : log.lh.length ≥ LOGSIZE ∨ log.lh.length ≥ log.size - 1) :
    Outside log .op (.panicked .tooBig) log
  | noTrans (room : ¬(log.lh.length ≥ LOGSIZE ∨ log.lh.length ≥ log.size - 1)) (alone : log.outstanding < 1) :
    Outside log .op (.panicked .noTrans) log
  | enter : Outside log (.commit .enter) (.commit (if 0 < log.lh.length then .writeLog else .done)) log
  | writeLog : Outside log (.commit .writeLog) (.commit .writeHead) log
  | writeHead : Outside log (.commit .writeHead) (.commit .install) log
  | install : Outside log (.commit .install) (.commit .clear) log
  | clear : Outside log (.commit .clear) (.commit .eraseHead) { log with lh := [] }
  | eraseHead : Outside log (.commit .eraseHead) (.commit .done) log

/-- The log as a monitor; its address is the only channel. -/
def logs (ι : Type) : Monitor ι Unit Log Point where
  act _ _ := act
  enter _ := enter
  outside _ k log k' log' := Outside log k k' log'

/-- `initlog` has been called. -/
def initial (ι : Type) (size : Int) : World ι Unit Log Point where
  data := ⟨size,0,false,[]⟩
  lock := none
  ptable := none
  place _ := .out .idle
  killed _ := false

/-- The operation of the process is counted in `outstanding`. -/
def Point.InOp : Point → Prop
  | .admitted => True
  | .op => True
  | .logs _ => True
  | .logging _ => True
  | .logged => True
  | .ends => True
  | .ending => True
  | .panicked .tooBig => True
  | .panicked .noTrans => True
  | _ => False

/-- The process commits. -/
def Point.InCommit : Point → Prop
  | .last => True
  | .commit _ => True
  | .reset => True
  | _ => False

/-- The process commits, and has emptied the header. -/
def Point.Cleared : Point → Prop
  | .commit .eraseHead => True
  | .commit .done => True
  | .reset => True
  | _ => False

variable {ι : Type}

/-- The number of the operations. -/
def Counted (n : Int) (point : ι → Point) : Prop := ∃ ops : Finset ι, (∀ p, p ∈ ops ↔ (point p).InOp) ∧ n = ops.card

/-- What holds of the log and the processes at every moment. -/
structure Good (log : Log) (point : ι → Point) : Prop where
  count : Counted log.outstanding point
  alone : log.committing = true → log.outstanding = 0
  commits : ∀ p, (point p).InCommit → log.committing = true
  unique : ∀ p q, (point p).InCommit → (point q).InCommit → p = q
  cleared : ∀ p, (point p).Cleared → log.lh = []
  empty : log.outstanding = 0 → log.committing = false → log.lh = []

theorem Counted.pos {n : Int} {point : ι → Point} (counted : Counted n point) {p : ι} (inOp : (point p).InOp) : 0 < n := by
  obtain ⟨ops,mem,rfl⟩ := counted
  have := Finset.card_pos.mpr ⟨p,(mem p).mpr inOp⟩
  omega

theorem Point.Cleared.inCommit {k : Point} (cleared : k.Cleared) : k.InCommit := by
  cases k with
  | commit stage => trivial
  | reset => trivial
  | _ => exact False.elim cleared

theorem Good.op {log : Log} {point : ι → Point} (good : Good log point) {p : ι} (inOp : (point p).InOp) :
    log.committing = false := by
  by_contra busy
  have none := good.alone (by simpa using busy)
  have some := good.count.pos inOp
  omega

section
variable [DecidableEq ι] {n : Int} {point : ι → Point} {p : ι} {k : Point}

theorem Counted.move (counted : Counted n point) (same : k.InOp ↔ (point p).InOp) : Counted n (update point p k) := by
  obtain ⟨ops,mem,size⟩ := counted
  refine ⟨ops,fun q => ?_,size⟩
  rcases eq_or_ne q p with rfl | other
  · rw [update_self,mem,same]
  · rw [update_of_ne other,mem]

theorem Counted.begins (counted : Counted n point) (before : ¬(point p).InOp) (after : k.InOp) :
    Counted (n + 1) (update point p k) := by
  obtain ⟨ops,mem,rfl⟩ := counted
  refine ⟨insert p ops,fun q => ?_,?_⟩
  · rcases eq_or_ne q p with rfl | other
    · simp [after]
    · simp [other,mem]
  · rw [Finset.card_insert_of_notMem (by rwa [mem])]
    simp

theorem Counted.ends (counted : Counted n point) (before : (point p).InOp) (after : ¬k.InOp) :
    Counted (n - 1) (update point p k) := by
  have some := counted.pos before
  obtain ⟨ops,mem,rfl⟩ := counted
  refine ⟨ops.erase p,fun q => ?_,?_⟩
  · rcases eq_or_ne q p with rfl | other
    · simp [after]
    · simp [other,mem]
  · rw [Finset.card_erase_of_mem ((mem p).mpr before)]
    omega

variable {log log' : Log}

theorem Good.move (good : Good log point) (inOp : k.InOp ↔ (point p).InOp) (inCommit : k.InCommit → (point p).InCommit)
    (cleared : k.Cleared → (point p).Cleared ∨ log.lh = []) : Good log (update point p k) where
  count := good.count.move inOp
  alone := good.alone
  commits := by
    rw [forall_update_iff point fun _ k => k.InCommit → log.committing = true]
    exact ⟨fun h => good.commits p (inCommit h),fun q _ => good.commits q⟩
  unique q r := by
    have before (q : ι) (h : (update point p k q).InCommit) : (point q).InCommit := by
      rcases eq_or_ne q p with rfl | other
      · exact inCommit (by rwa [update_self] at h)
      · rwa [update_of_ne other] at h
    exact fun mine his => good.unique q r (before q mine) (before r his)
  cleared := by
    rw [forall_update_iff point fun _ k => k.Cleared → log.lh = []]
    exact ⟨fun h => (cleared h).elim (good.cleared p) id,fun q _ => good.cleared q⟩
  empty := good.empty

theorem Good.sole (others : ∀ q, q ≠ p → ¬(point q).InCommit) (count : Counted log'.outstanding (update point p k))
    (alone : log'.committing = true → log'.outstanding = 0) (commits : k.InCommit → log'.committing = true)
    (cleared : k.Cleared → log'.lh = []) (empty : log'.outstanding = 0 → log'.committing = false → log'.lh = []) :
    Good log' (update point p k) where
  count := count
  alone := alone
  commits := by
    rw [forall_update_iff point fun _ k => k.InCommit → log'.committing = true]
    exact ⟨commits,fun q other h => absurd h (others q other)⟩
  unique := by
    have mine (q : ι) (h : (update point p k q).InCommit) : q = p := by
      by_contra other
      rw [update_of_ne other] at h
      exact others q other h
    exact fun q r his hers => (mine q his).trans (mine r hers).symm
  cleared := by
    rw [forall_update_iff point fun _ k => k.Cleared → log'.lh = []]
    exact ⟨cleared,fun q other h => absurd h.inCommit (others q other)⟩
  empty := empty

section
variable (good : Good log point)
include good

omit [DecidableEq ι] in
theorem Good.still (free : log.committing = false) (q : ι) : ¬(point q).InCommit := by
  intro commits
  have busy := good.commits q commits
  rw [free] at busy
  cases busy

theorem Good.admits (here : point p = .test) (free : ¬log.Busy) :
    Good { log with outstanding := log.outstanding + 1 } (update point p .admitted) := by
  have still : log.committing = false := by
    by_contra busy
    exact free (.inl (by simpa using busy))
  obtain ⟨ops,mem,size⟩ := good.count
  refine Good.sole (fun q _ => good.still still q) ?_ ?_ False.elim False.elim ?_
  · exact good.count.begins (by rw [here]; exact id) trivial
  · exact fun busy => absurd (still.symm.trans busy) (by decide)
  · intro none
    have : log.outstanding + 1 = 0 := none
    omega

theorem Good.writes {b : Nat} (here : point p = .logging b) :
    Good { log with lh := absorb log.lh b } (update point p .logged) := by
  have inOp : (point p).InOp := by rw [here]; trivial
  have still := good.op inOp
  have some := good.count.pos inOp
  refine Good.sole (fun q _ => good.still still q) ?_ good.alone False.elim False.elim ?_
  · exact good.count.move (by rw [here]; exact Iff.rfl)
  · intro none
    have : log.outstanding = 0 := none
    omega

theorem Good.last (here : point p = .ending) (final : log.outstanding - 1 = 0) :
    Good { log with outstanding := 0, committing := true } (update point p .last) := by
  have inOp : (point p).InOp := by rw [here]; trivial
  refine Good.sole (fun q _ => good.still (good.op inOp) q) ?_ (fun _ => rfl) (fun _ => rfl) False.elim ?_
  · have count := good.count.ends (k := .last) inOp id
    rwa [final] at count
  · exact fun _ free => by cases free

theorem Good.ended (here : point p = .ending) (more : log.outstanding - 1 ≠ 0) :
    Good { log with outstanding := log.outstanding - 1 } (update point p .ended) := by
  have inOp : (point p).InOp := by rw [here]; trivial
  have still := good.op inOp
  refine Good.sole (fun q _ => good.still still q) (good.count.ends inOp id) ?_ False.elim False.elim ?_
  · exact fun busy => absurd (still.symm.trans busy) (by decide)
  · exact fun none _ => absurd none more

theorem Good.resets (here : point p = .reset) :
    Good { log with committing := false } (update point p .resetting) := by
  have commits : (point p).InCommit := by rw [here]; trivial
  refine Good.sole (fun q other his => other (good.unique q p his commits)) ?_ ?_ False.elim False.elim ?_
  · exact good.count.move (by rw [here]; exact Iff.rfl)
  · exact fun busy => by cases busy
  · exact fun _ _ => good.cleared p (by rw [here]; trivial)

theorem Good.clears (here : point p = .commit .clear) :
    Good { log with lh := [] } (update point p (.commit .eraseHead)) := by
  have commits : (point p).InCommit := by rw [here]; trivial
  refine Good.sole (fun q other his => other (good.unique q p his commits)) ?_ good.alone
    (fun _ => good.commits p commits) (fun _ => rfl) (fun _ _ => rfl)
  exact good.count.move (by rw [here]; exact Iff.rfl)

theorem Good.acts {x : Log × Point} (acts : (act (point p) log).next log = x) :
    Good x.1 (update point p x.2) := by
  subst acts
  cases here : point p with
  | test =>
    simp only [act]
    split
    · exact good.move (by rw [here]; exact Iff.rfl) False.elim False.elim
    · next free => exact good.admits here free
  | logging b => exact good.writes here
  | ending =>
    have still := good.op (p := p) (by rw [here]; trivial)
    simp only [act]
    rw [if_neg (by simp [still])]
    split
    · next final => exact good.last here final
    · next more => exact good.ended here more
  | reset => exact good.resets here
  | last => exact good.move (by rw [here]; exact Iff.rfl) (fun _ => by rw [here]; trivial) False.elim
  | commit stage =>
    exact good.move (by rw [here]; exact Iff.rfl) (fun h => by rw [here]; exact h) fun h => .inl (by rw [here]; exact h)
  | _ => exact good.move (by rw [here]; exact Iff.rfl) False.elim False.elim

theorem Good.outside (does : Outside log (point p) k log') : Good log' (update point p k) := by
  generalize here : point p = k₀ at does
  cases does with
  | clear => exact good.clears here
  | enter =>
    refine good.move (by rw [here]; split <;> exact Iff.rfl) (fun _ => by rw [here]; trivial) fun h => .inr ?_
    split at h
    · exact False.elim h
    · next empty => simpa using empty
  | eraseHead =>
    exact good.move (by rw [here]; exact Iff.rfl) (fun _ => by rw [here]; trivial) fun h => .inl (by rw [here]; trivial)
  | writeLog | writeHead | install =>
    exact good.move (by rw [here]; exact Iff.rfl) (fun _ => by rw [here]; trivial) False.elim
  | _ => exact good.move (by rw [here]; exact Iff.rfl) False.elim False.elim

end

end

/-! ### Wakeups -/

/-- An operation waits while it cannot be admitted. -/
def reason (_ : Unit) (log : Log) : Prop := log.Busy

/-- `end_op` has made room and has not called `wakeup` yet. -/
def owes (k : Point) (_ : Unit) : Prop := k = .ended ∨ k = .resetting

theorem length_absorb (lh : List Nat) (b : Nat) : lh.length ≤ (absorb lh b).length := by
  induction lh with
  | nil => simp
  | cons x rest ih =>
    unfold absorb
    split
    · exact le_rfl
    · simpa using ih

theorem Log.Busy.absorb {log : Log} (busy : log.Busy) (b : Nat) : Log.Busy { log with lh := absorb log.lh b } := by
  rcases busy with commits | full
  · exact .inl commits
  · have := length_absorb log.lh b
    refine .inr (lt_of_lt_of_le full ?_)
    show _ ≤ ((LogOps.absorb log.lh b).length : Int) + _
    gcongr

theorem logs_wakes : Wakes (logs ι) (fun _ _ => True) (fun w => Good w.data w.point) reason owes where
  go {w p k log k'} _ _ _ acts c _ before := by
    have busy (other : ¬owes k c) : w.data.Busy := before.resolve_right other
    cases k with
    | test =>
      have stays := busy (by simp [owes])
      simp only [logs,act,if_pos stays] at acts
      cases acts
    | logging b =>
      cases acts
      exact .inl ((busy (by simp [owes])).absorb b)
    | ending =>
      simp only [logs,act] at acts
      split at acts
      · next commits =>
        cases acts
        exact .inl (.inl commits)
      · split at acts
        · cases acts
          exact .inl (.inl rfl)
        · cases acts
          exact .inr (.inl rfl)
    | reset =>
      cases acts
      exact .inr (.inr rfl)
    | panicked why =>
      cases acts
      exact .inl (busy (by simp [owes]))
    | _ => cases acts
  wakeup _ _ _ _ _ _ other := absurd rfl other
  sleep {w p k c k'} _ _ _ acts := by
    cases k with
    | test =>
      simp only [logs,act] at acts
      split at acts
      · next busy => exact ⟨busy,fun _ _ owed => by simp [owes] at owed⟩
      · cases acts
    | ending =>
      simp only [logs,act] at acts
      split at acts
      · cases acts
      · split at acts <;> cases acts
    | _ => cases acts
  release {w p k k'} _ _ _ acts c _ owed := by
    rcases owed with rfl | rfl <;> cases acts
  outside {w p k log k'} good _ here does _ _ busy := by
    cases does with
    | clear =>
      -- the header is emptied by the process that commits
      refine .inl (good.commits p ?_)
      rw [World.point,here]
      trivial
    | _ => exact busy

theorem initial_good (size : Int) : Good (initial ι size).data (initial ι size).point where
  count := ⟨∅,fun p => by simp [initial,World.point,Place.point,Point.InOp],rfl⟩
  alone := fun _ => rfl
  commits := fun _ h => False.elim h
  unique := fun _ _ h => False.elim h
  cleared := fun _ h => False.elim h
  empty := fun _ _ => rfl

variable [DecidableEq ι]

theorem Good.enters {log : Log} {point : ι → Point} {p : ι} {k : Point} (good : Good log point) (enters : enter (point p) k) :
    Good log (update point p k) := by
  unfold enter at enters
  split at enters
  · next here => exact good.move (by rw [here]; exact Iff.rfl) False.elim False.elim
  · next here => exact good.move (by rw [here]; exact Iff.rfl) False.elim False.elim
  · next here => exact good.move (by rw [here]; exact Iff.rfl) False.elim False.elim
  · next here =>
    exact good.move (by rw [here]; exact Iff.rfl) (fun _ => by rw [here]; trivial) fun _ => .inl (by rw [here]; trivial)
  · exact False.elim enters

/-- The worlds that `begin_op`, `log_write` and `end_op` reach, with any kills. -/
abbrev Reached (size : Int) (w : World ι Unit Log Point) : Prop := Run (logs ι) (fun _ _ => True) (initial ι size) w

theorem Reached.good {size : Int} {w : World ι Unit Log Point} (run : Reached size w) : Good w.data w.point :=
  run.points (initial_good size) (fun _ _ _ _ good enters => good.enters enters)
    (fun _ _ _ _ _ good acts => good.acts acts) fun _ _ _ _ _ good does => good.outside does

/-- For any interleaving of `begin_op`, `log_write` and `end_op`: whenever `log.lock` is free, a process asleep in
    `begin_op` could not be admitted, and with no operation outstanding and no commit nobody is asleep there. -/
theorem begin_op_sleepers {size : Int} {w : World ι Unit Log Point} (run : Reached size w) (free : w.lock = none) :
    (∀ p k, w.place p = .asleep () k →
      w.data.committing = true ∨ w.data.lh.length + (w.data.outstanding + 1) * MAXOPBLOCKS > LOGSIZE) ∧
    (w.data.outstanding = 0 → w.data.committing = false → ∀ p k, w.place p ≠ .asleep () k) := by
  have busy (p : ι) (k : Point) (here : w.place p = .asleep () k) : w.data.Busy := by
    have locked : Locked (initial ι size) := ⟨fun _ => by simp [initial,Place.Holds],fun _ drowsy => False.elim drowsy⟩
    have first : Reasons reason owes (initial ι size) :=
      ⟨fun _ _ sleeps => False.elim sleeps,fun _ _ _ going => by cases going⟩
    exact run.reasoned locked first (fun _ run => Reached.good run) logs_wakes free (p := p) (c := ()) (by rw [here]; rfl)
  refine ⟨busy,fun none still p k here => ?_⟩
  have empty := run.good.empty none still
  rcases busy p k here with commits | full
  · exact absurd (still.symm.trans commits) (by decide)
  · rw [empty,none] at full
    exact absurd full (by decide)

instance (k k' : Point) : Decidable (enter k k') := by
  unfold enter
  split <;> infer_instance

instance (p : ι) (k k' : Point) : Decidable ((logs ι).enter p k k') := inferInstanceAs (Decidable (enter k k'))

/-- Four processes call `begin_op`; the fourth goes to sleep. -/
theorem begin_op_sleepers_fourth : ∃ w : World (Fin 4) Unit Log Point, w.place 3 = .asleep () .test ∧
    (w.data.committing = true ∨ w.data.lh.length + (w.data.outstanding + 1) * MAXOPBLOCKS > LOGSIZE) := by
  have call {w : World (Fin 4) Unit Log Point} (run : Reached 30 w) (p : Fin 4) (here : w.place p = .out .idle) :
      Reached 30 (w.put p (.out .calls)) := run.step trivial (.outside here .begin_op)
  have called := call (call (call (call .start 0 rfl) 1 rfl) 2 rfl) 3 rfl
  have followed : (World.follow (logs (Fin 4)) ((((((initial (Fin 4) 30).put 0 (.out .calls)).put 1 (.out .calls)).put 2
      (.out .calls)).put 3 (.out .calls))) [.enter 0 .calls .test,.go 0,.go 0,.enter 1 .calls .test,.go 1,.go 1,
      .enter 2 .calls .test,.go 2,.go 2,.enter 3 .calls .test,.go 3,.go 3,.go 3]).isSome := by decide
  have run : Reached 30 (Option.get _ followed) := called.follow (Option.some_get followed).symm
  exact ⟨_,rfl,(begin_op_sleepers run rfl).1 3 .test rfl⟩

end Xv6.LogSleep
