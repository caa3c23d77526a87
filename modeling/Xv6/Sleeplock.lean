import Xv6.Lib.Monitor

/-!
The sleep-locks of `sleeplock.c`. A sleep-lock is a flag under a spinlock; who finds it set sleeps on the sleep-lock's
address.
-/
namespace Xv6.Sleep
open Xv6.Lib Function

variable {ι : Type}

/-- `struct sleeplock`, without the spinlock. -/
structure Sleeplock (ι : Type) where
  locked : Bool
  pid : Option ι

/-- Where a process is in the functions of `sleeplock.c`. -/
inductive Point where
  | idle
  /-- `acquiresleep`, at the test of the loop -/
  | test
  /-- `acquiresleep`, before `release` -/
  | took
  /-- `acquiresleep` has returned -/
  | has
  /-- `releasesleep`, after `acquire` -/
  | drop
  /-- `releasesleep`, before `wakeup` -/
  | dropped
  /-- `releasesleep`, before `release` -/
  | woke
  /-- `holdingsleep`, called with the lock or without -/
  | look (mine : Bool)
  deriving DecidableEq

/-- The spinlock's sections. A call starts outside of them. -/
def enter : Point → Point → Prop
  | .idle,.test => True
  | .has,.drop => True
  | .idle,.look mine => mine = false
  | .has,.look mine => mine = true
  | _,_ => False

/-- What process `p` does next with the spinlock. -/
def act (p : ι) (lk : Sleeplock ι) : Point → Act Unit (Sleeplock ι) Point
  | .test => if lk.locked then .sleep () .test else .go ⟨true,some p⟩ .took
  | .took => .release .has
  | .drop => .go ⟨false,none⟩ .dropped
  | .dropped => .wakeup () .woke
  | .woke => .release .idle
  | .look mine => .release (if mine then .has else .idle)
  | .idle => .release .idle
  | .has => .release .has

/-- The sleep-lock as a monitor; its address is the only channel. -/
def sleeplock (ι : Type) : Monitor ι Unit (Sleeplock ι) Point where
  act p _ k lk := act p lk k
  enter _ := enter
  outside _ _ _ _ _ := False

/-- `initsleeplock` has been called. -/
def initial (ι : Type) : World ι Unit (Sleeplock ι) Point where
  data := ⟨false,none⟩
  lock := none
  ptable := none
  place _ := .out .idle
  killed _ := false

/-- `acquiresleep` has taken the lock and `releasesleep` has not cleared it. -/
def Point.Owns : Point → Prop
  | .took => True
  | .has => True
  | .drop => True
  | .look mine => mine = true
  | _ => False

/-- Between a returned `acquiresleep` and the clearing of the lock in `releasesleep`. -/
def Between (w : World ι Unit (Sleeplock ι) Point) (p : ι) : Prop :=
  w.place p = .out .has ∨ w.place p = .inside .drop ∨ w.place p = .inside (.look true)

/-! ### Wakeups -/

/-- A process waits for the lock while it is taken. -/
def reason (_ : Unit) (lk : Sleeplock ι) : Prop := lk.locked = true

/-- `releasesleep` has cleared the lock and has not called `wakeup` yet. -/
def owes (k : Point) (_ : Unit) : Prop := k = .dropped

theorem wakes : Wakes (sleeplock ι) (fun _ _ => True) (fun _ => True) reason owes where
  go {w p k lk k'} _ _ _ acts c _ before := by
    cases k with
    | test =>
      simp only [sleeplock,act] at acts
      split at acts
      · cases acts
      · cases acts
        exact .inl rfl
    | drop =>
      cases acts
      exact .inr rfl
    | _ => cases acts
  wakeup _ _ _ _ _ _ other := absurd rfl other
  sleep {w p k c k'} _ _ _ acts := by
    cases k with
    | test =>
      simp only [sleeplock,act] at acts
      split at acts
      · next taken => exact ⟨taken,fun _ _ owed => by cases owed⟩
      · cases acts
    | _ => cases acts
  release {w p k k'} _ _ _ acts c _ owed := by
    rw [owed] at acts
    cases acts
  outside _ _ _ does := False.elim does

/-! ### Exclusion -/

variable [DecidableEq ι]

abbrev Reached (w : World ι Unit (Sleeplock ι) Point) : Prop := Run (sleeplock ι) (fun _ _ => True) (initial ι) w

/-- Who has the lock is in its `pid`. -/
def Owned (lk : Sleeplock ι) (point : ι → Point) : Prop := ∀ p, (point p).Owns → lk.locked = true ∧ lk.pid = some p

theorem owned_update {lk : Sleeplock ι} {point : ι → Point} {p : ι} {k : Point} (owned : Owned lk point)
    (same : k.Owns → (point p).Owns) : Owned lk (update point p k) := by
  intro q owns
  rcases eq_or_ne q p with rfl | other
  · rw [update_self] at owns
    exact owned q (same owns)
  · rw [update_of_ne other] at owns
    exact owned q owns

theorem Reached.owned {w : World ι Unit (Sleeplock ι) Point} (run : Reached w) : Owned w.data w.point := by
  refine run.points ?_ (fun lk point p k owned enters => ?_) (fun lk point p _ x owned acts => ?_) ?_
  · exact fun p owns => False.elim owns
  · refine owned_update owned fun owns => ?_
    revert enters owns
    cases point p <;> cases k <;> simp [sleeplock,enter,Point.Owns]
  · subst acts
    cases here : point p with
    | test =>
      show Owned _ (update point p _)
      simp only [sleeplock,act]
      split
      · exact owned_update owned False.elim
      · -- the lock was free, so nobody else has it
        next free =>
        intro q owns
        rcases eq_or_ne q p with rfl | other
        · exact ⟨rfl,rfl⟩
        · rw [update_of_ne other] at owns
          exact absurd (owned q owns).1 free
    | drop =>
      -- the process itself was the one that had the lock
      have mine := (owned p (by rw [here]; trivial)).2
      intro q owns
      rcases eq_or_ne q p with rfl | other
      · rw [update_self] at owns
        exact False.elim owns
      · rw [update_of_ne other] at owns
        have his := (owned q owns).2
        rw [mine] at his
        exact absurd (Option.some.inj his).symm other
    | took | has => exact owned_update owned fun _ => by rw [here]; trivial
    | look mine =>
      cases mine with
      | true => exact owned_update owned fun _ => by rw [here]; rfl
      | false => exact owned_update owned False.elim
    | dropped | woke | idle => exact owned_update owned False.elim
  · exact fun _ _ _ _ _ _ does => False.elim does

/-- For any interleaving of the calls at the granularity of the two spinlocks, and any kills: at most one process is
    between a returned `acquiresleep` and its `releasesleep`, and the sleep-lock names it; and whenever the sleep-lock
    is free and neither spinlock is held, nobody is asleep on it. -/
theorem sleeplock_exclusive {w : World ι Unit (Sleeplock ι) Point} (run : Reached w) :
    (∀ p q, Between w p → Between w q → p = q) ∧ (∀ p, Between w p → w.data.locked = true ∧ w.data.pid = some p) ∧
      (w.data.locked = false → w.lock = none → w.ptable = none → ∀ p k, w.place p ≠ .asleep () k) := by
  have owned (p : ι) (between : Between w p) : w.data.locked = true ∧ w.data.pid = some p := by
    refine run.owned p ?_
    rcases between with here | here | here <;> rw [World.point,here] <;> trivial
  refine ⟨fun p q mine his => ?_,owned,fun free lock _ p k here => ?_⟩
  · have same := (owned p mine).2.symm.trans (owned q his).2
    exact Option.some.inj same
  · have locked : Locked (initial ι) := ⟨fun _ => by simp [initial,Place.Holds],fun _ drowsy => False.elim drowsy⟩
    have first : Reasons reason owes (initial ι) := ⟨fun _ _ sleeps => False.elim sleeps,fun _ _ _ going => by cases going⟩
    have taken := run.reasoned locked first (fun _ _ => trivial) wakes lock (p := p) (c := ()) (by rw [here]; rfl)
    exact absurd (taken.symm.trans free) (by decide)

instance (p : ι) (k k' : Point) : Decidable ((sleeplock ι).enter p k k') := by
  cases k <;> cases k' <;> simp only [sleeplock,enter] <;> infer_instance

/-- One process takes the lock, and another goes to sleep for it. -/
theorem sleeplock_exclusive_contended : ∃ w : World (Fin 2) Unit (Sleeplock (Fin 2)) Point,
    Between w 0 ∧ w.place 1 = .asleep () .test ∧ ∀ q, Between w q → 0 = q := by
  have followed : ((initial (Fin 2)).follow (sleeplock (Fin 2))
      [.enter 0 .idle .test,.go 0,.go 0,.enter 1 .idle .test,.go 1,.go 1,.go 1]).isSome := by decide
  have run : Reached (Option.get _ followed) := Run.start.follow (Option.some_get followed).symm
  have holds : Between (Option.get _ followed) 0 := .inl rfl
  exact ⟨_,holds,rfl,fun q his => (sleeplock_exclusive run).1 0 q holds his⟩

end Xv6.Sleep
