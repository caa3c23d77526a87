import Xv6.Lib.Monitor

/-!
The clock: the timer interrupt of `trap.c` and `sys_sleep` of `sysproc.c`, under `tickslock`.
-/
namespace Xv6.Ticks
open Xv6.Lib Function

/-- `ticks`, and how many timer interrupts there have been. -/
structure Clock where
  ticks : UInt32
  interrupts : Nat

/-- Where a process, or an interrupt handler, is. In `sys_sleep`, `since` is how many interrupts there had been when it
    read `ticks`; the comparison with `n` is one of unsigned numbers. -/
inductive Point where
  | idle
  /-- `sys_sleep`, after `acquire` -/
  | start (n : UInt32)
  /-- `sys_sleep`, at the test of its loop -/
  | loop (ticks0 n : UInt32) (since : Nat)
  /-- `sys_sleep` has returned 0 -/
  | slept (n : UInt32) (since : Nat)
  /-- `sys_sleep` has returned -1 -/
  | failed
  /-- `trap`, before `ticks++` -/
  | tick
  /-- `trap`, before `wakeup` -/
  | ticked
  /-- `trap`, before `release` -/
  | woke
  deriving DecidableEq

def enter : Point → Point → Bool
  | .idle,.tick | .idle,.start _ | .slept _ _,.start _ | .failed,.start _ => true
  | _,_ => false

def act (killed : Bool) (s : Clock) : Point → Act Unit Clock Point
  | .start n => .go s (.loop s.ticks n s.interrupts)
  | .loop ticks0 n since =>
    if (s.ticks - ticks0).toNat < n.toNat then if killed then .release .failed else .sleep () (.loop ticks0 n since)
    else .release (.slept n since)
  | .tick => .go ⟨s.ticks + 1,s.interrupts + 1⟩ .ticked
  | .ticked => .wakeup () .woke
  | .woke => .release .idle
  | k => .release k

/-- The clock as a monitor; `&ticks` is the only channel. -/
def clock (ι : Type) : Monitor ι Unit Clock Point where
  act _ killed k s := act killed s k
  enter _ k k' := enter k k'
  outside _ _ _ _ _ := False

def initial (ι : Type) : World ι Unit Clock Point := ⟨⟨0,0⟩,none,none,fun _ => .out .idle,fun _ => false⟩

variable {ι : Type}

/-- The test of the loop that a process sleeps in. -/
def early (_ : Unit) (k : Point) (s : Clock) : Prop := ∀ ticks0 n since, k = .loop ticks0 n since →
  (s.ticks - ticks0).toNat < n.toNat

theorem watches : Watches (clock ι) (fun _ _ => True) (fun _ => True) early fun k _ => k = .ticked where
  go {w p k s k'} _ _ _ acts c j before := by
    cases k with
    | start n =>
      cases acts
      simpa using before
    | loop =>
      dsimp only [clock, act] at acts
      split_ifs at acts
    | tick =>
      cases acts
      exact .inr rfl
    | _ => cases acts
  wakeup _ _ _ _ _ _ other := absurd rfl other
  sleep {w p k c k'} _ _ _ acts := by
    cases k with
    | loop =>
      dsimp only [clock, act] at acts
      split_ifs at acts with before
      cases acts
      refine ⟨?_,by simp⟩
      intro ticks0 n since here
      cases here
      exact before
    | _ => cases acts
  release _ _ _ acts d _ owed := by
    subst owed
    cases acts
  outside _ _ _ does := does.elim

/-- What a process that has read the clock knows of it. -/
def Point.Past (s : Clock) : Point → Prop
  | .loop ticks0 _ since => ticks0 = UInt32.ofNat since ∧ since ≤ s.interrupts
  | .slept n since => since + n.toNat ≤ s.interrupts
  | _ => True

theorem Point.Past.later {s : Clock} {k : Point} (past : k.Past s) : k.Past ⟨s.ticks + 1,s.interrupts + 1⟩ := by
  cases k with
  | loop => exact ⟨past.1,Nat.le_succ_of_le past.2⟩
  | slept => exact Nat.le_succ_of_le past
  | _ => trivial

theorem toNat_since {s : Clock} {since : Nat} (told : s.ticks = UInt32.ofNat s.interrupts) (before : since ≤ s.interrupts) :
    (s.ticks - UInt32.ofNat since).toNat = (s.interrupts - since) % 2 ^ 32 := by
  rw [told, ← UInt32.ofNat_sub before, UInt32.toNat_ofNat']

/-- `ticks` counts the interrupts. -/
def Told (s : Clock) (point : ι → Point) : Prop := s.ticks = UInt32.ofNat s.interrupts ∧ ∀ p, (point p).Past s

variable [DecidableEq ι]

abbrev Reached (w : World ι Unit Clock Point) : Prop := Run (clock ι) (fun _ _ => True) (initial ι) w

theorem Told.goto {s : Clock} {point : ι → Point} {p : ι} {k : Point} (told : Told s point) (past : k.Past s) :
    Told s (update point p k) := by
  refine ⟨told.1,fun q => ?_⟩
  by_cases same : q = p
  · rw [same, update_self]
    exact past
  · rw [update_of_ne same]
    exact told.2 q

theorem Reached.told {w : World ι Unit Clock Point} (run : Reached w) : Told w.data w.point := by
  refine run.points ?_ (fun s point p k told enters => ?_) (fun s point p killed x told acts => ?_)
    (fun _ _ _ _ _ _ does => False.elim does)
  · exact ⟨rfl,fun _ => trivial⟩
  · refine told.goto ?_
    cases k <;> simp_all [clock, enter, Point.Past]
  · subst acts
    have past := told.2 p
    cases here : point p with
    | start n => exact told.goto ⟨told.1,Nat.le_refl _⟩
    | loop ticks0 n since =>
      rw [here] at past
      dsimp only [clock, act]
      split_ifs with before
      · exact told.goto trivial
      · exact told.goto past
      · -- so many ticks have passed, and at least as many interrupts
        refine told.goto ?_
        rw [past.1, toNat_since told.1 past.2] at before
        have := Nat.mod_le (s.interrupts - since) (2 ^ 32)
        have := past.2
        show since + n.toNat ≤ s.interrupts
        omega
    | tick =>
      have next : Told ⟨s.ticks + 1,s.interrupts + 1⟩ point :=
        ⟨by simp [told.1, UInt32.ofNat_add],fun q => (told.2 q).later⟩
      exact next.goto trivial
    | slept n since => exact told.goto (by rwa [here] at past)
    | _ => exact told.goto trivial

/-- For any interleaving of calls, interrupts and kills: `sleep(n)` returns 0 only after `n` interrupts, and while
    `tickslock` is free, who sleeps in it has let fewer than `n` pass, up to a turn of the counter. -/
theorem sys_sleep_times {w : World ι Unit Clock Point} (run : Reached w) :
    (∀ p n since, w.point p = .slept n since → since + n.toNat ≤ w.data.interrupts) ∧
    (w.lock = none → ∀ p ticks0 n since, (w.place p).Waits () (.loop ticks0 n since) →
      (w.data.interrupts - since) % 2 ^ 32 < n.toNat) := by
  have told := run.told
  refine ⟨?_,?_⟩
  · intro p n since here
    have past := told.2 p
    rwa [here] at past
  · intro free p ticks0 n since waits
    have locked : Locked (initial ι) := ⟨fun _ => by simp [initial, Place.Holds],fun _ drowsy => False.elim drowsy⟩
    have before := run.watched locked (fun _ _ _ waits => False.elim waits) (fun _ _ => trivial) watches free waits
      ticks0 n since rfl
    have past := told.2 p
    have here : w.point p = .loop ticks0 n since := by
      unfold World.point
      cases here : w.place p <;> simp_all [Place.Waits, Place.point]
    rw [here] at past
    rwa [past.1, toNat_since told.1 past.2] at before

instance (p : ι) (k k' : Point) : Decidable ((clock ι).enter p k k') := inferInstanceAs (Decidable (enter k k' = true))

/-- A process sleeps for one tick; the interrupt wakes it. -/
theorem sys_sleep_times_one : ∃ w : World Bool Unit Clock Point, w.point true = .slept 1 0 ∧ 0 + 1 ≤ w.data.interrupts := by
  have followed : ((initial Bool).follow (clock Bool) [.enter true .idle (.start 1),.go true,.go true,.go true,.go true,.go true,
    .enter false .idle .tick,.go false,.go false,.go false,.go true,.go true]).isSome := by decide
  have run : Reached (Option.get _ followed) := Run.start.follow (Option.some_get followed).symm
  exact ⟨_,rfl,(sys_sleep_times run).1 true 1 0 rfl⟩

end Xv6.Ticks
