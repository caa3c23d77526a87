import Mathlib.Tactic

/-!
Data under a spinlock, with `sleep` and `wakeup`. A process that holds the lock changes
the data, wakes the sleepers of a channel, goes to sleep on one or releases the lock;
what it does next depends on its control point and the data (`Monitor`). `sleep` takes
the lock of the process table, releases the lock of the data and only then makes the
process a sleeper; `wakeup` and `kill` run under the lock of the process table.
A sleeper needs a reason to sleep. `Wakes` says that a holder who removes the reason
of a channel wakes the channel before it lets go of the lock, and `Run.reasoned`
concludes that no wakeup is lost.
-/
namespace Xv6.Lib
open Function

variable {ι κ σ π : Type}

/-- What a process that holds the lock does next. -/
inductive Act (κ σ π : Type) where
  | go (s : σ) (k : π)
  | wakeup (c : κ) (k : π)
  | sleep (c : κ) (k : π)
  | release (k : π)

/-- The data and the control point after an action. -/
def Act.next (s : σ) : Act κ σ π → σ × π
  | go s' k => (s',k)
  | wakeup _ k => (s,k)
  | sleep _ k => (s,k)
  | release k => (s,k)

/-- The code of the processes: what a process does at a control point with the lock, how it
    enters a section, and what it may do to the data without the lock. -/
structure Monitor (ι κ σ π : Type) where
  /-- The second argument is the process's `killed` flag. -/
  act : ι → Bool → π → σ → Act κ σ π
  enter : ι → π → π → Prop
  outside : ι → π → σ → π → σ → Prop

/-- Where a process is. -/
inductive Place (κ π : Type) where
  /-- without the lock -/
  | out (k : π)
  /-- with the lock -/
  | inside (k : π)
  /-- in `sleep`, with the lock and the lock of the process table -/
  | going (c : κ) (k : π)
  /-- in `sleep`, with the lock of the process table only -/
  | dozing (c : κ) (k : π)
  /-- `SLEEPING` -/
  | asleep (c : κ) (k : π)
  /-- out of `sleep` but for the lock -/
  | woken (k : π)
  deriving DecidableEq

namespace Place

/-- The process holds the lock. -/
def Holds : Place κ π → Prop
  | inside _ => True
  | going _ _ => True
  | _ => False

/-- The process is in `sleep` and holds the lock of the process table. -/
def Drowsy : Place κ π → Prop
  | going _ _ => True
  | dozing _ _ => True
  | _ => False

/-- The process has let go of the lock to sleep on the channel. -/
def Sleeps (c : κ) : Place κ π → Prop
  | dozing d _ => d = c
  | asleep d _ => d = c
  | _ => False

/-- The control point of the process; a sleeper goes on there. -/
def point : Place κ π → π
  | out k => k
  | inside k => k
  | going _ k => k
  | dozing _ k => k
  | asleep _ k => k
  | woken k => k

/-- A sleeper is made runnable. -/
def rouse : Place κ π → Place κ π
  | asleep _ k => woken k
  | other => other

/-- A sleeper of the channel is made runnable. -/
def wake [DecidableEq κ] (c : κ) : Place κ π → Place κ π
  | asleep d k => if d = c then woken k else asleep d k
  | other => other

end Place

/-- The data, the spinlock that protects it, the lock of the process table, and the processes. -/
structure World (ι κ σ π : Type) where
  data : σ
  lock : Option ι
  ptable : Option ι
  place : ι → Place κ π
  killed : ι → Bool

/-- Who takes a step. -/
inductive Label (ι : Type) where
  | by (p : ι)
  | kill (p : ι)

/-- The world with one process in another place. -/
def World.put [DecidableEq ι] (w : World ι κ σ π) (p : ι) (x : Place κ π) : World ι κ σ π :=
  { w with place := update w.place p x }

/-- The control points of the processes. -/
def World.point (w : World ι κ σ π) (p : ι) : π := (w.place p).point

/-! ### Locks and reasons to sleep -/

/-- The locks are held by those who say so. -/
structure Locked (w : World ι κ σ π) : Prop where
  lock : ∀ p, w.lock = some p ↔ (w.place p).Holds
  ptable : ∀ p, (w.place p).Drowsy → w.ptable = some p

variable {w : World ι κ σ π}

theorem Locked.alone (locked : Locked w) {p q : ι} {k k' : π} (here : w.place p = .inside k)
    (there : w.place q = .inside k') : q = p ∧ k' = k := by
  have mine := (locked.lock p).mpr (by rw [here]; trivial)
  have other := (locked.lock q).mpr (by rw [there]; trivial)
  have same : q = p := Option.some.inj (other.symm.trans mine)
  subst same
  rw [here] at there
  cases there
  exact ⟨rfl,rfl⟩

variable {c : κ}

/-- Every sleeper has its reason, or somebody with the lock owes it a wakeup; who is about to sleep has its reason. -/
structure Reasons (reason : κ → σ → Prop) (owes : π → κ → Prop) (w : World ι κ σ π) : Prop where
  sleeps : ∀ p c, (w.place p).Sleeps c → reason c w.data ∨ ∃ q k, w.place q = .inside k ∧ owes k c
  going : ∀ p c k, w.place p = .going c k → reason c w.data

variable {reason : κ → σ → Prop} {owes : π → κ → Prop}

variable [DecidableEq ι]

theorem place_put (w : World ι κ σ π) (p : ι) (x : Place κ π) : (w.put p x).place = update w.place p x := rfl

theorem point_put (w : World ι κ σ π) (p : ι) (x : Place κ π) : (w.put p x).point = update w.point p x.point := by
  funext q
  rcases eq_or_ne q p with rfl | other
  · simp [World.point,place_put]
  · simp [World.point,place_put,other]

theorem point_rouse (x : Place κ π) : x.rouse.point = x.point := by cases x <;> rfl

theorem holds_rouse (x : Place κ π) : x.rouse.Holds ↔ x.Holds := by cases x <;> exact Iff.rfl

theorem drowsy_rouse (x : Place κ π) : x.rouse.Drowsy ↔ x.Drowsy := by cases x <;> exact Iff.rfl

variable {x : Place κ π}

theorem Locked.put (locked : Locked w) {p : ι} {lock ptable : Option ι}
    (mine : lock = some p ↔ x.Holds) (others : ∀ q, q ≠ p → (lock = some q ↔ w.lock = some q))
    (table : x.Drowsy → ptable = some p) (tables : ∀ q, q ≠ p → w.ptable = some q → (w.place q).Drowsy → ptable = some q) :
    Locked { w.put p x with lock := lock, ptable := ptable } where
  lock q := by
    rcases eq_or_ne q p with rfl | other
    · simp only [place_put,update_self]
      exact mine
    · simp only [place_put,update_of_ne other]
      exact (others q other).trans (locked.lock q)
  ptable q := by
    rcases eq_or_ne q p with rfl | other
    · simp only [place_put,update_self]
      exact table
    · simp only [place_put,update_of_ne other]
      exact fun drowsy => tables q other (locked.ptable q drowsy) drowsy

variable {s : σ}

variable [DecidableEq κ]

/-- What is the same of a sleeper and of one that has been made runnable, `wakeup` does not change. -/
theorem wake_keeps {P : Place κ π → Prop} (same : ∀ x, P x.rouse ↔ P x) (c : κ) (x : Place κ π) : P (x.wake c) ↔ P x := by
  cases x with
  | asleep d k =>
    simp only [Place.wake]
    split
    · exact same (.asleep d k)
    · exact Iff.rfl
  | _ => exact Iff.rfl

theorem holds_wake (c : κ) (x : Place κ π) : (x.wake c).Holds ↔ x.Holds := wake_keeps holds_rouse c x

theorem drowsy_wake (c : κ) (x : Place κ π) : (x.wake c).Drowsy ↔ x.Drowsy := wake_keeps drowsy_rouse c x

/-! ### Steps and runs -/

/-- One step of the processes. -/
inductive Step (m : Monitor ι κ σ π) : Label ι → World ι κ σ π → World ι κ σ π → Prop where
  | acquire {w p k k'} (here : w.place p = .out k) (enters : m.enter p k k') (free : w.lock = none) :
    Step m (.by p) w { w.put p (.inside k') with lock := some p }
  | reacquire {w p k} (here : w.place p = .woken k) (free : w.lock = none) :
    Step m (.by p) w { w.put p (.inside k) with lock := some p }
  | go {w p k s k'} (here : w.place p = .inside k) (acts : m.act p (w.killed p) k w.data = .go s k') :
    Step m (.by p) w { w.put p (.inside k') with data := s }
  | wakeup {w p k c k'} (here : w.place p = .inside k) (acts : m.act p (w.killed p) k w.data = .wakeup c k')
    (free : w.ptable = none) :
    Step m (.by p) w { w with place := update (fun q => (w.place q).wake c) p (.inside k') }
  | sleep {w p k c k'} (here : w.place p = .inside k) (acts : m.act p (w.killed p) k w.data = .sleep c k')
    (free : w.ptable = none) : Step m (.by p) w { w.put p (.going c k') with ptable := some p }
  | unlock {w p c k} (here : w.place p = .going c k) : Step m (.by p) w { w.put p (.dozing c k) with lock := none }
  | doze {w p c k} (here : w.place p = .dozing c k) : Step m (.by p) w (w.put p (.asleep c k))
  /-- The scheduler releases the lock of the process table. -/
  | sched {w p c k} (here : w.place p = .asleep c k) (held : w.ptable = some p) :
    Step m (.by p) w { w with ptable := none }
  | release {w p k k'} (here : w.place p = .inside k) (acts : m.act p (w.killed p) k w.data = .release k') :
    Step m (.by p) w { w.put p (.out k') with lock := none }
  | outside {w p k s k'} (here : w.place p = .out k) (does : m.outside p k w.data k' s) :
    Step m (.by p) w { w.put p (.out k') with data := s }
  | kill {w p} (free : w.ptable = none) :
    Step m (.kill p) w { w.put p (w.place p).rouse with killed := update w.killed p true }

/-- The worlds that are reached by steps which all meet the condition `ok`. -/
inductive Run (m : Monitor ι κ σ π) (ok : Label ι → World ι κ σ π → Prop) (w₀ : World ι κ σ π) : World ι κ σ π → Prop where
  | start : Run m ok w₀ w₀
  | step {w w' l} (before : Run m ok w₀ w) (fine : ok l w) (next : Step m l w w') : Run m ok w₀ w'

variable {m : Monitor ι κ σ π} {ok : Label ι → World ι κ σ π → Prop} {w₀ w' : World ι κ σ π}

/-- What holds at first and is kept by every step holds all along a run. -/
theorem Run.keeps {Inv : World ι κ σ π → Prop} (first : Inv w₀)
    (keeps : ∀ l w w', Inv w → ok l w → Step m l w w' → Inv w') (run : Run m ok w₀ w) : Inv w := by
  induction run with
  | start => exact first
  | step _ fine next ih => exact keeps _ _ _ ih fine next

variable {l : Label ι}

theorem Locked.step (locked : Locked w) (next : Step m l w w') : Locked w' := by
  cases next with
  | acquire here enters free | reacquire here free =>
    refine locked.put (by simp [Place.Holds]) (fun q other => ?_) (by simp [Place.Drowsy]) fun q _ held _ => held
    simp [free,Ne.symm other]
  | @go _ p k s k' here acts =>
    have mine : w.lock = some p := (locked.lock p).mpr (by rw [here]; trivial)
    have moved := locked.put (p := p) (x := .inside k') (by simp [Place.Holds,mine]) (fun q _ => Iff.rfl)
      (by simp [Place.Drowsy]) fun q _ held _ => held
    exact ⟨moved.lock,moved.ptable⟩
  | @wakeup _ p k c k' here acts free =>
    have mine : w.lock = some p := (locked.lock p).mpr (by rw [here]; trivial)
    constructor
    · intro q
      rcases eq_or_ne q p with rfl | other
      · simp [mine,Place.Holds]
      · simp only [update_of_ne other,holds_wake]
        exact locked.lock q
    · intro q drowsy
      rcases eq_or_ne q p with rfl | other
      · simp [Place.Drowsy] at drowsy
      · simp only [update_of_ne other,drowsy_wake] at drowsy
        exact locked.ptable q drowsy
  | @sleep _ p k c k' here acts free =>
    have mine : w.lock = some p := (locked.lock p).mpr (by rw [here]; trivial)
    exact locked.put ⟨fun _ => trivial,fun _ => mine⟩ (fun q _ => Iff.rfl) (by simp) fun q _ held _ => by simp [free] at held
  | @unlock _ p c k here =>
    have mine : w.lock = some p := (locked.lock p).mpr (by rw [here]; trivial)
    have table : w.ptable = some p := locked.ptable p (by rw [here]; trivial)
    refine locked.put (by simp [Place.Holds]) (fun q other => ?_) (fun _ => table) fun q _ held _ => held
    simp [mine,Ne.symm other]
  | @doze _ p c k here =>
    have mine : w.lock ≠ some p := fun held => by simpa [here,Place.Holds] using (locked.lock p).mp held
    exact locked.put (by simp [Place.Holds,mine]) (fun q _ => Iff.rfl) (by simp [Place.Drowsy]) fun q _ held _ => held
  | @sched _ p c k here held =>
    refine ⟨locked.lock,fun q drowsy => ?_⟩
    have same : p = q := Option.some.inj (held.symm.trans (locked.ptable q drowsy))
    simp [← same,here,Place.Drowsy] at drowsy
  | @release _ p k k' here acts =>
    have mine : w.lock = some p := (locked.lock p).mpr (by rw [here]; trivial)
    refine locked.put (by simp [Place.Holds]) (fun q other => ?_) (by simp [Place.Drowsy]) fun q _ held _ => held
    simp [mine,Ne.symm other]
  | @outside _ p k s k' here does =>
    have mine : w.lock ≠ some p := fun held => by simpa [here,Place.Holds] using (locked.lock p).mp held
    have moved := locked.put (p := p) (x := .out k') (by simp [Place.Holds,mine]) (fun q _ => Iff.rfl)
      (by simp [Place.Drowsy]) fun q _ held _ => held
    exact ⟨moved.lock,moved.ptable⟩
  | @kill _ p free =>
    have moved := locked.put (p := p) (x := (w.place p).rouse) (by rw [holds_rouse]; exact locked.lock p)
      (fun q _ => Iff.rfl) (by rw [drowsy_rouse]; exact locked.ptable p) fun q _ held _ => held
    exact ⟨moved.lock,moved.ptable⟩

/-! ### Control points -/

theorem point_wake (c : κ) (x : Place κ π) : (x.wake c).point = x.point :=
  (wake_keeps (P := fun y => y.point = x.point) (fun y => by rw [point_rouse]) c x).mpr rfl

/-- The control points when the sleepers of a channel are woken by a process that goes on. -/
theorem points_wakeup (w : World ι κ σ π) (c : κ) (p : ι) (k : π) :
    World.point { w with place := update (fun q => (w.place q).wake c) p (.inside k) } = update w.point p k := by
  funext q
  rcases eq_or_ne q p with rfl | other
  · simp [World.point,Place.point]
  · simp [World.point,other,point_wake]

/-- What a step does to the data and the control points: nothing, or what the code of a process says. -/
theorem Step.points (next : Step m l w w') : (w'.data = w.data ∧ w'.point = w.point) ∨
    (∃ p k, m.enter p (w.point p) k ∧ w'.data = w.data ∧ w'.point = update w.point p k) ∨
    (∃ p x, x = (m.act p (w.killed p) (w.point p) w.data).next w.data ∧ w'.data = x.1 ∧ w'.point = update w.point p x.2) ∨
    ∃ p k, m.outside p (w.point p) w.data k w'.data ∧ w'.point = update w.point p k := by
  have stays (p : ι) (x : Place κ π) (same : x.point = (w.place p).point) : (w.put p x).point = w.point := by
    rw [point_put,same]
    exact update_eq_self p w.point
  have at' {p : ι} {x : Place κ π} (here : w.place p = x) : w.point p = x.point := by rw [World.point,here]
  cases next with
  | @acquire _ p k k' here enters free =>
    exact .inr (.inl ⟨p,k',by rw [at' here]; exact enters,rfl,point_put w p (.inside k')⟩)
  | @reacquire _ p k here free => exact .inl ⟨rfl,stays p (.inside k) (by rw [here]; rfl)⟩
  | @go _ p k s k' here acts =>
    exact .inr (.inr (.inl ⟨p,(s,k'),by rw [at' here,Place.point,acts]; rfl,rfl,point_put w p (.inside k')⟩))
  | @wakeup _ p k c k' here acts free =>
    exact .inr (.inr (.inl ⟨p,(w.data,k'),by rw [at' here,Place.point,acts]; rfl,rfl,points_wakeup w c p k'⟩))
  | @sleep _ p k c k' here acts free =>
    exact .inr (.inr (.inl ⟨p,(w.data,k'),by rw [at' here,Place.point,acts]; rfl,rfl,point_put w p (.going c k')⟩))
  | @unlock _ p c k here => exact .inl ⟨rfl,stays p (.dozing c k) (by rw [here]; rfl)⟩
  | @doze _ p c k here => exact .inl ⟨rfl,stays p (.asleep c k) (by rw [here]; rfl)⟩
  | @sched _ p c k here held => exact .inl ⟨rfl,rfl⟩
  | @release _ p k k' here acts =>
    exact .inr (.inr (.inl ⟨p,(w.data,k'),by rw [at' here,Place.point,acts]; rfl,rfl,point_put w p (.out k')⟩))
  | @outside _ p k s k' here does =>
    exact .inr (.inr (.inr ⟨p,k',by rw [at' here]; exact does,point_put w p (.out k')⟩))
  | @kill _ p free => exact .inl ⟨rfl,stays p _ (point_rouse _)⟩

/-- What holds of the data and the control points at first and is kept by the code holds all along a run. -/
theorem Run.points {Inv : σ → (ι → π) → Prop} (first : Inv w₀.data w₀.point)
    (enters : ∀ s point p k, Inv s point → m.enter p (point p) k → Inv s (update point p k))
    (acts : ∀ s point p killed x, Inv s point → (m.act p killed (point p) s).next s = x → Inv x.1 (update point p x.2))
    (outside : ∀ s point p k s', Inv s point → m.outside p (point p) s k s' → Inv s' (update point p k))
    (run : Run m ok w₀ w) : Inv w.data w.point := by
  induction run with
  | start => exact first
  | step before fine next ih =>
    rcases next.points with ⟨data,point⟩ | ⟨p,k,does,data,point⟩ | ⟨p,x,does,data,point⟩ | ⟨p,k,does,point⟩
    · rwa [data,point]
    · rw [data,point]
      exact enters _ _ p k ih does
    · rw [data,point]
      exact acts _ _ p _ x ih does.symm
    · rw [point]
      exact outside _ _ p k _ ih does

/-! ### No lost wakeups -/

theorem Run.locked (locked : Locked w₀) (run : Run m ok w₀ w) : Locked w :=
  run.keeps locked fun _ _ _ locked _ next => locked.step next

/-- The process is in `sleep` on the channel and goes on at the control point. -/
def Place.Waits (c : κ) (k : π) : Place κ π → Prop
  | .going d j | .dozing d j | .asleep d j => d = c ∧ j = k
  | _ => False

/-- Every process in `sleep` has its reason, or somebody with the lock owes the channel a wakeup. The reason is one of
    the channel and of the control point where the process goes on. -/
def Reasoned (reason : κ → π → σ → Prop) (owes : π → κ → Prop) (w : World ι κ σ π) : Prop :=
  ∀ p c k, (w.place p).Waits c k → reason c k w.data ∨ ∃ q j, w.place q = .inside j ∧ owes j c

/-- Who removes a reason of a channel owes its sleepers a wakeup, and pays before it lets go of
    the lock. `Inv` is what else is known of the worlds. -/
structure Watches (m : Monitor ι κ σ π) (ok : Label ι → World ι κ σ π → Prop) (Inv : World ι κ σ π → Prop)
    (reason : κ → π → σ → Prop) (owes : π → κ → Prop) : Prop where
  go : ∀ {w p k s k'}, Inv w → ok (.by p) w → w.place p = .inside k → m.act p (w.killed p) k w.data = .go s k' →
    ∀ c j, reason c j w.data ∨ owes k c → reason c j s ∨ owes k' c
  wakeup : ∀ {w p k c k'}, Inv w → ok (.by p) w → w.place p = .inside k →
    m.act p (w.killed p) k w.data = .wakeup c k' → ∀ d j, d ≠ c → owes k d → reason d j w.data ∨ owes k' d
  sleep : ∀ {w p k c k'}, Inv w → ok (.by p) w → w.place p = .inside k →
    m.act p (w.killed p) k w.data = .sleep c k' → reason c k' w.data ∧ ∀ d j, owes k d → reason d j w.data
  /-- Where nobody sleeps, nothing is owed. -/
  release : ∀ {w p k k'}, Inv w → ok (.by p) w → w.place p = .inside k →
    m.act p (w.killed p) k w.data = .release k' → ∀ d j, owes k d → (∃ q, (w.place q).Sleeps d) → reason d j w.data
  outside : ∀ {w p k s k'}, Inv w → ok (.by p) w → w.place p = .out k → m.outside p k w.data k' s →
    ∀ d j, reason d j w.data → reason d j s

/-- The reasons are those of the channels alone. -/
abbrev Wakes (m : Monitor ι κ σ π) (ok : Label ι → World ι κ σ π → Prop) (Inv : World ι κ σ π → Prop)
    (reason : κ → σ → Prop) (owes : π → κ → Prop) : Prop := Watches m ok Inv (fun c _ => reason c) owes

section
variable {Inv : World ι κ σ π → Prop} {reason : κ → π → σ → Prop}

theorem waits_wake {d : κ} {k : π} (waits : (x.wake c).Waits d k) : x.Waits d k ∧ (d = c → x.Drowsy) := by
  cases x <;> grind [Place.wake, Place.Waits, Place.Drowsy]

omit [DecidableEq κ] in
theorem waits_holds {k : π} (waits : x.Waits c k) : x.Holds ∨ x.Sleeps c := by
  cases x with
  | going => exact .inl trivial
  | dozing | asleep => exact .inr waits.1
  | _ => cases waits

theorem Reasoned.step (reasoned : Reasoned reason owes w) (locked : Locked w) (inv : Inv w) (fine : ok l w)
    (watches : Watches m ok Inv reason owes) (next : Step m l w w') : Reasoned reason owes w' := by
  obtain ⟨lock,ptable⟩ := locked
  unfold Reasoned at *
  cases next with
  | go here acts =>
    have := watches.go inv fine here acts
    simp only [World.put, update_apply]
    grind [Place.Waits, Place.Holds]
  | wakeup here acts free =>
    -- Nobody is on the way to sleep, so the channel's sleepers are all woken.
    have := watches.wakeup inv fine here acts
    simp only [update_apply]
    grind [Place.Waits, Place.Holds, waits_wake]
  | sleep here acts free =>
    have := watches.sleep inv fine here acts
    simp only [World.put, update_apply]
    grind [Place.Waits, Place.Holds]
  | release here acts =>
    have paid (q d j) (owed : owes _ d) (sleeps : (w.place q).Sleeps d) := watches.release inv fine here acts d j owed ⟨q,sleeps⟩
    simp only [World.put, update_apply]
    grind [Place.Waits, Place.Holds, waits_holds]
  | outside here does =>
    have := watches.outside inv fine here does
    simp only [World.put, update_apply]
    grind [Place.Waits, Place.Holds]
  | @kill _ p =>
    have roused {c k} (waits : (w.place p).rouse.Waits c k) : (w.place p).Waits c k := by
      cases here : w.place p <;> simp_all [Place.rouse, Place.Waits]
    have stays {k} (here : w.place p = .inside k) : (w.place p).rouse = .inside k := by rw [here]; rfl
    simp only [World.put, update_apply]
    grind
  | _ =>
    simp only [World.put, update_apply]
    grind [Place.Waits, Place.Holds]

theorem Run.reasons (run : Run m ok w₀ w) (locked : Locked w₀) (first : Reasoned reason owes w₀)
    (inv : ∀ w, Run m ok w₀ w → Inv w) (watches : Watches m ok Inv reason owes) : Reasoned reason owes w := by
  induction run with
  | start => exact first
  | step before fine next ih => exact ih.step (before.locked locked) (inv _ before) fine watches next

/-- All along a run every process in `sleep` has its reason, whenever the lock is free. -/
theorem Run.watched (run : Run m ok w₀ w) (locked : Locked w₀) (first : Reasoned reason owes w₀)
    (inv : ∀ w, Run m ok w₀ w → Inv w) (watches : Watches m ok Inv reason owes) (free : w.lock = none) {p : ι} {k : π}
    (waits : (w.place p).Waits c k) : reason c k w.data := by
  rcases run.reasons locked first inv watches p c k waits with still | ⟨q,j,there,_⟩
  · exact still
  · have held := ((run.locked locked).lock q).mpr (by rw [there]; trivial)
    rw [free] at held
    cases held
end

variable {Inv : World ι κ σ π → Prop}

theorem Run.reasoned (run : Run m ok w₀ w) (locked : Locked w₀) (first : Reasons reason owes w₀)
    (inv : ∀ w, Run m ok w₀ w → Inv w) (wakes : Wakes m ok Inv reason owes) (free : w.lock = none) {p : ι}
    (sleeps : (w.place p).Sleeps c) : reason c w.data := by
  refine run.watched locked ?_ inv wakes free (p := p) (k := w.point p) ?_
  · intro q d k waits
    cases there : w₀.place q with
    | going e j =>
      rw [there] at waits
      exact .inl (first.going q d j (by rw [there, waits.1]))
    | dozing | asleep =>
      rw [there] at waits
      exact first.sleeps q d (by rw [there]; exact waits.1)
    | _ =>
      rw [there] at waits
      cases waits
  · unfold World.point
    cases there : w.place p <;> rw [there] at sleeps <;> first | exact ⟨sleeps,rfl⟩ | cases sleeps

/-! ### Where processes sleep -/

/-- The control points where the code lets a process sleep. -/
def Place.Rests (S : κ → π → Prop) : Place κ π → Prop
  | .going c k => S c k
  | .dozing c k => S c k
  | .asleep c k => S c k
  | _ => True

omit [DecidableEq κ] in
theorem rests_iff {S : κ → π → Prop} : x.Rests S ↔ ∀ c k, x.Waits c k → S c k := by
  cases x <;> simp [Place.Rests, Place.Waits]

/-- A process sleeps on a channel only where the code says so. -/
theorem Run.rests {S : κ → π → Prop} (run : Run m ok w₀ w) (locked : Locked w₀)
    (sleeps : ∀ {p b k s c k'}, m.act p b k s = .sleep c k' → S c k') (first : ∀ q, (w₀.place q).Rests S) (q : ι) :
    (w.place q).Rests S := by
  have watches : Watches m ok (fun _ => True) (fun c k _ => S c k) fun _ _ => False := by
    constructor <;> simp
    exact fun _ _ acts => sleeps acts
  refine rests_iff.mpr fun c k waits => ?_
  have reasons := run.reasons locked (fun p c k waits => .inl (rests_iff.mp (first p) c k waits)) (fun _ _ => trivial) watches
  simpa using reasons q c k waits

/-! ### Invariants of the data -/

/-- The process goes on at its control point after a sleep. -/
def Place.Resumes (Z : π → Prop) : Place κ π → Prop
  | .out _ => True
  | .inside _ => True
  | .going _ k => Z k
  | .dozing _ k => Z k
  | .asleep _ k => Z k
  | .woken k => Z k

/-- `I` is what holds while nobody is in a section, and `H p` while process `p` is. `Z` are the control points at which
    a sleeper goes on. -/
structure Guards (m : Monitor ι κ σ π) (I : σ → (ι → π) → Prop) (H : ι → σ → (ι → π) → Prop) (Z : π → Prop) : Prop where
  enter : ∀ {s point p k}, I s point → m.enter p (point p) k → H p s (update point p k)
  resume : ∀ {s point p}, I s point → Z (point p) → H p s point
  go : ∀ {s point p b s' k}, H p s point → m.act p b (point p) s = .go s' k → H p s' (update point p k)
  wakeup : ∀ {s point p b c k}, H p s point → m.act p b (point p) s = .wakeup c k → H p s (update point p k)
  sleep : ∀ {s point p b c k}, H p s point → m.act p b (point p) s = .sleep c k → I s (update point p k) ∧ Z k
  release : ∀ {s point p b k}, H p s point → m.act p b (point p) s = .release k → I s (update point p k)
  free : ∀ {s point p k s'}, I s point → m.outside p (point p) s k s' → I s' (update point p k)
  held : ∀ {s point p q k s'}, H q s point → p ≠ q → m.outside p (point p) s k s' → H q s' (update point p k)

/-- The invariants, in a world. -/
structure Guarded (I : σ → (ι → π) → Prop) (H : ι → σ → (ι → π) → Prop) (Z : π → Prop) (w : World ι κ σ π) : Prop where
  free : (∀ p k, w.place p ≠ .inside k) → I w.data w.point
  held : ∀ p k, w.place p = .inside k → H p w.data w.point
  resumes : ∀ p, (w.place p).Resumes Z

section
variable {I : σ → (ι → π) → Prop} {H : ι → σ → (ι → π) → Prop} {Z : π → Prop}

omit [DecidableEq ι] [DecidableEq κ] in
theorem Guarded.idle (guarded : Guarded I H Z w) (locked : Locked w) (free : w.lock = none) : I w.data w.point := by
  refine guarded.free fun p k here => ?_
  have held := (locked.lock p).mpr (by rw [here]; trivial)
  rw [free] at held
  cases held

variable {x : Place κ π}

section
omit [DecidableEq κ]

theorem resumes_put {p : ι} (resumes : ∀ q, (w.place q).Resumes Z) (mine : x.Resumes Z) (q : ι) :
    ((w.put p x).place q).Resumes Z := by
  rcases eq_or_ne q p with rfl | other
  · rwa [place_put,update_self]
  · rw [place_put,update_of_ne other]
    exact resumes q

/-- A process goes into a section, or on in its own. -/
theorem Guarded.inside {p : ι} {k : π} {s : σ} {lock : Option ι} (guarded : Guarded I H Z w)
    (alone : ∀ q l, w.place q = .inside l → q = p) (mine : H p s (update w.point p k)) :
    Guarded I H Z { w.put p (.inside k) with data := s, lock := lock } where
  free nobody := absurd (by simp [place_put]) (nobody p k)
  held q l there := by
    have same : q = p := by
      by_contra other
      rw [place_put,update_of_ne other] at there
      exact other (alone q l there)
    subst same
    show H q s (w.put q (.inside k)).point
    rw [point_put]
    exact mine
  resumes := resumes_put guarded.resumes trivial

/-- A process leaves its section, or stays outside of one while nobody is in one. -/
theorem Guarded.outside {p : ι} {s : σ} {lock ptable : Option ι} {killed : ι → Bool} (guarded : Guarded I H Z w)
    (out : ∀ k, x ≠ .inside k) (resumes : x.Resumes Z)
    (free : (∀ q k, q ≠ p → w.place q ≠ .inside k) → I s (update w.point p x.point))
    (held : ∀ q k, q ≠ p → w.place q = .inside k → H q s (update w.point p x.point)) :
    Guarded I H Z { w.put p x with data := s, lock := lock, ptable := ptable, killed := killed } where
  free nobody := by
    show I s (w.put p x).point
    rw [point_put]
    refine free fun q k other there => nobody q k ?_
    rwa [place_put,update_of_ne other]
  held q k there := by
    have other : q ≠ p := by
      rintro rfl
      rw [place_put,update_self] at there
      exact out k there
    rw [place_put,update_of_ne other] at there
    show H q s (w.put p x).point
    rw [point_put]
    exact held q k other there
  resumes := resumes_put guarded.resumes resumes

/-- A process that is in no section stays so, at its control point. -/
theorem Guarded.rest {p : ι} {lock ptable : Option ι} {killed : ι → Bool} (guarded : Guarded I H Z w)
    (out : ∀ k, x ≠ .inside k) (before : ∀ k, w.place p ≠ .inside k) (resumes : x.Resumes Z)
    (same : x.point = (w.place p).point) :
    Guarded I H Z { w.put p x with lock := lock, ptable := ptable, killed := killed } := by
  have points : update w.point p x.point = w.point := by
    rw [same]
    exact update_eq_self p w.point
  refine guarded.outside out resumes (fun nobody => ?_) fun q k _ there => ?_
  · rw [points]
    refine guarded.free fun q k => ?_
    rcases eq_or_ne q p with rfl | other
    · exact before k
    · exact nobody q k other
  · rw [points]
    exact guarded.held q k there
end

omit [DecidableEq ι] in
theorem inside_wake (c : κ) (x : Place κ π) (k : π) : x.wake c = .inside k ↔ x = .inside k :=
  wake_keeps (P := (· = .inside k)) (fun y => by cases y <;> simp [Place.rouse]) c x

omit [DecidableEq ι] in
theorem resumes_wake (c : κ) (x : Place κ π) : (x.wake c).Resumes Z ↔ x.Resumes Z :=
  wake_keeps (fun y => by cases y <;> exact Iff.rfl) c x

theorem Guarded.step {l : Label ι} (guarded : Guarded I H Z w) (guards : Guards m I H Z) (locked : Locked w)
    (next : Step m l w w') : Guarded I H Z w' := by
  have alone {p : ι} {k : π} (here : w.place p = .inside k) (q : ι) (l : π) (there : w.place q = .inside l) : q = p :=
    (locked.alone here there).1
  have at' {p : ι} {x : Place κ π} (here : w.place p = x) : w.point p = x.point := by rw [World.point,here]
  have nobody (free : w.lock = none) (q : ι) (k : π) : w.place q ≠ .inside k := by
    intro there
    have held := (locked.lock q).mpr (by rw [there]; trivial)
    rw [free] at held
    cases held
  cases next with
  | @acquire _ p k k' here enters free =>
    refine guarded.inside (fun q l there => absurd there (nobody free q l)) ?_
    exact guards.enter (guarded.idle locked free) (by rw [at' here]; exact enters)
  | @reacquire _ p k here free =>
    refine guarded.inside (fun q l there => absurd there (nobody free q l)) ?_
    have resumes := guarded.resumes p
    rw [here] at resumes
    have same : update w.point p k = w.point := by
      rw [update_eq_self_iff,at' here]
      rfl
    rw [same]
    exact guards.resume (guarded.idle locked free) (by rw [at' here]; exact resumes)
  | @go _ p k s k' here acts =>
    exact guarded.inside (alone here) (guards.go (guarded.held p k here) (by rw [at' here]; exact acts))
  | @wakeup _ p k c k' here acts free =>
    have mine := guards.wakeup (guarded.held p k here) (by rw [at' here]; exact acts)
    refine ⟨fun nobody => absurd (by simp) (nobody p k'),fun q l there => ?_,fun q => ?_⟩
    · have same : q = p := by
        by_contra other
        simp only [update_of_ne other] at there
        exact other (alone here q l ((inside_wake c _ l).mp there))
      subst same
      rw [points_wakeup]
      exact mine
    · rcases eq_or_ne q p with rfl | other
      · simp only [update_self]
        trivial
      · simp only [update_of_ne other,resumes_wake]
        exact guarded.resumes q
  | @sleep _ p k c k' here acts free =>
    obtain ⟨inv,resumes⟩ := guards.sleep (guarded.held p k here) (by rw [at' here]; exact acts)
    exact guarded.outside (fun _ => nofun) resumes (fun _ => inv) fun q l other there => absurd (alone here q l there) other
  | @unlock _ p c k here | @doze _ p c k here =>
    have resumes := guarded.resumes p
    rw [here] at resumes
    exact guarded.rest (fun _ => nofun) (by rw [here]; exact fun _ => nofun) resumes (by rw [here]; rfl)
  | @sched _ p c k here held => exact ⟨guarded.free,guarded.held,guarded.resumes⟩
  | @release _ p k k' here acts =>
    have inv := guards.release (guarded.held p k here) (by rw [at' here]; exact acts)
    exact guarded.outside (fun _ => nofun) trivial (fun _ => inv) fun q l other there => absurd (alone here q l there) other
  | @outside _ p k s k' here does =>
    have does : m.outside p (w.point p) w.data k' s := by
      rw [at' here]
      exact does
    refine guarded.outside (fun _ => nofun) trivial (fun nobody => ?_) fun q l other there => ?_
    · refine guards.free (guarded.free fun q l => ?_) does
      rcases eq_or_ne q p with rfl | other
      · rw [here]
        exact nofun
      · exact nobody q l other
    · exact guards.held (guarded.held q l there) (Ne.symm other) does
  | @kill _ p free =>
    cases here : w.place p with
    | inside k =>
      have same : w.put p (Place.inside k).rouse = w := by
        rw [World.put,show (Place.inside k).rouse = w.place p from here.symm,update_eq_self]
      rw [same]
      exact ⟨guarded.free,guarded.held,guarded.resumes⟩
    | _ =>
      have resumes := guarded.resumes p
      rw [here] at resumes
      exact guarded.rest (fun _ => nofun) (by rw [here]; exact fun _ => nofun) resumes (by rw [here]; rfl)

/-- All along a run the data satisfies its invariant while nobody is in a section. -/
theorem Run.guarded (run : Run m ok w₀ w) (guards : Guards m I H Z) (locked : Locked w₀) (first : Guarded I H Z w₀) :
    Guarded I H Z w := by
  induction run with
  | start => exact first
  | step before _ next ih => exact ih.step guards (before.locked locked) next

end

/-! ### Schedules -/

/-- The next step of a process in a section or in `sleep`, if it can take one. -/
def World.advance (m : Monitor ι κ σ π) (w : World ι κ σ π) (p : ι) : Option (World ι κ σ π) :=
  match w.place p with
  | .out _ => none
  | .inside k => match m.act p (w.killed p) k w.data with
    | .go s k => some { w.put p (.inside k) with data := s }
    | .wakeup c k =>
      if w.ptable = none then some { w with place := update (fun q => (w.place q).wake c) p (.inside k) } else none
    | .sleep c k => if w.ptable = none then some { w.put p (.going c k) with ptable := some p } else none
    | .release k => some { w.put p (.out k) with lock := none }
  | .going c k => some { w.put p (.dozing c k) with lock := none }
  | .dozing c k => some (w.put p (.asleep c k))
  | .asleep _ _ => if w.ptable = some p then some { w with ptable := none } else none
  | .woken k => if w.lock = none then some { w.put p (.inside k) with lock := some p } else none

theorem advance_step {p : ι} (next : w.advance m p = some w') : Step m (.by p) w w' := by
  unfold World.advance at next
  split at next
  · cases next
  · next k here =>
    split at next
    · next s k' acts =>
      cases next
      exact .go here acts
    · next c k' acts =>
      split at next
      · next free =>
        cases next
        exact .wakeup here acts free
      · cases next
    · next c k' acts =>
      split at next
      · next free =>
        cases next
        exact .sleep here acts free
      · cases next
    · next k' acts =>
      cases next
      exact .release here acts
  · next c k here =>
    cases next
    exact .unlock here
  · next c k here =>
    cases next
    exact .doze here
  · next c k here =>
    split at next
    · next held =>
      cases next
      exact .sched here held
    · cases next
  · next k here =>
    split at next
    · next free =>
      cases next
      exact .reacquire here free
    · cases next

/-- A turn in a schedule: a process enters a section, or goes on, or is killed. -/
inductive Turn (ι π : Type) where
  | enter (p : ι) (k k' : π)
  | go (p : ι)
  | kill (p : ι)

variable [DecidableEq π]

/-- The world after a turn, if it can be taken. -/
def World.turn (m : Monitor ι κ σ π) [∀ p k k', Decidable (m.enter p k k')] (w : World ι κ σ π) :
    Turn ι π → Option (World ι κ σ π)
  | .enter p k k' => match w.place p with
    | .out l =>
      if l = k ∧ m.enter p k k' ∧ w.lock = none then some { w.put p (.inside k') with lock := some p } else none
    | _ => none
  | .go p => w.advance m p
  | .kill p =>
    if w.ptable = none then some { w.put p (w.place p).rouse with killed := update w.killed p true } else none

/-- The world after a schedule. -/
def World.follow (m : Monitor ι κ σ π) [∀ p k k', Decidable (m.enter p k k')] (w : World ι κ σ π) :
    List (Turn ι π) → Option (World ι κ σ π)
  | [] => some w
  | t :: turns => (w.turn m t).bind fun w => w.follow m turns

theorem turn_step [∀ p k k', Decidable (m.enter p k k')] {t : Turn ι π} (next : w.turn m t = some w') :
    ∃ l, Step m l w w' ∧ ∀ p, l = .kill p → t = .kill p := by
  cases t with
  | enter p k k' =>
    simp only [World.turn] at next
    split at next
    · next l here =>
      split at next
      · next can =>
        obtain ⟨rfl,enters,free⟩ := can
        cases next
        exact ⟨_,.acquire here enters free,nofun⟩
      · cases next
    · cases next
  | go p => exact ⟨_,advance_step next,nofun⟩
  | kill p =>
    simp only [World.turn] at next
    split at next
    · next free =>
      cases next
      exact ⟨_,.kill free,fun _ same => by cases same; rfl⟩
    · cases next

/-- Following a schedule is a run; it meets a condition that holds as long as an invariant `I` of the turns does. -/
theorem Run.followed [∀ p k k', Decidable (m.enter p k k')] {turns : List (Turn ι π)} {w₁ : World ι κ σ π}
    {I : World ι κ σ π → Prop} (before : Run m ok w₀ w₁) (first : I w₁) (fine : ∀ l w, I w → ok l w)
    (keeps : ∀ t ∈ turns, ∀ w w', I w → w.turn m t = some w' → I w') (followed : w₁.follow m turns = some w) :
    Run m ok w₀ w := by
  induction turns generalizing w₁ with
  | nil =>
    cases followed
    exact before
  | cons t turns ih =>
    unfold World.follow at followed
    cases taken : w₁.turn m t with
    | none =>
      rw [taken] at followed
      cases followed
    | some w₂ =>
      rw [taken] at followed
      obtain ⟨l,next,_⟩ := turn_step taken
      exact ih (before.step (fine l w₁ first) next) (keeps t List.mem_cons_self _ _ first taken)
        (fun t member => keeps t (List.mem_cons_of_mem _ member)) followed

theorem Run.follow [∀ p k k', Decidable (m.enter p k k')] {turns : List (Turn ι π)} {w₁ : World ι κ σ π}
    (before : Run m (fun _ _ => True) w₀ w₁) (followed : w₁.follow m turns = some w) : Run m (fun _ _ => True) w₀ w :=
  Run.followed (I := fun _ => True) before trivial (fun _ _ _ => trivial) (fun _ _ _ _ _ _ => trivial) followed

theorem turn_killed [∀ p k k', Decidable (m.enter p k k')] {t : Turn ι π} (gentle : ∀ p, t ≠ .kill p)
    (next : w.turn m t = some w') : w'.killed = w.killed := by
  obtain ⟨l,step,same⟩ := turn_step next
  cases step with
  | kill free => exact absurd (same _ rfl) (gentle _)
  | _ => rfl

end Xv6.Lib
