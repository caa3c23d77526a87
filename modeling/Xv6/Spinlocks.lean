import Mathlib.Data.List.Nodup
import Mathlib.Logic.Function.Basic

/-!
The spinlocks of `spinlock.c`. Any number of CPUs take and give back any locks, a load or a store at a time, and are
interrupted wherever `FL_IF` lets them be.
-/
namespace Xv6.Spinlocks
open Function

/-- The fields of `struct spinlock` that the code reads. -/
structure Spinlock (κ : Type) where
  locked : Bool
  cpu : Option κ

/-- The fields of `struct cpu` that `pushcli` and `popcli` use, and the CPU's `FL_IF`. -/
structure Cpu where
  ncli : Int
  intena : Bool
  eflags : Bool

/-- Where a CPU is in the code of this file. -/
inductive Pc (L : Type) where
  | out
  | panic (text : String)
  /-- `holding`, called by `acquire` or else by `release`, before it loads `locked` -/
  | locked (acquires : Bool) (lk : L)
  /-- `holding`, before it loads `cpu` -/
  | owner (acquires : Bool) (lk : L)
  | xchg (lk : L)
  /-- `acquire`, before it stores `cpu` -/
  | record (lk : L)
  /-- `release`, before it clears `cpu` -/
  | clear (lk : L)
  /-- `release`, before it clears `locked` -/
  | unlock (lk : L)
  | popcli

/-- The locks and the CPUs. Of the code that calls this one, `held` are the locks that it has between the exchange
    in `acquire` and the store in `release`, and `pushes` counts the calls of `pushcli` without `popcli`. -/
structure World (κ L : Type) where
  lock : L → Spinlock κ
  cpu : κ → Cpu
  pc : κ → Pc L
  held : κ → List L
  pushes : κ → Nat

variable {κ L : Type} [DecidableEq κ] [DecidableEq L]

def World.goto (w : World κ L) (c : κ) (k : Pc L) : World κ L := { w with pc := update w.pc c k }
def World.setLock (w : World κ L) (lk : L) (v : Spinlock κ) : World κ L := { w with lock := update w.lock lk v }
def World.setCpu (w : World κ L) (c : κ) (v : Cpu) : World κ L := { w with cpu := update w.cpu c v }

/-- What the caller of `holding` does with its answer. -/
def answer (acquires : Bool) (lk : L) (holds : Bool) : Pc L :=
  if acquires then if holds then .panic "acquire" else .xchg lk
  else if holds then .clear lk else .panic "release"

/-- `mycpu` is to be called with interrupts disabled. -/
def mycpu (w : World κ L) (c : κ) (rest : World κ L) : World κ L :=
  if (w.cpu c).eflags then w.goto c (.panic "mycpu called with interrupts enabled\n") else rest

def pushcli (w : World κ L) (c : κ) : World κ L :=
  let x := w.cpu c
  w.setCpu c ⟨x.ncli + 1,if x.ncli = 0 then x.eflags else x.intena,false⟩

def popcli (w : World κ L) (c : κ) : World κ L :=
  let x := w.cpu c
  if x.eflags then w.goto c (.panic "popcli - interruptible")
  else if x.ncli - 1 < 0 then w.goto c (.panic "popcli")
  else (w.setCpu c ⟨x.ncli - 1,x.intena,x.ncli - 1 = 0 ∧ x.intena⟩).goto c .out

/-- The next load or store of a CPU that is in this code. -/
def exec (w : World κ L) (c : κ) : World κ L :=
  match w.pc c with
  | .out | .panic _ => w
  | .locked acquires lk => w.goto c (if (w.lock lk).locked then .owner acquires lk else answer acquires lk false)
  | .owner acquires lk => mycpu w c (w.goto c (answer acquires lk ((w.lock lk).cpu = some c)))
  | .xchg lk =>
    -- What is stored where the lock is taken is what was there.
    if (w.lock lk).locked then w
    else { (w.setLock lk { w.lock lk with locked := true }).goto c (.record lk) with
      held := update w.held c (lk :: w.held c) }
  | .record lk => mycpu w c ((w.setLock lk { w.lock lk with cpu := some c }).goto c .out)
  | .clear lk => (w.setLock lk { w.lock lk with cpu := none }).goto c (.unlock lk)
  | .unlock lk =>
    { (w.setLock lk { w.lock lk with locked := false }).goto c .popcli with
      held := update w.held c ((w.held c).erase lk) }
  | .popcli => popcli w c

/-- The checks of `sched`, with `ptable.lock` and whether the process is RUNNING. -/
def sched (w : World κ L) (c : κ) (ptable : L) (running : Bool) : Option String :=
  if ¬((w.lock ptable).locked ∧ (w.lock ptable).cpu = some c) then some "sched ptable.lock"
  else if (w.cpu c).ncli ≠ 1 then some "sched locks"
  else if running then some "sched running"
  else if (w.cpu c).eflags then some "sched interruptible"
  else none

/-- A step of one CPU. The code outside takes a lock that it does not have, gives back one that it has, calls `popcli`
    as often as `pushcli`, and enables interrupts, in the scheduler or on return from one, where it has nothing. -/
inductive Step : World κ L → World κ L → Prop where
  | exec (w) (c) : Step w (exec w c)
  | acquire (w) (c) (lk : L) : w.pc c = .out → lk ∉ w.held c → Step w ((pushcli w c).goto c (.locked true lk))
  | release (w) (c) (lk : L) : w.pc c = .out → lk ∈ w.held c → Step w (w.goto c (.locked false lk))
  | pushcli (w) (c) : w.pc c = .out → Step w { pushcli w c with pushes := update w.pushes c (w.pushes c + 1) }
  | popcli (w) (c) (n : Nat) : w.pc c = .out → w.pushes c = n + 1 →
      Step w { w.goto c .popcli with pushes := update w.pushes c n }
  -- an interrupt comes, or `cli`
  | interrupt (w) (c) : w.pc c = .out → (w.cpu c).eflags → Step w (w.setCpu c { w.cpu c with eflags := false })
  | sti (w) (c) : w.pc c = .out → w.held c = [] → w.pushes c = 0 → Step w (w.setCpu c { w.cpu c with eflags := true })
  -- `sched` stores what its process had in `intena`
  | sched (w) (c) (intena : Bool) : w.pc c = .out → w.held c ≠ [] →
      Step w (w.setCpu c { w.cpu c with intena := intena })

/-- After `initlock` and the start of the CPUs. -/
def initial (κ L : Type) : World κ L :=
  ⟨fun _ => ⟨false,none⟩,fun _ => ⟨0,false,false⟩,fun _ => .out,fun _ => [],fun _ => 0⟩

inductive Reachable : World κ L → Prop where
  | initial : Reachable (initial κ L)
  | step {w w'} : Reachable w → Step w w' → Reachable w'

/-- A call of `pushcli` that `acquire` or `release` has to undo or hand on. -/
def Pc.pending : Pc L → Nat
  | .locked true _ | .owner true _ | .xchg _ | .popcli => 1
  | _ => 0

/-- Where a CPU is, with the locks that it has. -/
def Pc.Fits (held : List L) : Pc L → Prop
  | .panic _ => False
  | .locked true lk | .owner true lk | .xchg lk => lk ∉ held
  | .locked false lk | .owner false lk | .record lk | .clear lk | .unlock lk => lk ∈ held
  | _ => True

/-- The CPU is between the exchange and the store of `cpu`, or between the store that clears it and the one that gives
    the lock back. -/
def Pc.Unrecorded (lk : L) (k : Pc L) : Prop := k = .record lk ∨ k = .unlock lk

structure Inv (w : World κ L) : Prop where
  locked (lk) : (w.lock lk).locked ↔ ∃ c, lk ∈ w.held c
  unique (lk) (c d) : lk ∈ w.held c → lk ∈ w.held d → c = d
  nodup (c) : (w.held c).Nodup
  owner (lk) (c) : (w.lock lk).cpu = some c ↔ lk ∈ w.held c ∧ ¬ (w.pc c).Unrecorded lk
  ncli (c) : (w.cpu c).ncli = (w.held c).length + w.pushes c + (w.pc c).pending
  off (c) : (w.cpu c).eflags → (w.cpu c).ncli = 0
  fits (c) : (w.pc c).Fits (w.held c)

section Steps
variable {w : World κ L} {lk : L} {c : κ}

section
omit [DecidableEq L]

/-- A step of a CPU that leaves the locks as they are. -/
theorem Inv.alone (inv : Inv w) (v : Cpu) (k : Pc L) (n : Nat) (ncli : v.ncli = (w.held c).length + n + k.pending)
    (off : v.eflags → v.ncli = 0) (fits : k.Fits (w.held c)) (same : ∀ lk, k.Unrecorded lk ↔ (w.pc c).Unrecorded lk) :
    Inv { w with cpu := update w.cpu c v, pc := update w.pc c k, pushes := update w.pushes c n } := by
  refine ⟨inv.locked,inv.unique,inv.nodup,?_,?_,?_,?_⟩
  · intro lk d
    rw [inv.owner]
    by_cases h : d = c
    · subst h
      simp [same]
    · simp [h]
  all_goals
    intro d
    by_cases h : d = c
    · subst h
      simpa
    · simpa [h] using by first | exact inv.ncli d | exact inv.off d | exact inv.fits d

theorem Inv.goto (inv : Inv w) {k : Pc L} (pending : k.pending = (w.pc c).pending) (fits : k.Fits (w.held c))
    (same : ∀ lk, k.Unrecorded lk ↔ (w.pc c).Unrecorded lk) : Inv (w.goto c k) := by
  simpa [World.goto] using inv.alone (w.cpu c) k (w.pushes c) (by rw [pending, inv.ncli]) (inv.off c) fits same

theorem Inv.setCpu (inv : Inv w) {v : Cpu} (ncli : v.ncli = (w.cpu c).ncli) (off : v.eflags → v.ncli = 0) :
    Inv (w.setCpu c v) := by
  simpa [World.setCpu] using
    inv.alone v (w.pc c) (w.pushes c) (by rw [ncli, inv.ncli]) off (inv.fits c) (fun _ => Iff.rfl)

theorem Inv.pushcli (inv : Inv w) (here : w.pc c = .out) (k : Pc L) (n : Nat) (count : n + k.pending = w.pushes c + 1)
    (fits : k.Fits (w.held c)) (same : ∀ lk, ¬ k.Unrecorded lk) :
    Inv { (pushcli w c).goto c k with pushes := update w.pushes c n } := by
  have ncli := inv.ncli c
  simp only [here, Pc.pending] at ncli
  refine inv.alone _ k n ?_ (by simp) fits (by simpa [here, Pc.Unrecorded] using same)
  simp only [ncli]
  omega
end

omit [DecidableEq κ] [DecidableEq L] in
/-- A CPU that has a lock, or has called `pushcli` for one, cannot be interrupted. -/
theorem Inv.uninterrupted (inv : Inv w) (lk : L) (h : (w.pc c).pending = 1 ∨ lk ∈ w.held c) : (w.cpu c).eflags = false := by
  have ncli := inv.ncli c
  have off := inv.off c
  grind [List.length_pos_of_mem]

theorem Inv.load (inv : Inv w) {acquires : Bool} (here : w.pc c = .locked acquires lk) : Inv (exec w c) := by
  have fits := inv.fits c
  rw [here] at fits
  simp only [exec, here]
  split_ifs with h
  · refine inv.goto ?_ ?_ ?_ <;> cases acquires <;> simp_all [Pc.pending, Pc.Fits, Pc.Unrecorded]
  · cases acquires with
    | true => exact inv.goto (by simp [here, answer, Pc.pending]) fits (by simp [here, answer, Pc.Unrecorded])
    | false => exact absurd ((inv.locked lk).mpr ⟨c,fits⟩) h

theorem Inv.compare (inv : Inv w) {acquires : Bool} (here : w.pc c = .owner acquires lk) : Inv (exec w c) := by
  have fits := inv.fits c
  have owner := inv.owner lk c
  rw [here] at fits owner
  -- `cpu` is this CPU only where it has the lock, and where it has the lock nothing has cleared `cpu`.
  have mine : ((w.lock lk).cpu = some c) = (acquires = false) := by
    cases acquires <;> simp_all [Pc.Fits, Pc.Unrecorded]
  have off : (w.cpu c).eflags = false := inv.uninterrupted lk (by cases acquires <;> simp_all [Pc.pending, Pc.Fits])
  simp only [exec, here, mycpu, off, mine]
  refine inv.goto ?_ ?_ ?_ <;> cases acquires <;> simp_all [answer, Pc.pending, Pc.Fits, Pc.Unrecorded]

omit [DecidableEq L] in
theorem Inv.popcli (inv : Inv w) (here : w.pc c = .popcli) : Inv (popcli w c) := by
  have ncli := inv.ncli c
  rw [here, Pc.pending] at ncli
  have off : (w.cpu c).eflags = false := by
    by_contra h
    have := inv.off c (by simpa using h)
    omega
  rw [Spinlocks.popcli, off, if_neg (by simp), if_neg (by omega)]
  simpa [World.setCpu, World.goto] using
    inv.alone (c := c) ⟨(w.cpu c).ncli - 1,(w.cpu c).intena,_⟩ .out (w.pushes c) (by simp [Pc.pending]; omega)
      (by simp; omega) trivial (by simp [here, Pc.Unrecorded])

theorem Inv.xchg (inv : Inv w) (here : w.pc c = .xchg lk) : Inv (exec w c) := by
  obtain ⟨locked,unique,nodup,owner,ncli,off,fits⟩ := id inv
  simp only [exec, here]
  split_ifs with taken
  · exact inv
  have none (d) : lk ∉ w.held d := fun h => taken ((locked lk).mpr ⟨d,h⟩)
  refine ⟨?_,?_,?_,?_,?_,?_,?_⟩ <;> simp only [World.setLock, World.goto, update_apply] <;>
    grind [Pc.Unrecorded, Pc.pending, Pc.Fits]

/-- A CPU that has the lock stores to it. -/
theorem Inv.store (inv : Inv w) (here : w.pc c = .record lk ∨ w.pc c = .clear lk ∨ w.pc c = .unlock lk) :
    Inv (exec w c) := by
  have has : lk ∈ w.held c := by
    have := inv.fits c
    rcases here with here | here | here <;> simpa [here, Pc.Fits] using this
  have uninterrupted : (w.cpu c).eflags = false := inv.uninterrupted lk (.inr has)
  obtain ⟨locked,unique,nodup,owner,ncli,off,fits⟩ := inv
  rcases here with here | here | here <;>
    simp only [exec, here, mycpu, uninterrupted] <;>
    refine ⟨?_,?_,?_,?_,?_,?_,?_⟩ <;> simp only [World.setLock, World.goto, update_apply] <;>
    grind [Pc.Unrecorded, Pc.pending, Pc.Fits]

theorem Inv.exec (inv : Inv w) (c : κ) : Inv (exec w c) := by
  cases here : w.pc c with
  | out | panic => simpa [Spinlocks.exec, here] using inv
  | locked => exact inv.load here
  | owner => exact inv.compare here
  | xchg => exact inv.xchg here
  | record => exact inv.store (.inl here)
  | clear => exact inv.store (.inr (.inl here))
  | unlock => exact inv.store (.inr (.inr here))
  | popcli => simpa only [Spinlocks.exec, here] using inv.popcli here

theorem Inv.step {w' : World κ L} (inv : Inv w) (step : Step w w') : Inv w' := by
  cases step with
  | exec c => exact inv.exec c
  | acquire c lk here new =>
    have next := inv.pushcli here (.locked true lk) (w.pushes c) rfl new (by simp [Pc.Unrecorded])
    rwa [update_eq_self] at next
  | release c lk here has => exact inv.goto (by simp [here, Pc.pending]) has (by simp [here, Pc.Unrecorded])
  | pushcli c here =>
    have next := inv.pushcli here .out (w.pushes c + 1) rfl trivial (by simp [Pc.Unrecorded])
    have same : update w.pc c .out = w.pc := by rw [← here, update_eq_self]
    simpa only [Spinlocks.pushcli, World.goto, World.setCpu, same] using next
  | popcli c n here count =>
    have ncli := inv.ncli c
    simp only [here, count, Pc.pending] at ncli
    have next := inv.alone (c := c) (w.cpu c) .popcli n (by simp only [ncli, Pc.pending]; omega) (inv.off c) trivial
      (by simp [here, Pc.Unrecorded])
    rwa [update_eq_self] at next
  | interrupt c => exact inv.setCpu rfl (by simp)
  | sti c here none zero => exact inv.setCpu rfl (by simp [inv.ncli, here, none, zero, Pc.pending])
  | sched c => exact inv.setCpu rfl (inv.off c)
end Steps

theorem Reachable.inv {w : World κ L} (run : Reachable w) : Inv w := by
  induction run with
  | initial => refine ⟨?_,?_,?_,?_,?_,?_,?_⟩ <;> simp [Spinlocks.initial, Pc.pending, Pc.Fits]
  | step _ step ih => exact ih.step step

/-- Whatever locks the CPUs take and whenever they are interrupted, no call panics, no two CPUs have a lock, an
    interrupt finds its CPU outside of this code and without a lock, and a CPU that spins waits for another one. -/
theorem spinlocks_exclude {w : World κ L} (run : Reachable w) :
    (∀ c text, w.pc c ≠ .panic text) ∧
    (∀ lk c d, lk ∈ w.held c → lk ∈ w.held d → c = d) ∧
    (∀ c, (w.cpu c).eflags → w.pc c = .out ∧ w.held c = [] ∧ (w.cpu c).ncli = 0) ∧
    ∀ c lk, w.pc c = .xchg lk → (w.lock lk).locked → ∃ d ≠ c, lk ∈ w.held d := by
  have inv := run.inv
  refine ⟨?_,inv.unique,?_,?_⟩
  · intro c text here
    have fits := inv.fits c
    rwa [here] at fits
  · intro c enabled
    have zero := inv.off c enabled
    have ncli := inv.ncli c
    have none : w.held c = [] := List.eq_nil_of_length_eq_zero (by omega)
    have pending : (w.pc c).pending = 0 := by omega
    have fits := inv.fits c
    rw [none] at fits
    refine ⟨?_,none,zero⟩
    cases here : w.pc c with
    | locked acquires | owner acquires => cases acquires <;> simp_all [Pc.pending, Pc.Fits]
    | _ => simp_all [Pc.pending, Pc.Fits]
  · intro c lk here taken
    obtain ⟨d,has⟩ := (inv.locked lk).mp taken
    have other := inv.fits c
    rw [here] at other
    exact ⟨d,fun same => other (same ▸ has),has⟩

/-- One CPU has the lock and has not yet recorded it; the other one spins. -/
def contended : World Bool Unit :=
  let w := (pushcli (initial Bool Unit) false).goto false (.locked true ())
  let w := exec (exec w false) false
  let w := (pushcli w true).goto true (.locked true ())
  exec (exec w true) true

theorem contended_reachable : Reachable contended := by
  refine .step (.step (.step (.step (.step (.step .initial (.acquire _ false () rfl (by simp [initial])))
    (.exec _ false)) (.exec _ false)) (.acquire _ true () rfl ?_)) (.exec _ true)) (.exec _ true)
  decide

theorem spinlocks_exclude_contended : contended.pc true = .xchg () ∧ ∃ d ≠ true, () ∈ contended.held d :=
  ⟨rfl,(spinlocks_exclude contended_reachable).2.2.2 true () rfl rfl⟩

/-- A process that is not RUNNING gets through `sched` exactly if `ptable.lock` is all that its CPU has. -/
theorem sched_passes_iff {w : World κ L} (run : Reachable w) {c : κ} (here : w.pc c = .out) (ptable : L) :
    sched w c ptable false = none ↔ w.held c = [ptable] ∧ w.pushes c = 0 := by
  have inv := run.inv
  have owner := inv.owner ptable c
  have ncli := inv.ncli c
  simp only [here, Pc.Unrecorded, Pc.pending] at owner ncli
  have holds : ((w.lock ptable).locked ∧ (w.lock ptable).cpu = some c) ↔ ptable ∈ w.held c := by
    rw [owner, inv.locked]
    exact ⟨fun h => h.2.1,fun has => ⟨⟨c,has⟩,has,by simp⟩⟩
  simp only [sched, holds]
  constructor
  · intro passes
    split_ifs at passes with has locks
    have one := List.length_pos_of_mem has
    obtain ⟨x,only⟩ := List.length_eq_one_iff.mp (show (w.held c).length = 1 by omega)
    have same : ptable = x := by simpa [only] using has
    exact ⟨same ▸ only,by omega⟩
  · rintro ⟨only,zero⟩
    have has : ptable ∈ w.held c := by simp [only]
    simp [inv.uninterrupted ptable (.inr has), ncli, only, zero]

theorem sched_passes_iff_recorded : sched (exec contended false) false () false = none := by
  have run : Reachable (exec contended false) := .step contended_reachable (.exec _ false)
  exact (sched_passes_iff run rfl ()).mpr ⟨rfl,rfl⟩

end Xv6.Spinlocks
