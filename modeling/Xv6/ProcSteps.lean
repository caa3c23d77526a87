import Xv6.Procs

/-!
What the steps of the process table do.
-/
namespace Xv6.Procs
open Function

variable {κ γ : Type} [DecidableEq κ] [DecidableEq γ] {s s' : Machine κ γ} {l : Label}

/-! ### CPUs -/

/-- Every running process has one CPU. -/
structure Cpus (s : Machine κ γ) : Prop where
  state : ∀ c p, (s.cpu c).proc = some p → (s.proc p).state = .RUNNING
  once : ∀ c d p, (s.cpu c).proc = some p → (s.cpu d).proc = some p → c = d
  has : ∀ p, (s.proc p).state = .RUNNING → ∃ c, (s.cpu c).proc = some p

omit [DecidableEq κ] [DecidableEq γ] in
theorem Cpus.same (cpus : Cpus s) (cpu : ∀ c, (s'.cpu c).proc = (s.cpu c).proc)
    (state : ∀ p, (s'.proc p).state = .RUNNING ↔ (s.proc p).state = .RUNNING) : Cpus s' where
  state c p runs := (state p).mpr (cpus.state c p (by rwa [← cpu]))
  once c d p mine his := cpus.once c d p (by rwa [← cpu]) (by rwa [← cpu])
  has p runs := by
    obtain ⟨c,runs⟩ := cpus.has p ((state p).mp runs)
    exact ⟨c,by rwa [cpu]⟩

variable {p : Slot}

section
omit [DecidableEq γ]

theorem Cpus.leave (cpus : Cpus s) {c : κ} {i : Nat} (runs : (s.cpu c).proc = some p)
    (cpu : s'.cpu = update s.cpu c ⟨none,i⟩) (mine : (s'.proc p).state ≠ .RUNNING)
    (state : ∀ q, q ≠ p → ((s'.proc q).state = .RUNNING ↔ (s.proc q).state = .RUNNING)) : Cpus s' := by
  have kept (d : κ) (q : Slot) (his : (s'.cpu d).proc = some q) : d ≠ c ∧ q ≠ p ∧ (s.cpu d).proc = some q := by
    have other : d ≠ c := by
      rintro rfl
      simp [cpu] at his
    rw [cpu,update_of_ne other] at his
    refine ⟨other,?_,his⟩
    rintro rfl
    exact other (cpus.once d c q his runs)
  refine ⟨fun d q his => ?_,fun d e q his hers => ?_,fun q running => ?_⟩
  · obtain ⟨_,other,before⟩ := kept d q his
    exact (state q other).mpr (cpus.state d q before)
  · exact cpus.once d e q (kept d q his).2.2 (kept e q hers).2.2
  · have other : q ≠ p := by
      rintro rfl
      exact mine running
    obtain ⟨d,his⟩ := cpus.has q ((state q other).mp running)
    have apart : d ≠ c := by
      rintro rfl
      rw [runs] at his
      exact other (Option.some.inj his).symm
    exact ⟨d,by rwa [cpu,update_of_ne apart]⟩

theorem Cpus.switch (cpus : Cpus s) {c : κ} {i : Nat} (idle : (s.cpu c).proc = none)
    (waiting : (s.proc p).state ≠ .RUNNING) :
    Cpus { s with proc := update s.proc p { s.proc p with state := .RUNNING }, cpu := update s.cpu c ⟨some p,i⟩ } := by
  have off (d : κ) : (s.cpu d).proc ≠ some p := fun his => waiting (cpus.state d p his)
  have his (d : κ) (q : Slot) (his : (update s.cpu c ⟨some p,i⟩ d).proc = some q) : d = c ∧ q = p ∨ (s.cpu d).proc = some q := by
    rcases eq_or_ne d c with rfl | other
    · rw [update_self] at his
      exact .inl ⟨rfl,(Option.some.inj his).symm⟩
    · rw [update_of_ne other] at his
      exact .inr his
  refine ⟨fun d q mine => ?_,fun d e q mine other => ?_,fun q running => ?_⟩
  · rcases his d q mine with ⟨rfl,rfl⟩ | before
    · simp
    · have apart : q ≠ p := by
        rintro rfl
        exact off d before
      simpa [apart] using cpus.state d q before
  · rcases his d q mine with ⟨rfl,rfl⟩ | before
    · rcases his e q other with ⟨rfl,_⟩ | before
      · rfl
      · exact absurd before (off e)
    · rcases his e q other with ⟨rfl,rfl⟩ | before'
      · exact absurd before (off d)
      · exact cpus.once d e q before before'
  · rcases eq_or_ne q p with rfl | apart
    · exact ⟨c,by simp⟩
    · obtain ⟨d,before⟩ := cpus.has q (by simpa [apart] using running)
      have elsewhere : d ≠ c := by
        rintro rfl
        rw [idle] at before
        cases before
      exact ⟨d,by simpa [elsewhere] using before⟩
end

/-! ### Quiet steps -/

def Ctl.code : Ctl → Option Code
  | .runs k => some k
  | .yields k => some k
  | .sleeps k => some k
  | _ => none

/-- The code has the new process `np`. -/
def Code.Makes (np : Slot) : Code → Prop
  | .embryo q => q = np
  | .child q => q = np
  | _ => False

/-- The code is that of a system call before its return. -/
def Code.InCall : Code → Prop
  | .kernel => True
  | .embryo _ => True
  | .child _ => True
  | .wait => True
  | _ => False

def Ctl.InCall (k : Ctl) : Prop := k = .waits ∨ ∃ code, k.code = some code ∧ code.InCall

/-- No child of the process is a zombie. -/
def NoZombie (s : Machine κ γ) (p : Slot) : Prop := ∀ q, (s.proc q).parent = some p → (s.proc q).state ≠ .ZOMBIE

/-- The family is as before, and who has gone to sleep in `wait` has no zombie among its children. -/
structure Quiet (s s' : Machine κ γ) : Prop where
  state : ∀ q, (s'.proc q).state = (s.proc q).state ∨ (s.proc q).state.Active ∧ (s'.proc q).state.Active
  parent : ∀ q, (s'.proc q).parent = (s.proc q).parent
  pid : ∀ q, (s'.proc q).pid = (s.proc q).pid
  ghost : s'.nextpid = s.nextpid ∧ s'.allocs = s.allocs ∧ s'.life = s.life
  code : ∀ q k, (s'.ctl q).code = some k → (s.ctl q).code = some k ∨ (∀ np, ¬k.Makes np) ∧ (k = .exiting → q ≠ initproc)
  sleeps : ∀ q r, (s'.proc q).state = .SLEEPING → (s'.proc q).chan = some (.proc r) →
    (s.proc q).state = .SLEEPING ∧ (s.proc q).chan = some (.proc r) ∨ r = q ∧ NoZombie s q
  blame : ∀ q, (s'.ctl q).InCall → (s'.proc q).killed = true →
    s'.hit q = true ∨ (s.ctl q).InCall ∧ (s.proc q).killed = true ∧ s'.hit q = s.hit q

section
omit [DecidableEq κ] [DecidableEq γ]

theorem Quiet.idle (s : Machine κ γ) (lock : Option κ) (cpu : κ → Cpu) : Quiet s { s with lock := lock, cpu := cpu } where
  state _ := .inl rfl
  parent _ := rfl
  pid _ := rfl
  ghost := ⟨rfl,rfl,rfl⟩
  code _ _ here := .inl here
  sleeps _ _ asleep chan := .inl ⟨asleep,chan⟩
  blame _ call killed := .inr ⟨call,killed,rfl⟩

theorem Quiet.refl (s : Machine κ γ) : Quiet s s := .idle s s.lock s.cpu

theorem Quiet.zombie (quiet : Quiet s s') (q : Slot) : (s'.proc q).state = .ZOMBIE ↔ (s.proc q).state = .ZOMBIE := by
  rcases quiet.state q with same | ⟨before,after⟩
  · rw [same]
  · refine ⟨fun zombie => ?_,fun zombie => ?_⟩
    · rw [zombie] at after
      simp [ProcState.Active] at after
    · rw [zombie] at before
      simp [ProcState.Active] at before

theorem Quiet.noZombie (quiet : Quiet s s') (p : Slot) : NoZombie s' p ↔ NoZombie s p := by
  simp only [NoZombie,quiet.parent,ne_eq,quiet.zombie]

theorem Quiet.trans {s'' : Machine κ γ} (one : Quiet s s') (two : Quiet s' s'') : Quiet s s'' where
  state q := by
    rcases two.state q with same | ⟨before,after⟩
    · rw [same]
      exact one.state q
    · rcases one.state q with same | ⟨first,_⟩
      · exact .inr ⟨by rwa [← same],after⟩
      · exact .inr ⟨first,after⟩
  parent q := (two.parent q).trans (one.parent q)
  pid q := (two.pid q).trans (one.pid q)
  ghost := ⟨two.ghost.1.trans one.ghost.1,two.ghost.2.1.trans one.ghost.2.1,two.ghost.2.2.trans one.ghost.2.2⟩
  code q k here := by
    rcases two.code q k here with before | new
    · exact one.code q k before
    · exact .inr new
  sleeps q r asleep chan := by
    rcases two.sleeps q r asleep chan with ⟨before,chan⟩ | ⟨self,none⟩
    · exact one.sleeps q r before chan
    · exact .inr ⟨self,(one.noZombie q).mp none⟩
  blame q call killed := by
    rcases two.blame q call killed with hit | ⟨call,killed,same⟩
    · exact .inl hit
    · rw [same]
      exact one.blame q call killed

theorem Quiet.slot (others : ∀ q, q ≠ p → s'.proc q = s.proc q ∧ s'.ctl q = s.ctl q ∧ s'.hit q = s.hit q)
    (ghost : s'.nextpid = s.nextpid ∧ s'.allocs = s.allocs ∧ s'.life = s.life)
    (state : (s'.proc p).state = (s.proc p).state ∨ (s.proc p).state.Active ∧ (s'.proc p).state.Active)
    (parent : (s'.proc p).parent = (s.proc p).parent) (pid : (s'.proc p).pid = (s.proc p).pid)
    (code : ∀ k, (s'.ctl p).code = some k → (s.ctl p).code = some k ∨ (∀ np, ¬k.Makes np) ∧ (k = .exiting → p ≠ initproc))
    (sleeps : ∀ r, (s'.proc p).state = .SLEEPING → (s'.proc p).chan = some (.proc r) →
      (s.proc p).state = .SLEEPING ∧ (s.proc p).chan = some (.proc r) ∨ r = p ∧ NoZombie s p)
    (blame : (s'.ctl p).InCall → (s'.proc p).killed = true →
      s'.hit p = true ∨ (s.ctl p).InCall ∧ (s.proc p).killed = true ∧ s'.hit p = s.hit p) : Quiet s s' where
  state q := by
    rcases eq_or_ne q p with rfl | other
    · exact state
    · exact .inl (by rw [(others q other).1])
  parent q := by
    rcases eq_or_ne q p with rfl | other
    · exact parent
    · rw [(others q other).1]
  pid q := by
    rcases eq_or_ne q p with rfl | other
    · exact pid
    · rw [(others q other).1]
  ghost := ghost
  code q := by
    rcases eq_or_ne q p with rfl | other
    · exact code
    · exact fun k here => .inl (by rwa [(others q other).2.1] at here)
  sleeps q := by
    rcases eq_or_ne q p with rfl | other
    · exact sleeps
    · exact fun r asleep chan => .inl (by rw [(others q other).1] at asleep chan; exact ⟨asleep,chan⟩)
  blame q := by
    rcases eq_or_ne q p with rfl | other
    · exact blame
    · obtain ⟨proc,ctl,hit⟩ := others q other
      exact fun call killed => .inr ⟨by rwa [ctl] at call,by rwa [proc] at killed,hit⟩
end

omit [DecidableEq γ] in
theorem wait_split (s : Machine κ γ) (c : κ) (p : Slot) :
    (∃ q, (s.proc q).parent = some p ∧ (s.proc q).state = .ZOMBIE ∧
      s.wait c p = (.reaped p q (s.life q) (s.proc q).pid,{ s.goto p (.runs .kernel) with
        proc := update s.proc q { s.proc q with pid := 0, parent := none, killed := false, state := .UNUSED },
        lock := none })) ∨
    (((∀ q, (s.proc q).parent ≠ some p) ∨ (s.proc p).killed = true) ∧
      s.wait c p = (.failed p,{ s.goto p (.runs .kernel) with lock := none })) ∨
    NoZombie s p ∧ s.wait c p = (.tau,{ s with proc := sleep (.proc p) p s.proc }.sched c p .waits) := by
  unfold Machine.wait wait
  split
  · next q pid t waited =>
    split at waited
    · next q' found =>
      have zombie := first_some found
      cases waited
      exact .inl ⟨q,by simpa using zombie⟩
    · split at waited <;> cases waited
  · next t waited =>
    split at waited
    · cases waited
    · split at waited
      · next why =>
        cases waited
        refine .inr (.inl ⟨?_,rfl⟩)
        rcases why with childless | killed
        · exact .inl fun q mine => childless ⟨q,mine⟩
        · exact .inr killed
      · cases waited
  · next t waited =>
    split at waited
    · cases waited
    · next found =>
      split at waited
      · cases waited
      · cases waited
        refine .inr (.inr ⟨fun q mine zombie => ?_,rfl⟩)
        have := first_none found q
        simp [mine,zombie] at this

/-- The steps that are not quiet. -/
inductive Loud : Label → Machine κ γ → Machine κ γ → Prop where
  | alloc {s p np} (runs : (s.proc p).state = .RUNNING) (here : s.ctl p = .runs .kernel)
    (unused : (s.proc np).state = .UNUSED) : Loud (.allocated np s.allocs s.nextpid) s { s with
      proc := update s.proc np { s.proc np with state := .EMBRYO, pid := s.nextpid, priority := 10 },
      nextpid := (s.nextpid + 1).bmod (2 ^ 32), ctl := update (update s.ctl np .forkret) p (.runs (.embryo np)),
      allocs := s.allocs + 1, life := update s.life np s.allocs, hit := update s.hit np false }
  | unalloc {s p np} (runs : (s.proc p).state = .RUNNING) (here : s.ctl p = .runs (.embryo np)) :
    Loud .tau s { s.goto p (.runs .kernel) with proc := update s.proc np { s.proc np with state := .UNUSED } }
  | parent {s p np} (runs : (s.proc p).state = .RUNNING) (here : s.ctl p = .runs (.embryo np)) :
    Loud .tau s { s.goto p (.runs (.child np)) with proc := update s.proc np { s.proc np with parent := some p } }
  | fork {s p np} (runs : (s.proc p).state = .RUNNING) (here : s.ctl p = .runs (.child np)) :
    Loud .tau s { s.goto p (.runs .kernel) with proc := update s.proc np { s.proc np with state := .RUNNABLE } }
  | exit {s c p} (runs : (s.proc p).state = .RUNNING) (here : s.ctl p = .runs .exiting) :
    Loud .tau s ({ s with proc := exit p s.proc }.sched c p .exited)
  | reap {s p q} (runs : (s.proc p).state = .RUNNING) (here : s.ctl p = .runs .wait ∨ s.ctl p = .waits)
    (mine : (s.proc q).parent = some p) (zombie : (s.proc q).state = .ZOMBIE) :
    Loud (.reaped p q (s.life q) (s.proc q).pid) s { s.goto p (.runs .kernel) with
      proc := update s.proc q { s.proc q with pid := 0, parent := none, killed := false, state := .UNUSED },
      lock := none }

/-- Nothing is allocated or reaped. -/
def Label.Silent (l : Label) : Prop := l = .tau ∨ ∃ p, l = .failed p

section
omit [DecidableEq κ] [DecidableEq γ]

theorem Quiet.goto {k : Ctl} (lock : Option κ)
    (code : ∀ c, k.code = some c → (s.ctl p).code = some c ∨ (∀ np, ¬c.Makes np) ∧ (c = .exiting → p ≠ initproc))
    (blame : k.InCall → (s.proc p).killed = true → (s.ctl p).InCall) : Quiet s { s.goto p k with lock := lock } := by
  refine Quiet.slot (p := p) (fun q other => ⟨rfl,update_of_ne other _ _,rfl⟩) ⟨rfl,rfl,rfl⟩ (.inl rfl) rfl rfl ?_
    (fun r asleep chan => .inl ⟨asleep,chan⟩) ?_
  · simpa [Machine.goto] using code
  · intro call killed
    have call : k.InCall := by simpa [Machine.goto] using call
    exact .inr ⟨blame call killed,killed,rfl⟩

theorem Quiet.tidy (runs : (s.proc p).state = .RUNNING) : Quiet s (s.tidy p) := by
  have self : (s.tidy p).proc p = { s.proc p with chan := none } := update_self ..
  refine Quiet.slot (p := p) (fun q other => ⟨update_of_ne other _ _,rfl,rfl⟩) ⟨rfl,rfl,rfl⟩ (.inl ?_) ?_ ?_
    (fun k here => .inl here) (fun r asleep => ?_) fun call killed => .inr ⟨call,?_,rfl⟩
  · rw [self]
  · rw [self]
  · rw [self]
  · rw [self] at asleep
    rw [runs] at asleep
    cases asleep
  · rwa [self] at killed
end

omit [DecidableEq γ] in
theorem Quiet.sched {c : κ} {k : Ctl} {x : Proc γ} (runs : (s.proc p).state = .RUNNING) (active : x.state.Active)
    (same : x.parent = (s.proc p).parent ∧ x.pid = (s.proc p).pid ∧ x.killed = (s.proc p).killed)
    (code : ∀ c, k.code = some c → (s.ctl p).code = some c) (call : k.InCall → (s.ctl p).InCall)
    (sleeps : ∀ r, x.state = .SLEEPING → x.chan = some (.proc r) → r = p ∧ NoZombie s p) :
    Quiet s ({ s with proc := update s.proc p x }.sched c p k) := by
  have self : ({ s with proc := update s.proc p x }.sched c p k).proc p = x := update_self ..
  have there : ({ s with proc := update s.proc p x }.sched c p k).ctl p = k := update_self ..
  refine Quiet.slot (p := p) (fun q other => ⟨update_of_ne other _ _,update_of_ne other _ _,rfl⟩) ⟨rfl,rfl,rfl⟩ (.inr ?_)
    ?_ ?_ (fun k' => ?_) (fun r => ?_) ?_
  · exact ⟨by rw [runs]; exact .inr (.inr rfl),by rwa [self]⟩
  · rw [self,same.1]
  · rw [self,same.2.1]
  · rw [there]
    exact fun here => .inl (code k' here)
  · rw [self]
    exact fun asleep chan => .inr (sleeps r asleep chan)
  · rw [there,self]
    exact fun here killed => .inr ⟨call here,by rwa [← same.2.2],rfl⟩

omit [DecidableEq κ] [DecidableEq γ] in
theorem Quiet.kill {pid : Int} {q : Slot} {t : Table γ} (found : kill pid s.proc = some (q,t)) :
    Quiet s { s with proc := t, hit := update s.hit q true } := by
  obtain ⟨_,_,same⟩ := Option.map_eq_some_iff.mp found
  cases same
  refine Quiet.slot (p := q) (fun r other => ⟨update_of_ne other _ _,rfl,update_of_ne other _ _⟩) ⟨rfl,rfl,rfl⟩ ?_ ?_ ?_
    (fun k here => .inl here) (fun r => ?_) fun _ _ => .inl (by simp)
  · simp only [update_self]
    split
    · next asleep => exact .inr ⟨.inl asleep,.inr (.inl rfl)⟩
    · exact .inl rfl
  · simp
  · simp
  · simp only [update_self]
    split
    · exact fun asleep => by cases asleep
    · exact fun asleep chan => .inl ⟨asleep,chan⟩

omit [DecidableEq κ] in
theorem Quiet.wakeup (chan : Option (Chan γ)) : Quiet s { s with proc := wakeup1 chan s.proc } := by
  have woken := wakeup1_woken chan s.proc
  have same (q : Slot) : (wakeup1 chan s.proc q).parent = (s.proc q).parent ∧ (wakeup1 chan s.proc q).pid = (s.proc q).pid ∧
      (wakeup1 chan s.proc q).killed = (s.proc q).killed := by
    rcases woken q with same | ⟨_,same⟩ <;> rw [same] <;> exact ⟨rfl,rfl,rfl⟩
  refine ⟨fun q => ?_,fun q => (same q).1,fun q => (same q).2.1,⟨rfl,rfl,rfl⟩,fun q k here => .inl here,
    fun q r asleep here => .inl ?_,fun q call killed => .inr ⟨call,by rwa [← (same q).2.2],rfl⟩⟩
  · rcases woken q with same | ⟨asleep,same⟩
    · exact .inl (congrArg Proc.state same)
    · exact .inr ⟨.inl asleep,.inr (.inl (congrArg Proc.state same))⟩
  · have same : wakeup1 chan s.proc q = s.proc q := woken.asleep asleep
    exact ⟨(congrArg Proc.state same).symm.trans asleep,(congrArg Proc.chan same).symm.trans here⟩

theorem Moves.harmless {killed : Bool} {k k' : Code} (moves : Moves p killed k k') :
    (∀ np, ¬k'.Makes np) ∧ (k' = .exiting → p ≠ initproc) ∧ (k'.InCall → killed = true → k.InCall) := by
  have exits : (∀ np, ¬(callExit p).Makes np) ∧ (callExit p = .exiting → p ≠ initproc) ∧ ¬(callExit p).InCall := by
    unfold callExit
    split
    · exact ⟨fun _ => id,fun never => (by cases never),id⟩
    · next other => exact ⟨fun _ => id,fun _ => other,id⟩
  cases moves with
  | syscall alive => exact ⟨fun _ => id,fun never => (by cases never),fun _ dead => by rw [alive] at dead; cases dead⟩
  | killed dead | exit => exact ⟨exits.1,exits.2.1,fun call => absurd call exits.2.2⟩
  | forkret | back => exact ⟨fun _ => id,fun never => (by cases never),False.elim⟩
  | wait => exact ⟨fun _ => id,fun never => (by cases never),fun _ _ => trivial⟩

theorem inCall_of_code {k k' : Ctl} (same : ∀ c, k.code = some c → k'.code = some c) (sleeps : k ≠ .waits)
    (call : k.InCall) : k'.InCall := by
  rcases call with waits | ⟨code,here,call⟩
  · exact absurd waits sleeps
  · exact .inr ⟨code,same code here,call⟩

theorem wait_kinds {c : κ} (runs : (s.proc p).state = .RUNNING)
    (here : s.ctl p = .runs .wait ∨ s.ctl p = .waits) :
    (Quiet s (s.wait c p).2 ∧ (s.wait c p).1.Silent) ∨ Loud (s.wait c p).1 s (s.wait c p).2 := by
  have call : (s.ctl p).InCall := by
    rcases here with here | here <;> rw [here]
    · exact .inr ⟨_,rfl,trivial⟩
    · exact .inl rfl
  rcases wait_split s c p with ⟨q,mine,zombie,ends⟩ | ⟨_,ends⟩ | ⟨childless,ends⟩
  · rw [ends]
    exact .inr (.reap runs here mine zombie)
  · rw [ends]
    refine .inl ⟨Quiet.goto none (fun c k => .inr ?_) fun _ _ => call,.inr ⟨p,rfl⟩⟩
    cases k
    exact ⟨fun _ => id,fun never => by cases never⟩
  · rw [ends]
    refine .inl ⟨Quiet.sched runs (.inl rfl) ⟨rfl,rfl,rfl⟩ (fun _ k => by cases k) (fun _ => call) ?_,.inl rfl⟩
    exact fun r _ chan => by cases chan; exact ⟨rfl,childless⟩

theorem Step.split (cpus : Cpus s) (next : Step l s s') :
    (Quiet s s' ∧ l.Silent) ∨ ∃ s₁, Quiet s s₁ ∧ Loud l s₁ s' := by
  cases next with
  | @code s c p k k' runs here moves =>
    obtain ⟨makes,exits,call⟩ := moves.harmless
    refine .inl ⟨Quiet.goto s.lock (fun c k => .inr ?_) ?_,.inl rfl⟩
    · cases k
      exact ⟨makes,exits⟩
    · rintro (waits | ⟨code,k,inside⟩) killed
      · cases waits
      · cases k
        exact .inr ⟨_,by rw [here]; rfl,call inside killed⟩
  | @fault s c p runs here =>
    obtain ⟨makes,exits,call⟩ := (Moves.killed (p := p) rfl).harmless
    have self : update s.proc p { s.proc p with killed := true } p = { s.proc p with killed := true } := update_self ..
    have there : (s.goto p (.runs (callExit p))).ctl p = .runs (callExit p) := update_self ..
    refine .inl ⟨Quiet.slot (p := p) (fun q other => ⟨update_of_ne other _ _,update_of_ne other _ _,rfl⟩) ⟨rfl,rfl,rfl⟩
      (.inl ?_) ?_ ?_ (fun k h => .inr ?_) (fun r => ?_) fun h => ?_,.inl rfl⟩
    · simp only [self]
    · simp only [self]
    · simp only [self]
    · simp only [there] at h
      cases h
      exact ⟨makes,exits⟩
    · simp only [self]
      exact fun asleep chan => .inl ⟨asleep,chan⟩
    · simp only [there] at h
      rcases h with waits | ⟨code,k,inside⟩
      · cases waits
      · cases k
        exact absurd (call inside rfl) id
  | allocproc runs here free found =>
    obtain ⟨unused,rfl,rfl⟩ := allocproc_some found
    exact .inr ⟨_,.refl _,.alloc (cpus.state _ _ runs) here unused⟩
  | full runs here free found | noKill pid runs here free found => exact .inl ⟨.refl _,.inl rfl⟩
  | unalloc runs here => exact .inr ⟨_,.refl _,.unalloc (cpus.state _ _ runs) here⟩
  | parent runs here => exact .inr ⟨_,.refl _,.parent (cpus.state _ _ runs) here⟩
  | fork runs here free => exact .inr ⟨_,.refl _,.fork (cpus.state _ _ runs) here⟩
  | exit runs here free => exact .inr ⟨_,.refl _,.exit (cpus.state _ _ runs) here⟩
  | wait runs here free =>
    rcases wait_kinds (cpus.state _ _ runs) (.inl here) with quiet | loud
    · exact .inl quiet
    · exact .inr ⟨_,.refl _,loud⟩
  | @rewait s c p runs here held =>
    have runs := cpus.state _ _ runs
    have tidy := Quiet.tidy runs
    have still : ((s.tidy p).proc p).state = .RUNNING := by simp [Machine.tidy,runs]
    rcases wait_kinds still (.inr here) with ⟨quiet,silent⟩ | loud
    · exact .inl ⟨tidy.trans quiet,silent⟩
    · exact .inr ⟨_,tidy,loud⟩
  | yield runs here enabled free =>
    refine .inl ⟨Quiet.sched (cpus.state _ _ runs) (.inr (.inl rfl)) ⟨rfl,rfl,rfl⟩ ?_ ?_ (fun _ asleep => by cases asleep),
      .inl rfl⟩
    · rw [here]
      exact fun _ => id
    · rw [here]
      exact inCall_of_code (fun _ => id) (by simp)
  | @unyield s c p k runs here held =>
    refine .inl ⟨Quiet.goto none (fun c k => .inl ?_) fun h _ => ?_,.inl rfl⟩
    · rwa [here]
    · rw [here]
      exact inCall_of_code (k := .runs k) (fun _ => id) (by simp) h
  | sleep chan runs here may free =>
    refine .inl ⟨Quiet.sched (cpus.state _ _ runs) (.inl rfl) ⟨rfl,rfl,rfl⟩ ?_ ?_ (fun _ _ chan => by cases chan),.inl rfl⟩
    · rw [here]
      exact fun _ => id
    · rw [here]
      exact inCall_of_code (fun _ => id) (by simp)
  | @unsleep s c p k runs here held =>
    have there : (s.tidy p).ctl p = .sleeps k := here
    refine .inl ⟨(Quiet.tidy (cpus.state _ _ runs)).trans (Quiet.goto none (fun c k => .inl ?_) fun h _ => ?_),.inl rfl⟩
    · rwa [there]
    · rw [there]
      exact inCall_of_code (k := .runs k) (fun _ => id) (by simp) h
  | forkret runs here held =>
    refine .inl ⟨Quiet.goto none (fun c k => .inr ?_) fun h _ => ?_,.inl rfl⟩
    · cases k
      exact ⟨fun _ => id,fun never => by cases never⟩
    · rcases h with waits | ⟨code,k,inside⟩
      · cases waits
      · cases k
        exact False.elim inside
  | wakeup chan free => exact .inl ⟨.wakeup _,.inl rfl⟩
  | kill pid runs here free found => exact .inl ⟨.kill found,.inl rfl⟩
  | loop idle free | release idle held chosen => exact .inl ⟨.idle _ _ _,.inl rfl⟩
  | @switch s c p idle held chosen =>
    have runnable := choose_runnable chosen
    have self : update s.proc p { s.proc p with state := .RUNNING } p = { s.proc p with state := .RUNNING } := update_self ..
    refine .inl ⟨Quiet.slot (p := p) (fun q other => ⟨update_of_ne other _ _,rfl,rfl⟩) ⟨rfl,rfl,rfl⟩ (.inr ?_) ?_ ?_
      (fun k h => .inl h) (fun r => ?_) fun h => ?_,.inl rfl⟩
    · simp only [self]
      exact ⟨.inr (.inl runnable),.inr (.inr rfl)⟩
    · simp only [self]
    · simp only [self]
    · simp only [self]
      exact fun asleep => by cases asleep
    · exact fun killed => .inr ⟨h,by simpa [self] using killed,rfl⟩

end Xv6.Procs
