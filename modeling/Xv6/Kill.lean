import Xv6.Sched

/-!
The `killed` flag over the lives of a slot. `wait` clears it when it frees a slot, and neither `allocproc` nor `fork`
does, so that a new process is only as clean as its slot was.
-/
namespace Xv6.Procs
open Function

variable {κ γ : Type} [DecidableEq κ] [DecidableEq γ] {s s' : Machine κ γ} {l : Label} {q : Slot}

/-- The step is a call of `kill` that has found the slot, and returns 0. -/
def Kills (pid : Int) (q : Slot) (s s' : Machine κ γ) : Prop :=
  ∃ c p t, (s.cpu c).proc = some p ∧ s.ctl p = .runs .kernel ∧ s.lock = none ∧ kill pid s.proc = some (q,t) ∧
    s' = { s with proc := t, hit := update s.hit q true }

/-- The step is one in which `kalloc` or `copyuvm` has failed and the slot is given up. -/
def Unallocs (np : Slot) (s s' : Machine κ γ) : Prop :=
  ∃ c p, (s.cpu c).proc = some p ∧ s.ctl p = .runs (.embryo np) ∧
    s' = { s.goto p (.runs .kernel) with proc := update s.proc np { s.proc np with state := .UNUSED } }

/-- No unused slot is killed, and no killed slot is given up. -/
def Careful (s s' : Machine κ γ) : Prop :=
  (∀ pid q, Kills pid q s s' → (s.proc q).state ≠ .UNUSED) ∧ ∀ np, Unallocs np s s' → (s.proc np).killed = false

/-- The runs whose steps are all careful. -/
inductive CarefulRun : Machine κ γ → Prop where
  | start : CarefulRun (initial κ γ)
  | next {l : Label} {s s' : Machine κ γ} (before : CarefulRun s) (next : Sched l s s') (careful : Careful s s') : CarefulRun s'

/-! ### What a step does to the flag -/

/-- The slot has no process, or one that is being made. -/
def Spare (s : Machine κ γ) (q : Slot) : Prop := (s.proc q).state = .UNUSED ∨ (s.proc q).state = .EMBRYO

/-- What can have happened to a slot that is spare after a step. -/
inductive Spared (s s' : Machine κ γ) (q : Slot) : Prop where
  | same (state : (s'.proc q).state = (s.proc q).state) (killed : (s'.proc q).killed = (s.proc q).killed) (hit : s'.hit q = s.hit q)
  | alloc (unused : (s.proc q).state = .UNUSED) (embryo : (s'.proc q).state = .EMBRYO)
    (killed : (s'.proc q).killed = (s.proc q).killed)
  | unalloc (fails : Unallocs q s s') (unused : (s'.proc q).state = .UNUSED) (killed : (s'.proc q).killed = (s.proc q).killed)
  | reap (unused : (s'.proc q).state = .UNUSED) (killed : (s'.proc q).killed = false)
  | kill {pid : Int} (kills : Kills pid q s s') (state : (s'.proc q).state = (s.proc q).state) (hit : s'.hit q = true)

omit [DecidableEq κ] [DecidableEq γ] in
theorem Spared.update {p : Slot} {x : Proc γ} (proc : s'.proc = update s.proc p x) (hit : s'.hit = s.hit)
    (mine : x.state = (s.proc p).state ∧ x.killed = (s.proc p).killed ∨ x.state ≠ .UNUSED ∧ x.state ≠ .EMBRYO)
    (spare : Spare s' q) : Spared s s' q := by
  rcases eq_or_ne q p with rfl | other
  · rw [Spare,proc,update_self] at spare
    rcases mine with ⟨state,killed⟩ | ⟨used,made⟩
    · exact .same (by rw [proc,update_self,state]) (by rw [proc,update_self,killed]) (by rw [hit])
    · rcases spare with unused | embryo
      · exact absurd unused used
      · exact absurd embryo made
  · exact .same (by rw [proc,update_of_ne other]) (by rw [proc,update_of_ne other]) (by rw [hit])

omit [DecidableEq κ] [DecidableEq γ] in
theorem Spared.woken {t : Table γ} (woken : Woken s.proc t) (proc : s'.proc = t) (hit : s'.hit = s.hit) (spare : Spare s' q) :
    Spared s s' q := by
  rcases woken q with same | ⟨_,same⟩
  · exact .same (by rw [proc,same]) (by rw [proc,same]) (by rw [hit])
  · rw [Spare,proc,same] at spare
    simp at spare

omit [DecidableEq γ] in
theorem Spared.wait {s₀ : Machine κ γ} {c : κ} {p : Slot} (hit : s.hit q = s₀.hit q)
    (same : (s.proc q).state = (s₀.proc q).state ∧ (s.proc q).killed = (s₀.proc q).killed)
    (spare : Spare (s.wait c p).2 q) : Spared s₀ (s.wait c p).2 q := by
  rcases wait_split s c p with ⟨r,_,_,ends⟩ | ⟨_,ends⟩ | ⟨_,ends⟩
  · rw [ends] at spare ⊢
    rcases eq_or_ne q r with rfl | other
    · exact .reap (by simp) (by simp)
    · exact .same (by simp [other,same]) (by simp [other,same]) hit
  · rw [ends]
    exact .same same.1 same.2 hit
  · rw [ends] at spare ⊢
    rcases eq_or_ne q p with rfl | other
    · simp [Spare,Machine.sched,sleep] at spare
    · exact .same (by simp [Machine.sched,sleep,other,same]) (by simp [Machine.sched,sleep,other,same]) hit

theorem Spared.exit {c : κ} {p : Slot} (spare : Spare ({ s with proc := exit p s.proc }.sched c p .exited) q) :
    Spared s ({ s with proc := exit p s.proc }.sched c p .exited) q := by
  have fields := exit_fields p s.proc q
  rcases eq_or_ne q p with rfl | other
  · rcases spare with unused | embryo
    · exact absurd ((exit_self q s.proc).symm.trans unused) (by simp)
    · exact absurd ((exit_self q s.proc).symm.trans embryo) (by simp)
  · rcases exit_state other s.proc with same | ⟨_,woken⟩
    · exact .same same fields.2.2 rfl
    · rcases spare with unused | embryo
      · exact absurd (woken.symm.trans unused) (by simp)
      · exact absurd (woken.symm.trans embryo) (by simp)

omit [DecidableEq κ] [DecidableEq γ] in
theorem tidy_killed (s : Machine κ γ) (p q : Slot) :
    ((s.tidy p).proc q).state = (s.proc q).state ∧ ((s.tidy p).proc q).killed = (s.proc q).killed := by
  rcases eq_or_ne q p with rfl | other
  · simp [Machine.tidy]
  · simp [Machine.tidy,other]

theorem Sched.spared (cpus : Cpus s) (next : Sched l s s') (spare : Spare s' q) : Spared s s' q := by
  cases next with
  | exec runs here => exact .update rfl rfl (.inl ⟨rfl,rfl⟩) spare
  | step next =>
    cases next with
    | fault runs here =>
      have running := cpus.state _ _ runs
      exact .update rfl rfl (.inr (by simp [running])) spare
    | @allocproc _ c p np t n runs here free found =>
      obtain ⟨unused,rfl,rfl⟩ := allocproc_some found
      rcases eq_or_ne q np with rfl | other
      · exact .alloc unused (by simp) (by simp)
      · exact .same (by simp [other]) (by simp [other]) (by simp [other])
    | @unalloc _ c p np runs here =>
      rcases eq_or_ne q np with rfl | other
      · exact .unalloc ⟨c,p,runs,here,rfl⟩ (by simp) (by simp)
      · exact .same (by simp [other]) (by simp [other]) rfl
    | parent runs here | unsleep runs here held => exact .update rfl rfl (.inl ⟨rfl,rfl⟩) spare
    | fork runs here free | yield runs here enabled free | sleep chan runs here may free | switch idle held chosen =>
      exact .update rfl rfl (.inr (by simp)) spare
    | exit runs here free => exact .exit spare
    | wait runs here free => exact .wait rfl ⟨rfl,rfl⟩ spare
    | @rewait _ c p runs here held =>
      exact .wait rfl (tidy_killed s p q) spare
    | wakeup chan free => exact .woken (wakeup1_woken _ _) rfl rfl spare
    | @kill _ c p r t pid runs here free found =>
      obtain ⟨r',_,same⟩ := Option.map_eq_some_iff.mp found
      cases same
      rcases eq_or_ne q r with rfl | other
      · refine .kill ⟨c,p,_,runs,here,free,found,rfl⟩ ?_ (by simp)
        by_cases asleep : (s.proc q).state = .SLEEPING
        · simp [Spare,asleep] at spare
        · simp [asleep]
      · exact .same (by simp [other]) (by simp [other]) (by simp [other])
    | _ => exact .same rfl rfl rfl

/-- Unused slots are not killed; a process in the making is only if `kill` was called for it. -/
structure Clean (s : Machine κ γ) : Prop where
  unused : ∀ q, (s.proc q).state = .UNUSED → (s.proc q).killed = false
  embryo : ∀ q, (s.proc q).state = .EMBRYO → (s.proc q).killed = true → s.hit q = true

theorem Clean.step (clean : Clean s) (cpus : Cpus s) (next : Sched l s s') (careful : Careful s s') : Clean s' := by
  constructor
  · intro q unused
    cases next.spared cpus (.inl unused) with
    | same state killed hit => rw [killed,clean.unused q (by rw [← state,unused])]
    | alloc before embryo killed =>
      rw [unused] at embryo
      cases embryo
    | unalloc fails _ killed => rw [killed,careful.2 q fails]
    | reap _ killed => exact killed
    | kill kills state hit => exact absurd (state.symm.trans unused) (careful.1 _ q kills)
  · intro q embryo dead
    cases next.spared cpus (.inr embryo) with
    | same state killed hit =>
      rw [hit]
      exact clean.embryo q (by rw [← state,embryo]) (by rw [← killed,dead])
    | alloc before embryo' killed =>
      rw [killed,clean.unused q before] at dead
      cases dead
    | unalloc fails unused killed | reap unused killed =>
      rw [unused] at embryo
      cases embryo
    | kill kills state hit => exact hit

theorem CarefulRun.scheduled (run : CarefulRun s) : Scheduled s := by
  induction run with
  | start => exact .start
  | next _ next _ ih => exact ih.next next

omit [DecidableEq κ] [DecidableEq γ] in
theorem initial_clean : Clean (initial κ γ) := by
  constructor
  · intro q _
    simp only [initial]
    split <;> rfl
  · intro q embryo _
    simp only [initial] at embryo
    split at embryo <;> cases embryo

theorem CarefulRun.clean (run : CarefulRun s) : Clean s := by
  induction run with
  | start => exact initial_clean
  | next before next careful ih => exact ih.step before.scheduled.inv.1 next careful

omit [DecidableEq κ] [DecidableEq γ] in
theorem made_update {p np : Slot} {x : Proc γ} (proc : s'.proc = update s.proc p x) (hit : s'.hit = s.hit)
    (mine : (s.proc p).state = .EMBRYO → x.killed = (s.proc p).killed) (embryo : (s.proc np).state = .EMBRYO) :
    (s'.proc np).killed = (s.proc np).killed ∧ s'.hit np = s.hit np := by
  refine ⟨?_,by rw [hit]⟩
  rcases eq_or_ne np p with rfl | other
  · rw [proc,update_self,mine embryo]
  · rw [proc,update_of_ne other]

omit [DecidableEq γ] in
theorem made_wait {c : κ} {p np : Slot} (embryo : (s.proc np).state = .EMBRYO) :
    ((s.wait c p).2.proc np).killed = (s.proc np).killed ∧ (s.wait c p).2.hit np = s.hit np := by
  rcases wait_split s c p with ⟨r,_,zombie,ends⟩ | ⟨_,ends⟩ | ⟨_,ends⟩ <;> rw [ends]
  · exact made_update (p := r) rfl rfl (fun embryo => by simp [zombie] at embryo) embryo
  · exact ⟨rfl,rfl⟩
  · exact made_update (p := p) rfl rfl (fun _ => rfl) embryo

/-- The process that `fork` makes RUNNABLE has the flag that it had before. -/
theorem Sched.made {np : Slot} (cpus : Cpus s) (next : Sched l s s') (embryo : (s.proc np).state = .EMBRYO)
    (runnable : (s'.proc np).state = .RUNNABLE) : (s'.proc np).killed = (s.proc np).killed ∧ s'.hit np = s.hit np := by
  cases next with
  | exec runs here => exact made_update rfl rfl (fun _ => rfl) embryo
  | step next =>
    cases next with
    | fault runs here =>
      have running := cpus.state _ _ runs
      exact made_update rfl rfl (fun embryo => by simp [running] at embryo) embryo
    | @allocproc _ c p np' t n runs here free found =>
      obtain ⟨unused,rfl,rfl⟩ := allocproc_some found
      have other : np ≠ np' := by
        rintro rfl
        simp [embryo] at unused
      simp [other]
    | unalloc runs here | parent runs here | fork runs here free | yield runs here enabled free
    | sleep chan runs here may free | unsleep runs here held | switch idle held chosen =>
      exact made_update rfl rfl (fun _ => rfl) embryo
    | exit runs here free => exact ⟨(exit_fields _ _ _).2.2,rfl⟩
    | wait runs here free => exact made_wait embryo
    | @rewait _ c p runs here held =>
      obtain ⟨state,killed⟩ := tidy_killed s p np
      have embryo' : ((s.tidy p).proc np).state = .EMBRYO := by rw [state,embryo]
      have after := made_wait (c := c) (p := p) embryo'
      exact ⟨after.1.trans killed,after.2⟩
    | wakeup chan free =>
      refine ⟨?_,rfl⟩
      show (wakeup1 (some (.other chan)) s.proc np).killed = _
      rcases wakeup1_woken (some (.other chan)) s.proc np with same | ⟨_,same⟩ <;> rw [same]
    | @kill _ c p r t pid runs here free found =>
      obtain ⟨r',_,same⟩ := Option.map_eq_some_iff.mp found
      cases same
      have other : np ≠ r := by
        rintro rfl
        simp [embryo] at runnable
      simp [other]
    | _ => exact ⟨rfl,rfl⟩

omit [DecidableEq κ] [DecidableEq γ] in
theorem Kills.pid {pid : Int} (kills : Kills pid q s s') : (s.proc q).pid = pid := by
  obtain ⟨c,p,t,_,_,_,found,_⟩ := kills
  obtain ⟨r,first,same⟩ := Option.map_eq_some_iff.mp found
  cases same
  simpa using first_some first

/-- In every run without a `kill` that finds an unused slot, and without a failed `fork` of a process that has been killed:
    every unused slot has a clear flag, a process that `fork` makes RUNNABLE has one unless `kill` was called for it after
    its allocation, and `kill` returns 0 only for a process. -/
theorem killed_not_inherited (run : CarefulRun s) :
    (∀ q, (s.proc q).state = .UNUSED → (s.proc q).killed = false) ∧
    ∀ l s', Sched l s s' → Careful s s' →
      (∀ np, (s.proc np).state = .EMBRYO → (s'.proc np).state = .RUNNABLE → (s'.proc np).killed = true → s'.hit np = true) ∧
      ∀ pid q, Kills pid q s s' → (s.proc q).pid = pid ∧ (s.proc q).state ≠ .UNUSED := by
  have clean := run.clean
  refine ⟨clean.unused,fun l s' next careful => ⟨fun np embryo runnable killed => ?_,fun pid q kills => ?_⟩⟩
  · obtain ⟨same,hit⟩ := next.made run.scheduled.inv.1 embryo runnable
    rw [hit]
    exact clean.embryo np embryo (by rw [← same,killed])
  · exact ⟨kills.pid,careful.1 pid q kills⟩

omit [DecidableEq κ] [DecidableEq γ] in
theorem Careful.clear (alive : ∀ q, (s.proc q).killed = false)
    (unused : ∀ q, (s.proc q).state = .UNUSED → (s'.proc q).killed = false) : Careful s s' := by
  refine ⟨?_,fun np _ => alive np⟩
  rintro pid q ⟨c,p,t,_,_,_,found,rfl⟩ free
  obtain ⟨r,_,same⟩ := Option.map_eq_some_iff.mp found
  cases same
  have clear := unused q free
  simp at clear

theorem inCall_exists : ∃ s : Machine Unit Unit, CarefulRun s ∧ (s.cpu ()).proc = some 0 ∧ s.ctl 0 = .runs .kernel ∧
    s.lock = none ∧ s.proc = update (initial Unit Unit).proc 0 ⟨.RUNNING,1,none,none,false,10⟩ := by
  have run := CarefulRun.next (.start (κ := Unit) (γ := Unit)) (.step (.loop (c := ()) rfl rfl))
    (.clear (by decide) (by decide))
  replace run := run.next (.step (.switch (c := ()) (p := 0) rfl rfl rfl)) (.clear (by decide) (by decide))
  replace run := run.next (.step (.forkret (c := ()) (p := 0) rfl rfl rfl)) (.clear (by decide) (by decide))
  replace run := run.next (.step (.code (c := ()) (p := 0) rfl rfl .forkret)) (.clear (by decide) (by decide))
  replace run := run.next (.step (.code (c := ()) (p := 0) rfl rfl (.syscall rfl)))
    (.clear (by decide) (by decide))
  exact ⟨_,run,rfl,rfl,rfl,rfl⟩

theorem allocproc_second {s : Machine Unit Unit} (first' : first s.proc (fun p => p.state = .UNUSED) = some 1) :
    allocproc s.proc s.nextpid = some (1,update s.proc 1 { s.proc 1 with state := .EMBRYO, pid := s.nextpid, priority := 10 },
      (s.nextpid + 1).bmod (2 ^ 32)) := by
  simp only [allocproc,first',Option.map_some]

/-- Init forks, and its child starts alive. -/
theorem killed_not_inherited_fork : ∃ (s s' : Machine Unit Unit), CarefulRun s ∧ Sched .tau s s' ∧
    (s.proc 1).state = .EMBRYO ∧ (s'.proc 1).state = .RUNNABLE ∧ ((s'.proc 1).killed = true → s'.hit 1 = true) := by
  obtain ⟨s,run,runs,here,free,table⟩ := inCall_exists
  have alive : ∀ q, (s.proc q).killed = false := by
    rw [table]
    decide
  have kept {t : Table Unit} (alive : ∀ q, (t q).killed = false) {x : Proc Unit} (clear : x.killed = false) (q : Slot) :
      (update t 1 x q).killed = false := by
    rcases eq_or_ne q 1 with rfl | other
    · rwa [update_self]
    · rw [update_of_ne other,alive]
  have forking : ∃ s : Machine Unit Unit, CarefulRun s ∧ (s.cpu ()).proc = some 0 ∧ s.ctl 0 = .runs (.child 1) ∧
      s.lock = none ∧ (s.proc 1).state = .EMBRYO ∧ ∀ q, (s.proc q).killed = false := by
    have found := allocproc_second (s := s) (by rw [table]; decide)
    have alive' : ∀ q, (update s.proc 1 { s.proc 1 with state := .EMBRYO, pid := s.nextpid, priority := 10 } q).killed = false :=
      kept alive (alive 1)
    replace run := run.next (.step (.allocproc runs here free found)) (.clear alive fun q _ => alive' q)
    replace run := run.next (.step (.parent (c := ()) (p := 0) runs (show _ = Ctl.runs (.embryo 1) by simp)))
      (.clear alive' fun q _ => kept alive' (by exact alive' 1) q)
    exact ⟨_,run,runs,by simp [Machine.goto],free,by simp,kept alive' (by exact alive' 1)⟩
  obtain ⟨s,run,runs,here,free,embryo,alive⟩ := forking
  have next := Sched.step (.fork runs here free)
  have careful : Careful s { s.goto 0 (.runs .kernel) with proc := update s.proc 1 { s.proc 1 with state := .RUNNABLE } } :=
    .clear alive fun q _ => kept alive (by exact alive 1) q
  have made := ((killed_not_inherited run).2 _ _ next careful).1 1 embryo (by simp)
  exact ⟨s,_,run,next,embryo,by simp,made⟩

/-- Init calls `kill(0)`: an unused slot is killed, and `kill` returns 0. Then `fork` makes a process of the slot that is
    killed without a call of `kill` for it. -/
theorem killed_inherited :
    (∃ s s' : Machine Unit Unit, Scheduled s ∧ Sched .tau s s' ∧ Kills 0 1 s s' ∧ (∀ q, (s.proc q).pid = 0 → (s.proc q).state = .UNUSED) ∧
      s'.lock = none ∧ (s'.proc 1).state = .UNUSED ∧ (s'.proc 1).killed = true) ∧
    ∃ s : Machine Unit Unit, Scheduled s ∧ (s.proc 1).state = .RUNNABLE ∧ (s.proc 1).killed = true ∧ s.hit 1 = false := by
  obtain ⟨s,run,runs,here,free,table⟩ := inCall_exists
  have killed : kill 0 s.proc = some (1,update s.proc 1 { s.proc 1 with killed := true, state := .UNUSED }) := by
    have first' : first s.proc (fun p => p.pid = 0) = some 1 := by
      rw [table]
      decide
    have unused : (s.proc 1).state = .UNUSED := by
      rw [table]
      decide
    simp [kill,first',unused]
  have next := Sched.step (.kill 0 runs here free killed)
  have reached := run.scheduled.next next
  constructor
  · exact ⟨s,_,run.scheduled,next,⟨_,_,_,runs,here,free,killed,rfl⟩,by rw [table]; decide,free,by simp,by simp⟩
  · have found := allocproc_second (s := { s with
      proc := update s.proc 1 { s.proc 1 with killed := true, state := .UNUSED }, hit := update s.hit 1 true })
      (by simp only [table]; decide)
    replace reached := reached.next (.step (.allocproc (c := ()) (p := 0) runs here free found))
    replace reached := reached.next (.step (.parent (c := ()) (p := 0) runs (show _ = Ctl.runs (.embryo 1) by simp)))
    replace reached := reached.next (.step (.fork (c := ()) (p := 0) runs (show _ = Ctl.runs (.child 1) by simp [Machine.goto]) free))
    exact ⟨_,reached,by simp,by simp,by simp [Machine.goto]⟩

end Xv6.Procs
