import Xv6.ProcSteps

/-!
The process table stays a forest rooted at init: every living process has a parent that will run again, and every
process in the making belongs to one `fork`.
-/
namespace Xv6.Procs
open Function

variable {κ γ : Type} [DecidableEq κ] [DecidableEq γ] {s s' : Machine κ γ} {l : Label}

/-! ### The forest -/

/-- Process `q` is in `fork`, with the new process `np`. -/
def Making (s : Machine κ γ) (q np : Slot) : Prop := ∃ k, (s.ctl q).code = some k ∧ k.Makes np

/-- The parents, and the processes in the making. -/
structure Forest (s : Machine κ γ) : Prop where
  root : (s.proc initproc).state.Active
  parents : ∀ p, (s.proc p).state.Active ∨ (s.proc p).state = .ZOMBIE → p ≠ initproc →
    ∃ q, (s.proc p).parent = some q ∧ (s.proc q).state.Active
  makes : ∀ q np, Making s q np → (s.proc q).state.Active ∧ (s.proc np).state = .EMBRYO
  sole : ∀ q r np, Making s q np → Making s r np → q = r
  child : ∀ q np, (s.ctl q).code = some (.child np) → (s.proc np).parent = some q
  exits : ∀ q, (s.ctl q).code = some .exiting → q ≠ initproc

section
omit [DecidableEq κ] [DecidableEq γ]

theorem Quiet.active (quiet : Quiet s s') (q : Slot) : (s'.proc q).state.Active ↔ (s.proc q).state.Active := by
  rcases quiet.state q with same | ⟨before,after⟩
  · rw [same]
  · exact iff_of_true after before

theorem Quiet.unused (quiet : Quiet s s') (q : Slot) : (s'.proc q).state = .UNUSED ↔ (s.proc q).state = .UNUSED := by
  rcases quiet.state q with same | ⟨before,after⟩
  · rw [same]
  · refine ⟨fun unused => ?_,fun unused => ?_⟩
    · rw [unused] at after
      simp [ProcState.Active] at after
    · rw [unused] at before
      simp [ProcState.Active] at before

theorem Quiet.embryo (quiet : Quiet s s') {q : Slot} (embryo : (s.proc q).state = .EMBRYO) : (s'.proc q).state = .EMBRYO := by
  rcases quiet.state q with same | ⟨before,_⟩
  · rw [same,embryo]
  · rw [embryo] at before
    simp [ProcState.Active] at before

theorem Quiet.making (quiet : Quiet s s') {q np : Slot} (making : Making s' q np) : Making s q np := by
  obtain ⟨k,here,makes⟩ := making
  rcases quiet.code q k here with before | ⟨none,_⟩
  · exact ⟨k,before,makes⟩
  · exact absurd makes (none np)

theorem Forest.quiet (forest : Forest s) (quiet : Quiet s s') : Forest s' where
  root := (quiet.active _).mpr forest.root
  parents p live other := by
    rw [quiet.active,quiet.zombie] at live
    obtain ⟨q,mine,active⟩ := forest.parents p live other
    exact ⟨q,by rw [quiet.parent,mine],(quiet.active q).mpr active⟩
  makes q np making := by
    obtain ⟨active,embryo⟩ := forest.makes q np (quiet.making making)
    exact ⟨(quiet.active q).mpr active,quiet.embryo embryo⟩
  sole q r np mine his := forest.sole q r np (quiet.making mine) (quiet.making his)
  child q np here := by
    rcases quiet.code q _ here with before | ⟨none,_⟩
    · rw [quiet.parent,forest.child q np before]
    · exact absurd rfl (none np)
  exits q here := by
    rcases quiet.code q _ here with before | ⟨_,other⟩
    · exact forest.exits q before
    · exact other rfl
end

theorem ProcState.Active.used {st : ProcState} (active : st.Active) : st ≠ .UNUSED ∧ st ≠ .EMBRYO ∧ st ≠ .ZOMBIE := by
  rcases active with rfl | rfl | rfl <;> decide

variable {x : Proc γ}

section
omit [DecidableEq κ] [DecidableEq γ]

/-- A process in `fork` goes on, and its new process changes. -/
theorem Forest.making {p np : Slot} {k : Code} (forest : Forest s) (mine : Making s p np)
    (parents : x.state.Active ∨ x.state = .ZOMBIE → x.parent = some p) (makes : ∀ m, k.Makes m → m = np ∧ x.state = .EMBRYO)
    (child : k = .child np → x.parent = some p) (exits : k ≠ .exiting) :
    Forest { s.goto p (.runs k) with proc := update s.proc np x } := by
  obtain ⟨active,embryo⟩ := forest.makes p np mine
  have live {q : Slot} (active : (s.proc q).state.Active) : update s.proc np x q = s.proc q := by
    refine update_of_ne ?_ _ _
    rintro rfl
    exact active.used.2.1 embryo
  have code (q : Slot) (other : q ≠ p) : ((s.goto p (.runs k)).ctl q).code = (s.ctl q).code := by
    simp [Machine.goto,other]
  have self : ((s.goto p (.runs k)).ctl p).code = some k := by simp [Machine.goto,Ctl.code]
  have others {q m : Slot} (other : q ≠ p) (making : Making s q m) : update s.proc np x m = s.proc m := by
    refine update_of_ne ?_ _ _
    rintro rfl
    exact other (forest.sole q p m making mine)
  have before {q m : Slot} (making : Making { s.goto p (.runs k) with proc := update s.proc np x } q m) :
      q = p ∧ m = np ∧ x.state = .EMBRYO ∨ q ≠ p ∧ Making s q m := by
    obtain ⟨k',here,makes'⟩ := making
    rcases eq_or_ne q p with rfl | other
    · cases self.symm.trans here
      exact .inl ⟨rfl,makes m makes'⟩
    · exact .inr ⟨other,k',by rwa [← code q other],makes'⟩
  refine ⟨?_,fun q alive other => ?_,fun q m making => ?_,fun q r m one two => ?_,fun q m here => ?_,fun q here => ?_⟩
  · simpa only [live forest.root] using forest.root
  · rcases eq_or_ne q np with rfl | apart
    · simp only [update_self] at alive ⊢
      exact ⟨p,parents alive,by rwa [live active]⟩
    · simp only [update_of_ne apart] at alive ⊢
      obtain ⟨r,mine,active⟩ := forest.parents q alive other
      exact ⟨r,mine,by rwa [live active]⟩
  · rcases before making with ⟨rfl,rfl,state⟩ | ⟨other,making⟩
    · exact ⟨by simpa only [live active] using active,by simpa only [update_self] using state⟩
    · obtain ⟨active,state⟩ := forest.makes q m making
      exact ⟨by simpa only [live active] using active,by simpa only [others other making] using state⟩
  · rcases before one with ⟨rfl,rfl,_⟩ | ⟨other,one'⟩
    · rcases before two with ⟨rfl,_⟩ | ⟨_,two'⟩
      · rfl
      · exact forest.sole q r m mine two'
    · rcases before two with ⟨rfl,rfl,_⟩ | ⟨_,two'⟩
      · exact forest.sole q r m one' mine
      · exact forest.sole q r m one' two'
  · rcases before ⟨_,here,rfl⟩ with ⟨rfl,rfl,_⟩ | ⟨other,making⟩
    · simp only [update_self]
      exact child (Option.some.inj (self.symm.trans here))
    · simp only [others other making]
      exact forest.child q m (by rwa [← code q other])
  · rcases eq_or_ne q p with rfl | other
    · exact absurd (Option.some.inj (self.symm.trans here)) exits
    · exact forest.exits q (by rwa [← code q other])

theorem Forest.alloc {p np : Slot} {nextpid : Int} {allocs : Nat} {life : Slot → Nat} {hit : Slot → Bool}
    (forest : Forest s) (runs : (s.proc p).state.Active) (unused : (s.proc np).state = .UNUSED) (embryo : x.state = .EMBRYO) :
    Forest { s with
      proc := update s.proc np x, nextpid := nextpid, ctl := update (update s.ctl np .forkret) p (.runs (.embryo np)),
      allocs := allocs, life := life, hit := hit } := by
  have live {q : Slot} (used : (s.proc q).state ≠ .UNUSED) : update s.proc np x q = s.proc q := by
    refine update_of_ne ?_ _ _
    rintro rfl
    exact used unused
  have code {q : Slot} {k : Code} (here : (update (update s.ctl np .forkret) p (.runs (.embryo np)) q).code = some k) :
      q = p ∧ k = .embryo np ∨ q ≠ p ∧ (s.ctl q).code = some k := by
    rcases eq_or_ne q p with rfl | other
    · rw [update_self] at here
      exact .inl ⟨rfl,(Option.some.inj here).symm⟩
    · rw [update_of_ne other] at here
      rcases eq_or_ne q np with rfl | apart
      · rw [update_self] at here
        cases here
      · rw [update_of_ne apart] at here
        exact .inr ⟨other,here⟩
  have before {q m : Slot} (making : Making { s with
      proc := update s.proc np x, nextpid := nextpid, ctl := update (update s.ctl np .forkret) p (.runs (.embryo np)),
      allocs := allocs, life := life, hit := hit } q m) : q = p ∧ m = np ∨ m ≠ np ∧ Making s q m := by
    obtain ⟨k,here,makes⟩ := making
    rcases code here with ⟨rfl,rfl⟩ | ⟨_,was⟩
    · exact .inl ⟨rfl,makes.symm⟩
    · refine .inr ⟨?_,k,was,makes⟩
      rintro rfl
      have state := (forest.makes q m ⟨k,was,makes⟩).2
      rw [unused] at state
      cases state
  refine ⟨?_,fun q alive other => ?_,fun q m making => ?_,fun q r m one two => ?_,fun q m here => ?_,fun q here => ?_⟩
  · simpa only [live forest.root.used.1] using forest.root
  · rcases eq_or_ne q np with rfl | apart
    · simp [embryo,ProcState.Active] at alive
    · simp only [update_of_ne apart] at alive ⊢
      obtain ⟨r,mine,active⟩ := forest.parents q alive other
      exact ⟨r,mine,by rwa [live active.used.1]⟩
  · rcases before making with ⟨rfl,rfl⟩ | ⟨other,making⟩
    · exact ⟨by simpa only [live runs.used.1] using runs,by simpa only [update_self] using embryo⟩
    · obtain ⟨active,state⟩ := forest.makes q m making
      exact ⟨by simpa only [live active.used.1] using active,by simpa only [update_of_ne other] using state⟩
  · rcases before one with ⟨rfl,rfl⟩ | ⟨other,one⟩
    · rcases before two with ⟨rfl,_⟩ | ⟨other,_⟩
      · rfl
      · exact absurd rfl other
    · rcases before two with ⟨_,rfl⟩ | ⟨_,two⟩
      · exact absurd rfl other
      · exact forest.sole q r m one two
  · rcases code here with ⟨_,never⟩ | ⟨_,before⟩
    · cases never
    · have state := (forest.makes q m ⟨_,before,rfl⟩).2
      simp only [live (q := m) (by rw [state]; decide)]
      exact forest.child q m before
  · rcases code here with ⟨_,never⟩ | ⟨_,before⟩
    · cases never
    · exact forest.exits q before
end

variable {p : Slot}

theorem Forest.exited {c : κ} (forest : Forest s) (runs : (s.proc p).state.Active)
    (here : s.ctl p = .runs .exiting) : Forest ({ s with proc := exit p s.proc }.sched c p .exited) := by
  have first : p ≠ initproc := forest.exits p (by rw [here]; rfl)
  have active {q : Slot} (active : (s.proc q).state.Active) (apart : q ≠ p) : (exit p s.proc q).state.Active := by
    rcases exit_state apart s.proc with same | ⟨_,woken⟩
    · rwa [same]
    · exact .inr (.inl woken)
  have code {q : Slot} {k : Code} (here : (update s.ctl p .exited q).code = some k) : q ≠ p ∧ (s.ctl q).code = some k := by
    rcases eq_or_ne q p with rfl | other
    · rw [update_self] at here
      cases here
    · exact ⟨other,by rwa [update_of_ne other] at here⟩
  have before {q m : Slot} (making : Making ({ s with proc := exit p s.proc }.sched c p .exited) q m) :
      q ≠ p ∧ Making s q m := by
    obtain ⟨k,here,makes⟩ := making
    exact ⟨(code here).1,k,(code here).2,makes⟩
  refine ⟨active forest.root first.symm,fun q alive other => ?_,fun q m making => ?_,fun q r m one two => ?_,
    fun q m here' => ?_,fun q here => forest.exits q (code here).2⟩
  · have lived : (s.proc q).state.Active ∨ (s.proc q).state = .ZOMBIE := by
      rcases eq_or_ne q p with rfl | apart
      · exact .inl runs
      · rcases exit_state apart s.proc with same | ⟨asleep,_⟩
        · have alive : (exit p s.proc q).state.Active ∨ (exit p s.proc q).state = .ZOMBIE := alive
          rwa [same] at alive
        · exact .inl (.inl asleep)
    obtain ⟨r,mine,was⟩ := forest.parents q lived other
    have parent : (exit p s.proc q).parent = if r = p then some initproc else some r := by
      rw [(exit_fields p s.proc q).1,adopt,mine]
      simp
    rcases eq_or_ne r p with rfl | apart
    · rw [if_pos rfl] at parent
      exact ⟨initproc,parent,active forest.root first.symm⟩
    · rw [if_neg apart] at parent
      exact ⟨r,parent,active was apart⟩
  · obtain ⟨other,making⟩ := before making
    obtain ⟨was,embryo⟩ := forest.makes q m making
    have apart : m ≠ p := by
      rintro rfl
      exact runs.used.2.1 embryo
    refine ⟨active was other,?_⟩
    rcases exit_state apart s.proc with same | ⟨asleep,_⟩
    · exact same.trans embryo
    · rw [embryo] at asleep
      cases asleep
  · exact forest.sole q r m (before one).2 (before two).2
  · obtain ⟨other,was⟩ := code here'
    have mine := forest.child q m was
    show (exit p s.proc m).parent = some q
    rw [(exit_fields p s.proc m).1,adopt,mine]
    simp [other]

section
omit [DecidableEq κ] [DecidableEq γ]

theorem Forest.reap {p q : Slot} {lock : Option κ} (forest : Forest s) (zombie : (s.proc q).state = .ZOMBIE)
    (unused : x.state = .UNUSED) : Forest { s.goto p (.runs .kernel) with proc := update s.proc q x, lock := lock } := by
  have live {r : Slot} (other : (s.proc r).state ≠ .ZOMBIE) : update s.proc q x r = s.proc r := by
    refine update_of_ne ?_ _ _
    rintro rfl
    exact other zombie
  have code {r : Slot} {k : Code} (here : (update s.ctl p (.runs .kernel) r).code = some k) :
      k = .kernel ∨ (s.ctl r).code = some k := by
    rcases eq_or_ne r p with rfl | other
    · rw [update_self] at here
      exact .inl (Option.some.inj here).symm
    · exact .inr (by rwa [update_of_ne other] at here)
  have before {r m : Slot} (making : Making { s.goto p (.runs .kernel) with proc := update s.proc q x, lock := lock } r m) :
      Making s r m := by
    obtain ⟨k,here,makes⟩ := making
    rcases code here with rfl | was
    · exact False.elim makes
    · exact ⟨k,was,makes⟩
  refine ⟨?_,fun r alive other => ?_,fun r m making => ?_,fun r r' m one two => forest.sole r r' m (before one) (before two),
    fun r m here => ?_,fun r here => ?_⟩
  · simpa only [live forest.root.used.2.2] using forest.root
  · rcases eq_or_ne r q with rfl | apart
    · simp [unused,ProcState.Active] at alive
    · simp only [update_of_ne apart] at alive ⊢
      obtain ⟨parent,mine,active⟩ := forest.parents r alive other
      exact ⟨parent,mine,by rwa [live active.used.2.2]⟩
  · obtain ⟨active,embryo⟩ := forest.makes r m (before making)
    refine ⟨by simpa only [live active.used.2.2] using active,?_⟩
    simpa only [live (r := m) (by rw [embryo]; decide)] using embryo
  · rcases code here with never | was
    · cases never
    · have embryo := (forest.makes r m ⟨_,was,rfl⟩).2
      simp only [live (r := m) (by rw [embryo]; decide)]
      exact forest.child r m was
  · rcases code here with never | was
    · cases never
    · exact forest.exits r was

theorem Making.runs {p np : Slot} {k : Code} (here : s.ctl p = .runs k) (makes : k.Makes np) : Making s p np :=
  ⟨k,by rw [here]; rfl,makes⟩
end

theorem Forest.loud (forest : Forest s) (loud : Loud l s s') : Forest s' := by
  cases loud with
  | alloc runs here unused => exact forest.alloc (.inr (.inr runs)) unused rfl
  | unalloc runs here =>
    refine forest.making (.runs here rfl) (fun live => ?_) (fun _ => False.elim) (fun never => by cases never) (by simp)
    simp [ProcState.Active] at live
  | @parent _ p np runs here =>
    have embryo := (forest.makes p np (.runs here rfl)).2
    exact forest.making (.runs here rfl) (fun _ => rfl) (fun m same => ⟨same.symm,embryo⟩) (fun _ => rfl) (by simp)
  | @fork _ p np runs here =>
    refine forest.making (.runs here rfl) (fun _ => ?_) (fun _ => False.elim) (fun never => by cases never) (by simp)
    exact forest.child p np (by rw [here]; rfl)
  | exit runs here => exact forest.exited (.inr (.inr runs)) here
  | reap runs here mine zombie => exact forest.reap zombie rfl

theorem Forest.step (forest : Forest s) (cpus : Cpus s) (next : Step l s s') : Forest s' := by
  rcases next.split cpus with ⟨quiet,_⟩ | ⟨s₁,quiet,loud⟩
  · exact forest.quiet quiet
  · exact (forest.quiet quiet).loud loud

omit [DecidableEq κ] [DecidableEq γ] in
theorem Cpus.update (cpus : Cpus s) {q : Slot} (cpu : s'.cpu = s.cpu) (proc : s'.proc = update s.proc q x)
    (state : x.state = .RUNNING ↔ (s.proc q).state = .RUNNING) : Cpus s' := by
  refine cpus.same (fun c => by rw [cpu]) fun p => ?_
  rcases eq_or_ne p q with rfl | other
  · rw [proc,update_self,state]
  · rw [proc,update_of_ne other]

omit [DecidableEq γ] in
theorem Cpus.wait (cpus : Cpus s) {c : κ} (runs : (s.cpu c).proc = some p) : Cpus (s.wait c p).2 := by
  rcases wait_split s c p with ⟨q,_,zombie,ends⟩ | ⟨_,ends⟩ | ⟨_,ends⟩ <;> rw [ends]
  · exact cpus.update rfl rfl (by simp [zombie])
  · exact cpus.same (fun _ => rfl) fun _ => Iff.rfl
  · exact cpus.leave runs rfl (by simp [Machine.sched,sleep]) fun q other => by simp [Machine.sched,sleep,other]

omit [DecidableEq κ] [DecidableEq γ] in
theorem Cpus.tidy (cpus : Cpus s) (p : Slot) : Cpus (s.tidy p) := cpus.update rfl rfl Iff.rfl

theorem Cpus.step (cpus : Cpus s) (forest : Forest s) (next : Step l s s') : Cpus s' := by
  cases next with
  | code runs here moves | unyield runs here held | forkret runs here held | release idle held chosen =>
    exact cpus.same (fun _ => rfl) fun _ => Iff.rfl
  | fault runs here | parent runs here => exact cpus.update rfl rfl Iff.rfl
  | allocproc runs here free found =>
    obtain ⟨unused,rfl,rfl⟩ := allocproc_some found
    exact cpus.update rfl rfl (by simp [unused])
  | full runs here free found => exact cpus
  | noKill pid runs here free found => exact cpus
  | @unalloc s c p np runs here | @fork s c p np runs here free =>
    have embryo := (forest.makes p np (.runs here rfl)).2
    exact cpus.update rfl rfl (by simp [embryo])
  | @exit s c p runs here free =>
    refine cpus.leave runs rfl ?_ fun q other => ?_
    · show (exit p s.proc p).state ≠ _
      simp [exit_self]
    · show (exit p s.proc q).state = _ ↔ _
      rcases exit_state other s.proc with same | ⟨asleep,woken⟩
      · rw [same]
      · simp [asleep,woken]
  | wait runs here free => exact cpus.wait runs
  | rewait runs here held => exact (cpus.tidy _).wait runs
  | yield runs here enabled free =>
    exact cpus.leave runs rfl (by simp [Machine.sched]) fun q other => by simp [Machine.sched,other]
  | sleep chan runs here may free =>
    exact cpus.leave runs rfl (by simp [Machine.sched,sleep]) fun q other => by simp [Machine.sched,sleep,other]
  | unsleep runs here held => exact (cpus.tidy _).same (fun _ => rfl) fun _ => Iff.rfl
  | @wakeup s chan free =>
    refine cpus.same (fun _ => rfl) fun q => ?_
    show (wakeup1 (some (.other chan)) s.proc q).state = _ ↔ _
    rcases wakeup1_woken (some (.other chan)) s.proc q with same | ⟨asleep,same⟩ <;> rw [same]
    simp [asleep]
  | kill pid runs here free found =>
    obtain ⟨q,_,same⟩ := Option.map_eq_some_iff.mp found
    cases same
    refine cpus.update rfl rfl ?_
    show (if _ then _ else _) = _ ↔ _
    split
    · next asleep => simp [asleep]
    · exact Iff.rfl
  | @loop s c idle free =>
    refine cpus.same (fun d => ?_) fun _ => Iff.rfl
    rcases eq_or_ne d c with rfl | other
    · simp [idle]
    · simp [other]
  | switch idle held chosen => exact cpus.switch idle (by simp [choose_runnable chosen])

/-! ### Pids and lives -/

/-- The pid of the allocation with number `n`. -/
def pidOf (n : Nat) : Int := ((n : Int) + 1).bmod (2 ^ 32)

theorem pidOf_succ (n : Nat) : (pidOf n + 1).bmod (2 ^ 32) = pidOf (n + 1) := by
  unfold pidOf
  rw [Int.bmod_add_bmod]
  norm_cast

theorem pidOf_small {n : Nat} (small : n < 2 ^ 31 - 1) : pidOf n = n + 1 := by
  unfold pidOf
  refine Int.bmod_eq_of_le ?_ ?_ <;> omega

/-- The process that a `wait` call reaps. -/
def Label.gone : Label → Option Nat
  | .reaped _ _ life _ => some life
  | _ => none

/-- The processes so far, by the numbers of their allocations. -/
structure Traced (ls : List Label) (s : Machine κ γ) : Prop where
  lives : ∀ p, (s.proc p).state ≠ .UNUSED → s.life p < s.allocs
  distinct : ∀ p q, (s.proc p).state ≠ .UNUSED → (s.proc q).state ≠ .UNUSED → s.life p = s.life q → p = q
  pids : ∀ p, (s.proc p).state ≠ .UNUSED → (s.proc p).pid = pidOf (s.life p)
  nextpid : s.nextpid = pidOf s.allocs
  gone : ∀ n ∈ ls.filterMap Label.gone, n < s.allocs ∧ ∀ p, (s.proc p).state ≠ .UNUSED → s.life p ≠ n
  once : (ls.filterMap Label.gone).Nodup

variable {ls : List Label}

section
omit [DecidableEq κ] [DecidableEq γ]

theorem Traced.same (traced : Traced ls s)
    (used : ∀ p, (s'.proc p).state ≠ .UNUSED → (s.proc p).state ≠ .UNUSED ∧ (s'.proc p).pid = (s.proc p).pid)
    (ghost : s'.nextpid = s.nextpid ∧ s'.allocs = s.allocs ∧ s'.life = s.life) : Traced ls s' := by
  obtain ⟨nextpid,allocs,life⟩ := ghost
  refine ⟨fun p alive => ?_,fun p q mine his => ?_,fun p alive => ?_,?_,fun n gone => ?_,traced.once⟩
  · rw [allocs,life]
    exact traced.lives p (used p alive).1
  · rw [life]
    exact traced.distinct p q (used p mine).1 (used q his).1
  · rw [life,(used p alive).2]
    exact traced.pids p (used p alive).1
  · rw [nextpid,allocs]
    exact traced.nextpid
  · rw [allocs,life]
    exact ⟨(traced.gone n gone).1,fun p alive => (traced.gone n gone).2 p (used p alive).1⟩

theorem Traced.quiet (traced : Traced ls s) (quiet : Quiet s s') : Traced ls s' :=
  traced.same (fun p alive => ⟨fun unused => alive ((quiet.unused p).mpr unused),quiet.pid p⟩) quiet.ghost

theorem Traced.cons (traced : Traced ls s) (silent : l.gone = none) : Traced (l :: ls) s where
  lives := traced.lives
  distinct := traced.distinct
  pids := traced.pids
  nextpid := traced.nextpid
  gone := by rw [List.filterMap_cons_none silent]; exact traced.gone
  once := by rw [List.filterMap_cons_none silent]; exact traced.once

theorem Traced.alloc {np : Slot} {ctl : Slot → Ctl} {hit : Slot → Bool} (traced : Traced ls s)
    (pid : x.pid = s.nextpid) : Traced ls { s with
      proc := update s.proc np x, nextpid := (s.nextpid + 1).bmod (2 ^ 32), ctl := ctl, allocs := s.allocs + 1,
      life := update s.life np s.allocs, hit := hit } := by
  have older {p : Slot} (other : p ≠ np) (alive : (update s.proc np x p).state ≠ .UNUSED) : s.life p < s.allocs := by
    rw [update_of_ne other] at alive
    exact traced.lives p alive
  refine ⟨fun p alive => ?_,fun p q mine his same => ?_,fun p alive => ?_,?_,fun n gone => ⟨?_,fun p alive => ?_⟩,traced.once⟩
  · rcases eq_or_ne p np with rfl | other
    · simp
    · have := older other alive
      simp only [update_of_ne other]
      omega
  · rcases eq_or_ne p np with rfl | other
    · by_contra apart
      have := older (Ne.symm apart) his
      simp only [update_self,update_of_ne (Ne.symm apart)] at same
      omega
    · rcases eq_or_ne q np with rfl | other'
      · have := older other mine
        simp only [update_self,update_of_ne other] at same
        omega
      · simp only [update_of_ne other,update_of_ne other'] at mine his same
        exact traced.distinct p q mine his same
  · rcases eq_or_ne p np with rfl | other
    · simp only [update_self]
      rw [pid,traced.nextpid]
    · simp only [update_of_ne other] at alive ⊢
      exact traced.pids p alive
  · show (s.nextpid + 1).bmod (2 ^ 32) = pidOf (s.allocs + 1)
    rw [traced.nextpid,pidOf_succ]
  · exact Nat.lt_succ_of_lt (traced.gone n gone).1
  · rcases eq_or_ne p np with rfl | other
    · simp only [update_self]
      exact (traced.gone n gone).1.ne'
    · simp only [update_of_ne other] at alive ⊢
      exact (traced.gone n gone).2 p alive

theorem Traced.reap {p q : Slot} {lock : Option κ} {pid : Int} (traced : Traced ls s)
    (alive : (s.proc q).state ≠ .UNUSED) (unused : x.state = .UNUSED) :
    Traced (.reaped p q (s.life q) pid :: ls) { s.goto p (.runs .kernel) with proc := update s.proc q x, lock := lock } := by
  have apart {r : Slot} (used : (update s.proc q x r).state ≠ .UNUSED) : r ≠ q ∧ (s.proc r).state ≠ .UNUSED := by
    rcases eq_or_ne r q with rfl | other
    · rw [update_self] at used
      exact absurd unused used
    · exact ⟨other,by rwa [update_of_ne other] at used⟩
  have rest : Traced ls { s.goto p (.runs .kernel) with proc := update s.proc q x, lock := lock } :=
    traced.same (fun r used => ⟨(apart used).2,by simp only [update_of_ne (apart used).1]⟩) ⟨rfl,rfl,rfl⟩
  refine ⟨rest.lives,rest.distinct,rest.pids,rest.nextpid,fun n gone => ?_,?_⟩
  · rcases List.mem_cons.mp gone with rfl | gone
    · refine ⟨traced.lives q alive,fun r used same => ?_⟩
      exact (apart used).1 (traced.distinct r q (apart used).2 alive same)
    · exact rest.gone n gone
  · exact List.nodup_cons.mpr ⟨fun again => (traced.gone _ again).2 q alive rfl,traced.once⟩
end

theorem Traced.loud (traced : Traced ls s) (forest : Forest s) (loud : Loud l s s') :
    Traced (l :: ls) s' := by
  cases loud with
  | alloc runs here unused => exact (traced.alloc rfl).cons rfl
  | @unalloc _ p np runs here =>
    refine Traced.cons (l := .tau) (traced.same (fun q used => ?_) ⟨rfl,rfl,rfl⟩) rfl
    rcases eq_or_ne q np with rfl | other
    · simp at used
    · simpa [other] using used
  | @parent _ p np runs here =>
    refine Traced.cons (l := .tau) (traced.same (fun q used => ?_) ⟨rfl,rfl,rfl⟩) rfl
    rcases eq_or_ne q np with rfl | other
    · simpa using used
    · simpa [other] using used
  | @fork _ p np runs here =>
    have embryo := (forest.makes p np (.runs here rfl)).2
    refine Traced.cons (l := .tau) (traced.same (fun q used => ?_) ⟨rfl,rfl,rfl⟩) rfl
    rcases eq_or_ne q np with rfl | other
    · simp [embryo]
    · simpa [other] using used
  | @exit _ c p runs here =>
    refine Traced.cons (l := .tau) (traced.same (fun q used => ⟨?_,(exit_fields p s.proc q).2.1⟩) ⟨rfl,rfl,rfl⟩) rfl
    have used : (exit p s.proc q).state ≠ .UNUSED := used
    rcases eq_or_ne q p with rfl | other
    · rw [runs]
      decide
    · rcases exit_state other s.proc with same | ⟨asleep,_⟩
      · rwa [same] at used
      · rw [asleep]
        decide
  | reap runs here mine zombie => exact traced.reap (by rw [zombie]; decide) rfl

theorem Traced.step (traced : Traced ls s) (cpus : Cpus s) (forest : Forest s) (next : Step l s s') :
    Traced (l :: ls) s' := by
  rcases next.split cpus with ⟨quiet,silent⟩ | ⟨s₁,quiet,loud⟩
  · refine (traced.quiet quiet).cons ?_
    rcases silent with rfl | ⟨p,rfl⟩ <;> rfl
  · exact (traced.quiet quiet).loud (forest.quiet quiet) loud

/-! ### Runs -/

section
omit [DecidableEq κ] [DecidableEq γ]

theorem initial_used (used : ((initial κ γ).proc p).state ≠ .UNUSED) :
    p = initproc ∧ (initial κ γ).proc p = ⟨.RUNNABLE,1,none,none,false,10⟩ := by
  unfold initial at used ⊢
  dsimp only at used ⊢
  split at used
  · next same => exact ⟨same,if_pos same⟩
  · exact absurd rfl used

theorem initial_code (p : Slot) : ((initial κ γ).ctl p).code = none := by
  unfold initial
  dsimp only
  split <;> rfl

theorem initial_cpus : Cpus (initial κ γ) where
  state c p runs := by cases runs
  once c d p runs := by cases runs
  has p runs := by
    obtain ⟨_,same⟩ := initial_used (κ := κ) (γ := γ) (p := p) (by rw [runs]; decide)
    rw [same] at runs
    cases runs

theorem initial_forest : Forest (initial κ γ) where
  root := .inr (.inl (by simp [initial]))
  parents p live other := by
    refine absurd (initial_used (κ := κ) (γ := γ) (p := p) ?_).1 other
    rcases live with active | zombie
    · exact active.used.1
    · rw [zombie]
      decide
  makes q np making := by
    obtain ⟨k,here,_⟩ := making
    cases (initial_code q).symm.trans here
  sole q r np making := by
    obtain ⟨k,here,_⟩ := making
    cases (initial_code q).symm.trans here
  child q np here := by cases (initial_code q).symm.trans here
  exits q here := by cases (initial_code q).symm.trans here

theorem initial_traced : Traced [] (initial κ γ) where
  lives _ _ := Nat.one_pos
  distinct p q mine his _ := (initial_used mine).1.trans (initial_used his).1.symm
  pids p used := by rw [(initial_used used).2]; exact (pidOf_small (n := 0) (by decide)).symm
  nextpid := (pidOf_small (n := 1) (by decide)).symm
  gone n gone := by cases gone
  once := List.nodup_nil
end

theorem Run.inv (run : Run ls s) : Cpus s ∧ Forest s ∧ Traced ls s := by
  induction run with
  | start => exact ⟨initial_cpus,initial_forest,initial_traced⟩
  | step _ next ih =>
    obtain ⟨cpus,forest,traced⟩ := ih
    exact ⟨cpus.step forest next,forest.step cpus next,traced.step cpus forest next⟩

omit [DecidableEq κ] [DecidableEq γ] in
theorem Traced.pid (traced : Traced ls s) (few : s.allocs ≤ 2 ^ 31 - 1)
    (used : (s.proc p).state ≠ .UNUSED) : (s.proc p).pid = s.life p + 1 := by
  have := traced.lives p used
  rw [traced.pids p used,pidOf_small (by omega)]

theorem Step.reaped (cpus : Cpus s) {p q : Slot} {n : Nat} {pid : Int} (next : Step (.reaped p q n pid) s s') :
    (s.proc q).parent = some p ∧ (s.proc q).state = .ZOMBIE ∧ s.life q = n ∧ (s.proc q).pid = pid := by
  rcases next.split cpus with ⟨_,silent⟩ | ⟨s₁,quiet,loud⟩
  · rcases silent with never | ⟨_,never⟩ <;> cases never
  · cases loud with
    | reap runs here mine zombie =>
      exact ⟨by rw [← quiet.parent,mine],(quiet.zombie q).mp zombie,by rw [quiet.ghost.2.2],(quiet.pid q).symm⟩

/-- For any interleaving of the sections of `ptable.lock` on any number of CPUs: every process but init has a parent that
    will run again; a process is running iff exactly one CPU runs it; as long as no `int` overflows (`allocs` counts the
    allocation of init as well) the pids are positive and different; and no process is reaped twice, and each by a `wait` of
    its parent that returns its pid. -/
theorem processes_forest {ls : List Label} (run : Run ls s) :
    (∀ p, (s.proc p).state ∈ [.SLEEPING,.RUNNABLE,.RUNNING,.ZOMBIE] → p ≠ initproc →
      ∃ q, (s.proc p).parent = some q ∧ (s.proc q).state ∈ [.SLEEPING,.RUNNABLE,.RUNNING]) ∧
    (∀ p, (s.proc p).state = .RUNNING ↔ ∃! c, (s.cpu c).proc = some p) ∧
    (s.allocs ≤ 2 ^ 31 - 1 → ∀ p, (s.proc p).state ≠ .UNUSED →
      0 < (s.proc p).pid ∧ ∀ q, (s.proc q).state ≠ .UNUSED → (s.proc q).pid = (s.proc p).pid → q = p) ∧
    (ls.filterMap Label.gone).Nodup ∧
    ∀ p q n pid s', Step (.reaped p q n pid) s s' →
      (s.proc q).parent = some p ∧ (s.proc q).state = .ZOMBIE ∧ s.life q = n ∧ (s.proc q).pid = pid := by
  obtain ⟨cpus,forest,traced⟩ := run.inv
  refine ⟨fun p live other => ?_,fun p => ?_,fun few p used => ?_,traced.once,fun p q n pid s' next => next.reaped cpus⟩
  · obtain ⟨q,mine,active⟩ := forest.parents p (by simpa [ProcState.Active,or_assoc] using live) other
    exact ⟨q,mine,by simpa [ProcState.Active] using active⟩
  · constructor
    · intro runs
      obtain ⟨c,runs⟩ := cpus.has p runs
      exact ⟨c,runs,fun d his => cpus.once d c p his runs⟩
    · rintro ⟨c,runs,-⟩
      exact cpus.state c p runs
  · have pid := traced.pid few used
    refine ⟨by omega,fun q used' same => traced.distinct q p used' used ?_⟩
    rw [traced.pid few used',pid] at same
    omega

/-- Init forks. -/
def forked : PSigma fun ls : List Label => PSigma fun s : Machine Unit Unit => Run ls s :=
  ⟨_,_,Run.start
    |>.step (.loop (c := ()) rfl rfl)
    |>.step (.switch (c := ()) (p := 0) rfl rfl rfl)
    |>.step (.forkret (c := ()) (p := 0) rfl rfl rfl)
    |>.step (.code (c := ()) (p := 0) rfl rfl .forkret)
    |>.step (.code (c := ()) (p := 0) rfl rfl (.syscall rfl))
    |>.step (.allocproc (c := ()) (p := 0) rfl rfl rfl rfl)
    |>.step (.parent (c := ()) (p := 0) rfl rfl)
    |>.step (.fork (c := ()) (p := 0) rfl rfl rfl)⟩

/-- Then init goes to sleep in `wait`, and the child is given the CPU. -/
def waiting : PSigma fun ls : List Label => PSigma fun s : Machine Unit Unit => Run ls s :=
  ⟨_,_,forked.2.2
    |>.step (.code (c := ()) (p := 0) rfl rfl .wait)
    |>.step (.wait (c := ()) (p := 0) rfl rfl rfl)
    |>.step (.switch (c := ()) (p := 1) (by decide +kernel) (by decide +kernel) (by decide +kernel))
    |>.step (.forkret (c := ()) (p := 1) (by decide +kernel) (by decide +kernel) (by decide +kernel))⟩

/-- The child exits, and is reaped. -/
theorem processes_forest_reaped : ∃ (ls : List Label) (s : Machine Unit Unit), Run ls s ∧
    ls.filterMap Label.gone = [1] ∧ (ls.filterMap Label.gone).Nodup := by
  have run := waiting.2.2
  replace run := run.step (.code (c := ()) (p := 1) (k := .fresh) (by decide +kernel) (by decide +kernel) .forkret)
  replace run := run.step (.code (c := ()) (p := 1) (k := .user) (by decide +kernel) (by decide +kernel) (.syscall (by decide +kernel)))
  replace run := run.step (.code (c := ()) (p := 1) (k := .kernel) (by decide +kernel) (by decide +kernel) .exit)
  replace run := run.step (.exit (c := ()) (p := 1) (by decide +kernel) (by decide +kernel) (by decide +kernel))
  replace run := run.step (.release (c := ()) (by decide +kernel) (by decide +kernel) (by decide +kernel))
  replace run := run.step (.loop (c := ()) (by decide +kernel) (by decide +kernel))
  replace run := run.step (.switch (c := ()) (p := 0) (by decide +kernel) (by decide +kernel) (by decide +kernel))
  replace run := run.step (.rewait (c := ()) (p := 0) (by decide +kernel) (by decide +kernel) (by decide +kernel))
  exact ⟨_,_,run,by decide +kernel,(processes_forest run).2.2.2.1⟩

end Xv6.Procs
