import Xv6.ProcForest

/-!
A parent never sleeps through a child's exit. `exit` wakes the parent up before the process
is a zombie, and init when it inherits one; whoever goes to sleep in `wait` has looked at
all its children under the same lock.
-/
namespace Xv6.Procs
open Function

variable {κ γ : Type} [DecidableEq κ] [DecidableEq γ] {s s' : Machine κ γ} {l : Label}

/-- Nobody is its own parent, and init has none. -/
structure Rooted (s : Machine κ γ) : Prop where
  root : (s.proc initproc).parent = none
  apart : ∀ p, (s.proc p).parent ≠ some p

/-- Who sleeps in `wait` has no zombie among its children. -/
def Attentive (s : Machine κ γ) : Prop :=
  ∀ p q, (s.proc p).state = .SLEEPING → (s.proc p).chan = some (.proc q) → q = p ∧ NoZombie s p

/-- A process that finds itself killed in a system call has been killed since it was made. -/
def Blamed (s : Machine κ γ) : Prop := ∀ p, (s.ctl p).InCall → (s.proc p).killed = true → s.hit p = true

section
omit [DecidableEq κ] [DecidableEq γ]

theorem Rooted.quiet (rooted : Rooted s) (quiet : Quiet s s') : Rooted s' :=
  ⟨by rw [quiet.parent,rooted.root],fun p => by rw [quiet.parent]; exact rooted.apart p⟩

theorem Attentive.quiet (attentive : Attentive s) (quiet : Quiet s s') : Attentive s' := by
  intro p q asleep chan
  rw [quiet.noZombie]
  rcases quiet.sleeps p q asleep chan with ⟨before,chan⟩ | fresh
  · exact attentive p q before chan
  · exact fresh

theorem Blamed.quiet (blamed : Blamed s) (quiet : Quiet s s') : Blamed s' := by
  intro p call killed
  rcases quiet.blame p call killed with hit | ⟨call,killed,same⟩
  · exact hit
  · rw [same]
    exact blamed p call killed

theorem Rooted.update {q : Slot} {x : Proc γ} (rooted : Rooted s) (proc : s'.proc = update s.proc q x)
    (fine : x.parent = none ∨ x.parent = (s.proc q).parent ∨ q ≠ initproc ∧ x.parent ≠ some q) : Rooted s' := by
  have apart (p : Slot) : (s'.proc p).parent ≠ some p := by
    rcases eq_or_ne p q with rfl | other
    · rw [proc,update_self]
      rcases fine with none | same | ⟨_,apart⟩
      · simp [none]
      · rw [same]
        exact rooted.apart p
      · exact apart
    · rw [proc,update_of_ne other]
      exact rooted.apart p
  refine ⟨?_,apart⟩
  rcases eq_or_ne initproc q with rfl | other
  · rw [proc,update_self]
    rcases fine with none | same | ⟨never,_⟩
    · exact none
    · rw [same,rooted.root]
    · exact absurd rfl never
  · rw [proc,update_of_ne other,rooted.root]
end

theorem Rooted.loud (rooted : Rooted s) (forest : Forest s) (loud : Loud l s s') : Rooted s' := by
  cases loud with
  | alloc runs here unused | unalloc runs here | fork runs here => exact rooted.update rfl (.inr (.inl rfl))
  | @parent _ p np runs here =>
    obtain ⟨active,embryo⟩ := forest.makes p np (.runs here rfl)
    refine rooted.update rfl (.inr (.inr ⟨?_,fun same => ?_⟩))
    · rintro rfl
      exact forest.root.used.2.1 embryo
    · cases same
      exact active.used.2.1 embryo
  | @exit _ c p runs here =>
    have parent (q : Slot) : (exit p s.proc q).parent = if (s.proc q).parent = some p then some initproc else (s.proc q).parent :=
      (exit_fields p s.proc q).1
    refine ⟨(parent initproc).trans (by simp [rooted.root]),fun q => ?_⟩
    show (exit p s.proc q).parent ≠ some q
    rw [parent]
    split
    · next mine =>
      rintro ⟨⟩
      rw [rooted.root] at mine
      cases mine
    · exact rooted.apart q
  | reap runs here mine zombie => exact rooted.update rfl (.inl rfl)

omit [DecidableEq κ] [DecidableEq γ] in
theorem Attentive.update {q : Slot} {x : Proc γ} (attentive : Attentive s) (proc : s'.proc = update s.proc q x)
    (awake : x.state ≠ .SLEEPING) (alive : x.state ≠ .ZOMBIE) : Attentive s' := by
  intro p r asleep chan
  have other : p ≠ q := by
    rintro rfl
    rw [proc,update_self] at asleep
    exact awake asleep
  rw [proc,update_of_ne other] at asleep chan
  obtain ⟨self,none⟩ := attentive p r asleep chan
  refine ⟨self,fun z => ?_⟩
  rcases eq_or_ne z q with rfl | apart
  · rw [proc,update_self]
    exact fun _ => alive
  · rw [proc,update_of_ne apart]
    exact none z

theorem Attentive.exited {c : κ} {p : Slot} (attentive : Attentive s) (rooted : Rooted s) :
    Attentive ({ s with proc := exit p s.proc }.sched c p .exited) := by
  intro q r asleep chan
  change (exit p s.proc q).state = .SLEEPING at asleep
  change (exit p s.proc q).chan = some (.proc r) at chan
  obtain ⟨slept,same,parent,init⟩ := exit_asleep asleep
  rw [same] at chan
  obtain ⟨rfl,none⟩ := attentive q r slept chan
  refine ⟨rfl,fun z mine zombie => ?_⟩
  change (exit p s.proc z).parent = some r at mine
  change (exit p s.proc z).state = .ZOMBIE at zombie
  rw [(exit_fields p s.proc z).1,adopt] at mine
  rcases eq_or_ne z p with rfl | other
  · rw [if_neg (rooted.apart z)] at mine
    exact parent (by rw [chan,mine]; rfl)
  · have before : (s.proc z).state = .ZOMBIE := by
      rcases exit_state other s.proc with same | ⟨_,woken⟩
      · rwa [same] at zombie
      · rw [woken] at zombie
        cases zombie
    dsimp only at mine
    split at mine
    · next his =>
      cases mine
      exact init z his before chan
    · exact none z mine before

theorem Attentive.loud (attentive : Attentive s) (rooted : Rooted s) (forest : Forest s) (loud : Loud l s s') :
    Attentive s' := by
  cases loud with
  | alloc runs here unused | unalloc runs here | fork runs here | reap runs here mine zombie =>
    exact attentive.update rfl (by simp) (by simp)
  | @parent _ p np runs here =>
    have embryo := (forest.makes p np (.runs here rfl)).2
    exact attentive.update rfl (by simp [embryo]) (by simp [embryo])
  | exit runs here => exact attentive.exited rooted

omit [DecidableEq κ] [DecidableEq γ] in
theorem Blamed.before (blamed : Blamed s) (before : ∀ q, (s'.ctl q).InCall → (s'.proc q).killed = true →
    (s.ctl q).InCall ∧ (s.proc q).killed = true ∧ s'.hit q = s.hit q) : Blamed s' := by
  intro q call killed
  obtain ⟨call,killed,same⟩ := before q call killed
  rw [same]
  exact blamed q call killed

theorem Ctl.runs_inCall {k : Code} (call : k.InCall) : (Ctl.runs k).InCall := .inr ⟨k,rfl,call⟩

omit [DecidableEq κ] [DecidableEq γ] in
theorem Blamed.call {p : Slot} {k : Ctl} {t : Table γ} (lock : Option κ) (blamed : Blamed s) (here : (s.ctl p).InCall)
    (flags : ∀ q, (t q).killed = true → (s.proc q).killed = true) :
    Blamed { s.goto p k with proc := t, lock := lock } := by
  refine blamed.before fun q call killed => ⟨?_,flags q killed,rfl⟩
  rcases eq_or_ne q p with rfl | other
  · exact here
  · simpa [Machine.goto,other] using call

omit [DecidableEq γ] in
theorem update_killed {t : Table γ} {np : Slot} {x : Proc γ} (same : x.killed = true → (t np).killed = true) (q : Slot)
    (killed : (update t np x q).killed = true) : (t q).killed = true := by
  rcases eq_or_ne q np with rfl | other
  · rw [update_self] at killed
    exact same killed
  · rwa [update_of_ne other] at killed

theorem Blamed.loud (blamed : Blamed s) (loud : Loud l s s') : Blamed s' := by
  cases loud with
  | @alloc _ p np runs here unused =>
    refine blamed.before fun q call killed => ?_
    rcases eq_or_ne q np with rfl | other
    · have apart : q ≠ p := by
        rintro rfl
        rw [unused] at runs
        cases runs
      simp [apart,Ctl.InCall,Ctl.code] at call
    · refine ⟨?_,by simpa [other] using killed,update_of_ne other _ _⟩
      rcases eq_or_ne q p with rfl | apart
      · rw [here]
        exact Ctl.runs_inCall trivial
      · simpa [apart,other] using call
  | unalloc runs here | parent runs here | fork runs here =>
    exact blamed.call s.lock (by rw [here]; exact Ctl.runs_inCall trivial) (update_killed id)
  | @exit _ c p runs here =>
    refine blamed.before fun q call killed => ⟨?_,((exit_fields p s.proc q).2.2).symm.trans killed,rfl⟩
    rcases eq_or_ne q p with rfl | other
    · simp [Machine.sched,Ctl.InCall,Ctl.code] at call
    · simpa [Machine.sched,other] using call
  | reap runs here mine zombie =>
    refine blamed.call none ?_ (update_killed fun never => by cases never)
    rcases here with here | here <;> rw [here]
    · exact Ctl.runs_inCall trivial
    · exact .inl rfl

theorem Run.attentive {ls : List Label} (run : Run ls s) : Rooted s ∧ Attentive s ∧ Blamed s := by
  induction run with
  | start =>
    have fresh (p : Slot) : ((initial κ γ).proc p).parent = none ∧ ((initial κ γ).proc p).killed = false := by
      unfold initial
      dsimp only
      split <;> exact ⟨rfl,rfl⟩
    refine ⟨⟨(fresh _).1,fun p => by simp [fresh]⟩,fun p q asleep => ?_,fun p _ killed => ?_⟩
    · have := (initial_used (κ := κ) (γ := γ) (p := p) (by rw [asleep]; decide)).2
      rw [this] at asleep
      cases asleep
    · rw [(fresh p).2] at killed
      cases killed
  | step before next ih =>
    obtain ⟨rooted,attentive,blamed⟩ := ih
    obtain ⟨cpus,forest,_⟩ := before.inv
    rcases next.split cpus with ⟨quiet,_⟩ | ⟨s₁,quiet,loud⟩
    · exact ⟨rooted.quiet quiet,attentive.quiet quiet,blamed.quiet quiet⟩
    · have rooted := rooted.quiet quiet
      have forest := forest.quiet quiet
      exact ⟨rooted.loud forest loud,(attentive.quiet quiet).loud rooted forest loud,(blamed.quiet quiet).loud loud⟩

omit [DecidableEq κ] [DecidableEq γ] in
theorem tidy_fields (s : Machine κ γ) (p q : Slot) :
    ((s.tidy p).proc q).parent = (s.proc q).parent ∧ ((s.tidy p).proc q).killed = (s.proc q).killed := by
  rcases eq_or_ne q p with rfl | other
  · simp [Machine.tidy]
  · simp [Machine.tidy,other]

theorem Step.failed {p : Slot} (next : Step l s s') (fails : l = .failed p) :
    ((∀ q, (s.proc q).parent ≠ some p) ∨ (s.proc p).killed = true) ∧ (s.ctl p).InCall := by
  have waits {s : Machine κ γ} {c : κ} {p' : Slot} (fails : (s.wait c p').1 = .failed p) :
      p' = p ∧ ((∀ q, (s.proc q).parent ≠ some p) ∨ (s.proc p).killed = true) := by
    rcases wait_split s c p' with ⟨q,_,_,ends⟩ | ⟨why,ends⟩ | ⟨_,ends⟩ <;> rw [ends] at fails <;> cases fails
    exact ⟨rfl,why⟩
  cases next with
  | wait runs here free =>
    obtain ⟨rfl,why⟩ := waits fails
    exact ⟨why,by rw [here]; exact Ctl.runs_inCall trivial⟩
  | @rewait _ c p' runs here held =>
    obtain ⟨rfl,why⟩ := waits fails
    refine ⟨?_,by rw [here]; exact .inl rfl⟩
    simpa only [(tidy_fields _ _ _).1,(tidy_fields _ _ _).2] using why
  | _ => cases fails

/-- For any interleaving of the sections of `ptable.lock`: whenever the lock is free, who is asleep in `wait` has no zombie
    among its children; and `wait` returns -1 only if the caller has no children, or is killed and `kill` has been called for
    it since it was made. -/
theorem wait_no_lost_exit {ls : List Label} (run : Run ls s) :
    (s.lock = none → ∀ p, (s.proc p).state = .SLEEPING → (s.proc p).chan = some (.proc p) →
      ∀ q, (s.proc q).parent = some p → (s.proc q).state ≠ .ZOMBIE) ∧
    ∀ p s', Step (.failed p) s s' →
      (∀ q, (s.proc q).parent ≠ some p) ∨ (s.proc p).killed = true ∧ s.hit p = true := by
  obtain ⟨_,attentive,blamed⟩ := run.attentive
  refine ⟨fun _ p asleep chan => (attentive p p asleep chan).2,fun p s' next => ?_⟩
  obtain ⟨childless | killed,call⟩ := next.failed rfl
  · exact .inl childless
  · exact .inr ⟨killed,blamed p call killed⟩

/-- Init forks and goes to sleep in `wait`; the child is given the CPU. -/
theorem wait_no_lost_exit_child : ∃ (ls : List Label) (s : Machine Unit Unit), Run ls s ∧ s.lock = none ∧
    (s.proc 0).state = .SLEEPING ∧ (s.proc 0).chan = some (.proc 0) ∧ (s.proc 1).parent = some 0 ∧ (s.proc 1).state ≠ .ZOMBIE := by
  have run := waiting.2.2
  exact ⟨_,_,run,by decide +kernel,by decide +kernel,by decide +kernel,by decide +kernel,
    (wait_no_lost_exit run).1 (by decide +kernel) 0 (by decide +kernel) (by decide +kernel) 1 (by decide +kernel)⟩

end Xv6.Procs
