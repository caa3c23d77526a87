import Xv6.Lib.Prog

/-!
Programs side by side. Each program of a pool takes one operation at a time, in any order with the others.
-/
namespace Xv6.Lib
open Prog Function

variable {Op : Type → Type 1} {ι κ α σ ε : Type}

/-- What the operations of the programs mean and what they tell. -/
structure Crew (Op : Type → Type 1) (ι κ σ ε : Type) where
  machine : κ → Machine Op ι σ
  tells : κ → {β : Type} → Op β → β → List ε

/-- The programs, the state that they share, and what they have told. -/
structure Pool (Op : Type → Type 1) (ι κ α σ ε : Type) where
  prog : κ → Prog Op ι α
  state : σ
  log : List ε

variable {c : Crew Op ι κ σ ε}

/-- One operation of program `p`, if it is at one. -/
def Crew.opens (c : Crew Op ι κ σ ε) (p : κ) : Prog Op ι α → σ → Option (Prog Op ι α × σ × List ε)
  | op o k,s => match (c.machine p).step o s with
    | .ok (b,t) => some (k b,t,c.tells p o b)
    | .error _ => none
  | q,s => some (q,s,[])

/-- What program `p` does when it is its turn. -/
def Crew.turn (c : Crew Op ι κ σ ε) (p : κ) : Prog Op ι α → σ → Option (Prog Op ι α × σ × List ε)
  | ret _,_ => none
  | fail _,_ => none
  | op o k,s => c.opens p (op o k) s
  | wait i k,s => if (c.machine p).free i s then c.opens p k s else none

variable [DecidableEq κ]

/-- The pool when program `p` has become `q`, in the state `t`, and has told `told`. -/
def Pool.put (w : Pool Op ι κ α σ ε) (p : κ) (q : Prog Op ι α) (t : σ) (told : List ε) : Pool Op ι κ α σ ε :=
  ⟨update w.prog p q,t,w.log ++ told⟩

/-- Program `p` takes its turn. -/
def Pool.turn (c : Crew Op ι κ σ ε) (w : Pool Op ι κ α σ ε) (p : κ) : Option (Pool Op ι κ α σ ε) :=
  (c.turn p (w.prog p) w.state).map fun next => w.put p next.1 next.2.1 next.2.2

/-- The pools that can be reached, with turns in any order. -/
inductive Pool.Runs (c : Crew Op ι κ σ ε) (w : Pool Op ι κ α σ ε) : Pool Op ι κ α σ ε → Prop where
  | refl : Runs c w w
  | step {v u : Pool Op ι κ α σ ε} (p : κ) (before : Runs c w v) (turn : v.turn c p = some u) : Runs c w u

/-- Turns in the order given. -/
def Pool.follow (c : Crew Op ι κ σ ε) : List κ → Pool Op ι κ α σ ε → Option (Pool Op ι κ α σ ε)
  | [],w => some w
  | p :: ps,w => (w.turn c p).bind (follow c ps)

variable {w v u : Pool Op ι κ α σ ε} {p : κ}

theorem Pool.Runs.follow {ps : List κ} (before : w.Runs c v) (ran : v.follow c ps = some u) : w.Runs c u := by
  induction ps generalizing v with
  | nil =>
    cases ran
    exact before
  | cons p ps ih =>
    obtain ⟨next,turn,rest⟩ := Option.bind_eq_some_iff.mp ran
    exact ih (before.step p turn) rest

/-- What every turn keeps holds in every pool that can be reached. -/
theorem Pool.Runs.keeps {I : Pool Op ι κ α σ ε → Prop} (runs : w.Runs c u) (start : I w)
    (step : ∀ v p u, I v → v.turn c p = some u → I u) : I u := by
  induction runs with
  | refl => exact start
  | step p before turn ih => exact step _ p _ ih turn

theorem Crew.opens_op {β : Type} {o : Op β} {k : β → Prog Op ι α}
    (opens : (c.opens p (op o k) w.state).map (fun next => w.put p next.1 next.2.1 next.2.2) = some u) :
    ∃ b t, (c.machine p).step o w.state = .ok (b,t) ∧ u = w.put p (k b) t (c.tells p o b) := by
  rw [Crew.opens] at opens
  cases ran : (c.machine p).step o w.state with
  | error stop =>
    rw [ran] at opens
    cases opens
  | ok done =>
    rw [ran] at opens
    cases opens
    exact ⟨done.1,done.2,rfl,rfl⟩

theorem Pool.turn_op {β : Type} {o : Op β} {k : β → Prog Op ι α} (at' : w.prog p = op o k) (turn : w.turn c p = some u) :
    ∃ b t, (c.machine p).step o w.state = .ok (b,t) ∧ u = w.put p (k b) t (c.tells p o b) := by
  unfold Pool.turn at turn
  rw [at',Crew.turn] at turn
  exact Crew.opens_op turn

/-- The turn of a program that waits in front of an operation. -/
theorem Pool.turn_wait_op {β : Type} {i : ι} {o : Op β} {k : β → Prog Op ι α} (at' : w.prog p = wait i (op o k))
    (turn : w.turn c p = some u) : (c.machine p).free i w.state = true ∧
      ∃ b t, (c.machine p).step o w.state = .ok (b,t) ∧ u = w.put p (k b) t (c.tells p o b) := by
  unfold Pool.turn at turn
  rw [at',Crew.turn] at turn
  split at turn
  · next free => exact ⟨free,Crew.opens_op turn⟩
  · cases turn

/-- The turn of a program that waits: as if it had gone on before, or no more than that. -/
theorem Pool.turn_wait {i : ι} {k : Prog Op ι α} (at' : w.prog p = wait i k) (turn : w.turn c p = some u) :
    (w.put p k w.state []).turn c p = some u ∨ u = w.put p k w.state [] := by
  unfold Pool.turn at turn
  rw [at',Crew.turn] at turn
  split at turn
  · cases k with
    | op o k =>
      obtain ⟨b,t,ran,rfl⟩ := Crew.opens_op turn
      left
      unfold Pool.turn
      simp only [Pool.put,update_self,Crew.turn,Crew.opens,ran,Option.map_some,List.append_nil,update_idem]
    | ret a | fail why | wait j k => exact .inr (Option.some.inj turn).symm
  · cases turn

/-! ### Simulation -/

variable {τ : Type} {d : Crew Op ι κ τ ε} {R : σ → τ → Prop} {tolerated : String → Prop}

/-- Program `p` is at an operation that its machine leaves without a meaning. -/
def Pool.Stuck (d : Crew Op ι κ τ ε) (w : Pool Op ι κ α τ ε) (p : κ) : Prop :=
  ∃ (β : Type) (o : Op β) (k : β → Prog Op ι α), (w.prog p = op o k ∨ ∃ i, w.prog p = wait i (op o k)) ∧
    (d.machine p).step o w.state = .error .undefined

/-- The program is at such an operation. -/
def Crew.stuck (d : Crew Op ι κ τ ε) (p : κ) : Prog Op ι α → τ → Bool
  | op o _,t => ((d.machine p).step o t matches .error .undefined)
  | wait _ (op o _),t => ((d.machine p).step o t matches .error .undefined)
  | _,_ => false

/-- None of these programs is stuck before they come to rest, in less than `n` turns. -/
def Pool.calm (d : Crew Op ι κ τ ε) (ps : List κ) : Nat → Pool Op ι κ α τ ε → Bool
  | 0,_ => false
  | n + 1,w => ps.all fun p => !d.stuck p (w.prog p) w.state && (w.turn d p).all (Pool.calm d ps n)

theorem Pool.Runs.calm {ps : List κ} {n : Nat} {w v : Pool Op ι κ α τ ε} (runs : w.Runs d v)
    (others : ∀ q, q ∉ ps → ∃ a, w.prog q = ret a) (calm : w.calm d ps n = true) : ¬v.Stuck d p := by
  have kept := runs.keeps (I := fun v => (∀ q, q ∉ ps → ∃ a, v.prog q = ret a) ∧ ∃ n, v.calm d ps n = true)
    ⟨others,n,calm⟩ fun v p u ⟨others,n,calm⟩ turn => by
      have mine : p ∈ ps := by
        by_contra other
        obtain ⟨a,ended⟩ := others p other
        simp [Pool.turn,ended,Crew.turn] at turn
      refine ⟨fun q other => ?_,?_⟩
      · obtain ⟨next,-,rfl⟩ := Option.map_eq_some_iff.mp turn
        obtain ⟨a,ended⟩ := others q other
        have apart : q ≠ p := by rintro rfl; exact other mine
        exact ⟨a,(update_of_ne apart ..).trans ended⟩
      · cases n with
        | zero => cases calm
        | succ n =>
          have here := List.all_eq_true.mp calm p mine
          rw [turn] at here
          exact ⟨n,(Bool.and_eq_true_iff.mp here).2⟩
  obtain ⟨others,n,calm⟩ := kept
  rintro ⟨β,o,k,here,missing⟩
  by_cases mine : p ∈ ps
  · cases n with
    | zero => cases calm
    | succ n =>
      have free := (Bool.and_eq_true_iff.mp (List.all_eq_true.mp calm p mine)).1
      rcases here with at' | ⟨i,at'⟩ <;> simp [at',Crew.stuck,missing] at free
  · obtain ⟨a,ended⟩ := others p mine
    rcases here with at' | ⟨i,at'⟩ <;> simp [at'] at ended

omit [DecidableEq κ] in
theorem Crew.opens_sim (sim : Simulates (c.machine p) (d.machine p) R tolerated)
    (tells : ∀ {β : Type} (o : Op β) b, c.tells p o b = d.tells p o b) {q q' : Prog Op ι α} {s s' : σ} {t : τ} {told : List ε}
    (rel : R s t) (defined : ∀ {β : Type} {o : Op β} {k : β → Prog Op ι α}, q = op o k →
      (d.machine p).step o t ≠ .error .undefined)
    (opens : c.opens p q s = some (q',s',told)) : ∃ t', d.opens p q t = some (q',t',told) ∧ R s' t' := by
  cases q with
  | op o k =>
    have matched := (sim.step o rel).resolve_left (defined rfl)
    rw [Crew.opens] at opens
    cases ran : (c.machine p).step o s with
    | error stop =>
      rw [ran] at opens
      cases opens
    | ok done =>
      rw [ran] at opens matched
      obtain ⟨t',ran',rel'⟩ := matched
      cases opens
      exact ⟨t',by rw [Crew.opens,ran',tells],rel'⟩
  | _ =>
    cases opens
    exact ⟨t,rfl,rel⟩

/-- A simulation of the operations is a simulation of the pools, as long as no program is stuck in the simulating one. -/
theorem Pool.Runs.simulates (sim : ∀ p, Simulates (c.machine p) (d.machine p) R tolerated)
    (tells : ∀ p {β : Type} (o : Op β) b, c.tells p o b = d.tells p o b) {t : τ} (rel : R w.state t)
    (safe : ∀ v p, Pool.Runs d ⟨w.prog,t,w.log⟩ v → ¬v.Stuck d p) (runs : w.Runs c u) :
    ∃ t', Pool.Runs d ⟨w.prog,t,w.log⟩ ⟨u.prog,t',u.log⟩ ∧ R u.state t' := by
  induction runs with
  | refl => exact ⟨t,.refl,rel⟩
  | @step v u p before turn ih =>
    obtain ⟨t',runs,rel'⟩ := ih
    obtain ⟨⟨q,s',told⟩,next,rfl⟩ := Option.map_eq_some_iff.mp turn
    have defined {β : Type} {o : Op β} {k : β → Prog Op ι α} (at' : v.prog p = op o k ∨ ∃ i, v.prog p = wait i (op o k)) :
        (d.machine p).step o t' ≠ .error .undefined := fun missing => safe _ p runs ⟨β,o,k,at',missing⟩
    suffices turns : ∃ t'', d.turn p (v.prog p) t' = some (q,t'',told) ∧ R s' t'' by
      obtain ⟨t'',turns,rel''⟩ := turns
      exact ⟨t'',runs.step p (by rw [Pool.turn,turns]; rfl),rel''⟩
    cases at' : v.prog p with
    | ret a | fail why =>
      rw [at'] at next
      cases next
    | op o k =>
      rw [at'] at next
      exact Crew.opens_sim (sim p) (tells p) rel' (fun same => defined (.inl (at'.trans same))) next
    | wait i k =>
      rw [at',Crew.turn] at next
      rw [Crew.turn,← (sim p).free i rel']
      split at next
      · next free =>
        rw [if_pos free]
        exact Crew.opens_sim (sim p) (tells p) rel' (fun same => defined (.inr ⟨i,at'.trans (by rw [same])⟩)) next
      · cases next

end Xv6.Lib
