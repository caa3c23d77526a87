import Xv6.Lib.Prog

/-!
Two additions to programs on machines. An `account` is kept beside the state of a machine: every operation adds to it
what it costs.
-/
namespace Xv6.Lib
open Prog

variable {Op : Type → Type 1} {ι α β σ τ N : Type}

/-! ### Accounts -/

/-- The machine that also adds up what its operations cost. -/
def Machine.account [Add N] (m : Machine Op ι σ) (cost : {β : Type} → Op β → σ → N) : Machine Op ι (σ × N) where
  step o s := match m.step o s.1 with
    | .ok (b,s') => .ok (b,s',s.2 + cost o s.1)
    | .error stop => .error stop
  free i s := m.free i s.1

section
variable [Add N] {m : Machine Op ι σ} {cost : {β : Type} → Op β → σ → N}

theorem account_step (o : Op β) (s : σ) (n : N) : (m.account cost).step o (s,n) = match m.step o s with
    | .ok (b,s') => .ok (b,s',n + cost o s)
    | .error stop => .error stop := by
  simp only [Machine.account]
  cases m.step o s with
  | error stop => rfl
  | ok done => rfl

/-- The account does not change what a program does. -/
theorem wp_account (p : Prog Op ι α) {Q : α → σ → Prop} {E : Stop ι → Prop} (s : σ) (n : N) :
    wp (m.account cost) p (fun a s' => Q a s'.1) E (s,n) = wp m p Q E s := by
  induction p generalizing s n with
  | ret a => rfl
  | fail why => rfl
  | op o k ih =>
    rw [wp_op,wp_op,account_step]
    cases m.step o s with
    | error stop => rfl
    | ok done => exact ih done.1 done.2 _
  | wait i k ih =>
    rw [wp_wait,wp_wait]
    exact if_congr Iff.rfl (ih s n) rfl

section
variable (size : N → Nat) (add : ∀ k l, size (k + l) = size k + size l)
include add

theorem account_mono {p : Prog Op ι α} {s s' : σ} {k k' : N} {a : α} (ran : exec (m.account cost) p (s,k) = .ok (a,s',k')) :
    size k ≤ size k' := by
  induction p generalizing s k with
  | ret a =>
    cases ran
    exact le_rfl
  | fail why => cases ran
  | op o k' ih =>
    rw [exec,account_step] at ran
    cases step : m.step o s with
    | error stop =>
      rw [step] at ran
      cases ran
    | ok done =>
      rw [step] at ran
      have rest := ih done.1 ran
      rw [add] at rest
      omega
  | wait i k' ih =>
    rw [exec] at ran
    split at ran
    · exact ih ran
    · cases ran

/-- The stops that are tolerated come only from operations that cost more than there is, so a run that can be paid for has none
    of them. -/
theorem exec_afforded {n : Machine Op ι τ} {R : σ → τ → Prop} {tolerated : String → Prop} (sim : Simulates m n R tolerated)
    {cost : {β : Type} → Op β → τ → N} (room : σ → Nat)
    (affords : ∀ {β : Type} (o : Op β) {s t b t'}, R s t → n.step o t = .ok (b,t') → size (cost o t) ≤ room s →
      ∃ b' s', m.step o s = .ok (b',s') ∧ room s ≤ room s' + size (cost o t))
    (p : Prog Op ι α) {s : σ} {t t' : τ} {k k' : N} {a : α} (rel : R s t)
    (ran : exec (n.account cost) p (t,k) = .ok (a,t',k')) (enough : size k' ≤ size k + room s) :
    ∃ s', exec m p s = .ok (a,s') ∧ R s' t' := by
  induction p generalizing s t k with
  | ret a =>
    cases ran
    exact ⟨s,rfl,rel⟩
  | fail why => cases ran
  | op o rest ih =>
    rw [exec,account_step] at ran
    cases step : n.step o t with
    | error stop =>
      rw [step] at ran
      cases ran
    | ok done =>
      rw [step] at ran
      have low := account_mono size add ran
      rw [add] at low
      obtain ⟨b,t₁⟩ := done
      obtain ⟨b',s₁,step',left⟩ := affords o rel step (by omega)
      have matched := sim.step o rel
      rw [step',step] at matched
      obtain bad | ⟨t₂,same,rel'⟩ := matched
      · cases bad
      · cases same
        rw [exec,step']
        exact ih b rel' ran (by rw [add]; omega)
  | wait i rest ih =>
    rw [exec] at ran ⊢
    split at ran
    · next free =>
      rw [sim.free i rel,if_pos (show n.free i t = true from free)]
      exact ih rel ran enough
    · cases ran

end

end

/-! ### Runs on ideal states -/

/-- From every state that `x` stands for, the program returns in a state for an ideal one in `Q`, or stops as `E` allows. -/
def seen (R : τ → σ → Prop) (m : Machine Op ι σ) (p : Prog Op ι α) (Q : α → τ → Prop) (E : Stop ι → Prop) (x : τ) : Prop :=
  ∀ s, R x s → wp m p (fun a s' => ∃ y, R y s' ∧ Q a y) E s

section
variable {R : τ → σ → Prop} {m : Machine Op ι σ} {Q : α → τ → Prop} {E : Stop ι → Prop} {x : τ}

theorem seen_pure {a : α} (done : Q a x) : seen R m (Pure.pure a) Q E x := fun _ rel => ⟨x,rel,done⟩

theorem seen_ret {a : α} (done : Q a x) : seen R m (ret a) Q E x := seen_pure done

theorem seen_bind {p : Prog Op ι β} {f : β → Prog Op ι α} (first : seen R m p (fun b y => seen R m (f b) Q E y) E x) :
    seen R m (p >>= f) Q E x := by
  intro s rel
  rw [wp_bind]
  exact wp_use (first s rel) fun b s' ⟨y,rel',rest⟩ => rest s' rel'

theorem seen_mono {p : Prog Op ι α} {Q' : α → τ → Prop} {E' : Stop ι → Prop} (before : seen R m p Q E x)
    (done : ∀ a y, Q a y → Q' a y) (stopped : ∀ stop, E stop → E' stop) : seen R m p Q' E' x :=
  fun s rel => wp_mono (before s rel) (fun a _ ⟨y,rel',post⟩ => ⟨y,rel',done a y post⟩) stopped

theorem seen_use {p : Prog Op ι α} {Q' : α → τ → Prop} (before : seen R m p Q E x) (done : ∀ a y, Q a y → Q' a y) :
    seen R m p Q' E x := seen_mono before done fun _ => id

/-- What every state that `x` stands for has in common may be used. -/
theorem seen_known {P : Prop} {p : Prog Op ι α} (known : ∀ s, R x s → P) (run : P → seen R m p Q E x) : seen R m p Q E x :=
  fun s rel => run (known s rel) s rel

/-- The rule for a call of a function, with what follows it. -/
theorem seen_then {p : Prog Op ι β} {f : β → Prog Op ι α} {P : β → τ → Prop} (first : seen R m p P E x)
    (rest : ∀ b y, P b y → seen R m (f b) Q E y) : seen R m (p >>= f) Q E x := seen_bind (seen_use first rest)

end

end Xv6.Lib
