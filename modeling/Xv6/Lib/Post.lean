import Mathlib.Tactic

/-!
Weakest preconditions of state-passing code that can fail: `post m Q E s` says
that `m`, run from `s`, ends in `Q` or fails in `E`.
-/
namespace Xv6.Lib

variable {σ ε α β : Type}

/-- Run from `s`, `m` returns in `Q` or fails in `E`. -/
def post (m : StateT σ (Except ε) α) (Q : α → σ → Prop) (E : ε → Prop) (s : σ) : Prop :=
  match m s with
  | .ok (a,s') => Q a s'
  | .error e => E e

variable {Q : α → σ → Prop} {E : ε → Prop} {s : σ}

@[simp] theorem post_pure (a : α) : post (pure a) Q E s = Q a s := rfl

@[simp] theorem post_bind (m : StateT σ (Except ε) β) (f : β → StateT σ (Except ε) α) :
    post (m >>= f) Q E s = post m (fun b s' => post (f b) Q E s') E s := by
  unfold post
  change (match (m s >>= fun done => f done.1 done.2) with | .ok (a,s') => Q a s' | .error e => E e) = _
  cases m s <;> rfl

@[simp] theorem post_get {Q : σ → σ → Prop} : post get Q E s = Q s s := rfl

@[simp] theorem post_modify {Q : Unit → σ → Prop} (f : σ → σ) : post (modify f) Q E s = Q () (f s) := rfl

theorem post_ite {c : Prop} [Decidable c] (m n : StateT σ (Except ε) α) :
    post (if c then m else n) Q E s = if c then post m Q E s else post n Q E s := by
  split <;> rfl

variable {m : StateT σ (Except ε) α} {Q' : α → σ → Prop}

theorem post_mono {E' : ε → Prop} (before : post m Q E s)
    (done : ∀ a s', Q a s' → Q' a s') (failed : ∀ e, E e → E' e) : post m Q' E' s := by
  unfold post at before ⊢
  split at before
  · exact done _ _ before
  · exact failed _ before

/-- `post_mono` with the same failures: the rule for the call of a function with a proved specification. -/
theorem post_use (before : post m Q E s)
    (done : ∀ a s', Q a s' → Q' a s') : post m Q' E s := post_mono before done fun _ => id

theorem post_returns (ends : post m Q (fun _ => False) s) : ∃ a s', m s = .ok (a,s') ∧ Q a s' := by
  unfold post at ends
  cases run : m s with
  | error e =>
    rw [run] at ends
    exact ends.elim
  | ok r =>
    rw [run] at ends
    exact ⟨r.1,r.2,rfl,ends⟩

theorem post_run {a : α} {s' : σ} (ends : post m (fun b t => b = a ∧ t = s') (fun _ => False) s) :
    m s = .ok (a,s') := by
  obtain ⟨_,_,run,rfl,rfl⟩ := post_returns ends
  exact run

theorem post_of_run {a : α} {s' : σ} (run : m s = .ok (a,s')) (done : Q a s') : post m Q E s := by
  unfold post
  rw [run]
  exact done

theorem post_fails {e : ε} (ends : post m (fun _ _ => False) (· = e) s) : m s = .error e := by
  unfold post at ends
  cases run : m s with
  | error e' =>
    rw [run] at ends
    exact congrArg _ ends
  | ok r =>
    rw [run] at ends
    exact ends.elim

theorem post_ok {a : α} {s' : σ} (ends : post m Q E s) (run : m s = .ok (a,s')) : Q a s' := by
  unfold post at ends
  rwa [run] at ends

end Xv6.Lib
