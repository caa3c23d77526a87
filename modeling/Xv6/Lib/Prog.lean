import Mathlib.Tactic

/-!
Programs that wait. A `Prog` performs operations of an interface `Op`, may panic, and waits at points that are named
by `ι`; a `Machine` gives the operations a meaning on states `σ` and says which waits can go on.
-/
namespace Xv6.Lib

/-- A program over the operations `Op`, with waits named by `ι` and a result in `α`. -/
inductive Prog (Op : Type → Type 1) (ι α : Type) : Type 1 where
  | ret (a : α)
  | fail (why : String)
  | op {β : Type} (o : Op β) (k : β → Prog Op ι α)
  | wait (i : ι) (k : Prog Op ι α)

/-- Why a program does not return. A machine that leaves an operation without a
    meaning in some state stops there as `undefined`. -/
inductive Stop (ι : Type) where
  | panic (why : String)
  | blocked (i : ι)
  | undefined
  deriving DecidableEq

/-- A meaning for the operations, and the waits that can go on. -/
structure Machine (Op : Type → Type 1) (ι σ : Type) where
  step : {β : Type} → Op β → σ → Except (Stop ι) (β × σ)
  free : ι → σ → Bool

variable {Op : Type → Type 1} {ι α β σ τ : Type}

namespace Prog

def bind : Prog Op ι α → (α → Prog Op ι β) → Prog Op ι β
  | ret a,f => f a
  | fail why,_ => fail why
  | op o k,f => op o fun b => (k b).bind f
  | wait i k,f => wait i (k.bind f)

instance : Monad (Prog Op ι) where
  pure := ret
  bind := bind

/-- One operation. -/
def call (o : Op α) : Prog Op ι α := op o ret

/-- One wait. -/
def await (i : ι) : Prog Op ι Unit := wait i (ret ())

@[simp] theorem pure_eq (a : α) : (Pure.pure a : Prog Op ι α) = ret a := rfl
@[simp] theorem ret_bind (a : α) (f : α → Prog Op ι β) : ret a >>= f = f a := rfl
@[simp] theorem fail_bind (why : String) (f : α → Prog Op ι β) : fail why >>= f = fail why := rfl
@[simp] theorem op_bind {γ : Type} (o : Op γ) (k : γ → Prog Op ι α) (f : α → Prog Op ι β) :
    op o k >>= f = op o fun c => k c >>= f := rfl
@[simp] theorem wait_bind (i : ι) (k : Prog Op ι α) (f : α → Prog Op ι β) : wait i k >>= f = wait i (k >>= f) := rfl
@[simp] theorem call_bind (o : Op α) (f : α → Prog Op ι β) : call o >>= f = op o f := rfl
@[simp] theorem await_bind (i : ι) (f : Unit → Prog Op ι β) : await i >>= f = wait i (f ()) := rfl

theorem bind_assoc {γ : Type} (p : Prog Op ι α) (f : α → Prog Op ι β) (g : β → Prog Op ι γ) :
    p >>= f >>= g = p >>= fun a => f a >>= g := by
  induction p with
  | ret a => rfl
  | fail why => rfl
  | op o k ih => simp only [op_bind,ih]
  | wait i k ih => simp only [wait_bind,ih]

theorem ite_bind {c : Prop} [Decidable c] (p q : Prog Op ι α) (f : α → Prog Op ι β) :
    (if c then p else q) >>= f = if c then p >>= f else q >>= f := by
  split <;> rfl

end Prog

open Prog

/-! ### One program alone -/

/-- Run a program to its end, with nobody else to end its waits. -/
def exec (m : Machine Op ι σ) : Prog Op ι α → σ → Except (Stop ι) (α × σ)
  | ret a,s => .ok (a,s)
  | fail why,_ => .error (.panic why)
  | op o k,s => match m.step o s with
    | .ok (b,s') => exec m (k b) s'
    | .error stop => .error stop
  | wait i k,s => if m.free i s then exec m k s else .error (.blocked i)

theorem exec_bind (m : Machine Op ι σ) (p : Prog Op ι α) (f : α → Prog Op ι β) (s : σ) :
    exec m (p >>= f) s = match exec m p s with
      | .ok (a,s') => exec m (f a) s'
      | .error stop => .error stop := by
  induction p generalizing s with
  | ret a => rfl
  | fail why => rfl
  | op o k ih =>
    simp only [op_bind,exec]
    split
    · exact ih _ _
    · rfl
  | wait i k ih =>
    simp only [wait_bind,exec]
    split
    · exact ih s
    · rfl

/-- The weakest precondition of `p`: run from `s` it returns in `Q`, or stops as `E` allows. -/
def wp (m : Machine Op ι σ) (p : Prog Op ι α) (Q : α → σ → Prop) (E : Stop ι → Prop) (s : σ) : Prop :=
  match exec m p s with
  | .ok (a,s') => Q a s'
  | .error stop => E stop

section
variable {m : Machine Op ι σ} {Q : α → σ → Prop} {E : Stop ι → Prop} {s : σ}

@[simp] theorem wp_ret (a : α) : wp m (ret a) Q E s = Q a s := rfl

@[simp] theorem wp_pure (a : α) : wp m (Pure.pure a) Q E s = Q a s := rfl

@[simp] theorem wp_fail (why : String) : wp m (fail why) Q E s = E (.panic why) := rfl

theorem wp_op (o : Op β) (k : β → Prog Op ι α) :
    wp m (op o k) Q E s = match m.step o s with
      | .ok (b,s') => wp m (k b) Q E s'
      | .error stop => E stop := by
  unfold wp
  rw [exec]
  cases m.step o s <;> rfl

theorem wp_wait (i : ι) (k : Prog Op ι α) :
    wp m (wait i k) Q E s = if m.free i s then wp m k Q E s else E (.blocked i) := by
  unfold wp
  rw [exec]
  by_cases free : m.free i s <;> simp [free]

@[simp] theorem wp_bind (p : Prog Op ι β) (f : β → Prog Op ι α) :
    wp m (p >>= f) Q E s = wp m p (fun b s' => wp m (f b) Q E s') E s := by
  unfold wp
  rw [exec_bind]
  cases exec m p s <;> rfl

theorem wp_call (o : Op α) :
    wp m (call o) Q E s = match m.step o s with
      | .ok (b,s') => Q b s'
      | .error stop => E stop := wp_op o ret

theorem wp_await {Q : Unit → σ → Prop} (i : ι) :
    wp m (await i) Q E s = if m.free i s then Q () s else E (.blocked i) := wp_wait i _

variable {p : Prog Op ι α}

theorem wp_mono {Q' : α → σ → Prop} {E' : Stop ι → Prop} (before : wp m p Q E s)
    (done : ∀ a s', Q a s' → Q' a s') (stopped : ∀ stop, E stop → E' stop) : wp m p Q' E' s := by
  unfold wp at before ⊢
  split at before
  · exact done _ _ before
  · exact stopped _ before

/-- `wp_mono` with the same stops: the rule for the call of a function with a proved specification. -/
theorem wp_use {Q' : α → σ → Prop} (before : wp m p Q E s)
    (done : ∀ a s', Q a s' → Q' a s') : wp m p Q' E s := wp_mono before done fun _ => id

/-- `wp_mono` with nothing to say of the stops. -/
theorem wp_any {Q' : α → σ → Prop} (before : wp m p Q E s) (done : ∀ a s', Q a s' → Q' a s') : wp m p Q' (fun _ => True) s :=
  wp_mono before done fun _ _ => trivial

theorem wp_ok {a : α} {s' : σ} (before : wp m p Q E s) (run : exec m p s = .ok (a,s')) : Q a s' := by
  unfold wp at before
  rwa [run] at before

theorem wp_error {stop : Stop ι} (before : wp m p Q E s) (run : exec m p s = .error stop) :
    E stop := by
  unfold wp at before
  rwa [run] at before

theorem wp_returns (ends : wp m p Q (fun _ => False) s) : ∃ a s', exec m p s = .ok (a,s') ∧ Q a s' := by
  cases run : exec m p s with
  | error stop => exact (wp_error ends run).elim
  | ok done => exact ⟨done.1,done.2,rfl,wp_ok ends run⟩

theorem wp_stops (ends : wp m p (fun _ _ => False) E s) : ∃ stop, exec m p s = .error stop ∧ E stop := by
  cases run : exec m p s with
  | error stop => exact ⟨stop,rfl,wp_error ends run⟩
  | ok done => exact (wp_ok ends run).elim

end

/-! ### Simulation -/

/-- How a result of one machine is matched by another: states are related by `R`,
    the panics `tolerated` are those that only the first machine has, and nothing is
    said where the second machine is undefined. -/
def Matched (R : σ → τ → Prop) (tolerated : String → Prop) (x : Except (Stop ι) (α × σ))
    (y : Except (Stop ι) (α × τ)) : Prop :=
  y = .error .undefined ∨ match x with
    | .ok (a,s) => ∃ t, y = .ok (a,t) ∧ R s t
    | .error (.panic why) => tolerated why ∨ y = .error (.panic why)
    | .error stop => y = .error stop

/-- Every operation of the machine `m` is matched by the same one of `n`. -/
structure Simulates (m : Machine Op ι σ) (n : Machine Op ι τ) (R : σ → τ → Prop) (tolerated : String → Prop) :
    Prop where
  step : ∀ {β : Type} (o : Op β) {s : σ} {t : τ}, R s t → Matched R tolerated (m.step o s) (n.step o t)
  free : ∀ (i : ι) {s : σ} {t : τ}, R s t → m.free i s = n.free i t

/-- A simulation of the operations is a simulation of the programs. -/
theorem exec_sim {m : Machine Op ι σ} {n : Machine Op ι τ} {R : σ → τ → Prop} {tolerated : String → Prop}
    (sim : Simulates m n R tolerated) (p : Prog Op ι α) {s : σ} {t : τ} (rel : R s t) :
    Matched R tolerated (exec m p s) (exec n p t) := by
  induction p generalizing s t with
  | ret a => exact .inr ⟨t,rfl,rel⟩
  | fail why => exact .inr (.inr rfl)
  | op o k ih =>
    rw [exec,exec]
    rcases sim.step o rel with missing | matched
    · rw [missing]; exact .inl rfl
    · split at matched
      · next b s' ran =>
        obtain ⟨t',ran',rel'⟩ := matched
        rw [ran,ran']; exact ih b rel'
      · next why ran =>
        rw [ran]
        rcases matched with allowed | same
        · exact .inr (.inl allowed)
        · rw [same]; exact .inr (.inr rfl)
      · next stop other ran =>
        rw [ran,matched]
        cases stop with
        | panic why => exact absurd rfl (other why)
        | blocked i => exact .inr rfl
        | undefined => exact .inl rfl
  | wait i k ih =>
    rw [exec,exec,sim.free i rel]
    split
    · exact ih rel
    · exact .inr rfl

end Xv6.Lib
