import Mathlib.Tactic.IntervalCases
import Mathlib.Tactic.NormNum

/-!
Numbers as text: `printint` of `printf.c` and of `console.c` prints them, and `atoi` of `ulib.c` reads them.
-/
namespace Xv6.Numbers

/-- `digits[]`; `printf.c` has capitals and `console.c` has not. -/
def digits (a : UInt8) (d : Nat) : UInt8 := if d < 10 then 48 + UInt8.ofNat d else a + UInt8.ofNat (d - 10)

/-- The loop of `printint`: what is in `buf`. -/
def divide (a : UInt8) (base x : Nat) : List UInt8 :=
  digits a (x % base) :: if x / base ≠ 0 ∧ 1 < base then divide a base (x / base) else []
termination_by x
decreasing_by exact Nat.div_lt_self (by by_contra h; simp_all) (by simp_all)

/-- The sign and the characters of `buf`, from the last one on. -/
def printint (a : UInt8) (xx : UInt32) (base : Nat) (sgn : Bool) : List UInt8 :=
  if sgn ∧ xx.toNat ≥ 2 ^ 31 then (divide a base (-xx).toNat ++ [45]).reverse else (divide a base xx.toNat).reverse

/-- The loop of `atoi`. -/
def atoi : List UInt8 → UInt32 → UInt32
  | [],n => n
  | c :: s,n => if 48 ≤ c ∧ c ≤ 57 then atoi s (n * 10 + c.toUInt32 - 48) else n

theorem atoi_digit (a : UInt8) {d : Nat} (small : d < 10) (s : List UInt8) (n : UInt32) :
    atoi (digits a d :: s) n = atoi s (n * 10 + UInt32.ofNat d) := by
  interval_cases d <;> simp [atoi, digits] <;> congr 1 <;> grind

/-- The digits that the loop leaves in `buf` are read back. -/
theorem atoi_divide (a : UInt8) (x : Nat) (s : List UInt8) :
    atoi ((divide a 10 x).reverse ++ s) 0 = atoi s (UInt32.ofNat x) := by
  induction x using Nat.strong_induction_on generalizing s with
  | _ x ih =>
    rw [divide, List.reverse_cons, List.append_assoc, List.singleton_append]
    split_ifs with more
    · rw [ih (x / 10) (by omega), atoi_digit a (Nat.mod_lt x (by omega))]
      congr 1
      conv_rhs => rw [← Nat.div_add_mod x 10, UInt32.ofNat_add, UInt32.ofNat_mul]
      grind
    · have small : x < 10 := by omega
      simp [Nat.mod_eq_of_lt small, atoi_digit a small]

theorem length_divide (a : UInt8) {base : Nat} (n : Nat) {x : Nat} (small : x < base ^ (n + 1)) :
    (divide a base x).length ≤ n + 1 := by
  induction n generalizing x with
  | zero =>
    rw [divide]
    simp_all [Nat.div_eq_of_lt]
  | succ n ih =>
    rw [divide]
    split_ifs
    · have := ih (Nat.div_lt_of_lt_mul (by rwa [← pow_succ']))
      simpa
    · simp

/-- What `printint` prints in decimal, `atoi` reads; a negative number is printed as a sign and its absolute value, and
    the characters fit `buf`. -/
theorem printint_atoi (a : UInt8) (xx : UInt32) (sgn : Bool) {s : List UInt8}
    (stop : ∀ c, s.head? = some c → c < 48 ∨ 57 < c) :
    atoi (printint a xx 10 false ++ s) 0 = xx ∧
    printint a xx 10 true = (if xx.toNat < 2 ^ 31 then printint a xx 10 false else 45 :: printint a (-xx) 10 false) ∧
    ∀ base ∈ [10,16], (printint a xx base sgn).length < 16 := by
  refine ⟨?_,?_,?_⟩
  · have ends : atoi s xx = xx := by
      cases s with
      | nil => rfl
      | cons c s =>
        rw [atoi, if_neg]
        have := stop c rfl
        grind
    simp [printint, atoi_divide, ends]
  · simp only [printint]
    split_ifs <;> grind
  · intro base used
    have fits (x : UInt32) : (divide a base x.toNat).length ≤ 9 + 1 := by
      refine length_divide a 9 (x.toNat_lt.trans_le ?_)
      rcases (by simpa using used) with rfl | rfl <;> norm_num
    have := fits xx
    have := fits (-xx)
    unfold printint
    split_ifs <;> rw [List.length_reverse]
    · rw [List.length_append, List.length_singleton]
      omega
    · omega

theorem printint_atoi_line : atoi (printint 65 1000 10 false ++ [10]) 0 = 1000 :=
  (printint_atoi 65 1000 true (s := [10]) (by simp)).1

end Xv6.Numbers
