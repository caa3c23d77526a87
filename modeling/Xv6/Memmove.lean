import Mathlib.Tactic

/-!
`memmove`, in the kernel (`string.c`) and in the library of user programs (`ulib.c`). Memory is a byte at every
address of 32 bits.
-/
namespace Xv6
open Function

abbrev Memory := UInt32 → UInt8

/-- `while(n-- > 0) *d++ = *s++;` -/
def copyUp : Nat → UInt32 → UInt32 → Memory → Memory
  | 0,_,_,m => m
  | n + 1,s,d,m => copyUp n (s + 1) (d + 1) (update m d (m s))

/-- `while(n-- > 0) *--d = *--s;` -/
def copyDown : Nat → UInt32 → UInt32 → Memory → Memory
  | 0,_,_,m => m
  | n + 1,s,d,m => copyDown n (s - 1) (d - 1) (update m (d - 1) (m (s - 1)))

/-- `memmove` of `string.c` -/
def memmove (dst src n : UInt32) (m : Memory) : UInt32 × Memory :=
  (dst,if src < dst ∧ src + n > dst then copyDown n.toNat (src + n) (dst + n) m else copyUp n.toNat src dst m)

def memcpy (dst src n : UInt32) (m : Memory) : UInt32 × Memory := memmove dst src n m

/-- `memmove` of `ulib.c`; its counter is signed. -/
def Ulib.memmove (vdst vsrc : UInt32) (n : Int32) (m : Memory) : UInt32 × Memory := (vdst,copyUp n.toInt.toNat vsrc vdst m)

variable {n k i : Nat} {s d a dst src len : UInt32} {m : Memory}

/-! ### Distances -/

/-- How far an address is above another one, around the address space. -/
def gap (a d : UInt32) : Nat := (a - d).toNat

theorem gap_lt (a d : UInt32) : gap a d < 2 ^ 32 := (a - d).toNat_lt

@[simp] theorem gap_self (d : UInt32) : gap d d = 0 := by
  rw [gap,UInt32.sub_self]
  rfl

theorem add_gap (a d : UInt32) : d + UInt32.ofNat (gap a d) = a := by
  rw [gap,UInt32.ofNat_toNat,UInt32.add_comm,UInt32.sub_add_cancel]

theorem gap_add (small : i < 2 ^ 32) : gap (d + UInt32.ofNat i) d = i := by
  rw [gap,show d + UInt32.ofNat i - d = UInt32.ofNat i by grind,UInt32.toNat_ofNat_of_lt' small]

theorem gap_inj (same : gap a s = gap d s) : a = d := by
  rw [← add_gap a s,same,add_gap]

theorem gap_succ (other : a ≠ d) : gap a (d + 1) + 1 = gap a d := by
  have positive : gap a d ≠ 0 := fun zero => other (gap_inj (zero.trans (gap_self d).symm))
  have small := gap_lt a d
  unfold gap at *
  rw [show a - (d + 1) = a - d - 1 by grind,UInt32.toNat_sub,show (1 : UInt32).toNat = 1 from rfl]
  omega

theorem gap_before (d : UInt32) : gap d (d + 1) = 2 ^ 32 - 1 := by
  rw [gap,show d - (d + 1) = -1 by grind]
  rfl

/-! ### The loops -/

/-- The loop upwards: where the destination is `k` bytes above the source, the first `k` bytes are repeated. -/
theorem copyUp_apply (above : gap d s = k) (small : n ≤ 2 ^ 32) (a : UInt32) :
    copyUp n s d m a = if gap a d < n then m (s + UInt32.ofNat (gap a d % k)) else m a := by
  induction n generalizing s d m with
  | zero => rfl
  | succ n ih =>
    have above' : gap (d + 1) (s + 1) = k := by
      rw [← above,gap,gap,show d + 1 - (s + 1) = d - s by grind]
    rw [copyUp,ih above' (by omega)]
    by_cases here : a = d
    · subst here
      rw [gap_before,if_neg (by omega),update_self,gap_self,if_pos n.succ_pos,Nat.zero_mod]
      simp
    · have limit := gap_lt a d
      rw [update_of_ne here,← gap_succ here]
      rw [← gap_succ here] at limit
      generalize gap a (d + 1) = r at limit ⊢
      refine if_congr Nat.succ_lt_succ_iff.symm ?_ rfl
      have next : s + 1 + UInt32.ofNat (r % k) = s + UInt32.ofNat (r % k + 1) := by
        rw [UInt32.ofNat_add]
        grind
      have low : r % k ≤ r := Nat.mod_le r k
      rw [next,← Nat.mod_add_mod]
      by_cases last : r % k + 1 = k
      · -- the byte that is read is the first one that was written
        rw [last,Nat.mod_self,← above,add_gap,update_self]
        simp
      · have within : (r % k + 1) % k = r % k + 1 := by
          rcases Nat.eq_zero_or_pos k with rfl | positive
          · rw [Nat.mod_zero]
          · exact Nat.mod_eq_of_lt (Nat.lt_of_le_of_ne (Nat.mod_lt r positive) last)
        rw [within,update_of_ne]
        intro same
        have reached := gap_add (d := s) (show r % k + 1 < 2 ^ 32 by omega)
        rw [same,above] at reached
        exact last reached.symm

theorem copyDown_apply (clear : gap s d = 0 ∨ n ≤ gap s d) (small : n ≤ 2 ^ 32) (a : UInt32) :
    copyDown n (s + UInt32.ofNat n) (d + UInt32.ofNat n) m a = if gap a d < n then m (s + (a - d)) else m a := by
  induction n generalizing m with
  | zero => rfl
  | succ n ih =>
    have back (x : UInt32) : x + UInt32.ofNat (n + 1) - 1 = x + UInt32.ofNat n := by
      rw [UInt32.ofNat_add]
      grind
    rw [copyDown,back,back,ih (by omega) (by omega)]
    by_cases here : a = d + UInt32.ofNat n
    · subst here
      rw [gap_add (by omega),if_neg (by omega),if_pos (by omega),update_self]
      congr 1
      grind
    · have apart : gap a d ≠ n := fun same => here (by rw [← same,add_gap])
      rw [update_of_ne here]
      refine ite_congr (propext (by omega)) (fun inside => ?_) fun _ => rfl
      rw [update_of_ne]
      intro same
      -- the byte that is read has been written: its place is `n`
      have place : gap (s + (a - d)) d = (gap s d + gap a d) % 2 ^ 32 := by
        rw [gap,show s + (a - d) - d = (s - d) + (a - d) by grind,UInt32.toNat_add]
        rfl
      rw [same,gap_add (by omega)] at place
      have limit := gap_lt s d
      rcases clear with zero | far
      · rw [zero,Nat.zero_add,Nat.mod_eq_of_lt (gap_lt a d)] at place
        exact apart place.symm
      · omega

/-! ### Whole copies -/

/-- Both ranges lie within the address space, whose end may be the end of one. -/
structure Fits (dst src len : UInt32) : Prop where
  source : src.toNat + len.toNat ≤ 2 ^ 32
  target : dst.toNat + len.toNat ≤ 2 ^ 32

theorem gap_eq (le : d ≤ a) : gap a d = a.toNat - d.toNat := UInt32.toNat_sub_of_le a d le

theorem gap_of_lt (lt : a < d) : gap a d = 2 ^ 32 + a.toNat - d.toNat := by
  have limit := d.toNat_lt
  rw [UInt32.lt_iff_toNat_lt] at lt
  rw [gap,UInt32.toNat_sub]
  omega

theorem gap_mod_gap (fits : Fits dst src len) (outside : src < dst → src.toNat + len.toNat ≤ dst.toNat)
    (within : gap a dst < len.toNat) : gap a dst % gap dst src = gap a dst := by
  have ⟨source,target⟩ := fits
  by_cases same : dst = src
  · rw [same,gap_self,Nat.mod_zero]
  refine Nat.mod_eq_of_lt (within.trans_le ?_)
  rcases UInt32.lt_or_le dst src with below | above
  · rw [gap_of_lt below]
    omega
  · have ends := outside (UInt32.lt_of_le_of_ne above (Ne.symm same))
    rw [gap_eq above]
    omega

theorem memmove_apply (fits : Fits dst src len) (a : UInt32) :
    (memmove dst src len m).2 a = if gap a dst < len.toNat then m (src + (a - dst)) else m a := by
  have ⟨source,target⟩ := fits
  have small : len.toNat ≤ 2 ^ 32 := len.toNat_lt.le
  unfold memmove
  dsimp only
  split
  case isTrue inside =>
    have clear : len.toNat ≤ gap src dst := by
      rw [gap_of_lt inside.1]
      omega
    have copied := copyDown_apply (m := m) (.inr clear) small a
    rwa [UInt32.ofNat_toNat] at copied
  case isFalse outside =>
    have apart (above : src < dst) : src.toNat + len.toNat ≤ dst.toNat := by
      have ends := mt (And.intro above) outside
      simp only [gt_iff_lt,UInt32.lt_iff_toNat_lt,UInt32.toNat_add] at above ends
      omega
    rw [copyUp_apply rfl small]
    refine ite_congr rfl (fun within => ?_) fun _ => rfl
    rw [gap_mod_gap fits apart within,gap,UInt32.ofNat_toNat]

/-- The kernel's `memmove` copies every range to every other, however they overlap, and changes nothing else. -/
theorem memmove_spec (dst src n : UInt32) (m : Memory) (fits : Fits dst src n) :
    (memmove dst src n m).1 = dst ∧ (∀ i < n, (memmove dst src n m).2 (dst + i) = m (src + i)) ∧
      ∀ a, (∀ i < n, a ≠ dst + i) → (memmove dst src n m).2 a = m a := by
  refine ⟨rfl,fun i inside => ?_,fun a outside => ?_⟩
  · have place : dst + i - dst = i := by grind
    rw [memmove_apply fits,gap,place,if_pos (UInt32.lt_iff_toNat_lt.1 inside)]
  · rw [memmove_apply fits,if_neg]
    intro inside
    exact outside (a - dst) (UInt32.lt_iff_toNat_lt.2 inside) (by grind)

theorem memmove_spec_overlap : Fits 1 0 2 ∧
    (∀ i < 2, (memmove 1 0 2 UInt32.toUInt8).2 (1 + i) = UInt32.toUInt8 (0 + i)) ∧
      (memmove 1 0 2 UInt32.toUInt8).2 3 = 3 := by
  have fits : Fits 1 0 2 := ⟨by decide,by decide⟩
  have ⟨_,copied,kept⟩ := memmove_spec 1 0 2 UInt32.toUInt8 fits
  exact ⟨fits,copied,kept 3 fun i inside => by grind⟩

theorem Ulib.memmove_apply {n : Int32} (sign : 0 ≤ n) (a : UInt32) :
    (Ulib.memmove dst src n m).2 a =
      if gap a dst < n.toUInt32.toNat then m (src + UInt32.ofNat (gap a dst % gap dst src)) else m a := by
  rw [Int32.toNat_toUInt32_of_le sign]
  have limit := n.toInt_lt
  exact copyUp_apply rfl (by omega) a

/-- The library's `memmove` leaves the memory that the kernel's leaves exactly if the source repeats itself from the
beginning of the destination on. It is so for every memory if the destination does not begin inside the source. -/
theorem Ulib.memmove_agrees_iff (dst src : UInt32) (n : Int32) (m : Memory) (sign : 0 ≤ n)
    (fits : Fits dst src n.toUInt32) :
    (Ulib.memmove dst src n m).2 = (Xv6.memmove dst src n.toUInt32 m).2 ↔
      (src < dst → ∀ i < n.toUInt32, m (src + i % (dst - src)) = m (src + i)) := by
  have read (i : UInt32) : UInt32.ofNat (i.toNat % gap dst src) = i % (dst - src) := by
    rw [gap,← UInt32.toNat_mod,UInt32.ofNat_toNat]
  constructor
  · intro agree above i inside
    have place : dst + i - dst = i := by grind
    have byte := congrFun agree (dst + i)
    rwa [memmove_apply sign,Xv6.memmove_apply fits,gap,place,if_pos (UInt32.lt_iff_toNat_lt.1 inside),
      if_pos (UInt32.lt_iff_toNat_lt.1 inside),read] at byte
  · intro repeats
    funext a
    rw [memmove_apply sign,Xv6.memmove_apply fits]
    refine ite_congr rfl (fun within => ?_) fun _ => rfl
    by_cases above : src < dst
    · rw [gap,read]
      exact repeats above (a - dst) (UInt32.lt_iff_toNat_lt.2 within)
    · rw [gap_mod_gap fits (fun lt => absurd lt above) within,gap,UInt32.ofNat_toNat]

/-- Down by one byte, as `grep` does with the rest of its buffer -/
theorem Ulib.memmove_agrees_below : (Ulib.memmove 0 1 2 UInt32.toUInt8).2 = (Xv6.memmove 0 1 2 UInt32.toUInt8).2 :=
  (Ulib.memmove_agrees_iff 0 1 2 UInt32.toUInt8 (by decide) ⟨by decide,by decide⟩).2 (absurd · (by decide))

/-- Up by one byte the library writes the first byte twice. -/
theorem Ulib.memmove_repeats : Fits 1 0 2 ∧
    (Ulib.memmove 1 0 2 UInt32.toUInt8).2 2 = 0 ∧ (Xv6.memmove 1 0 2 UInt32.toUInt8).2 2 = 1 :=
  ⟨⟨by decide,by decide⟩,by decide,by decide⟩

end Xv6
