import Xv6.Param
import Xv6.Lib.Bytes

/-!
`mp.c`: the tables in which the firmware describes the processors. Memory is read at kernel addresses of 32 bits.
-/
namespace Xv6.Mp
open Xv6 Xv6.Lib

/-- Physical memory, as the kernel sees it. -/
def P2V (a : Nat) : Nat := (a + KERNBASE) % 2 ^ 32

/-- A number of `n` bytes, at an address of 32 bits. -/
def read (mem : Mem) (a n : Nat) : Nat := load (fun b => mem (b % 2 ^ 32)) a n

/-- `sizeof(struct mp)` -/
def mpSize : Nat := 16
/-- `sizeof(struct mpconf)` -/
def mpconfSize : Nat := 44
/-- `sizeof(struct mpproc)` -/
def mpprocSize : Nat := 20
/-- `sizeof(struct mpioapic)` -/
def mpioapicSize : Nat := 8

def MPPROC : UInt8 := 0
def MPBUS : UInt8 := 1
def MPIOAPIC : UInt8 := 2
def MPIOINTR : UInt8 := 3
def MPLINTR : UInt8 := 4

/-- The sum of the bytes, as a `uchar`. -/
def sum (mem : Mem) (addr len : Nat) : Nat := ((List.range len).map fun i => (mem ((addr + i) % 2 ^ 32)).toNat).sum % 256

/-- `"_MP_"` and `"PCMP"` in little endian -/
def mpSignature : Nat := 0x5F504D5F
def pcmpSignature : Nat := 0x504D4350

def mpsearch1_from (mem : Mem) (e : Nat) : Nat → Nat → Option Nat
  | 0,_ => none
  | fuel + 1,p =>
    if p < e then
      if read mem p 4 = mpSignature ∧ sum mem p mpSize = 0 then some p else mpsearch1_from mem e fuel ((p + mpSize) % 2 ^ 32)
    else none

/-- Look for an MP structure in the `len` bytes at `a`. -/
def mpsearch1 (mem : Mem) (a len : Nat) : Option Nat := mpsearch1_from mem ((P2V a + len) % 2 ^ 32) (len / mpSize + 1) (P2V a)

/-- Search for the MP floating pointer structure. -/
def mpsearch (mem : Mem) : Option Nat :=
  let bda := P2V 0x400
  let p := read mem (bda + 0x0E) 2 * 16
  let found := if p ≠ 0 then mpsearch1 mem p 1024 else mpsearch1 mem ((read mem (bda + 0x13) 2 * 1024 + 2 ^ 32 - 1024) % 2 ^ 32) 1024
  found.or (mpsearch1 mem 0xF0000 0x10000)

/-- Search for an MP configuration table: the structure that points to it, and the table. -/
def mpconfig (mem : Mem) : Option (Nat × Nat) :=
  match mpsearch mem with
  | none => none
  | some mp =>
    let physaddr := read mem (mp + 4) 4
    let conf := P2V physaddr
    let version := read mem (conf + 6) 1
    if physaddr = 0 then none
    else if read mem conf 4 ≠ pcmpSignature then none
    else if version ≠ 1 ∧ version ≠ 4 then none
    else if sum mem conf (read mem (conf + 4) 2) ≠ 0 then none
    else some (mp,conf)

/-- `ismp`, `lapic`, the `apicid`s of the first `ncpu` of `cpus`, and `ioapicid`. -/
structure Found where
  ismp : Bool
  lapic : Nat
  apicids : List UInt8
  ioapicid : UInt8

/-- One turn of the loop at the entry `p`, of a table that ends at `e`. -/
def turn (mem : Mem) (e : Nat) : Nat × Found → Nat × Found
  | (p,s) =>
    if p < e then
      let type := mem p
      if type = MPPROC then
        ((p + mpprocSize) % 2 ^ 32,if s.apicids.length < NCPU then { s with apicids := s.apicids ++ [mem ((p + 1) % 2 ^ 32)] } else s)
      else if type = MPIOAPIC then ((p + mpioapicSize) % 2 ^ 32,{ s with ioapicid := mem ((p + 1) % 2 ^ 32) })
      else if type = MPBUS ∨ type = MPIOINTR ∨ type = MPLINTR then ((p + 8) % 2 ^ 32,s)
      -- `break` leaves the `switch`, not the loop
      else (p,{ s with ismp := false })
    else (p,s)

/-- The end of a table. -/
def tableEnd (mem : Mem) (conf : Nat) : Nat := (conf + read mem (conf + 4) 2) % 2 ^ 32

/-- The loop after so many turns. -/
def turns (mem : Mem) (conf i : Nat) : Nat × Found :=
  (turn mem (tableEnd mem conf))^[i] ((conf + mpconfSize) % 2 ^ 32,⟨true,read mem (conf + 36) 4,[],0⟩)

/-- `mpinit`, if its loop needs no more than `fuel` turns: what it has found, or the panic. `imcrp` makes
    no difference to that. -/
def mpinit (mem : Mem) (fuel : Nat) : Option (Except String Found) :=
  match mpconfig mem with
  | none => some (.error "Expect to run on an SMP")
  | some (_,conf) =>
    if (turns mem conf fuel).1 < tableEnd mem conf then none
    else if (turns mem conf fuel).2.ismp then some (.ok (turns mem conf fuel).2)
    else some (.error "Didn't find a suitable machine")

/-! ### The end of the loop -/

variable {mem : Mem} {e p conf mp : Nat} {s : Found}

/-- The size of an entry, by its type. -/
def entrySize (type : UInt8) : Option Nat :=
  if type = MPPROC then some mpprocSize
  else if type = MPIOAPIC then some mpioapicSize
  else if type = MPBUS ∨ type = MPIOINTR ∨ type = MPLINTR then some 8
  else none

theorem entrySize_pos {type : UInt8} {n : Nat} (size : entrySize type = some n) : 0 < n := by
  unfold entrySize at size
  split_ifs at size <;> cases size <;> decide

theorem turn_regular {n : Nat} (more : p < e) (size : entrySize (mem p) = some n) (inside : p + n < 2 ^ 32) :
    (turn mem e (p,s)).1 = p + n ∧ (turn mem e (p,s)).2.ismp = s.ismp := by
  unfold entrySize at size
  rw [turn,if_pos more]
  dsimp only
  split_ifs at size with proc ioapic other
  · cases size
    rw [if_pos proc]
    refine ⟨Nat.mod_eq_of_lt inside,?_⟩
    dsimp only
    split <;> rfl
  · cases size
    rw [if_neg proc,if_pos ioapic]
    exact ⟨Nat.mod_eq_of_lt inside,rfl⟩
  · cases size
    rw [if_neg proc,if_neg ioapic,if_pos other]
    exact ⟨Nat.mod_eq_of_lt inside,rfl⟩

theorem turn_done (mem : Mem) (done : e ≤ p) : turn mem e (p,s) = (p,s) := by
  rw [turn,if_neg (by omega)]

theorem turn_unknown (unknown : entrySize (mem p) = none) : (turn mem e (p,s)).1 = p := by
  unfold entrySize at unknown
  split_ifs at unknown with proc ioapic other
  rw [turn]
  split
  · dsimp only
    rw [if_neg proc,if_neg ioapic,if_neg other]
  · rfl

theorem turn_few (few : s.apicids.length ≤ NCPU) : (turn mem e (p,s)).2.apicids.length ≤ NCPU := by
  unfold turn
  dsimp only
  split_ifs with more proc room ioapic other
  · simp only [List.length_append,List.length_singleton]
    omega
  all_goals exact few

theorem turns_succ (mem : Mem) (conf i : Nat) : turns mem conf (i + 1) = turn mem (tableEnd mem conf) (turns mem conf i) :=
  Function.iterate_succ_apply' ..

theorem turns_few (mem : Mem) (conf i : Nat) : (turns mem conf i).2.apicids.length ≤ NCPU := by
  induction i with
  | zero => exact Nat.zero_le _
  | succ i ih =>
    rw [turns_succ]
    exact turn_few ih

/-- The entry that the loop comes to after `i` turns. -/
def Comes (mem : Mem) (conf i p : Nat) : Prop := (turns mem conf i).1 = p ∧ p < tableEnd mem conf

/-- No entry goes beyond the end of the address space. -/
def Fits (mem : Mem) (conf : Nat) : Prop := ∀ i p n, Comes mem conf i p → entrySize (mem p) = some n → p + n < 2 ^ 32

theorem turns_known (fits : Fits mem conf) (known : ∀ i p, Comes mem conf i p → (entrySize (mem p)).isSome) (i : Nat) :
    (turns mem conf i).2.ismp = true ∧ (tableEnd mem conf ≤ (turns mem conf i).1 ∨ i ≤ (turns mem conf i).1) := by
  induction i with
  | zero => exact ⟨rfl,.inr (Nat.zero_le _)⟩
  | succ i ih =>
    obtain ⟨ismp,nearer⟩ := ih
    rw [turns_succ]
    by_cases more : (turns mem conf i).1 < tableEnd mem conf
    · obtain ⟨n,size⟩ := Option.isSome_iff_exists.mp (known i _ ⟨rfl,more⟩)
      have some' := entrySize_pos size
      have step := turn_regular (s := (turns mem conf i).2) more size (fits i _ n ⟨rfl,more⟩ size)
      rw [Prod.mk.eta] at step
      obtain ⟨next,same⟩ := step
      refine ⟨same.trans ismp,.inr ?_⟩
      rw [next]
      omega
    · have stay := turn_done mem (s := (turns mem conf i).2) (Nat.le_of_not_lt more)
      rw [Prod.mk.eta] at stay
      rw [stay]
      exact ⟨ismp,.inl (Nat.le_of_not_lt more)⟩

theorem turns_done {i : Nat} (done : tableEnd mem conf ≤ (turns mem conf i).1) : ∀ j, i ≤ j → turns mem conf j = turns mem conf i := by
  intro j later
  induction j, later using Nat.le_induction with
  | base => rfl
  | succ j _ ih => rw [turns_succ,ih,← Prod.mk.eta (p := turns mem conf i),turn_done mem done]

/-- The loop does not leave an entry of a type that is not known. -/
theorem turns_unknown {i : Nat} (comes : Comes mem conf i p) (unknown : entrySize (mem p) = none) (j : Nat) :
    (turns mem conf j).1 < tableEnd mem conf := by
  obtain ⟨here,more⟩ := comes
  rcases le_total i j with later | before
  · suffices stays : (turns mem conf j).1 = p by rwa [stays]
    induction j, later using Nat.le_induction with
    | base => exact here
    | succ j _ ih =>
      have unknown' : entrySize (mem (turns mem conf j).1) = none := by rwa [ih]
      rw [turns_succ]
      exact (turn_unknown unknown').trans ih
  · by_contra done
    rw [turns_done (Nat.le_of_not_lt done) i before] at here
    omega

/-- If no entry goes beyond the end of the address space, `mpinit` falls through its loop exactly if every entry that the loop
    comes to has a known type, and else it never ends. No more than `NCPU` processors are recorded in any case. -/
theorem mpinit_ends (accepted : mpconfig mem = some (mp,conf)) (fits : Fits mem conf) :
    ((∃ fuel s, ∀ i, fuel ≤ i → mpinit mem i = some (.ok s)) ↔ ∀ i p, Comes mem conf i p → (entrySize (mem p)).isSome) ∧
    ((∃ i p, Comes mem conf i p ∧ entrySize (mem p) = none) → ∀ fuel, mpinit mem fuel = none) ∧
    ∀ i, (turns mem conf i).2.apicids.length ≤ NCPU := by
  have hangs {i p : Nat} (comes : Comes mem conf i p) (unknown : entrySize (mem p) = none) (fuel : Nat) : mpinit mem fuel = none := by
    rw [mpinit,accepted]
    exact if_pos (turns_unknown comes unknown fuel)
  refine ⟨⟨fun ⟨fuel,s,ends⟩ i p comes => ?_,fun known => ⟨tableEnd mem conf,(turns mem conf (tableEnd mem conf)).2,fun i enough => ?_⟩⟩,
    fun ⟨i,p,comes,unknown⟩ => hangs comes unknown,turns_few mem conf⟩
  · by_contra unknown
    have never := hangs comes (Option.not_isSome_iff_eq_none.mp unknown) fuel
    rw [ends fuel le_rfl] at never
    cases never
  · obtain ⟨ismp,nearer⟩ := turns_known fits known (tableEnd mem conf)
    have done : tableEnd mem conf ≤ (turns mem conf (tableEnd mem conf)).1 := nearer.elim id id
    have same := turns_done done i enough
    rw [mpinit,accepted]
    dsimp only
    rw [same,if_neg (by omega),if_pos ismp]

/-- A machine with an MP structure at 0x90000 and a configuration table at 0x90100, which has one entry of this type. -/
def machine (type checksum : UInt8) : Mem := fun a =>
  if a = P2V 0x40F then 0x90
  else if P2V 0x90100 ≤ a then
    ([0x50,0x43,0x4D,0x50,45,0,4,checksum] ++ List.replicate 36 0 ++ [type]).getD (a - P2V 0x90100) 0
  else if P2V 0x90000 ≤ a then [0x5F,0x4D,0x50,0x5F,0,1,9,0,1,4,150].getD (a - P2V 0x90000) 0
  else 0

theorem mpinit_ends_bus : ∃ fuel s, ∀ i, fuel ≤ i → mpinit (machine MPBUS 158) i = some (.ok s) := by
  have accepted : mpconfig (machine MPBUS 158) = some (P2V 0x90000,P2V 0x90100) := by decide +kernel
  have done : tableEnd (machine MPBUS 158) (P2V 0x90100) ≤ (turns (machine MPBUS 158) (P2V 0x90100) 1).1 := by decide +kernel
  have first {i p : Nat} (comes : Comes (machine MPBUS 158) (P2V 0x90100) i p) : p = P2V 0x90100 + 44 := by
    obtain ⟨rfl,more⟩ := comes
    cases i with
    | zero => rfl
    | succ i =>
      rw [turns_done done (i + 1) (by omega)] at more
      omega
  have size : entrySize (machine MPBUS 158 (P2V 0x90100 + 44)) = some 8 := by decide +kernel
  refine (mpinit_ends accepted fun i p n comes same => ?_).1.mpr fun i p comes => ?_
  · obtain rfl := first comes
    rw [size] at same
    cases same
    decide
  · rw [first comes,size]
    rfl

/-- An entry of a type that is not known: `mpinit` accepts the table and never ends. -/
theorem mpinit_hangs : mpconfig (machine 5 154) = some (P2V 0x90000,P2V 0x90100) ∧ ∀ fuel, mpinit (machine 5 154) fuel = none := by
  have accepted : mpconfig (machine 5 154) = some (P2V 0x90000,P2V 0x90100) := by decide +kernel
  refine ⟨accepted,fun fuel => ?_⟩
  rw [mpinit,accepted]
  exact if_pos (turns_unknown (i := 0) ⟨rfl,by decide +kernel⟩ (by decide +kernel) fuel)

end Xv6.Mp
