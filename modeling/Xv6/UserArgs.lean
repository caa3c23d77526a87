import Xv6.Memmove
import Xv6.VmSizes

/-!
How the kernel looks at what a process passes to it (`syscall.c`, `sys_exec`): the size of every process stays below
`KERNBASE`, and whatever the process has put on its stack, the kernel reads nothing through the pointers there but the
memory of the process.
-/
namespace Xv6.UserArgs
open Xv6.Lib Xv6.Vm Function

/-! ### `syscall.c` and `sysfile.c` -/

/-- What is looked at of the process: its size, the saved `esp`, and its memory. -/
structure Caller where
  sz : UInt32
  esp : UInt32
  mem : Memory

/-- Code that reads the memory of a process; an error is the address of a read outside. -/
abbrev Reads := Except UInt32

def Caller.load (c : Caller) (a : UInt32) : Reads UInt8 := if a < c.sz then return c.mem a else throw a

/-- The little-endian word of four bytes. -/
def int (b₀ b₁ b₂ b₃ : UInt8) : UInt32 :=
  b₀.toUInt32 ||| b₁.toUInt32 <<< 8 ||| b₂.toUInt32 <<< 16 ||| b₃.toUInt32 <<< 24

/-- Fetch the int at `addr`. -/
def fetchint (c : Caller) (addr : UInt32) : Reads (Option UInt32) := do
  if addr ≥ c.sz ∨ addr + 4 > c.sz then return none
  else return some (int (← c.load addr) (← c.load (addr + 1)) (← c.load (addr + 2)) (← c.load (addr + 3)))

/-- The loop of `fetchstr` at `s`, of the string at `pp`. -/
def fetchstr_from (c : Caller) (pp : UInt32) : Nat → UInt32 → Reads Int32
  | 0,_ => return -1
  | fuel + 1,s => do
    if s < c.sz then
      if (← c.load s) = 0 then return (s - pp).toInt32
      else fetchstr_from c pp fuel (s + 1)
    else return -1

/-- Fetch the nul-terminated string at `addr`: what `*pp` is set to, and the length that is returned. -/
def fetchstr (c : Caller) (addr : UInt32) : Reads (Option UInt32 × Int32) := do
  if addr ≥ c.sz then return (none,-1)
  else return (some addr,← fetchstr_from c addr c.sz.toNat addr)

/-- Fetch the nth 32-bit system call argument. -/
def argint (c : Caller) (n : Int32) : Reads (Option UInt32) := fetchint c (c.esp + 4 + 4 * n.toUInt32)

/-- Fetch the nth word-sized system call argument as a pointer to a block of memory of `size` bytes. -/
def argptr (c : Caller) (n size : Int32) : Reads (Option UInt32) := do
  match ← argint c n with
  | none => return none
  | some i => return if size < 0 ∨ i ≥ c.sz ∨ i + size.toUInt32 > c.sz then none else some i

/-- Fetch the nth word-sized system call argument as a string pointer. -/
def argstr (c : Caller) (n : Int32) : Reads (Option UInt32 × Int32) := do
  match ← argint c n with
  | none => return (none,-1)
  | some addr => fetchstr c addr

/-- The loop of `sys_exec`, with what is in `argv` and `left` places left there. -/
def sys_exec_from (c : Caller) (uargv : UInt32) : Nat → List UInt32 → Reads (Option (List UInt32))
  | 0,_ => return none
  | left + 1,argv => do
    match ← fetchint c (uargv + 4 * UInt32.ofNat argv.length) with
    | none => return none
    | some uarg =>
      if uarg = 0 then return some argv
      else
        let (pp,r) ← fetchstr c uarg
        if r < 0 then return none
        else sys_exec_from c uargv left (argv ++ pp.toList)

/-- The path and the arguments that `sys_exec` passes to `exec`. -/
def sys_exec (c : Caller) : Reads (Option (Option UInt32 × List UInt32)) := do
  let (path,r) ← argstr c 0
  if r < 0 then return none
  else
    match ← argint c 1 with
    | none => return none
    | some uargv => return (← sys_exec_from c uargv MAXARG []).map (path,·)

/-! ### What is read -/

/-- The word at `addr`, if it lies inside. -/
def Caller.intAt (c : Caller) (addr : UInt32) : Option UInt32 :=
  if addr.toNat + 4 ≤ c.sz.toNat then some (int (c.mem addr) (c.mem (addr + 1)) (c.mem (addr + 2)) (c.mem (addr + 3)))
  else none

variable {c : Caller} {addr p : UInt32} {n size : Int32}

/-- The first nul from `p` on is `len` bytes away, and inside of the process. -/
def Ends (c : Caller) (p : UInt32) (len : Nat) : Prop :=
  p.toNat + len < c.sz.toNat ∧ c.mem (p + UInt32.ofNat len) = 0 ∧ ∀ i < len, c.mem (p + UInt32.ofNat i) ≠ 0

theorem load_inside {a : UInt32} (inside : a.toNat < c.sz.toNat) : c.load a = .ok (c.mem a) :=
  if_pos (UInt32.lt_iff_toNat_lt.2 inside)

section
variable (low : c.sz.toNat < KERNBASE)
include low

theorem fetchint_eq (addr : UInt32) :
    fetchint c addr = .ok (c.intAt addr) := by
  have base : KERNBASE = 2 ^ 31 := rfl
  have next (i : Nat) (few : i < 5) (inside : addr.toNat < c.sz.toNat) :
      (addr + UInt32.ofNat i).toNat = addr.toNat + i := by
    rw [UInt32.toNat_add,UInt32.toNat_ofNat_of_lt' (by simp only [UInt32.size]; omega)]
    omega
  unfold fetchint Caller.intAt
  simp only [ge_iff_le,gt_iff_lt,UInt32.le_iff_toNat_le,UInt32.lt_iff_toNat_lt]
  by_cases inside : addr.toNat < c.sz.toNat
  · have fourth : (addr + 4).toNat = addr.toNat + 4 := next 4 (by omega) inside
    by_cases all : addr.toNat + 4 ≤ c.sz.toNat
    · rw [if_neg (by omega),if_pos all,load_inside inside]
      have second : c.load (addr + 1) = .ok (c.mem (addr + 1)) :=
        load_inside ((next 1 (by omega) inside).trans_lt (by omega))
      have third : c.load (addr + 2) = .ok (c.mem (addr + 2)) :=
        load_inside ((next 2 (by omega) inside).trans_lt (by omega))
      have last : c.load (addr + 3) = .ok (c.mem (addr + 3)) :=
        load_inside ((next 3 (by omega) inside).trans_lt (by omega))
      rw [second,third,last]
      rfl
    · rw [if_pos (by omega),if_neg all]
      rfl
  · rw [if_pos (by omega),if_neg (by omega)]
    rfl

theorem argint_eq (n : Int32) :
    argint c n = .ok (c.intAt (c.esp + 4 + 4 * n.toUInt32)) := fetchint_eq low _

theorem argptr_eq (n size : Int32) : ∃ r, argptr c n size = .ok r ∧
    ∀ p, r = some p ↔ c.intAt (c.esp + 4 + 4 * n.toUInt32) = some p ∧ 0 ≤ size.toInt ∧ p.toNat < c.sz.toNat ∧
      p.toNat + size.toInt ≤ c.sz.toNat := by
  have base : KERNBASE = 2 ^ 31 := rfl
  unfold argptr
  rw [argint_eq low]
  cases c.intAt (c.esp + 4 + 4 * n.toUInt32) with
  | none => exact ⟨none,rfl,by simp⟩
  | some i =>
    refine ⟨_,rfl,fun p => ?_⟩
    have limit := size.toInt_lt
    have sum (sign : 0 ≤ size.toInt) (inside : i.toNat < c.sz.toNat) :
        (i + size.toUInt32).toNat = i.toNat + size.toInt.toNat := by
      rw [UInt32.toNat_add,Int32.toNat_toUInt32_of_le (Int32.le_iff_toInt_le.2 sign)]
      change (i.toNat + size.toInt.toNat) % 2 ^ 32 = _
      omega
    simp only [ge_iff_le,gt_iff_lt,UInt32.le_iff_toNat_le,UInt32.lt_iff_toNat_lt,Int32.lt_iff_toInt_lt,
      Option.some.injEq]
    constructor
    · intro accepted
      split at accepted
      · cases accepted
      case isFalse fine =>
        obtain rfl : i = p := Option.some.inj accepted
        have sign : 0 ≤ size.toInt := by
          by_contra negative
          exact fine (.inl (by simpa using negative))
        have inside : i.toNat < c.sz.toNat := by
          by_contra outside
          exact fine (.inr (.inl (by omega)))
        have total := sum sign inside
        refine ⟨rfl,sign,inside,?_⟩
        by_contra beyond
        exact fine (.inr (.inr (by omega)))
    · rintro ⟨rfl,sign,inside,within⟩
      have total := sum sign inside
      rw [if_neg]
      rintro (negative | outside | beyond)
      · exact absurd negative (by simpa using sign)
      · omega
      · omega

/-- The loop of `fetchstr`, after `i` bytes that are not nul. -/
theorem fetchstr_from_spec (fuel : Nat) : ∀ {i : Nat}, p.toNat + i ≤ c.sz.toNat →
    c.sz.toNat ≤ p.toNat + i + fuel → (∀ j < i, c.mem (p + UInt32.ofNat j) ≠ 0) →
    ∃ r, fetchstr_from c p fuel (p + UInt32.ofNat i) = .ok r ∧ ((∃ len, Ends c p len ∧ r.toInt = len) ∨
      (∀ j, p.toNat + j < c.sz.toNat → c.mem (p + UInt32.ofNat j) ≠ 0) ∧ r = -1) := by
  have base : KERNBASE = 2 ^ 31 := rfl
  induction fuel with
  | zero =>
    intro i below enough before
    exact ⟨-1,rfl,.inr ⟨fun j inside => before j (by omega),rfl⟩⟩
  | succ fuel ih =>
    intro i below enough before
    have address : (p + UInt32.ofNat i).toNat = p.toNat + i := by
      rw [UInt32.toNat_add,UInt32.toNat_ofNat_of_lt' (by simp only [UInt32.size]; omega)]
      omega
    unfold fetchstr_from
    by_cases inside : p.toNat + i < c.sz.toNat
    · rw [if_pos (UInt32.lt_iff_toNat_lt.2 (address.trans_lt inside)),load_inside (address.trans_lt inside)]
      by_cases nul : c.mem (p + UInt32.ofNat i) = 0
      · refine ⟨(p + UInt32.ofNat i - p).toInt32,?_,.inl ⟨i,⟨inside,nul,before⟩,?_⟩⟩
        · exact if_pos nul
        · rw [show p + UInt32.ofNat i - p = UInt32.ofNat i by grind]
          exact (congrArg Int32.toInt (by simp)).trans (Int32.toInt_ofNat_of_lt (n := i) (by omega))
      · obtain ⟨r,ran,result⟩ := ih (i := i + 1) (by omega) (by omega) fun j before' => by
          rcases Nat.lt_succ_iff_lt_or_eq.mp before' with earlier | rfl
          · exact before j earlier
          · exact nul
        refine ⟨r,?_,result⟩
        rw [UInt32.ofNat_add,← UInt32.add_assoc] at ran
        exact (if_neg nul).trans ran
    · rw [if_neg (fun lt => inside (address ▸ UInt32.lt_iff_toNat_lt.1 lt))]
      exact ⟨-1,rfl,.inr ⟨fun j inside' => before j (by omega),rfl⟩⟩

theorem fetchstr_spec (addr : UInt32) : ∃ pp r, fetchstr c addr = .ok (pp,r) ∧
    ((∃ len, Ends c addr len ∧ pp = some addr ∧ r.toInt = len) ∨
      (∀ i, addr.toNat + i < c.sz.toNat → c.mem (addr + UInt32.ofNat i) ≠ 0) ∧ r = -1) := by
  unfold fetchstr
  by_cases outside : addr ≥ c.sz
  · rw [if_pos outside]
    have least := UInt32.le_iff_toNat_le.1 outside
    exact ⟨none,-1,rfl,.inr ⟨fun i inside => by omega,rfl⟩⟩
  · rw [if_neg outside]
    have inside := UInt32.lt_iff_toNat_lt.1 (UInt32.not_le.1 outside)
    obtain ⟨r,ran,result⟩ := fetchstr_from_spec (i := 0) (p := addr) low c.sz.toNat (by omega) (by omega) nofun
    rw [show addr + UInt32.ofNat 0 = addr by simp] at ran
    rw [ran]
    refine ⟨some addr,r,rfl,result.imp_left ?_⟩
    rintro ⟨len,ends,length⟩
    exact ⟨len,ends,rfl,length⟩

theorem fetchstr_accepted (addr : UInt32) : ∃ pp r, fetchstr c addr = .ok (pp,r) ∧
    (¬r < 0 → pp = some addr ∧ ∃ len, Ends c addr len) := by
  obtain ⟨pp,r,ran,found | missing⟩ := fetchstr_spec low addr
  · obtain ⟨len,ends,rfl,_⟩ := found
    exact ⟨_,r,ran,fun _ => ⟨rfl,len,ends⟩⟩
  · obtain ⟨_,rfl⟩ := missing
    exact ⟨pp,-1,ran,fun accepted => absurd (by decide) accepted⟩

theorem argstr_eq (n : Int32) :
    argstr c n = match c.intAt (c.esp + 4 + 4 * n.toUInt32) with
      | none => .ok (none,-1)
      | some addr => fetchstr c addr := by
  unfold argstr
  rw [argint_eq low]
  cases c.intAt (c.esp + 4 + 4 * n.toUInt32) <;> rfl

theorem sys_exec_from_spec (uargv : UInt32) (left : Nat) : ∀ argv : List UInt32,
    (∀ p ∈ argv, ∃ len, Ends c p len) → ∃ r, sys_exec_from c uargv left argv = .ok r ∧
      ∀ argv', r = some argv' → argv'.length < argv.length + left ∧ ∀ p ∈ argv', ∃ len, Ends c p len := by
  induction left with
  | zero => exact fun _ _ => ⟨none,rfl,nofun⟩
  | succ left ih =>
    intro argv strings
    unfold sys_exec_from
    rw [fetchint_eq low]
    cases c.intAt (uargv + 4 * UInt32.ofNat argv.length) with
    | none => exact ⟨none,rfl,nofun⟩
    | some uarg =>
      by_cases last : uarg = 0
      · refine ⟨some argv,if_pos last,fun argv' same => ?_⟩
        obtain rfl := Option.some.inj same
        exact ⟨by omega,strings⟩
      · obtain ⟨pp,r,ran,accepted⟩ := fetchstr_accepted low uarg
        by_cases refused : r < 0
        · refine ⟨none,?_,nofun⟩
          change (if uarg = 0 then _ else _) = _
          rw [if_neg last,ran]
          exact if_pos refused
        · obtain ⟨rfl,ends⟩ := accepted refused
          obtain ⟨argv',ran',result⟩ := ih (argv ++ [uarg]) fun p member => by
            rcases List.mem_append.mp member with old | new
            · exact strings p old
            · rw [List.mem_singleton.mp new]
              exact ends
          refine ⟨argv',?_,fun argv₂ same => ?_⟩
          · change (if uarg = 0 then _ else _) = _
            rw [if_neg last,ran]
            exact (if_neg refused).trans ran'
          · have := result argv₂ same
            rw [List.length_append,List.length_singleton] at this
            exact ⟨by omega,this.2⟩

theorem sys_exec_spec : ∃ r, sys_exec c = .ok r ∧ ∀ path argv, r = some (path,argv) →
    argv.length < MAXARG ∧ (∃ p len, path = some p ∧ Ends c p len) ∧ ∀ p ∈ argv, ∃ len, Ends c p len := by
  unfold sys_exec
  rw [argstr_eq low,argint_eq low]
  cases c.intAt (c.esp + 4 + 4 * (0 : Int32).toUInt32) with
  | none => exact ⟨none,rfl,nofun⟩
  | some addr =>
    obtain ⟨pp,r,ran,accepted⟩ := fetchstr_accepted low addr
    dsimp only
    rw [ran]
    change ∃ r', (if r < 0 then _ else _) = _ ∧ _
    by_cases refused : r < 0
    · exact ⟨none,if_pos refused,nofun⟩
    rw [if_neg refused]
    obtain ⟨rfl,len,ends⟩ := accepted refused
    cases c.intAt (c.esp + 4 + 4 * (1 : Int32).toUInt32) with
    | none => exact ⟨none,rfl,nofun⟩
    | some uargv =>
      obtain ⟨argv,ran',result⟩ := sys_exec_from_spec low uargv MAXARG [] nofun
      change ∃ r', (do return (← sys_exec_from c uargv MAXARG []).map (some addr,·)) = _ ∧ _
      rw [ran']
      refine ⟨_,rfl,fun path argv' same' => ?_⟩
      obtain ⟨argv₂,rfl,pair⟩ := Option.map_eq_some_iff.mp same'
      cases pair
      obtain ⟨few,strings⟩ := result argv' rfl
      exact ⟨by simpa using few,⟨addr,len,rfl,ends⟩,strings⟩

end

/-- The kernel reads nothing through the pointers of a process but its memory, and takes just the pointers that are right:
in every state that is reached the processes are smaller than `KERNBASE`, and for such a size no sum of 32 bits wraps that is
compared with it. -/
theorem user_pointers_inside {k : Link} {s : Sys} (reached : Reachable k s) : (∀ p, (s.space p).sz < KERNBASE) ∧
    ∀ c : Caller, c.sz.toNat < KERNBASE →
      (∀ addr, fetchint c addr = .ok (c.intAt addr)) ∧ (∀ n, argint c n = .ok (c.intAt (c.esp + 4 + 4 * n.toUInt32))) ∧
      (∀ n size, ∃ r, argptr c n size = .ok r ∧ ∀ p, r = some p ↔ c.intAt (c.esp + 4 + 4 * n.toUInt32) = some p ∧
        0 ≤ size.toInt ∧ p.toNat < c.sz.toNat ∧ p.toNat + size.toInt ≤ c.sz.toNat) ∧
      (∀ addr, ∃ pp r, fetchstr c addr = .ok (pp,r) ∧ ((∃ len, Ends c addr len ∧ pp = some addr ∧ r.toInt = len) ∨
        (∀ i, addr.toNat + i < c.sz.toNat → c.mem (addr + UInt32.ofNat i) ≠ 0) ∧ r = -1)) ∧
      (∀ n, argstr c n = match c.intAt (c.esp + 4 + 4 * n.toUInt32) with
        | none => .ok (none,-1)
        | some addr => fetchstr c addr) ∧
      ∃ r, sys_exec c = .ok r ∧ ∀ path argv, r = some (path,argv) →
        argv.length < MAXARG ∧ (∃ p len, path = some p ∧ Ends c p len) ∧ ∀ p ∈ argv, ∃ len, Ends c p len :=
  ⟨reached.small,fun _ low => ⟨fetchint_eq low,argint_eq low,argptr_eq low,fetchstr_spec low,argstr_eq low,sys_exec_spec low⟩⟩

/-- A process that runs `exec("ls", { "ls", 0 })` -/
def caller : Caller where
  sz := 4096
  esp := 64
  mem a := if a = 68 ∨ a = 80 then 128 else if a = 72 then 80 else if a = 128 then 108 else if a = 129 then 115 else 0

theorem user_pointers_inside_ls : ∃ s, Reachable link s ∧ (∀ p, (s.space p).sz < KERNBASE) ∧
    sys_exec caller = .ok (some (some 128,[128])) ∧ ∃ len, Ends caller 128 len := by
  obtain ⟨s,reached⟩ := booted
  obtain ⟨sizes,reads⟩ := user_pointers_inside reached
  obtain ⟨_,_,_,_,_,r,ran,inside⟩ := reads caller (by decide)
  have passed : sys_exec caller = .ok (some (some 128,[128])) := by decide +kernel
  obtain rfl := Except.ok.inj (ran.symm.trans passed)
  obtain ⟨_,_,strings⟩ := inside _ _ rfl
  exact ⟨s,reached,sizes,passed,strings 128 (by simp)⟩

end Xv6.UserArgs
