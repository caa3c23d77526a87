import Mathlib.Tactic

/-!
Fixed-size byte blocks and the little-endian numbers stored in them. A block is a function from its positions to
bytes; reading past its end gives zero.
-/
namespace Xv6.Lib

/-- A block of `n` bytes. -/
abbrev Bytes (n : Nat) := Fin n → UInt8

variable {n : Nat}

/-- The byte at a position, zero past the end. -/
def byteAt (b : Bytes n) (i : Nat) : UInt8 := if h : i < n then b ⟨i,h⟩ else 0

/-- The block with `len` bytes from `off` on replaced by those of `src`. -/
def splice (b : Bytes n) (off len : Nat) (src : Nat → UInt8) : Bytes n :=
  fun i => if off ≤ i.val ∧ i.val < off + len then src (i.val - off) else b i

/-- The number whose little-endian digits are the first `w` bytes of `f`. -/
def leNat (f : Nat → UInt8) : Nat → Nat
  | 0 => 0
  | w + 1 => (f 0).toNat + 256 * leNat (fun k => f (k + 1)) w

/-- Memory, byte by byte. -/
abbrev Mem := Nat → UInt8

/-- The number of `w` bytes at an address. -/
def load (m : Mem) (a w : Nat) : Nat := leNat (fun i => m (a + i)) w

/-- The `k`-th little-endian digit of a number. -/
def leByte (v k : Nat) : UInt8 := UInt8.ofNat (v / 256 ^ k)

/-- The `w`-byte number at an offset. -/
def getLE (b : Bytes n) (off w : Nat) : Nat := leNat (fun k => byteAt b (off + k)) w

/-- The block with a `w`-byte number stored at an offset. -/
def putLE (b : Bytes n) (off w v : Nat) : Bytes n := splice b off w (leByte v)

theorem byteAt_splice (b : Bytes n) (off len : Nat) (src : Nat → UInt8) (i : Nat) :
    byteAt (splice b off len src) i =
      if off ≤ i ∧ i < off + len ∧ i < n then src (i - off) else byteAt b i := by
  by_cases inside : i < n
  · simp [byteAt,splice,inside]
  · simp [byteAt,inside]

/-- Inside the block a splice reads back its source. -/
theorem byteAt_splice_inside (b : Bytes n) {off len : Nat} (fits : off + len ≤ n) (src : Nat → UInt8)
    {k : Nat} (inside : k < len) : byteAt (splice b off len src) (off + k) = src k := by
  rw [byteAt_splice,if_pos ⟨by omega,by omega,by omega⟩,Nat.add_sub_cancel_left]

theorem byteAt_splice_outside (b : Bytes n) {off len : Nat} (src : Nat → UInt8) {i : Nat}
    (outside : i < off ∨ off + len ≤ i) : byteAt (splice b off len src) i = byteAt b i := by
  rw [byteAt_splice,if_neg (by omega)]

theorem leNat_congr {f g : Nat → UInt8} : ∀ {w : Nat}, (∀ k < w, f k = g k) → leNat f w = leNat g w
  | 0, _ => rfl
  | w + 1, same => by
    have tail : leNat (fun k => f (k + 1)) w = leNat (fun k => g (k + 1)) w :=
      leNat_congr fun k inside => same (k + 1) (by omega)
    simp only [leNat,tail,same 0 (by omega)]

theorem leNat_leByte (w v : Nat) : leNat (leByte v) w = v % 256 ^ w := by
  induction w generalizing v with
  | zero => simp [leNat,Nat.mod_one]
  | succ w ih =>
    have shift : (fun k => leByte v (k + 1)) = leByte (v / 256) := by
      funext k
      rw [leByte,leByte,Nat.div_div_eq_div_mul,pow_succ']
    have digit : (leByte v 0).toNat = v % 256 := by simp [leByte]
    rw [leNat,shift,ih,digit,pow_succ',Nat.mod_mul]

theorem leNat_lt (f : Nat → UInt8) (w : Nat) : leNat f w < 256 ^ w := by
  induction w generalizing f with
  | zero => simp [leNat]
  | succ w ih =>
    have first := (f 0).toNat_lt
    have rest := ih (fun k => f (k + 1))
    rw [leNat,pow_succ']
    omega

theorem getLE_congr {b c : Bytes n} {off w : Nat} (same : ∀ k < w, byteAt b (off + k) = byteAt c (off + k)) :
    getLE b off w = getLE c off w :=
  leNat_congr same

/-- A stored number reads back, truncated to its width. -/
theorem getLE_putLE (b : Bytes n) {off w : Nat} (fits : off + w ≤ n) (v : Nat) :
    getLE (putLE b off w v) off w = v % 256 ^ w := by
  rw [← leNat_leByte w v]
  exact leNat_congr fun k inside => byteAt_splice_inside b fits _ inside

/-- A splice is invisible to a number stored apart from it. -/
theorem getLE_splice_apart (b : Bytes n) {off len at' w : Nat} (src : Nat → UInt8)
    (apart : at' + w ≤ off ∨ off + len ≤ at') : getLE (splice b off len src) at' w = getLE b at' w :=
  getLE_congr fun k inside => byteAt_splice_outside b src (by omega)

theorem getLE_putLE_apart (b : Bytes n) {off w at' w' v : Nat} (apart : at' + w' ≤ off ∨ off + w ≤ at') :
    getLE (putLE b off w v) at' w' = getLE b at' w' :=
  getLE_splice_apart b _ apart

/-- A number of a splice's source, where the splice covers it. -/
theorem getLE_splice_inside (b : Bytes n) {off len k w : Nat} (fits : off + len ≤ n) (inside : k + w ≤ len)
    (src : Nat → UInt8) : getLE (splice b off len src) (off + k) w = leNat (fun j => src (k + j)) w :=
  leNat_congr fun j small => by
    rw [Nat.add_assoc]
    exact byteAt_splice_inside b fits src (by omega)

/-- A 32-bit word at an offset. -/
def get32 (b : Bytes n) (off : Nat) : UInt32 := UInt32.ofNat (getLE b off 4)
/-- The block with a 32-bit word stored at an offset. -/
def put32 (b : Bytes n) (off : Nat) (v : UInt32) : Bytes n := putLE b off 4 v.toNat
/-- A 16-bit word at an offset. -/
def get16 (b : Bytes n) (off : Nat) : UInt16 := UInt16.ofNat (getLE b off 2)

theorem get32_put32 (b : Bytes n) {off : Nat} (fits : off + 4 ≤ n) (v : UInt32) : get32 (put32 b off v) off = v := by
  rw [get32,put32,getLE_putLE b fits,Nat.mod_eq_of_lt (by exact v.toNat_lt),UInt32.ofNat_toNat]

theorem get32_put32_apart (b : Bytes n) {off at' : Nat} {v : UInt32} (apart : at' + 4 ≤ off ∨ off + 4 ≤ at') :
    get32 (put32 b off v) at' = get32 b at' := by
  rw [get32,put32,getLE_putLE_apart b apart,get32]

end Xv6.Lib
