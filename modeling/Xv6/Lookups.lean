import Xv6.World

/-!
Directories and paths, for a call that runs alone.
-/
namespace Xv6
open Xv6.Lib Prog Function

variable {x y z : World} {ip dp jp : Slot} {r q : Ref} {i : Nat} {p : Pid} {name : List UInt8} {E : Stop Wait → Prop}

/-! ### Reading entries -/

/-- Inode `i` has been read: nothing has changed, but it may have got blocks in place of holes. -/
def Reads (i : Nat) (x y : World) : Prop := ∃ l, y = x.note l ∧ (¬x.holey i → l = 0)

theorem Reads.refl (i : Nat) (x : World) : Reads i x x := ⟨0,(note_zero x).symm,fun _ => rfl⟩

theorem Reads.trans (one : Reads i x y) (two : Reads i y z) : Reads i x z := by
  obtain ⟨l,rfl,free⟩ := one
  obtain ⟨k,rfl,free'⟩ := two
  refine ⟨l + k,note_note x l k,fun hard => ?_⟩
  rw [free hard,free' hard]
  rfl

theorem Reads.solid (reads : Reads i x y) (solid : ¬x.holey i) : y = x := by
  obtain ⟨l,rfl,free⟩ := reads
  rw [free solid,note_zero]

theorem runs_entry {Q : Option (List UInt8) → World → Prop} {k : Nat} (here : x.held dp = some r) (locked : r.lock ≠ none)
    (dir : (x.node r.inum).type = T_DIR) (tied : x.holey r.inum → x.soft r.inum) (inside : k < (x.node r.inum).count)
    (next : ∀ y, Reads r.inum x y → Q (some (slice (x.node r.inum).data (16 * k) 16)) y) :
    Runs p (call (.readi dp (16 * k) 16)) Q E x := by
  refine runs_readi_soft here locked tied fun l free => ?_
  have small : (x.node r.inum).size.toNat < 2 ^ 32 := UInt32.toNat_lt _
  have inside : k < (x.node r.inum).size.toNat / 16 := inside
  have bytes : x.read r.inum (16 * k) 16 = some (slice (x.node r.inum).data (16 * k) 16) := by
    unfold World.read
    rw [if_neg (by rw [dir]; decide),if_neg (by rw [Nat.mod_eq_of_lt (by omega)]; omega),if_neg (by omega)]
  rw [bytes]
  exact next _ ⟨l,rfl,free⟩

theorem runs_entry_short {Q : Option (List UInt8) → World → Prop} (here : x.held dp = some r) (locked : r.lock ≠ none)
    (dir : (x.node r.inum).type = T_DIR) (tied : x.holey r.inum → x.soft r.inum) (odd : ¬(x.node r.inum).aligned)
    (next : ∀ bytes y, (bytes.getD []).length ≠ 16 → Q bytes y) :
    Runs p (call (.readi dp (16 * (x.node r.inum).count) 16)) Q E x := by
  refine runs_readi_soft here locked tied fun l _ => next _ _ ?_
  have odd : ¬(x.node r.inum).size.toNat % 16 = 0 := odd
  have count : (x.node r.inum).count = (x.node r.inum).size.toNat / 16 := rfl
  unfold World.read
  rw [if_neg (by rw [dir]; decide)]
  split
  · decide
  · rw [if_pos (by omega)]
    simp only [Option.getD_some,slice,List.length_map,List.length_range]
    omega

/-! ### Scans -/

/-- The loop over the entries of a directory of `size` bytes, up to the first one that is a hit. -/
def scan {α : Type} (dp : Slot) (size : Nat) (why : String) (hit : Dirent → Bool) (done : Nat → Dirent → Call α)
    (ended : Nat → Call α) : Nat → Nat → Call α
  | 0,off => ended off
  | fuel + 1,off =>
    if off < size then do
      let bytes ← call (.readi dp off 16)
      if (bytes.getD []).length ≠ 16 then fail why
      else if hit (Dirent.decode (bytes.getD [])) then done off (Dirent.decode (bytes.getD []))
      else scan dp size why hit done ended fuel (off + 16)
    else ended off

/-- The first hit from entry `k` on. -/
def Node.first (n : Node) (hit : Dirent → Bool) (k : Nat) : Option Nat := (List.range' k (n.count - k)).find? fun j => hit (n.entry j)

theorem first_step {n : Node} {hit : Dirent → Bool} {k : Nat} (inside : k < n.count) :
    n.first hit k = if hit (n.entry k) then some k else n.first hit (k + 1) := by
  have left : n.count - k = n.count - (k + 1) + 1 := by omega
  rw [Node.first,left,List.range'_succ,List.find?_cons]
  cases hit (n.entry k) <;> rfl

theorem first_end {n : Node} {hit : Dirent → Bool} {k : Nat} (past : n.count ≤ k) : n.first hit k = none := by
  rw [Node.first,Nat.sub_eq_zero_of_le past]
  rfl

theorem first_zero (n : Node) (hit : Dirent → Bool) : n.first hit 0 = (List.range n.count).find? fun j => hit (n.entry j) := by
  rw [Node.first,List.range_eq_range',Nat.sub_zero]

theorem first_le {n : Node} {hit : Dirent → Bool} {k j : Nat} (found : n.first hit k = some j) : k ≤ j :=
  (List.mem_range'_1.mp (List.mem_of_find?_eq_some found)).1

/-- The loop on any machine that reads the entries of the directory `n` up to the first hit, and keeps `I` as it does so. -/
theorem wp_scan {σ α : Type} {m : Machine Op Wait σ} {I : Nat → σ → Prop} {n : Node} {Q : α → σ → Prop} {why : String}
    {hit : Dirent → Bool} {done : Nat → Dirent → Call α} {ended : Nat → Call α} {s : σ} (fuel k : Nat) (start : I k s)
    (entry : ∀ s l, I l s → l < n.count → (∀ j, n.first hit k = some j → l ≤ j) →
      wp m (call (.readi dp (16 * l) 16)) (fun bytes s' => bytes = some (slice n.data (16 * l) 16) ∧ I (l + 1) s') E s)
    (tail : ∀ s, I n.count s → ¬n.aligned →
      wp m (call (.readi dp (16 * n.count) 16)) (fun bytes _ => (bytes.getD []).length ≠ 16) E s)
    (enough : n.count < k + fuel) (low : k ≤ n.count)
    (short : ¬n.aligned → n.first hit k = none → E (.panic why))
    (absent : ∀ s', I n.count s' → n.first hit k = none → n.aligned → wp m (ended (16 * n.count)) Q E s')
    (found : ∀ s' j, I (j + 1) s' → n.first hit k = some j → wp m (done (16 * j) (n.entry j)) Q E s') :
    wp m (scan dp n.size.toNat why hit done ended fuel (16 * k)) Q E s := by
  have count : n.count = n.size.toNat / 16 := rfl
  induction fuel generalizing s k with
  | zero => omega
  | succ fuel ih =>
    unfold scan
    rcases Nat.lt_or_ge k n.count with inside | past
    · have read := entry s k start inside fun j => first_le
      rw [first_step inside] at entry short absent found
      rw [if_pos (by omega),wp_bind]
      refine wp_use read fun bytes s' ⟨read,next⟩ => ?_
      subst read
      have length : ((some (slice n.data (16 * k) 16)).getD []).length = 16 := by simp [slice]
      rw [if_neg (by rw [length]; decide)]
      change wp m (if hit (n.entry k) then done (16 * k) (n.entry k) else _) Q E s'
      split
      · next yes =>
        rw [if_pos yes] at found
        exact found s' k next rfl
      · next no =>
        rw [if_neg no] at entry short absent found
        exact ih (k + 1) next entry (by omega) inside short absent found
    · obtain rfl : k = n.count := by omega
      have nothing := @first_end _ hit _ past
      by_cases aligned : n.aligned
      · have even : n.size.toNat % 16 = 0 := aligned
        rw [if_neg (by omega)]
        exact absent s start nothing aligned
      · have odd : ¬n.size.toNat % 16 = 0 := aligned
        rw [if_pos (by omega),wp_bind]
        refine wp_use (tail s start aligned) fun bytes s' length => ?_
        rw [if_pos length]
        exact short aligned nothing

theorem runs_scan {α : Type} {Q : α → World → Prop} {why : String} {hit : Dirent → Bool} {done : Nat → Dirent → Call α}
    {ended : Nat → Call α} (here : x.held dp = some r) (locked : r.lock ≠ none) (dir : (x.node r.inum).type = T_DIR)
    (tied : x.holey r.inum → x.soft r.inum)
    (fuel k : Nat) (enough : (x.node r.inum).count < k + fuel) (low : k ≤ (x.node r.inum).count)
    (short : ¬(x.node r.inum).aligned → (x.node r.inum).first hit k = none → E (.panic why))
    (absent : ∀ y, Reads r.inum x y → (x.node r.inum).first hit k = none → (x.node r.inum).aligned →
      Runs p (ended (16 * (x.node r.inum).count)) Q E y)
    (found : ∀ y j, Reads r.inum x y → (x.node r.inum).first hit k = some j →
      Runs p (done (16 * j) ((x.node r.inum).entry j)) Q E y) :
    Runs p (scan dp (x.node r.inum).size.toNat why hit done ended fuel (16 * k)) Q E x := by
  intro s now
  refine wp_scan (I := fun _ s => ∃ y, Reads r.inum x y ∧ Now y s) fuel k ⟨x,.refl _ x,now⟩ (fun s k ⟨y,reads,now⟩ inside _ => ?_)
    (fun s ⟨y,reads,now⟩ odd => ?_) enough low short (fun s ⟨y,reads,now⟩ nothing aligned => absent y reads nothing aligned s now)
    fun s j ⟨y,reads,now⟩ hit => found y j reads hit s now
  · obtain ⟨l,rfl,_⟩ := id reads
    have read : Runs p (call (.readi dp (16 * k) 16)) (fun bytes z => bytes = some (slice (x.node r.inum).data (16 * k) 16) ∧
        Reads r.inum x z) E (x.note l) :=
      runs_entry (x := x.note l) here locked dir tied inside fun z reads' => ⟨rfl,reads.trans reads'⟩
    exact wp_use (read s now) fun bytes s' ⟨z,now',same,reads'⟩ => ⟨same,z,reads',now'⟩
  · obtain ⟨l,rfl,_⟩ := id reads
    have read : Runs p (call (.readi dp (16 * (x.node r.inum).count) 16)) (fun bytes _ => (bytes.getD []).length ≠ 16) E (x.note l) :=
      runs_entry_short (x := x.note l) here locked dir tied odd fun bytes _ length => length
    exact wp_use (read s now) fun bytes s' ⟨z,_,length⟩ => length

/-! ### `dirlookup` -/

/-- An entry in use with a name. -/
def named (name : List UInt8) (de : Dirent) : Bool := de.inum ≠ 0 ∧ key de.name = key name

theorem find_eq_first (n : Node) (name : List UInt8) : n.find name = n.first (named name) 0 := by
  rw [first_zero]
  rfl

theorem dirlookup_from_scan (dp : Slot) (name : List UInt8) (size fuel off : Nat) :
    dirlookup_from dp name size fuel off = scan dp size "dirlookup read" (named name) (fun off de => do
      let dev ← call (.dev dp)
      let ip ← call (.iget dev de.inum.toNat)
      return some (ip,off)) (fun _ => ret none) fuel off := by
  induction fuel generalizing off with
  | zero => rfl
  | succ fuel ih =>
    unfold dirlookup_from scan
    refine if_congr Iff.rfl (congrArg _ (funext fun bytes => if_congr Iff.rfl rfl ?_)) rfl
    dsimp only
    rw [ih]
    by_cases unused : (Dirent.decode (bytes.getD [])).inum = 0
    · rw [if_pos unused,if_neg (by simp [named,unused])]
    · rw [if_neg unused]
      refine if_congr ?_ rfl rfl
      rw [namecmp_eq_zero]
      simp [named,unused,eq_comm]

theorem runs_dirlookup {Q : Option (Slot × Nat) → World → Prop} (here : x.held dp = some r) (locked : r.lock ≠ none)
    (dir : (x.node r.inum).type = T_DIR) (tied : x.holey r.inum → x.soft r.inum) (full : (∀ jp, x.held jp ≠ none) → E (.panic "iget: no inodes"))
    (short : ¬(x.node r.inum).aligned → (x.node r.inum).find name = none → E (.panic "dirlookup read"))
    (absent : ∀ y, Reads r.inum x y → (x.node r.inum).find name = none → Q none y)
    (found : ∀ y k ip, Reads r.inum x y → (x.node r.inum).find name = some k →
      y.Fits ip ((x.node r.inum).entry k).inum.toNat → Q (some (ip,16 * k)) (y.take ip ((x.node r.inum).entry k).inum.toNat)) :
    Runs p (dirlookup dp name) Q E x := by
  unfold dirlookup
  refine seen_bind (runs_attr here locked ?_)
  have count : (x.node r.inum).count = (x.node r.inum).size.toNat / 16 := rfl
  rw [if_neg (by rw [dir]; simp),dirlookup_from_scan]
  rw [find_eq_first] at short absent found
  refine runs_scan here locked dir tied _ 0 (by omega) (Nat.zero_le _) short (fun y reads nothing _ => seen_ret (absent y reads nothing))
    fun y k reads hit => ?_
  obtain ⟨l,rfl,_⟩ := id reads
  rw [← find_eq_first] at hit
  refine seen_known (fun _ now => now.ok) fun ok => seen_bind (runs_dev (x := x.note l) here ?_)
  have inside := ok.range r.inum (ok.inside dp r here) dir k (find_some hit).1
  exact seen_bind (runs_iget inside full fun ip fits => seen_pure (found _ k ip reads (find_eq_first .. ▸ hit) fits))

/-! ### `dirlink` -/

theorem dirlink_off_scan (dp : Slot) (size fuel off : Nat) :
    dirlink_off dp size fuel off = scan dp size "dirlink read" (fun de => de.inum = 0) (fun off _ => ret off) ret fuel off := by
  induction fuel generalizing off with
  | zero => rfl
  | succ fuel ih =>
    unfold dirlink_off scan
    refine if_congr Iff.rfl (congrArg _ (funext fun bytes => if_congr Iff.rfl rfl ?_)) rfl
    rw [ih]
    exact if_congr (by simp) rfl rfl

theorem vacant_eq_first (n : Node) : n.vacant = (n.first (fun de => de.inum = 0) 0).getD n.count := by
  rw [first_zero]
  rfl

/-- The entry that `dirlink` writes. -/
def newEntry (inum : Nat) (name : List UInt8) : Dirent := ⟨UInt16.ofNat inum,strncpy name DIRSIZ⟩

end Xv6
