import Xv6.LogSleep
import Xv6.LogSpace
import Xv6.Reading

/-!
The functions of `fs.c` with the log: `log_write` tests the space in the header and that a transaction is open. They do
what the functions without the log do, unless one of the tests fails.
-/
namespace Xv6.Logged
open Xv6.Lib Prog Function
open Xv6.LogSleep (Log)

/-- Kernel code with the log. -/
abbrev L := StateT (State × Log) (Except String)

/-- Code that does not call `log_write`. -/
def quiet {α : Type} (m : M α) : L α := fun x => do
  let (a,s) ← m x.1
  return (a,(s,x.2))

/-- The tests of `log_write`, and its critical section. -/
def record (log : Log) (b : Nat) : Except String Log :=
  if log.lh.length ≥ LOGSIZE ∨ log.lh.length ≥ log.size - 1 then throw "too big a transaction"
  else if log.outstanding < 1 then throw "log_write outside of trans"
  else return { log with lh := LogOps.absorb log.lh b }

/-- `log_write` on a buffer of block `b` that holds `data`. -/
def log_write (b : Nat) (data : Block) : L Unit := fun x => do
  let log ← record x.2 b
  let (a,s) ← Xv6.log_write b data x.1
  return (a,(s,log))

/-! ### Blocks -/

def bzero (b : Nat) : L Unit := log_write b fun _ => 0

def balloc_from : Nat → Nat → L Nat
  | 0,_ => throw "balloc: out of blocks"
  | n + 1,b => do
    let sb := (← quiet get).sb
    if b < sb.size then
      let bp ← quiet (bread (sb.bblock b))
      match balloc_bits bp b sb.size BPB 0 with
      | some bi =>
        log_write (sb.bblock b) (putByte bp bi (byteAt bp (bi / 8) ||| mask bi))
        bzero (b + bi)
        return b + bi
      | none => balloc_from n (b + BPB)
    else throw "balloc: out of blocks"

def balloc : L Nat := do balloc_from ((← quiet get).sb.size / BPB + 1) 0

/-! ### Inode content -/

def bmap_addr (ip : Slot) (k : Fin (NDIRECT + 1)) : L Nat := do
  let addr := ((← quiet get).icache ip).node.addrs k
  if addr = 0 then
    let b ← balloc
    quiet (modifyNode ip fun d => { d with addrs := update d.addrs k (UInt32.ofNat b) })
    return b
  else return addr.toNat

def bmap_entry (addr n : Nat) : L Nat := do
  let bp ← quiet (bread addr)
  if get32 bp (4 * n) = 0 then
    let b ← balloc
    log_write addr (put32 bp (4 * n) (UInt32.ofNat b))
    return b
  else return (get32 bp (4 * n)).toNat

def bmap (ip : Slot) (bn : Nat) : L Nat := do
  if h : bn < NDIRECT then bmap_addr ip ⟨bn,Nat.lt_succ_of_lt h⟩
  else if bn - NDIRECT < NINDIRECT then
    let addr ← bmap_addr ip (Fin.last NDIRECT)
    bmap_entry addr (bn - NDIRECT)
  else throw "bmap: out of range"

def readi_from (ip : Slot) : Nat → Nat → Nat → L (List UInt8)
  | 0,_,_ => return []
  | fuel + 1,off,n =>
    if n = 0 then return []
    else do
      let bp ← quiet (bread (← bmap ip (off / BSIZE)))
      let m := min n (BSIZE - off % BSIZE)
      let rest ← readi_from ip fuel (off + m) (n - m)
      return bytesIn bp (off % BSIZE) m ++ rest

def readi (ip : Slot) (off n : Nat) : L (Option (List UInt8)) := do
  let s ← quiet get
  let d := (s.icache ip).node
  if d.type = T_DEV then
    if h : d.major.toNat < NDEV then
      match (s.devsw ⟨d.major.toNat,h⟩).read with
      | some f => return f n
      | none => return none
    else return none
  else if off > d.size.toNat ∨ (off + n) % 2 ^ 32 < off then return none
  else
    let n := if off + n > d.size.toNat then d.size.toNat - off else n
    return some (← readi_from ip n off n)

def iupdate (ip : Slot) : L Unit := do
  let s ← quiet get
  let i := s.icache ip
  let bp ← quiet (bread (s.sb.iblock i.inum))
  log_write (s.sb.iblock i.inum) (putDinode bp (i.inum % IPB) i.node)

def writei_from (ip : Slot) : Nat → Nat → List UInt8 → L Unit
  | 0,_,_ => return ()
  | fuel + 1,off,src =>
    if src.length = 0 then return ()
    else do
      let b ← bmap ip (off / BSIZE)
      let bp ← quiet (bread b)
      let m := min src.length (BSIZE - off % BSIZE)
      log_write b (splice bp (off % BSIZE) m fun k => src.getD k 0)
      writei_from ip fuel (off + m) (src.drop m)

def writei (ip : Slot) (src : List UInt8) (off : Nat) : L Int := do
  let s ← quiet get
  let d := (s.icache ip).node
  let n := src.length
  if d.type = T_DEV then
    if h : d.major.toNat < NDEV then
      match (s.devsw ⟨d.major.toNat,h⟩).write with
      | some f => return f src
      | none => return -1
    else return -1
  else if off > d.size.toNat ∨ (off + n) % 2 ^ 32 < off then return -1
  else if off + n > MAXFILE * BSIZE then return -1
  else
    writei_from ip n off src
    if n > 0 ∧ off + n > d.size.toNat then
      quiet (modifyNode ip fun d => { d with size := UInt32.ofNat (off + n) })
      iupdate ip
    return n

/-! ### The blocks that are logged -/

/-- The log after `log_write` of the blocks `l`. -/
def pass (log : Log) (l : List Nat) : Except String Log := l.foldlM record log

theorem pass_append (log : Log) (l l' : List Nat) : pass log (l ++ l') = pass log l >>= fun log' => pass log' l' :=
  List.foldlM_append

variable {α β : Type} {t : L α} {m : M α} {f : α → L β} {g : α → M β} {s : State}

/-- The code `t` does what `m` does and passes the blocks `l` to `log_write`; no other block is written. -/
structure Passes (t : L α) (m : M α) (s : State) (l : List Nat) : Prop where
  run : ∀ log, t (s,log) = pass log l >>= fun log' => (m s).map fun r => (r.1,(r.2,log'))
  kept : ∀ a s', m s = .ok (a,s') → ∀ b ∉ l, s'.disk b = s.disk b

/-- The code `t` does what `m` does, with at most `n` calls of `log_write`. -/
def Logs (t : L α) (m : M α) (s : State) (n : Nat) : Prop := ∃ l, Passes t m s l ∧ l.length ≤ n

variable {n j : Nat}

theorem Logs.mono (logs : Logs t m s n) (more : n ≤ j) : Logs t m s j :=
  have ⟨l,passes,few⟩ := logs
  ⟨l,passes,few.trans more⟩

theorem Logs.pure (a : α) : Logs (pure a) (pure a) s n :=
  ⟨[],⟨fun _ => rfl,fun _ _ ran _ _ => by cases ran; rfl⟩,Nat.zero_le n⟩

theorem Logs.throw (why : String) : Logs (throw why : L α) (throw why) s n := ⟨[],⟨fun _ => rfl,nofun⟩,Nat.zero_le n⟩

theorem Logs.log_write (b : Nat) (data : Block) : Logs (log_write b data) (Xv6.log_write b data) s 1 := by
  refine ⟨[b],⟨fun log => ?_,fun _ _ ran c other => ?_⟩,le_refl 1⟩
  · show (record log b >>= _) = (record log b >>= _) >>= _
    cases record log b <;> rfl
  · cases ran
    exact update_of_ne (List.ne_of_not_mem_cons other) _ _

theorem Logs.get {f : State → L β} {g : State → M β} (rest : Logs (f s) (g s) s n) : Logs (quiet get >>= f) (get >>= g) s n :=
  have ⟨l,⟨run,kept⟩,few⟩ := rest
  ⟨l,⟨run,kept⟩,few⟩

theorem Logs.bread {b : Nat} {f : Block → L β} {g : Block → M β} (rest : Logs (f (s.disk b)) (g (s.disk b)) s n) :
    Logs (quiet (bread b) >>= f) (bread b >>= g) s n :=
  have ⟨l,⟨run,kept⟩,few⟩ := rest
  ⟨l,⟨run,kept⟩,few⟩

theorem Logs.modifyNode {ip : Slot} {h : Dinode → Dinode} {f : Unit → L β} {g : Unit → M β}
    (rest : ∀ s, Logs (f ()) (g ()) s n) : Logs (quiet (modifyNode ip h) >>= f) (modifyNode ip h >>= g) s n :=
  have ⟨l,⟨run,kept⟩,few⟩ := rest { s with icache := update s.icache ip { s.icache ip with node := h (s.icache ip).node } }
  ⟨l,⟨run,kept⟩,few⟩

theorem Logs.bind (first : Logs t m s n) (rest : ∀ a s', m s = .ok (a,s') → Logs (f a) (g a) s' j) :
    Logs (t >>= f) (m >>= g) s (n + j) := by
  obtain ⟨l,passes,few⟩ := first
  have ran (log : Log) : (t >>= f) (s,log) = t (s,log) >>= fun r => f r.1 r.2 := rfl
  have ran' : (m >>= g) s = m s >>= fun r => g r.1 r.2 := rfl
  rcases here : m s with why | ⟨a,s'⟩
  · refine ⟨l,⟨fun log => ?_,?_⟩,by omega⟩
    · rw [ran,ran',passes.run,here]
      cases pass log l <;> rfl
    · rw [ran',here]
      nofun
  · obtain ⟨l',later,few'⟩ := rest a s' here
    refine ⟨l ++ l',⟨fun log => ?_,fun b s'' done c other => ?_⟩,by rw [List.length_append]; omega⟩
    · rw [ran,ran',passes.run,here,pass_append]
      cases pass log l with
      | error why => rfl
      | ok log' => exact later.run log'
    · rw [ran',here] at done
      rw [List.mem_append,not_or] at other
      rw [later.kept b s'' done c other.2,passes.kept a s' here c other.1]

theorem Logs.ite {c : Prop} [Decidable c] {t t' : L α} {m m' : M α} (pos : c → Logs t m s n) (neg : ¬c → Logs t' m' s n) :
    Logs (if c then t else t') (if c then m else m') s n := by
  split
  · next yes => exact pos yes
  · next no => exact neg no

theorem logs_balloc_from (k b : Nat) : Logs (balloc_from k b) (Xv6.balloc_from k b) s 2 := by
  induction k generalizing b with
  | zero => exact .throw _
  | succ k ih =>
    refine .get (.ite (fun _ => .bread ?_) fun _ => .throw _)
    cases balloc_bits (s.disk (s.sb.bblock b)) b s.sb.size BPB 0 with
    | some bi => exact .bind (.log_write _ _) fun _ _ _ => .bind (j := 0) (.log_write _ _) fun _ _ _ => .pure _
    | none => exact ih _

theorem logs_balloc : Logs balloc Xv6.balloc s 2 := .get (logs_balloc_from _ _)

theorem logs_bmap_addr (ip : Slot) (k : Fin (NDIRECT + 1)) : Logs (bmap_addr ip k) (Xv6.bmap_addr ip k) s 2 :=
  .get (.ite (fun _ => .bind (j := 0) logs_balloc fun _ _ _ => .modifyNode fun _ => .pure _) fun _ => .pure _)

theorem logs_bmap_entry (addr k : Nat) : Logs (bmap_entry addr k) (Xv6.bmap_entry addr k) s 3 :=
  .bread (.ite (fun _ => .bind logs_balloc fun _ _ _ => .bind (j := 0) (.log_write _ _) fun _ _ _ => .pure _) fun _ => .pure _)

theorem logs_bmap (ip : Slot) (bn : Nat) : Logs (bmap ip bn) (Xv6.bmap ip bn) s 5 := by
  unfold bmap Xv6.bmap
  split
  · exact (logs_bmap_addr _ _).mono (by decide)
  · exact .ite (fun _ => .bind (logs_bmap_addr _ _) fun _ _ _ => logs_bmap_entry _ _) fun _ => .throw _

variable {ip : Slot} {d : Dinode}

theorem logs_bmap_there {bn : Nat} (node : (s.icache ip).node = d) (small : bn < MAXFILE) (some' : blk s.disk d bn ≠ 0) :
    Logs (bmap ip bn) (Xv6.bmap ip bn) s 0 := by
  have max : MAXFILE = NDIRECT + NINDIRECT := rfl
  have found {k : Fin (NDIRECT + 1)} (some' : d.addrs k ≠ 0) : Logs (bmap_addr ip k) (Xv6.bmap_addr ip k) s 0 :=
    .get (.ite (fun zero => absurd (node ▸ zero) some') fun _ => .pure _)
  have there := blk_there some'
  unfold bmap Xv6.bmap
  split at there
  · next direct =>
    rw [dif_pos direct,dif_pos direct]
    exact found there.1
  · next direct =>
    obtain ⟨indirect,entry,_⟩ := there
    rw [dif_neg direct,dif_neg direct,if_pos (by omega),if_pos (by omega)]
    refine .bind (n := 0) (j := 0) (found indirect) fun addr s' ran => ?_
    have same := post_bmap_addr (Q := fun a u => a = (d.addrs (Fin.last NDIRECT)).toNat ∧ u = s) (E := fun _ => False) node indirect
    obtain ⟨rfl,rfl⟩ := post_ok (same.mpr ⟨rfl,rfl⟩) ran
    exact .bread (.ite (fun zero => absurd zero entry) fun _ => .pure _)

/-- The blocks of `n` bytes at `off`. -/
def blocks (off n : Nat) : Nat := if n = 0 then 0 else (off % BSIZE + n - 1) / BSIZE + 1

theorem blocks_step {off m : Nat} (some' : n ≠ 0) (part : min n (BSIZE - off % BSIZE) = m) :
    blocks off n = blocks (off + m) (n - m) + 1 := by
  unfold blocks
  rw [BSIZE_eq] at *
  split_ifs <;> omega

theorem logs_readi_from_there (node : (s.icache ip).node = d) (fuel off n : Nat) (small : off + n ≤ MAXFILE * BSIZE)
    (there : ∀ bn, Touches off n bn → blk s.disk d bn ≠ 0) : Logs (readi_from ip fuel off n) (Xv6.readi_from ip fuel off n) s 0 := by
  induction fuel generalizing off n with
  | zero => exact .pure _
  | succ fuel ih =>
    refine .ite (fun _ => .pure _) fun some' => ?_
    have rem := Nat.mod_lt off (show 0 < BSIZE by decide)
    have bn : off / BSIZE < MAXFILE := Nat.div_lt_of_lt_mul (by rw [Nat.mul_comm]; omega)
    have first := there _ (Touches.first (by omega))
    have high : min n (BSIZE - off % BSIZE) ≤ n := Nat.min_le_left _ _
    refine .bind (n := 0) (j := 0) (logs_bmap_there node bn first) fun b s' ran => ?_
    have same := post_bmap (Q := fun a u => a = blk s.disk d (off / BSIZE) ∧ u = s) (E := fun _ => False) node bn first
    obtain ⟨rfl,rfl⟩ := post_ok (same.mpr ⟨rfl,rfl⟩) ran
    exact .bread (.bind (j := 0) (ih _ _ (by omega) fun bn later => there bn (later.rest high)) fun _ _ _ => .pure _)

theorem logs_readi {off n m k : Nat} (cut : m = min n ((s.icache ip).node.size.toNat - off)) (loop : (s.icache ip).node.type ≠ T_DEV →
      ¬(off > (s.icache ip).node.size.toNat ∨ (off + n) % 2 ^ 32 < off) →
        Logs (readi_from ip m off m) (Xv6.readi_from ip m off m) s k) : Logs (readi ip off n) (Xv6.readi ip off n) s k := by
  refine .get (.ite (fun _ => ?_) fun regular => .ite (fun _ => .pure _) fun legal => ?_)
  · split
    · next low => cases (s.devsw ⟨(s.icache ip).node.major.toNat,low⟩).read <;> exact .pure _
    · exact .pure _
  · rw [show (if off + n > (s.icache ip).node.size.toNat then (s.icache ip).node.size.toNat - off else n) = m by
      rw [not_or] at legal
      split <;> omega]
    exact .bind (j := 0) (loop regular legal) fun _ _ _ => .pure _

theorem logs_iupdate (ip : Slot) : Logs (iupdate ip) (Xv6.iupdate ip) s 1 := .get (.bread (.log_write _ _))

theorem logs_writei_from (fuel off : Nat) (src : List UInt8) :
    Logs (writei_from ip fuel off src) (Xv6.writei_from ip fuel off src) s (6 * blocks off src.length) := by
  induction fuel generalizing off src s with
  | zero => exact .pure _
  | succ fuel ih =>
    refine .ite (fun _ => .pure _) fun some' => ?_
    have rounds := blocks_step some' (Eq.refl (min src.length (BSIZE - off % BSIZE)))
    rw [← List.length_drop] at rounds
    refine (Logs.bind (logs_bmap _ _) fun _ _ _ => .bread (.bind (.log_write _ _) fun _ _ _ => ih _ _)).mono ?_
    omega

theorem logs_writei {src : List UInt8} {off k : Nat} (enough : (s.icache ip).node.type ≠ T_DEV → off ≤ (s.icache ip).node.size.toNat →
      off + src.length ≤ MAXFILE * BSIZE → 6 * blocks off src.length + 1 ≤ k) :
    Logs (writei ip src off) (Xv6.writei ip src off) s k := by
  refine .get (.ite (fun _ => ?_) fun regular => .ite (fun _ => .pure _) fun legal => .ite (fun _ => .pure _) fun fits => ?_)
  · split
    · next low => cases (s.devsw ⟨(s.icache ip).node.major.toNat,low⟩).write <;> exact .pure _
    · exact .pure _
  · refine (Logs.bind (logs_writei_from _ _ _) fun _ _ _ => .ite (fun _ => .modifyNode fun _ => ?_) fun _ => .pure _).mono
      (enough regular (by omega) (by omega))
    exact .bind (j := 0) (logs_iupdate ip) fun _ _ _ => .pure _

/-! ### The space in the log -/

/-- A transaction is open, and the header has room for `n` more blocks. -/
structure Room (log : Log) (n : Nat) : Prop where
  inside : 1 ≤ log.outstanding
  header : log.lh.length + n ≤ LOGSIZE
  disk : log.lh.length + n ≤ log.size - 1

theorem Room.pass {log : Log} {l : List Nat} (room : Room log l.length) : ∃ lh, pass log l = .ok { log with lh := lh } := by
  induction l generalizing log with
  | nil => exact ⟨log.lh,rfl⟩
  | cons b l ih =>
    obtain ⟨inside,header,disk⟩ := room
    have length := LogSpace.absorb_length_le log.lh b
    rw [List.length_cons] at header disk
    obtain ⟨lh,ran⟩ := @ih { log with lh := LogOps.absorb log.lh b } ⟨inside,by dsimp only; omega,by dsimp only; omega⟩
    refine ⟨lh,?_⟩
    show (record log b >>= fun log' => Logged.pass log' l) = _
    rw [record,if_neg (by omega),if_neg (by omega)]
    exact ran

/-- In a transaction only the space can fail. -/
theorem pass_open {log : Log} (inside : 1 ≤ log.outstanding) (l : List Nat) :
    (∃ lh, pass log l = .ok { log with lh := lh }) ∨ pass log l = .error "too big a transaction" := by
  induction l generalizing log with
  | nil => exact .inl ⟨log.lh,rfl⟩
  | cons b l ih =>
    show (∃ lh, (record log b >>= fun log' => pass log' l) = _) ∨ (record log b >>= fun log' => pass log' l) = _
    unfold record
    split
    · exact .inr rfl
    · rw [if_neg (by omega)]
      exact @ih { log with lh := LogOps.absorb log.lh b } inside

variable {a : α} {s' : State}

theorem Logs.silent (logs : Logs t m s 0) (ran : m s = .ok (a,s')) (log : Log) : t (s,log) = .ok (a,(s',log)) := by
  obtain ⟨l,passes,none'⟩ := logs
  obtain rfl := List.eq_nil_of_length_eq_zero (Nat.le_zero.mp none')
  rw [passes.run,ran]
  rfl

/-- What the code with the log returns is what the code without it returns. -/
theorem Logs.ran (logs : Logs t m s n) {log log' : Log} (ran : t (s,log) = .ok (a,(s',log'))) : m s = .ok (a,s') := by
  obtain ⟨l,passes,_⟩ := logs
  rw [passes.run] at ran
  cases passed : pass log l with
  | error why =>
    rw [passed] at ran
    cases ran
  | ok log₁ =>
    rw [passed] at ran
    rcases here : m s with why | ⟨b,u⟩ <;> rw [here] at ran <;> cases ran
    rfl

/-- In a transaction the code does what it does without the log, or the log lacks the room. -/
theorem Logs.inside (logs : Logs t m s n) {log : Log} (inside : 1 ≤ log.outstanding) :
    (∃ lh, t (s,log) = (m s).map fun r => (r.1,(r.2,{ log with lh := lh }))) ∨
      t (s,log) = .error "too big a transaction" ∧ ¬Room log n := by
  obtain ⟨l,passes,few⟩ := logs
  rw [passes.run]
  by_cases room : Room log n
  · obtain ⟨_,header,disk⟩ := room
    obtain ⟨lh,passed⟩ := @Room.pass log l ⟨inside,by omega,by omega⟩
    rw [passed]
    exact .inl ⟨lh,rfl⟩
  · rcases pass_open inside l with ⟨lh,passed⟩ | failed
    · rw [passed]
      exact .inl ⟨lh,rfl⟩
    · rw [failed]
      exact .inr ⟨rfl,room⟩

theorem Logs.returns (logs : Logs t m s n) (ran : m s = .ok (a,s')) {log : Log} (inside : 1 ≤ log.outstanding) :
    (∃ log', t (s,log) = .ok (a,(s',log'))) ∨ t (s,log) = .error "too big a transaction" ∧ ¬Room log n :=
  (logs.inside inside).imp_left fun ⟨_,same⟩ => ⟨_,by rw [same,ran]; rfl⟩

end Xv6.Logged
