import Xv6.Param
import Xv6.Lib.Writes

/-!
The commit and the recovery of `log.c`. The kernel reads blocks through its buffers and issues single-block writes one
after the other, so a crash leaves the disk as some prefix of the writes made it.
-/
namespace Xv6.LogCommit
open Function Xv6.Lib

/-- The disk, the buffers that hold a block, and the writes issued so far. -/
structure Io where
  disk : Disk
  cache : Nat → Option Block
  writes : List (Nat × Block)

/-- The contents of a block as the kernel sees it. -/
def view (io : Io) (b : Nat) : Block := (io.cache b).getD (io.disk b)

/-- A buffer with the contents of the block; a block without one is read from the disk. -/
def bread (io : Io) (b : Nat) : Block × Io :=
  match io.cache b with
  | some data => (data,io)
  | none => (io.disk b,{ io with cache := update io.cache b (some (io.disk b)) })

/-- Store `data` in the buffer of the block and write it to the disk. -/
def bwrite (io : Io) (b : Nat) (data : Block) : Io :=
  { disk := update io.disk b data
    cache := update io.cache b (some data)
    writes := io.writes ++ [(b,data)] }

/-- `struct log`: where the log lies on the disk and the block numbers
    `lh.block[0..n)` of the current transaction. -/
structure Log where
  start : Nat
  size : Nat
  lh : List UInt32

/-- Copy modified blocks from cache to log. -/
def write_log_from (start : Nat) : Nat → List UInt32 → Io → Io
  | _, [], io => io
  | tail, b :: rest, io =>
    let dst := bread io (start + tail + 1)
    let src := bread dst.2 b.toNat
    write_log_from start (tail + 1) rest (bwrite src.2 (start + tail + 1) src.1)

def write_log (log : Log) (io : Io) : Io := write_log_from log.start 0 log.lh io

/-- Copy committed blocks from log to their home location. -/
def install_trans_from (start : Nat) : Nat → List UInt32 → Io → Io
  | _, [], io => io
  | tail, b :: rest, io =>
    let lbuf := bread io (start + tail + 1)
    let dbuf := bread lbuf.2 b.toNat
    install_trans_from start (tail + 1) rest (bwrite dbuf.2 b.toNat lbuf.1)

def install_trans (log : Log) (io : Io) : Io := install_trans_from log.start 0 log.lh io

/-- The block numbers stored from an offset of the header block on. -/
def putBlocks (b : Block) (off : Nat) : List UInt32 → Block
  | [] => b
  | x :: rest => putBlocks (put32 b off x) (off + 4) rest

/-- The header block `buf` after `n` and `block[0..n)` are stored in it. -/
def headBlock (buf : Block) (lh : List UInt32) : Block :=
  putBlocks (put32 buf 0 (UInt32.ofNat lh.length)) 4 lh

/-- `lh->n` of a header block, a signed word. -/
def headCount (b : Block) : Int := (get32 b 0).toBitVec.toInt

/-- `lh->block[0..n)` of a header block. -/
def headBlocks (b : Block) : List UInt32 :=
  (List.range (headCount b).toNat).map fun i => get32 b (4 + 4 * i)

/-- Read the log header from disk into the in-memory log header. -/
def read_head (log : Log) (io : Io) : Log × Io :=
  let buf := bread io log.start
  ({ log with lh := headBlocks buf.1 },buf.2)

/-- Write in-memory log header to disk. -/
def write_head (log : Log) (io : Io) : Io :=
  let buf := bread io log.start
  bwrite buf.2 log.start (headBlock buf.1 log.lh)

def recover_from_log (log : Log) (io : Io) : Log × Io :=
  let head := read_head log io
  let installed := install_trans head.1 head.2
  let cleared := { head.1 with lh := [] }
  (cleared,write_head cleared installed)

def commit (log : Log) (io : Io) : Log × Io :=
  if 0 < log.lh.length then
    let logged := write_log log io
    let committed := write_head log logged
    let installed := install_trans log committed
    let cleared := { log with lh := [] }
    (cleared,write_head cleared installed)
  else (log,io)

/-! ### What a run of the code writes -/

/-- The step from `io` to `io'` issues exactly the writes `ws`. -/
structure Issues (io : Io) (ws : List (Nat × Block)) (io' : Io) : Prop where
  writes : io'.writes = io.writes ++ ws
  disk : io'.disk = applyAll ws io.disk
  seen : view io' = applyAll ws (view io)

theorem Issues.trans {a b c : Io} {ws vs : List (Nat × Block)} (first : Issues a ws b) (second : Issues b vs c) :
    Issues a (ws ++ vs) c where
  writes := by rw [second.writes,first.writes,List.append_assoc]
  disk := by rw [second.disk,first.disk,applyAll_append]
  seen := by rw [second.seen,first.seen,applyAll_append]

theorem bread_view (io : Io) (b : Nat) : (bread io b).1 = view io b := by
  unfold bread view
  cases io.cache b <;> rfl

theorem bread_issues (io : Io) (b : Nat) : Issues io [] (bread io b).2 := by
  unfold bread
  cases found : io.cache b with
  | some data => exact ⟨(List.append_nil _).symm,rfl,rfl⟩
  | none =>
    refine ⟨(List.append_nil _).symm,rfl,?_⟩
    funext c
    by_cases same : c = b
    · subst same; simp [view,found]
    · simp [view,update_of_ne same]

theorem bwrite_issues (io : Io) (b : Nat) (data : Block) : Issues io [(b,data)] (bwrite io b data) := by
  refine ⟨rfl,rfl,?_⟩
  funext c
  by_cases same : c = b
  · subst same; simp [view,bwrite,applyAll]
  · simp [view,bwrite,applyAll,update_of_ne same]

/-- The writes of `write_log`: slot `tail` of the log gets what the kernel sees of its block. -/
def slotWrites (start : Nat) (seen : Nat → Block) : Nat → List UInt32 → List (Nat × Block)
  | _, [] => []
  | tail, b :: rest => (start + tail + 1,seen b.toNat) :: slotWrites start seen (tail + 1) rest

/-- The writes of `install_trans`: each block gets its slot of the log. -/
def homeWrites (start : Nat) (seen : Nat → Block) : Nat → List UInt32 → List (Nat × Block)
  | _, [] => []
  | tail, b :: rest => (b.toNat,seen (start + tail + 1)) :: homeWrites start seen (tail + 1) rest

/-- No block of the list lies in the slots of the log from `tail` on. -/
def Apart (start tail : Nat) (bs : List UInt32) : Prop :=
  ∀ b ∈ bs, ∀ k, tail ≤ k → k < tail + bs.length → b.toNat ≠ start + k + 1

theorem Apart.tail {start tail : Nat} {b : UInt32} {rest : List UInt32} (apart : Apart start tail (b :: rest)) :
    Apart start (tail + 1) rest := by
  intro c member k low high
  exact apart c (List.mem_cons_of_mem _ member) k (by omega) (by simp only [List.length_cons]; omega)

variable {start : Nat}

theorem slotWrites_congr {seen seen' : Nat → Block} : ∀ {tail : Nat} {bs : List UInt32},
    (∀ b ∈ bs, seen b.toNat = seen' b.toNat) → slotWrites start seen tail bs = slotWrites start seen' tail bs
  | _, [], _ => rfl
  | _, b :: rest, same => by
    rw [slotWrites,slotWrites,same b List.mem_cons_self,
      slotWrites_congr fun c member => same c (List.mem_cons_of_mem _ member)]

theorem homeWrites_congr {seen seen' : Nat → Block} : ∀ {tail : Nat} {bs : List UInt32},
    (∀ k, tail ≤ k → k < tail + bs.length → seen (start + k + 1) = seen' (start + k + 1)) →
      homeWrites start seen tail bs = homeWrites start seen' tail bs
  | _, [], _ => rfl
  | tail, b :: rest, same => by
    have here := same tail (Nat.le_refl _) (by simp only [List.length_cons]; omega)
    rw [homeWrites,homeWrites,here,
      homeWrites_congr fun k low high => same k (by omega) (by simp only [List.length_cons]; omega)]

theorem write_log_from_issues (start : Nat) : ∀ (tail : Nat) (bs : List UInt32) (io : Io), Apart start tail bs →
    Issues io (slotWrites start (view io) tail bs) (write_log_from start tail bs io)
  | _, [], _, _ => ⟨(List.append_nil _).symm,rfl,rfl⟩
  | tail, b :: rest, io, apart => by
    have dst := bread_issues io (start + tail + 1)
    have src := bread_issues (bread io (start + tail + 1)).2 b.toNat
    have data : (bread (bread io (start + tail + 1)).2 b.toNat).1 = view io b.toNat := by
      rw [bread_view,dst.seen]; rfl
    have written := (dst.trans src).trans (bwrite_issues _ (start + tail + 1) (view io b.toNat))
    simp only [write_log_from,data]
    generalize bwrite (bread (bread io (start + tail + 1)).2 b.toNat).2 (start + tail + 1) (view io b.toNat) = next
      at written ⊢
    have more := write_log_from_issues start (tail + 1) rest next apart.tail
    -- the slot just written is no block of the rest, so these are still seen as before
    have same : ∀ c ∈ rest, view next c.toNat = view io c.toNat := by
      intro c member
      rw [written.seen]
      refine applyAll_other ?_ _
      intro w listed
      simp only [List.nil_append,List.mem_singleton] at listed
      subst listed
      exact (apart c (List.mem_cons_of_mem _ member) tail (Nat.le_refl _) (by simp)).symm
    rw [slotWrites_congr same] at more
    simpa [slotWrites] using written.trans more

theorem install_trans_from_issues (start : Nat) : ∀ (tail : Nat) (bs : List UInt32) (io : Io), Apart start tail bs →
    Issues io (homeWrites start (view io) tail bs) (install_trans_from start tail bs io)
  | _, [], _, _ => ⟨(List.append_nil _).symm,rfl,rfl⟩
  | tail, b :: rest, io, apart => by
    have lbuf := bread_issues io (start + tail + 1)
    have dbuf := bread_issues (bread io (start + tail + 1)).2 b.toNat
    have data : (bread io (start + tail + 1)).1 = view io (start + tail + 1) := bread_view _ _
    have written := (lbuf.trans dbuf).trans (bwrite_issues _ b.toNat (view io (start + tail + 1)))
    simp only [install_trans_from,data]
    generalize bwrite (bread (bread io (start + tail + 1)).2 b.toNat).2 b.toNat (view io (start + tail + 1)) = next
      at written ⊢
    have more := install_trans_from_issues start (tail + 1) rest next apart.tail
    -- the block just written is no slot of the rest
    have same : ∀ k, tail + 1 ≤ k → k < tail + 1 + rest.length → view next (start + k + 1) = view io (start + k + 1) := by
      intro k low high
      rw [written.seen]
      refine applyAll_other ?_ _
      intro w listed
      simp only [List.nil_append,List.mem_singleton] at listed
      subst listed
      exact apart b List.mem_cons_self k (by omega) (by simp only [List.length_cons]; omega)
    rw [homeWrites_congr same] at more
    simpa [homeWrites] using written.trans more

theorem write_head_issues (log : Log) (io : Io) :
    Issues io [(log.start,headBlock (view io log.start) log.lh)] (write_head log io) := by
  have read := bread_issues io log.start
  have all := read.trans (bwrite_issues _ log.start (headBlock (view io log.start) log.lh))
  simpa [write_head,bread_view] using all

/-! ### The header block -/

theorem get32_putBlocks_before {b : Block} {off at' : Nat} {bs : List UInt32} (before : at' + 4 ≤ off) :
    get32 (putBlocks b off bs) at' = get32 b at' := by
  induction bs generalizing b off with
  | nil => rfl
  | cons x rest ih => rw [putBlocks,ih (by omega),get32_put32_apart b (.inl before)]

theorem get32_putBlocks {b : Block} {off : Nat} {bs : List UInt32} (fits : off + 4 * bs.length ≤ BSIZE) {i : Nat}
    (inside : i < bs.length) : get32 (putBlocks b off bs) (off + 4 * i) = bs[i] := by
  induction bs generalizing b off i with
  | nil => cases inside
  | cons x rest ih =>
    simp only [List.length_cons] at fits inside
    cases i with
    | zero =>
      have before : get32 (putBlocks (put32 b off x) (off + 4) rest) off = get32 (put32 b off x) off :=
        get32_putBlocks_before (Nat.le_refl _)
      exact before.trans (get32_put32 b (by omega) x)
    | succ i =>
      have shift : off + 4 * (i + 1) = off + 4 + 4 * i := by omega
      rw [putBlocks,shift,ih (by omega) (by omega)]
      rfl

theorem headCount_headBlock (buf : Block) {lh : List UInt32} (room : lh.length ≤ LOGSIZE) :
    headCount (headBlock buf lh) = lh.length := by
  have small : lh.length ≤ 30 := room
  have stored : get32 (headBlock buf lh) 0 = UInt32.ofNat lh.length := by
    rw [headBlock,get32_putBlocks_before (by omega)]
    exact get32_put32 buf (by decide) _
  rw [headCount,stored]
  have value : (UInt32.ofNat lh.length).toBitVec = BitVec.ofNat 32 lh.length := rfl
  rw [value,BitVec.toInt_eq_toNat_of_lt]
  · simp only [BitVec.toNat_ofNat]; omega
  · simp only [BitVec.toNat_ofNat]; omega

theorem headBlocks_headBlock (buf : Block) {lh : List UInt32} (room : lh.length ≤ LOGSIZE) :
    headBlocks (headBlock buf lh) = lh := by
  have small : lh.length ≤ 30 := room
  have block : BSIZE = 512 := rfl
  rw [headBlocks,headCount_headBlock buf room]
  apply List.ext_getElem
  · simp
  · intro i inRange inside
    simp only [List.getElem_map,List.getElem_range]
    exact get32_putBlocks (by omega) inside

theorem headBlocks_clean {b : Block} (clean : headCount b = 0) : headBlocks b = [] := by
  simp [headBlocks,clean]

theorem headCount_cleared (buf : Block) : headCount (headBlock buf []) = 0 := headCount_headBlock buf (by decide)

/-! ### The writes of a commit and of a recovery -/

variable {seen : Nat → Block}

theorem slotWrites_range : ∀ {tail : Nat} {bs : List UInt32} {w : Nat × Block},
    w ∈ slotWrites start seen tail bs → start + tail + 1 ≤ w.1 ∧ w.1 < start + tail + 1 + bs.length
  | _, [], _, member => by cases member
  | tail, b :: rest, w, member => by
    rcases List.mem_cons.mp member with rfl | member
    · simp only [List.length_cons]; omega
    · have := slotWrites_range member
      simp only [List.length_cons]; omega

theorem slot_contents : ∀ {tail : Nat} {bs : List UInt32} {d : Disk} {i : Nat}
    (inside : i < bs.length),
    applyAll (slotWrites start seen tail bs) d (start + (tail + i) + 1) = seen (bs[i]).toNat
  | _, [], _, _, inside => by cases inside
  | tail, b :: rest, d, 0, _ => by
    rw [slotWrites,applyAll,applyAll_other]
    · simp
    · intro w member
      have := slotWrites_range member
      omega
  | tail, b :: rest, d, i + 1, inside => by
    have shift : start + (tail + (i + 1)) + 1 = start + (tail + 1 + i) + 1 := by omega
    rw [slotWrites,applyAll,shift,slot_contents (Nat.lt_of_succ_lt_succ inside)]
    rfl

/-- The transaction as a list of writes to the home blocks. -/
def transaction (lh : List UInt32) (new : Nat → Block) : List (Nat × Block) := lh.map fun b => (b.toNat,new b.toNat)

theorem homeWrites_eq {seen new : Nat → Block} : ∀ {tail : Nat} {bs : List UInt32},
    (∀ i (inside : i < bs.length), seen (start + (tail + i) + 1) = new (bs[i]).toNat) →
      homeWrites start seen tail bs = transaction bs new
  | _, [], _ => rfl
  | tail, b :: rest, slots => by
    have here := slots 0 (by simp)
    have later : homeWrites start seen (tail + 1) rest = transaction rest new := by
      refine homeWrites_eq fun i inside => ?_
      have := slots (i + 1) (by simpa using inside)
      rw [show tail + (i + 1) = tail + 1 + i by omega] at this
      simpa using this
    rw [homeWrites,later]
    simpa [transaction] using here

/-- A commit writes the log, the header, the home blocks and the cleared header. -/
theorem commit_issues {log : Log} (io : Io) (some : 0 < log.lh.length) (apart : Apart log.start 0 log.lh)
    (homes : ∀ b ∈ log.lh, b.toNat ≠ log.start) :
    Issues io (slotWrites log.start (view io) 0 log.lh ++ [(log.start,headBlock (view io log.start) log.lh)] ++
      (transaction log.lh (view io) ++ [(log.start,headBlock (headBlock (view io log.start) log.lh) [])]))
      (commit log io).2 := by
  have logged := write_log_from_issues log.start 0 log.lh io apart
  have head := write_head_issues log (write_log log io)
  have slotsHead : view (write_log log io) log.start = view io log.start := by
    rw [write_log,logged.seen,applyAll_other]
    intro w member
    have := slotWrites_range member
    omega
  rw [slotsHead] at head
  have committed := logged.trans head
  have installed := install_trans_from_issues log.start 0 log.lh (write_head log (write_log log io)) apart
  have slots : ∀ i (inside : i < log.lh.length),
      view (write_head log (write_log log io)) (log.start + (0 + i) + 1) = view io (log.lh[i]).toNat := by
    intro i inside
    rw [committed.seen,applyAll_append,applyAll_other,slot_contents inside]
    intro w member
    rw [List.mem_singleton] at member
    subst member
    simp only [ne_eq]
    omega
  rw [homeWrites_eq slots] at installed
  have cleared := write_head_issues { log with lh := [] } (install_trans log (write_head log (write_log log io)))
  have homesHead : view (install_trans log (write_head log (write_log log io))) log.start =
      headBlock (view io log.start) log.lh := by
    rw [install_trans,installed.seen,applyAll_other,committed.seen,applyAll_append]
    · simp [applyAll]
    · intro w member
      obtain ⟨b,listed,rfl⟩ := List.mem_map.mp member
      exact homes b listed
  simp only [homesHead] at cleared
  have all := committed.trans (installed.trans cleared)
  simpa only [commit,some,if_true] using all

theorem homeWrites_named {P : Nat → Prop} :
    ∀ {tail : Nat} {bs : List UInt32} {w : Nat × Block}, w ∈ homeWrites start seen tail bs →
      (∀ b ∈ bs, P b.toNat) → P w.1
  | _, [], _, member, _ => by cases member
  | tail, b :: rest, w, member, all => by
    rcases List.mem_cons.mp member with rfl | member
    · exact all b List.mem_cons_self
    · exact homeWrites_named member fun c listed => all c (List.mem_cons_of_mem _ listed)

/-- The machine after a restart: no buffer holds a block. -/
def reboot (d : Disk) : Io := ⟨d,fun _ => none,[]⟩

theorem reboot_view (d : Disk) : view (reboot d) = d := rfl
theorem reboot_disk (d : Disk) : (reboot d).disk = d := rfl
theorem reboot_writes (d : Disk) : (reboot d).writes = [] := rfl

theorem recover_issues (log : Log) (d : Disk) (apart : Apart log.start 0 (headBlocks (d log.start)))
    (homes : ∀ b ∈ headBlocks (d log.start), b.toNat ≠ log.start) :
    Issues (reboot d) (homeWrites log.start d 0 (headBlocks (d log.start)) ++
      [(log.start,headBlock (d log.start) [])]) (recover_from_log log (reboot d)).2 := by
  have read := bread_issues (reboot d) log.start
  have found : headBlocks (bread (reboot d) log.start).1 = headBlocks (d log.start) := by
    rw [bread_view,reboot_view]
  have installed := install_trans_from_issues log.start 0 (headBlocks (d log.start)) (bread (reboot d) log.start).2 apart
  have same : view (bread (reboot d) log.start).2 = d := read.seen
  rw [same] at installed
  have cleared := write_head_issues { log with lh := [] }
    (install_trans_from log.start 0 (headBlocks (d log.start)) (bread (reboot d) log.start).2)
  have head : view (install_trans_from log.start 0 (headBlocks (d log.start)) (bread (reboot d) log.start).2)
      log.start = d log.start := by
    rw [installed.seen,same,applyAll_other]
    intro w member
    exact homeWrites_named (P := (· ≠ log.start)) member homes
  simp only [head] at cleared
  have all := read.trans (installed.trans cleared)
  simpa only [recover_from_log,read_head,install_trans,found,List.nil_append] using all

end Xv6.LogCommit
