import Xv6.LogCommit
import Xv6.LogSleep
import Xv6.Lib.Ring

/-!
The buffer cache of `bio.c` over the memory disk of `memide.c`, with the callers it has in
`log.c`. Any number of processes read, modify, log, write and release blocks of the one
device `ROOTDEV`; the process whose `end_op` is the last runs the code of `commit`, and one
may recover the log. A step is a critical section of `bcache.lock` or of `log.lock`, taking
or releasing a buffer's sleep-lock, or what the holder of that sleep-lock does with the
buffer. A step is labelled with what it did, and a run is its history, the newest step first.
-/
namespace Xv6.Bio
open Function Xv6.Lib
open Xv6.LogOps (absorb)
open Xv6.LogCommit (headBlock headBlocks)
open Xv6.LogSleep (Log)

/-- size of disk block cache -/
def NBUF : Nat := MAXOPBLOCKS * 3

/-- `struct buf`. The sleep-lock is the process that has it; the flags are `B_VALID` and `B_DIRTY`. -/
structure Buf (ι : Type) where
  valid : Bool
  dirty : Bool
  dev : Nat
  blockno : Nat
  refcnt : Nat
  lock : Option ι
  data : Block

/-- The buffers and the fields `next` and `prev` of the buffers and of `bcache.head`. -/
structure Bcache (ι : Type) where
  buf : Fin NBUF → Buf ι
  links : Links (Fin NBUF)

variable {ι : Type}

def Bcache.set (c : Bcache ι) (i : Fin NBUF) (v : Buf ι) : Bcache ι := { c with buf := update c.buf i v }

/-- Create linked list of buffers. -/
def binit : Bcache ι where
  buf _ := ⟨false,false,0,0,0,none,fun _ => 0⟩
  links := (List.finRange NBUF).foldl Links.insert Links.empty

/-- Is the block already cached? -/
def cached (c : Bcache ι) (dev blockno : Nat) (i : Fin NBUF) : Bool :=
  (c.buf i).dev == dev && (c.buf i).blockno == blockno

/-- Even if `refcnt == 0`, `B_DIRTY` indicates a buffer is in use. -/
def unused (c : Bcache ι) (i : Fin NBUF) : Bool := (c.buf i).refcnt == 0 && !(c.buf i).dirty

/-- The section of `bcache.lock` in `bget`: the buffer and the cache, or the panic. There is no result when a
    loop over the list does not end. -/
def bget (c : Bcache ι) (dev blockno : Nat) : Option (Except String (Fin NBUF × Bcache ι)) :=
  match Links.scan c.links.next (cached c dev blockno) (NBUF + 1) (c.links.next none) with
  | none => none
  | some (some i) => some (.ok (i,c.set i { c.buf i with refcnt := (c.buf i).refcnt + 1 }))
  | some none =>
    -- Not cached; recycle an unused buffer.
    match Links.scan c.links.prev (unused c) (NBUF + 1) (c.links.prev none) with
    | none => none
    | some (some i) =>
      some (.ok (i,c.set i { c.buf i with dev := dev, blockno := blockno, valid := false, dirty := false, refcnt := 1 }))
    | some none => some (.error "bget: no buffers")

/-- Sync buf with disk. -/
def iderw (b : Buf ι) (memdisk : Disk) (disksize : Nat) : Except String (Buf ι × Disk) :=
  if b.lock.isNone then .error "iderw: buf not locked"
  else if b.valid && !b.dirty then .error "iderw: nothing to do"
  else if b.dev ≠ 1 then .error "iderw: request not for disk 1"
  else if b.blockno ≥ disksize then .error "iderw: block out of range"
  else if b.dirty then .ok ({ b with dirty := false, valid := true },update memdisk b.blockno b.data)
  else .ok ({ b with data := memdisk b.blockno, valid := true },memdisk)

/-- The section of `bcache.lock` in `brelse`: move to the head of the MRU list when no one is waiting for it. -/
def putBack (c : Bcache ι) (i : Fin NBUF) : Bcache ι :=
  let c := c.set i { c.buf i with refcnt := (c.buf i).refcnt - 1 }
  if (c.buf i).refcnt = 0 then { c with links := (c.links.unlink i).insert i } else c

/-- Where a process is in `bread` or `brelse`. -/
inductive Call where
  | out
  /-- `bget` of block `b` has chosen the buffer and is in `acquiresleep` -/
  | wants (b : Nat) (i : Fin NBUF)
  /-- `bget` of block `b` has returned the buffer -/
  | got (b : Nat) (i : Fin NBUF)
  /-- `brelse`, after `releasesleep` -/
  | drops (i : Fin NBUF)
  deriving DecidableEq

/-- The buffers that `bread` has returned to a process, the last one first. -/
structure Place where
  held : List (Fin NBUF)
  call : Call
  deriving DecidableEq

/-- The cache, the disk, and what the processes do with buffers. -/
structure Io (ι : Type) where
  bcache : Bcache ι
  memdisk : Disk
  disksize : Nat
  place : ι → Place

def Io.buf (io : Io ι) (i : Fin NBUF) : Buf ι := io.bcache.buf i
def Io.set (io : Io ι) (i : Fin NBUF) (v : Buf ι) : Io ι := { io with bcache := io.bcache.set i v }

/-- What processes have to do. A process names a buffer by its position among those it holds. -/
inductive Cmd where
  | begin_op
  | end_op
  | bread (b : Nat)
  /-- in-place modification -/
  | put (k : Nat) (data : Block)
  | log_write (k : Nat)
  | bwrite (k : Nat)
  | brelse (k : Nat)
  | recover_from_log
  /-- `log_write`, with its tests passed -/
  | logging (k : Nat)
  | commit
  /-- the loop of `write_log` -/
  | write_log (tail : Nat)
  | write_head
  /-- the loop of `install_trans` -/
  | install_trans (tail : Nat)
  /-- the `bwrite` of `install_trans` -/
  | install (k : Nat)
  /-- `memmove(dst->data, src->data, BSIZE)` -/
  | copy (dst src : Nat)
  /-- store the header in the buffer returned last -/
  | putHead
  /-- load the header from it -/
  | getHead
  /-- `log.lh.n = 0` -/
  | clear
  /-- `log.committing = 0` -/
  | committed

/-- The calls that a process makes on its own. -/
def Cmd.Client : Cmd → Prop
  | .begin_op | .end_op | .bread _ | .put _ _ | .log_write _ | .bwrite _ | .brelse _ | .recover_from_log => True
  | _ => False

/-- What a step did. -/
inductive Label (ι : Type) where
  | tau
  | panic
  /-- the call `bread` of block `b` returned a buffer with these bytes -/
  | bread (p : ι) (b : Nat) (data : Block)
  /-- the process put these bytes into its buffer `i` of block `b` -/
  | put (p : ι) (i : Fin NBUF) (b : Nat) (data : Block)
  /-- `log_write` marked buffer `i` of block `b` -/
  | log_write (p : ι) (i : Fin NBUF) (b : Nat)
  | bwrite (p : ι) (i : Fin NBUF)
  /-- `install_trans` wrote the buffer -/
  | install_trans (p : ι) (i : Fin NBUF)
  | brelse (p : ι) (i : Fin NBUF)

/-- The kernel: the buffers, `struct log`, and what each process still has to do. -/
structure State (ι : Type) where
  io : Io ι
  start : Nat
  log : Log
  todo : ι → List Cmd
  panic : Option String

variable [DecidableEq ι]

def Io.move (io : Io ι) (p : ι) (place : Place) : Io ι := { io with place := update io.place p place }

/-- A step of a process inside `bread` or `brelse`. A process that finds the sleep-lock taken sleeps. -/
def inside (io : Io ι) (p : ι) : Option (Except String (Label ι × Io ι)) :=
  let here := io.place p
  match here.call with
  | .out => none
  | .wants b i =>
    if (io.buf i).lock.isSome then none
    else some (.ok (.tau,(io.set i { io.buf i with lock := some p }).move p { here with call := .got b i }))
  | .got b i =>
    let returns (buf : Buf ι) (memdisk : Disk) : Except String (Label ι × Io ι) :=
      .ok (.bread p b buf.data,({ io with memdisk := memdisk }.set i buf).move p ⟨i :: here.held,.out⟩)
    if (io.buf i).valid then some (returns (io.buf i) io.memdisk)
    else
      match iderw (io.buf i) io.memdisk io.disksize with
      | .error why => some (.error why)
      | .ok (buf,memdisk) => some (returns buf memdisk)
  | .drops i => some (.ok (.tau,{ io with bcache := putBack io.bcache i }.move p { here with call := .out }))

/-- The next command of a process is done, and has left it these. -/
def State.go (s : State ι) (p : ι) (rest : List Cmd) : State ι := { s with todo := update s.todo p rest }

def State.fail (s : State ι) (why : String) : Label ι × State ι := (.panic,{ s with panic := some why })

/-- Write b's contents to disk. Must be locked. -/
def bwrite (s : State ι) (p : ι) (i : Fin NBUF) (rest : List Cmd) (label : Label ι) : Label ι × State ι :=
  if (s.io.buf i).lock.isNone then s.fail "bwrite"
  else
    let b := { s.io.buf i with dirty := true }
    match iderw b s.io.memdisk s.io.disksize with
    | .error why => { s with io := s.io.set i b }.fail why
    | .ok (b,memdisk) => (label,{ s with io := { s.io with memdisk := memdisk }.set i b }.go p rest)

/-- The next command of process `p`, which is in no call. -/
def exec (s : State ι) (p : ι) (rest : List Cmd) (cmd : Cmd) : Option (Label ι × State ι) :=
  let here := s.io.place p
  match cmd with
  | .bread b =>
    match bget s.io.bcache ROOTDEV b with
    | none => none
    | some (.error why) => some (s.fail why)
    | some (.ok (i,c)) =>
      some (.tau,{ s with io := { s.io with bcache := c }.move p { here with call := .wants b i } }.go p rest)
  | .put k data => do
    let i ← here.held[k]?
    let b := s.io.buf i
    return (.put p i b.blockno data,{ s with io := s.io.set i { b with data := data } }.go p rest)
  | .log_write k =>
    if s.log.lh.length ≥ LOGSIZE ∨ s.log.lh.length ≥ s.log.size - 1 then some (s.fail "too big a transaction")
    else if s.log.outstanding < 1 then some (s.fail "log_write outside of trans")
    else some (.tau,s.go p (.logging k :: rest))
  | .logging k => do
    let i ← here.held[k]?
    let b := s.io.buf i
    return (.log_write p i b.blockno,
      { s with log := { s.log with lh := absorb s.log.lh b.blockno }, io := s.io.set i { b with dirty := true } }.go p rest)
  | .bwrite k => do
    let i ← here.held[k]?
    return bwrite s p i rest (.bwrite p i)
  | .install k => do
    let i ← here.held[k]?
    return bwrite s p i rest (.install_trans p i)
  | .brelse k => do
    let i ← here.held[k]?
    let b := s.io.buf i
    return if b.lock.isNone then s.fail "brelse" else
      (.brelse p i,{ s with io := (s.io.set i { b with lock := none }).move p ⟨here.held.eraseIdx k,.drops i⟩ }.go p rest)
  | .copy dst src => do
    let i ← here.held[dst]?
    let j ← here.held[src]?
    let b := s.io.buf i
    let data := (s.io.buf j).data
    return (.put p i b.blockno data,{ s with io := s.io.set i { b with data := data } }.go p rest)
  | .putHead => do
    let i ← here.held[0]?
    let b := s.io.buf i
    let data := headBlock b.data (s.log.lh.map UInt32.ofNat)
    return (.put p i b.blockno data,{ s with io := s.io.set i { b with data := data } }.go p rest)
  | .getHead => do
    let i ← here.held[0]?
    let lh := (headBlocks (s.io.buf i).data).map UInt32.toNat
    return (.tau,{ s with log := { s.log with lh := lh } }.go p rest)
  | .begin_op =>
    if s.log.Busy then none
    else some (.tau,{ s with log := { s.log with outstanding := s.log.outstanding + 1 } }.go p rest)
  | .end_op =>
    let log := { s.log with outstanding := s.log.outstanding - 1 }
    if log.committing then some ({ s with log := log }.fail "log.committing")
    else if log.outstanding = 0 then
      some (.tau,{ s with log := { log with committing := true } }.go p (.commit :: .committed :: rest))
    else some (.tau,{ s with log := log }.go p rest)
  | .commit =>
    if 0 < s.log.lh.length then
      some (.tau,s.go p (.write_log 0 :: .write_head :: .install_trans 0 :: .clear :: .write_head :: rest))
    else some (.tau,s.go p rest)
  | .committed => some (.tau,{ s with log := { s.log with committing := false } }.go p rest)
  | .clear => some (.tau,{ s with log := { s.log with lh := [] } }.go p rest)
  | .write_log tail =>
    match s.log.lh[tail]? with
    | none => some (.tau,s.go p rest)
    | some b =>
      some (.tau,s.go p (.bread (s.start + tail + 1) :: .bread b :: .copy 1 0 :: .bwrite 1 ::
        .brelse 0 :: .brelse 0 :: .write_log (tail + 1) :: rest))
  | .install_trans tail =>
    match s.log.lh[tail]? with
    | none => some (.tau,s.go p rest)
    | some b =>
      some (.tau,s.go p (.bread (s.start + tail + 1) :: .bread b :: .copy 0 1 :: .install 0 ::
        .brelse 1 :: .brelse 0 :: .install_trans (tail + 1) :: rest))
  | .write_head => some (.tau,s.go p (.bread s.start :: .putHead :: .bwrite 0 :: .brelse 0 :: rest))
  | .recover_from_log =>
    some (.tau,s.go p (.bread s.start :: .getHead :: .brelse 0 :: .install_trans 0 :: .clear :: .write_head :: rest))

/-- The next step of process `p`. -/
def next (s : State ι) (p : ι) : Option (Label ι × State ι) :=
  if s.panic.isSome then none else
  match (s.io.place p).call,s.todo p with
  | .out,[] => none
  | .out,cmd :: rest => exec s p rest cmd
  | _,_ =>
    match inside s.io p with
    | none => none
    | some (.error why) => some (s.fail why)
    | some (.ok (label,io)) => some (label,{ s with io := io })

/-- A process makes a call, or goes on in what it does. -/
inductive Step (s : State ι) : Label ι → State ι → Prop where
  | call {p : ι} {cmd : Cmd} (alive : s.panic = none) (free : s.todo p = []) (out : (s.io.place p).call = .out)
    (client : cmd.Client) : Step s .tau (s.go p [cmd])
  | next {p : ι} {label : Label ι} {s' : State ι} (next : next s p = some (label,s')) : Step s label s'

/-- The runs of the kernel, with their histories. -/
inductive Run (s₀ : State ι) : List (Label ι) → State ι → Prop where
  | start : Run s₀ [] s₀
  | step {labels : List (Label ι)} {s s' : State ι} {label : Label ι} (run : Run s₀ labels s) (step : Step s label s') :
    Run s₀ (label :: labels) s'

omit [DecidableEq ι] in
/-- After `binit` and `ideinit`: nothing is cached and the log is empty. -/
def boot (memdisk : Disk) (disksize start : Nat) (size : Int) : State ι where
  io := ⟨binit,memdisk,disksize,fun _ => ⟨[],.out⟩⟩
  start := start
  log := ⟨size,0,false,[]⟩
  todo _ := []
  panic := none

end Xv6.Bio
