import Xv6.Calls

/-!
The calls of `proc.c` and `exec.c` that touch files, all the system calls as one type, and the kernel as a machine
that runs them.
-/
namespace Xv6
open Xv6.Lib Prog Function

/-! ### `proc.c` -/

def setState (p : Pid) (state : ProcState) (t : Tables) : Tables :=
  t.setProc p { t.proc p with state := state }

/-- `allocproc`: an unused process, if there is one and its kernel stack can be allocated. -/
def allocproc (kstack : Bool) (t : Tables) : Except String (Option Pid × Tables) :=
  match (List.finRange NPROC).find? fun p => (t.proc p).state = .UNUSED with
  | none => .ok (none,t)
  | some p => if kstack then .ok (some p,setState p .EMBRYO t) else .ok (none,setState p .UNUSED t)

/-- The loop of `fork` over the open files, from the descriptors that are left. -/
def fork_files (p np : Pid) : List (Fin NOFILE) → Tables → Except String (Unit × Tables)
  | [],t => .ok ((),t)
  | fd :: fds,t => match (t.proc p).ofile fd with
    | none => fork_files p np fds t
    | some f => do
      let ((),t) ← filedup f t
      fork_files p np fds (setOfile np fd (some f) t)

/-- `np->cwd = idup(curproc->cwd)` has been called; the child becomes runnable. -/
def fork_start (p np : Pid) (cwd : Slot) (t : Tables) : Except String (Unit × Tables) :=
  .ok ((),t.setProc np { t.proc np with cwd := some cwd, parent := some p, state := .RUNNABLE })

/-- Create a new process copying `p`. The arguments say whether its kernel stack
    and its memory can be allocated. -/
def fork (p : Pid) (kstack memory : Bool) : Call Int := do
  let np ← call (.tables (allocproc kstack))
  match np with
  | none => return -1
  | some np =>
    if memory = false then
      call (.tables fun t => .ok ((),setState np .UNUSED t))
      return -1
    else
      call (.tables (fork_files p np (List.finRange NOFILE)))
      let cwd ← cwdOf p
      call (.idup cwd)
      call (.tables (fork_start p np cwd))
      return np.val

/-- The loop of `exit` over the open files. -/
def exit_files (p : Pid) : List (Fin NOFILE) → Call Unit
  | [] => ret ()
  | fd :: fds => do
    let open' ← call (.tables fun t => .ok ((t.proc p).ofile fd,t))
    match open' with
    | none => exit_files p fds
    | some f =>
      fileclose f
      call (.tables fun t => .ok ((),setOfile p fd none t))
      exit_files p fds

/-- A child of `p` that is passed to `initproc`. -/
def reparent (p initproc : Pid) (q : Proc) : Proc := if q.parent = some p then { q with parent := some initproc } else q

/-- Pass abandoned children to init, and become a zombie. -/
def exit_zombie (p : Pid) (t : Tables) : Except String (Unit × Tables) :=
  .ok ((),setState p .ZOMBIE { t with proc := fun q => reparent p t.initproc (t.proc q) })

/-- Exit the current process. -/
def exit (p : Pid) : Call Int := do
  let initproc ← call (.tables fun t => .ok (t.initproc,t))
  if p = initproc then fail "init exiting"
  else
    exit_files p (List.finRange NOFILE)
    let cwd ← cwdOf p
    iput cwd
    call (.tables (setCwd p none))
    call (.tables (exit_zombie p))
    return 0

/-- The zombie child that `wait` finds. -/
def zombie (p : Pid) (t : Tables) : Option Pid :=
  (List.finRange NPROC).find? fun q => (t.proc q).parent = some p ∧ (t.proc q).state = .ZOMBIE

def havekids (p : Pid) (t : Tables) : Bool := (List.finRange NPROC).any fun q => (t.proc q).parent = some p

/-- The scan of `wait`, when it does not go to sleep. -/
def wait_scan (p : Pid) (t : Tables) : Except String (Int × Tables) :=
  match zombie p t with
  | some q => .ok (q.val,t.setProc q { t.proc q with parent := none, state := .UNUSED })
  | none => .ok (-1,t)

/-- Wait for a child process to exit. -/
def wait (p : Pid) : Call Int := do
  await .child
  call (.tables (wait_scan p))

/-! ### `exec.c` -/

/-- The `w`-byte number at an offset of bytes in memory. -/
def word (bytes : List UInt8) (off w : Nat) : Nat := leNat (fun k => bytes.getD (off + k) 0) w

/-- The loop of `loaduvm` over the pages of a segment. -/
def loaduvm (ip : Slot) : Nat → Nat → Nat → Call Bool
  | 0,_,_ => ret true
  | fuel + 1,off,sz =>
    if sz = 0 then ret true
    else do
      let n := min sz 4096
      let bytes ← call (.readi ip (off % 2 ^ 32) n)
      if (bytes.getD []).length ≠ n then return false else loaduvm ip fuel (off + 4096) (sz - n)

/-- The loop of `exec` over the program headers; `allocuvm` succeeds for segment `i` if `memory i`. -/
def exec_load (ip : Slot) (memory : Nat → Bool) (phoff : Nat) : Nat → Nat → Call Bool
  | 0,_ => ret true
  | left + 1,i => do
    let ph ← call (.readi ip ((phoff + 32 * i) % 2 ^ 32) 32)
    let ph := ph.getD []
    if ph.length ≠ 32 then return false
    else if word ph 0 4 ≠ 1 then exec_load ip memory phoff left (i + 1)
    else if word ph 20 4 < word ph 16 4 ∨ (word ph 8 4 + word ph 20 4) % 2 ^ 32 < word ph 8 4 ∨ memory i = false ∨
      word ph 8 4 % 4096 ≠ 0 then return false
    else
      let loaded ← loaduvm ip (word ph 16 4) (word ph 4 4) (word ph 16 4)
      if loaded then exec_load ip memory phoff left (i + 1) else return false

/-- The image that `exec` builds while it holds the file. -/
def exec_image (ip : Slot) (pgdir : Bool) (memory : Nat → Bool) : Call Bool := do
  let elf ← call (.readi ip 0 52)
  let elf := elf.getD []
  if elf.length ≠ 52 ∨ word elf 0 4 ≠ 0x464C457F ∨ pgdir = false then return false
  else exec_load ip memory (word elf 28 4) (word elf 44 2) 0

/-- Replace the image of the process. The answers of the memory allocator are
    `pgdir` for `setupkvm`, `memory` for the segments and `stack` for the rest. -/
def sys_exec (p : Pid) (path : Arg) (pgdir : Bool) (memory : Nat → Bool) (stack : Bool) : Call Int :=
  match argstr path with
  | none => ret (-1)
  | some path => do
    let found ← namei p path
    match found with
    | none => return -1
    | some ip =>
      ilock ip
      let loaded ← exec_image ip pgdir memory
      iunlockput ip
      return if loaded ∧ stack then 0 else -1

/-! ### The system calls -/

inductive SysCall where
  | «open» (path : Arg) (omode : Nat)
  | close (fd : Int)
  | dup (fd : Int)
  | read (fd : Int) (n : Nat) (piped : Int)
  | write (fd : Int) (src : List UInt8) (piped : Int)
  | link (old new : Arg)
  | unlink (path : Arg)
  | mkdir (path : Arg)
  | mknod (path : Arg) (major minor : UInt16)
  | chdir (path : Arg)
  | exec (path : Arg) (pgdir : Bool) (memory : Nat → Bool) (stack : Bool)
  | fork (kstack memory : Bool)
  | exit
  | wait

/-- The program of a system call made by a process. -/
def SysCall.prog (p : Pid) : SysCall → Call Int
  | .open path omode => sys_open p path omode
  | .close fd => sys_close p fd
  | .dup fd => sys_dup p fd
  | .read fd n piped => sys_read p fd n piped
  | .write fd src piped => sys_write p fd src piped
  | .link old new => sys_link p old new
  | .unlink path => sys_unlink p path
  | .mkdir path => sys_mkdir p path
  | .mknod path major minor => sys_mknod p path major minor
  | .chdir path => sys_chdir p path
  | .exec path pgdir memory stack => sys_exec p path pgdir memory stack
  | .fork kstack memory => Xv6.fork p kstack memory
  | .exit => Xv6.exit p
  | .wait => Xv6.wait p

/-! ### The kernel -/

/-- Code without lock operations as a step of a machine. -/
def M.step {β : Type} (m : M β) (s : State) : Except (Stop Wait) (β × State) :=
  match m s with
  | .ok done => .ok done
  | .error why => .error (.panic why)

/-- What the kernel does for the operations of process `p`. -/
def kernelStep (p : Pid) : {β : Type} → Op β → M β
  | _,.iget dev inum => iget dev inum
  | _,.idup ip => idup ip
  | _,.ref ip => do return ((← get).icache ip).ref
  | _,.unref ip => modifyInode ip fun i => { i with ref := i.ref - 1 }
  | _,.dev ip => do return ((← get).icache ip).dev
  | _,.inum ip => do return ((← get).icache ip).inum
  | _,.holdingsleep ip => do return ((← get).icache ip).lock.isSome
  | _,.lock ip => modifyInode ip fun i => { i with lock := some p }
  | _,.unlock ip => modifyInode ip fun i => { i with lock := none }
  | _,.valid ip => do return ((← get).icache ip).valid
  | _,.iload ip => iload ip
  | _,.attr ip => do return ((← get).icache ip).node.toAttr
  | _,.isetattr ip major minor nlink => isetattr ip major minor nlink
  | _,.ialloc type => ialloc_inum type
  | _,.ifree ip => ifree ip
  | _,.readi ip off n => readi ip off n
  | _,.writei ip src off => writei ip src off
  | _,.tables f => fun s => do
    let (b,t) ← f s.tables
    return (b,{ s with tables := t })

/-- Can process `p` go on? A lock must be free; `wait` needs a zombie, or no children. -/
def mayRun (p : Pid) (lock : Slot → Option Pid) (t : Tables) : Wait → Bool
  | .ilock ip => (lock ip).isNone
  | .iput ip => (lock ip).isNone
  | .resume => true
  | .child => (zombie p t).isSome || !havekids p t

/-- The kernel, for the calls of process `p`. -/
def kernel (p : Pid) : Machine Op Wait State where
  step o s := M.step (kernelStep p o) s
  free w s := mayRun p (fun ip => (s.icache ip).lock) s.tables w

/-- The on-disk inode of zeros. -/
def Dinode.zero : Dinode := ⟨⟨0,0,0,0,0⟩,fun _ => 0⟩

/-- The tables when the first process starts: `userinit` has set its `cwd` to `namei("/")`. -/
def bootTables : Tables where
  file _ := ⟨.FD_NONE,0,false,false,0,0,0⟩
  proc p := if p = 0 then ⟨.RUNNABLE,none,fun _ => none,some 0⟩ else ⟨.UNUSED,none,fun _ => none,none⟩
  initproc := 0
  pipe _ := none

/-- The kernel that has booted on a disk: the root is the only inode in the cache, and not read yet. -/
def boot (disk : Disk) (devsw : Fin NDEV → Driver) : State where
  sb := superblockAt (disk 1)
  disk := disk
  icache ip := if ip = 0 then ⟨ROOTDEV,ROOTINO,1,none,false,.zero⟩ else ⟨0,0,0,none,false,.zero⟩
  tables := bootTables
  devsw := devsw

/-- Complete calls one after the other, by processes that can run. -/
inductive Calls : State → State → Prop where
  | refl (s : State) : Calls s s
  | step {s t u : State} {p : Pid} {c : SysCall} {r : Int} (before : Calls s t)
    (runnable : (t.tables.proc p).state = .RUNNABLE) (ran : Lib.exec (kernel p) (c.prog p) t = .ok (r,u)) : Calls s u

end Xv6
