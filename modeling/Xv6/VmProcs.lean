import Xv6.Vm
import Xv6.FileRefs

/-!
The processes and their memory: `fork`, `exec` and `sbrk`, each call from its beginning to its
end, and the first process. What `exec` reads of the file is given to it.
-/
namespace Xv6.Vm
open Xv6 Xv6.Lib Xv6.FileRefs Function

/-- `kstack`, `pgdir` and `sz` of `struct proc`; no page is number 0. -/
structure Space where
  kstack : Nat
  pgdir : Nat
  sz : Nat

/-- The memory, the tables of processes and files, and the kernel's own page directory. -/
structure Sys where
  vm : Mach
  tables : Tables
  space : Pid → Space
  kpgdir : Nat

abbrev SysM := StateT Sys (Except String)

/-- Code that only uses memory. -/
def onVm {α : Type} (x : VM α) : SysM α := fun s =>
  match x s.vm with
  | .ok (a,m) => .ok (a,{ s with vm := m })
  | .error why => .error why

/-- Code that only uses the tables. -/
def onTables {α : Type} (f : Tables → Except String (α × Tables)) : SysM α := fun s =>
  match f s.tables with
  | .ok (a,t) => .ok (a,{ s with tables := t })
  | .error why => .error why

def modifyProc (p : Pid) (f : Proc → Proc) : SysM Unit :=
  modify fun s => { s with tables := s.tables.setProc p (f (s.tables.proc p)) }

def modifySpace (p : Pid) (f : Space → Space) : SysM Unit :=
  modify fun s => { s with space := update s.space p (f (s.space p)) }

/-! ### `proc.c` -/

/-- Look in the process table for an UNUSED proc, and give it a kernel stack. -/
def allocproc : SysM (Option Pid) := do
  let s ← get
  match (List.finRange NPROC).find? fun p => (s.tables.proc p).state = .UNUSED with
  | none => return none
  | some p =>
    modifyProc p fun q => { q with state := .EMBRYO }
    match ← onVm kalloc with
    | none =>
      modifySpace p fun v => { v with kstack := 0 }
      modifyProc p fun q => { q with state := .UNUSED }
      return none
    | some page =>
      modifySpace p fun v => { v with kstack := page }
      return some p

/-- Create a new process copying `p` as the parent. -/
def fork (k : Link) (p : Pid) : SysM Int := do
  match ← allocproc with
  | none => return -1
  | some np =>
    let s ← get
    match ← onVm (copyuvm k (s.space p).pgdir (s.space p).sz) with
    | none =>
      onVm (kfree k (s.space np).kstack)
      modifySpace np fun v => { v with kstack := 0, pgdir := 0 }
      modifyProc np fun q => { q with state := .UNUSED }
      return -1
    | some d =>
      modifySpace np fun v => { v with pgdir := d, sz := (s.space p).sz }
      onTables (fork_files p np (List.finRange NOFILE))
      modifyProc np fun q => { q with parent := some p, state := .RUNNABLE }
      return np.val

/-- Grow current process's memory by `n` bytes. -/
def growproc (k : Link) (p : Pid) (n : Int) : SysM Int := do
  let s ← get
  let sz := (s.space p).sz
  let newsz := ((sz + n) % 2 ^ 32).toNat
  if n > 0 then
    let sz ← onVm (allocuvm k (s.space p).pgdir sz newsz)
    if sz = 0 then return -1
    else
      modifySpace p fun v => { v with sz := sz }
      return 0
  else if n < 0 then
    let sz ← onVm (deallocuvm k (s.space p).pgdir sz newsz)
    if sz = 0 then return -1
    else
      modifySpace p fun v => { v with sz := sz }
      return 0
  else return 0

/-! ### `exec.c` -/

/-- A program header as `exec` reads it. -/
inductive Header where
  /-- `readi` fails -/
  | unreadable
  /-- `ph.type != ELF_PROG_LOAD` -/
  | other
  | load (vaddr memsz filesz : UInt32) (file : Chunks)

def MAXARG : Nat := 32

/-- Load program into memory; the size, or `none` for `goto bad`. -/
def exec_load (k : Link) (pgdir : Nat) : List Header → Nat → VM (Option Nat)
  | [],sz => return some sz
  | .unreadable :: _,_ => return none
  | .other :: rest,sz => exec_load k pgdir rest sz
  | .load vaddr memsz filesz file :: rest,sz =>
    if memsz < filesz then return none
    else if vaddr + memsz < vaddr then return none
    else do
      let sz ← allocuvm k pgdir sz (vaddr + memsz).toNat
      if sz = 0 then return none
      else if vaddr.toNat % PGSIZE ≠ 0 then return none
      else if ← loaduvm pgdir vaddr.toNat filesz.toNat file then exec_load k pgdir rest sz
      else return none

/-- Push argument strings: the new stack pointer and those of the strings pushed, the last first. -/
def exec_args (k : Link) (null : Null) (pgdir : Nat) : List (List UInt8) → Nat → List Nat → VM (Option (Nat × List Nat))
  | [],sp,ustack => return some (sp,ustack)
  | arg :: rest,sp,ustack =>
    if ustack.length ≥ MAXARG then return none
    else do
      let sp := (sp + 2 ^ 32 - (arg.length + 1)) % 2 ^ 32 / 4 * 4
      if ← copyout k null pgdir (arg.length + 2) sp (arg ++ [0]) then exec_args k null pgdir rest sp (sp :: ustack)
      else return none

/-- The bytes of `ustack[0..3+argc+1)`. -/
def ustackBytes (sp : Nat) (ustack : List Nat) : List UInt8 :=
  let argc := ustack.length
  let words := [2 ^ 32 - 1,argc,(sp + 2 ^ 32 - (argc + 1) * 4) % 2 ^ 32] ++ ustack.reverse ++ [0]
  words.flatMap fun w => (List.range 4).map (leByte w)

/-- The new image in `pgdir`: its size, or `none` for `goto bad`. -/
def exec_image (k : Link) (null : Null) (pgdir : Nat) (headers : List Header) (args : List (List UInt8)) : VM (Option Nat) := do
  match ← exec_load k pgdir headers 0 with
  | none => return none
  | some sz =>
    -- Allocate two pages at the next page boundary. Make the first inaccessible.
    let sz := PGROUNDUP sz * PGSIZE
    let sz ← allocuvm k pgdir sz ((sz + 2 * PGSIZE) % 2 ^ 32)
    if sz = 0 then return none
    else
      clearpteu pgdir ((sz - 2 * PGSIZE) / PGSIZE)
      match ← exec_args k null pgdir args sz [] with
      | none => return none
      | some (sp,ustack) =>
        let bytes := ustackBytes sp ustack
        if ← copyout k null pgdir (bytes.length + 1) ((sp + 2 ^ 32 - bytes.length) % 2 ^ 32) bytes then return some sz
        else return none

/-- Replace the image of the process. The headers are missing if the file is, or is no program. -/
def exec (k : Link) (null : Null) (p : Pid) (headers : Option (List Header)) (args : List (List UInt8)) : SysM Int :=
  match headers with
  | none => return -1
  | some headers => do
    match ← onVm (setupkvm k) with
    | none => return -1
    | some pgdir =>
      match ← onVm (exec_image k null pgdir headers args) with
      | none =>
        onVm (freevm k pgdir)
        return -1
      | some sz =>
        -- Commit to the user image.
        let s ← get
        modifySpace p fun v => { v with pgdir := pgdir, sz := sz }
        onVm (freevm k (s.space p).pgdir)
        return 0

/-! ### Runs -/

/-- Load the initcode into address 0 of `pgdir`. -/
def inituvm (pgdir : Nat) (init : Nat → UInt8) (sz : Nat) : VM Unit :=
  if sz ≥ PGSIZE then throw "inituvm: more than a page"
  else do
    match ← kalloc with
    | none => throw "trap"
    | some page =>
      memset page 0
      let _ ← mappages pgdir 0 PGSIZE page (PTE_W ||| PTE_U)
      modify fun m => { m with mem := update m.mem page (splice (m.mem page) 0 sz init) }

/-- Set up first user process. -/
def userinit (k : Link) (init : Nat → UInt8) (sz : Nat) : SysM Unit := do
  match ← allocproc with
  | none => throw "trap"
  | some p =>
    modify fun s => { s with tables := { s.tables with initproc := p } }
    match ← onVm (setupkvm k) with
    | none => throw "userinit: out of memory?"
    | some d =>
      onVm (inituvm d init sz)
      modifySpace p fun v => { v with pgdir := d, sz := PGSIZE }
      modifyProc p fun q => { q with state := .RUNNABLE }

/-- What happens: a process that can run makes one of the calls that change sizes, where calls of `kalloc` may fail at any
point, or anything else, which leaves the sizes alone. -/
inductive Step (k : Link) (s : Sys) : Sys → Prop where
  | fork {p : Pid} {faults : Nat → Bool} {r : Int} {s' : Sys} (runs : (s.tables.proc p).state = .RUNNABLE)
    (ran : fork k p { s with vm := { s.vm with faults := faults } } = .ok (r,s')) : Step k s s'
  | exec {p : Pid} {null : Null} {headers : Option (List Header)} {args : List (List UInt8)} {faults : Nat → Bool} {r : Int}
    {s' : Sys} (runs : (s.tables.proc p).state = .RUNNABLE)
    (ran : exec k null p headers args { s with vm := { s.vm with faults := faults } } = .ok (r,s')) : Step k s s'
  | sbrk {p : Pid} {n : Int} {faults : Nat → Bool} {r : Int} {s' : Sys} (runs : (s.tables.proc p).state = .RUNNABLE)
    (ran : growproc k p n { s with vm := { s.vm with faults := faults } } = .ok (r,s')) : Step k s s'
  | other {s' : Sys} (same : ∀ p, (s'.space p).sz = (s.space p).sz) : Step k s s'

/-- The states after `userinit`, which finds an empty process table. -/
inductive Reachable (k : Link) : Sys → Prop where
  | userinit {init : Nat → UInt8} {sz : Nat} {s s' : Sys}
    (empty : ∀ p, (s.tables.proc p).state = .UNUSED ∧ s.space p = ⟨0,0,0⟩) (ran : userinit k init sz s = .ok ((),s')) :
    Reachable k s'
  | step {s s' : Sys} (before : Reachable k s) (step : Step k s s') : Reachable k s'

end Xv6.Vm
