import Xv6.VmProcs
import Xv6.Processes

/-!
`exec.c` on the file system and on memory, as far as the file is read: the headers, and the segments, page by page into the
new image. The caller frees what there is of the image after a failure.
-/
namespace Xv6.Vm

/-- Allocate two pages at the next page boundary and make the first inaccessible: the new size. -/
@[irreducible] def exec_guard (k : Link) (pgdir sz : Nat) : VM (Option Nat) := do
  let sz := PGROUNDUP sz * PGSIZE
  let sz ← allocuvm k pgdir sz ((sz + 2 * PGSIZE) % 2 ^ 32)
  if sz = 0 then return none
  else
    clearpteu pgdir ((sz - 2 * PGSIZE) / PGSIZE)
    return some sz

end Xv6.Vm

namespace Xv6.Exec
open Xv6 Xv6.Lib Prog Function

/-- The file system and memory. -/
structure Node where
  fs : State
  vm : Vm.Mach

/-- Code of a process that runs to its end, panics, or waits for a lock for ever. -/
abbrev ExecM := StateT Node (Except (Stop Wait))

variable {α : Type}

/-- A call of the file system. -/
def onFs (p : Pid) (c : Call α) : ExecM α := fun n =>
  match Lib.exec (kernel p) c n.fs with
  | .ok (a,s) => .ok (a,{ n with fs := s })
  | .error stop => .error stop

/-- Code that only uses memory. -/
def onVm (x : Vm.VM α) : ExecM α := fun n =>
  match x n.vm with
  | .ok (a,m) => .ok (a,{ n with vm := m })
  | .error why => .error (.panic why)

/-- `"\x7FELF"` in little endian -/
def ELF_MAGIC : Nat := 0x464C457F
/-- `sizeof(struct elfhdr)` -/
def elfhdrSize : Nat := 52
/-- `sizeof(struct proghdr)` -/
def proghdrSize : Nat := 32
def ELF_PROG_LOAD : Nat := 1

/-- The fields of `struct proghdr` that `exec` uses. -/
structure Proghdr where
  type : Nat
  off : Nat
  vaddr : Nat
  filesz : Nat
  memsz : Nat

def Proghdr.decode (ph : List UInt8) : Proghdr := ⟨word ph 0 4,word ph 4 4,word ph 8 4,word ph 16 4,word ph 20 4⟩

/-- The loop of `loaduvm`, at the `i`-th page of the segment. -/
def loaduvm_from (p : Pid) (pgdir addr : Nat) (ip : Slot) (offset sz : Nat) : Nat → Nat → ExecM Bool
  | 0,_ => return true
  | fuel + 1,i =>
    if i * Vm.PGSIZE < sz then do
      match ← onVm (Vm.walkpgdir pgdir ((addr + i * Vm.PGSIZE) % 2 ^ 32 / Vm.PGSIZE) false) with
      | none => throw (.panic "loaduvm: address should exist")
      | some (t,j) =>
        let pa := Vm.PTE_ADDR (Vm.word (← get).vm.mem t j)
        let n := min (sz - i * Vm.PGSIZE) Vm.PGSIZE
        let bytes := (← onFs p (call (.readi ip ((offset + i * Vm.PGSIZE) % 2 ^ 32) n))).getD []
        -- what could be read has been read into the page
        onVm (modify fun m => { m with mem := update m.mem pa (splice (m.mem pa) 0 (min bytes.length n) fun j => bytes.getD j 0) })
        if bytes.length ≠ n then return false else loaduvm_from p pgdir addr ip offset sz fuel (i + 1)
    else return true

/-- Load a program segment into `pgdir`. -/
def loaduvm (p : Pid) (pgdir addr : Nat) (ip : Slot) (offset sz : Nat) : ExecM Bool :=
  if addr % Vm.PGSIZE ≠ 0 then throw (.panic "loaduvm: addr must be page aligned")
  else loaduvm_from p pgdir addr ip offset sz (sz / Vm.PGSIZE + 1) 0

/-- The loop over the program headers, with `left` of them to come: the size, or `none` for `goto bad`. -/
def exec_load (k : Vm.Link) (p : Pid) (ip : Slot) (pgdir phoff : Nat) : Nat → Nat → Nat → ExecM (Option Nat)
  | 0,_,sz => return some sz
  | left + 1,i,sz => do
    let bytes := (← onFs p (call (.readi ip ((phoff + proghdrSize * i) % 2 ^ 32) proghdrSize))).getD []
    let ph := Proghdr.decode bytes
    if bytes.length ≠ proghdrSize then return none
    else if ph.type ≠ ELF_PROG_LOAD then exec_load k p ip pgdir phoff left (i + 1) sz
    else if ph.memsz < ph.filesz then return none
    else if (ph.vaddr + ph.memsz) % 2 ^ 32 < ph.vaddr then return none
    else
      let sz ← onVm (Vm.allocuvm k pgdir sz ((ph.vaddr + ph.memsz) % 2 ^ 32))
      if sz = 0 then return none
      else if ph.vaddr % Vm.PGSIZE ≠ 0 then return none
      else if ← loaduvm p pgdir ph.vaddr ip ph.off ph.filesz then exec_load k p ip pgdir phoff left (i + 1) sz
      else return none

/-- How far loading has come: a failure with the directory that there may be, or the directory, the header and the size. -/
inductive Loaded where
  | bad (pgdir : Option Nat)
  | done (pgdir : Nat) (elf : List UInt8) (sz : Nat)

/-- Check ELF header, and load program into memory. -/
def exec_program (k : Vm.Link) (p : Pid) (ip : Slot) : ExecM Loaded := do
  let elf := (← onFs p (call (.readi ip 0 elfhdrSize))).getD []
  if elf.length ≠ elfhdrSize then return .bad none
  else if word elf 0 4 ≠ ELF_MAGIC then return .bad none
  else
    match ← onVm (Vm.setupkvm k) with
    | none => return .bad none
    | some pgdir =>
      match ← exec_load k p ip pgdir (word elf 28 4) (word elf 44 2) 0 0 with
      | none => return .bad (some pgdir)
      | some sz => return .done pgdir elf sz

end Xv6.Exec
