import Xv6.Param
import Xv6.Lib.Post

/-!
Physical memory, the page allocator of `kalloc.c` and the page tables of `vm.c`. Memory is
bytes: the links of the free list, the page directories and the page tables are read out of
pages that nothing but their contents distinguishes. Pages are named by their number, a
page-aligned physical address without its offset; virtual addresses are divided in the
same way. A null page-table entry that the kernel reads is a word of the memory at
address 0, which belongs to the current process.
-/
namespace Xv6.Vm
open Xv6.Lib Function

/-! ### `mmu.h` and `memlayout.h` -/

/-- bytes mapped by a page -/
def PGSIZE : Nat := 4096
/-- # directory entries per page directory -/
def NPDENTRIES : Nat := 1024
/-- Present -/
def PTE_P : Nat := 1
/-- Writeable -/
def PTE_W : Nat := 2
/-- User -/
def PTE_U : Nat := 4
/-- Start of extended memory -/
def EXTMEM : Nat := 0x100000
/-- Top physical memory -/
def PHYSTOP : Nat := 0xE000000
/-- Other devices are at high addresses -/
def DEVSPACE : Nat := 0xFE000000

/-- `PGROUNDUP`, as a page number -/
def PGROUNDUP (a : Nat) : Nat := (a + PGSIZE - 1) % 2 ^ 32 / PGSIZE

/-- Where the linker has put the kernel: the pages of `data` and of `end`. -/
structure Link where
  data : Nat
  kend : Nat
  text : EXTMEM / PGSIZE < data
  order : data ≤ kend
  small : kend ≤ 1024

/-- The entry for a page: `pa | flags`. -/
def pte (page flags : Nat) : UInt32 := UInt32.ofNat (page * PGSIZE + flags)

/-- The page of `PTE_ADDR(pte)`. -/
def PTE_ADDR (w : UInt32) : Nat := w.toNat / PGSIZE
def PTE_FLAGS (w : UInt32) : Nat := w.toNat % PGSIZE
/-- `*pte & flag` -/
def has (w : UInt32) (flag : Nat) : Bool := w.toNat / flag % 2 == 1

/-! ### `kalloc.c` -/

/-- Physical memory and `kmem`. The free list is the kernel address of its first page. -/
structure Mach where
  mem : Nat → Bytes PGSIZE
  freelist : UInt32
  /-- which of the coming calls of `kalloc` fail although there is a page -/
  faults : Nat → Bool

/-- Kernel code on memory; it runs to its end or panics. -/
abbrev VM := StateT Mach (Except String)

/-- A word of a page. -/
def word (mem : Nat → Bytes PGSIZE) (page i : Nat) : UInt32 := get32 (mem page) (4 * i)

/-- Memory with a word of a page stored. -/
def setWord (mem : Nat → Bytes PGSIZE) (page i : Nat) (w : UInt32) : Nat → Bytes PGSIZE :=
  update mem page (put32 (mem page) (4 * i) w)

def store (page i : Nat) (w : UInt32) : VM Unit := modify fun m => { m with mem := setWord m.mem page i w }

/-- `memset(v, c, PGSIZE)` -/
def memset (page : Nat) (c : UInt8) : VM Unit := modify fun m => { m with mem := update m.mem page fun _ => c }

/-- `P2V`, and the kernel's address of a page. -/
def P2V (page : Nat) : UInt32 := UInt32.ofNat (KERNBASE + page * PGSIZE)
/-- The page of `V2P(v)`. -/
def V2P (v : UInt32) : Nat := (v.toNat - KERNBASE) / PGSIZE

/-- Free the page of physical memory. -/
def kfree (k : Link) (page : Nat) : VM Unit :=
  if page < k.kend ∨ page ≥ PHYSTOP / PGSIZE then throw "kfree"
  else do
    -- Fill with junk to catch dangling refs.
    memset page 1
    let m ← get
    store page 0 m.freelist
    modify fun m => { m with freelist := P2V page }

/-- Allocate one page of physical memory. -/
def kalloc : VM (Option Nat) := do
  let m ← get
  let next := { m with faults := fun n => m.faults (n + 1) }
  if m.freelist = 0 ∨ m.faults 0 then
    set next
    return none
  else
    let r := V2P m.freelist
    set { next with freelist := word m.mem r 0 }
    return some r

/-! ### `vm.c` -/

/-- The page table and the index of the entry for a virtual page. If `alloc`, create any required page table pages. -/
def walkpgdir (pgdir va : Nat) (alloc : Bool) : VM (Option (Nat × Nat)) := do
  let m ← get
  let pde := word m.mem pgdir (va / 1024)
  if has pde PTE_P then return some (PTE_ADDR pde,va % 1024)
  else if alloc = false then return none
  else
    match ← kalloc with
    | none => return none
    | some pgtab =>
      -- Make sure all those PTE_P bits are zero.
      memset pgtab 0
      store pgdir (va / 1024) (pte pgtab (PTE_P ||| PTE_W ||| PTE_U))
      return some (pgtab,va % 1024)

/-- The loop of `mappages`, with `n` pages left. -/
def mappages_from (pgdir : Nat) (perm : Nat) : Nat → Nat → Nat → VM Bool
  | 0,_,_ => pure true
  | n + 1,a,pa => do
    match ← walkpgdir pgdir a true with
    | none => return false
    | some (t,i) =>
      let m ← get
      if has (word m.mem t i) PTE_P then throw "remap"
      else
        store t i (pte pa (perm ||| PTE_P))
        mappages_from pgdir perm n ((a + 1) % 2 ^ 20) (pa + 1)

/-- Create PTEs for virtual addresses starting at `va` that refer to physical pages starting at `pa`. -/
def mappages (pgdir va size pa perm : Nat) : VM Bool :=
  let a := va / PGSIZE
  let last := (va + size - 1) % 2 ^ 32 / PGSIZE
  mappages_from pgdir perm ((last + 2 ^ 20 - a) % 2 ^ 20 + 1) a pa

/-- The loop of `deallocuvm`. The address grows by a page at least, so that `fuel` is enough. -/
def deallocuvm_from (k : Link) (pgdir oldsz : Nat) : Nat → Nat → VM Unit
  | 0,_ => pure ()
  | fuel + 1,a =>
    if a * PGSIZE < oldsz then do
      match ← walkpgdir pgdir a false with
      | none => deallocuvm_from k pgdir oldsz fuel ((a / 1024 + 1) * 1024)
      | some (t,i) =>
        let m ← get
        let w := word m.mem t i
        if has w PTE_P then
          if PTE_ADDR w = 0 then throw "kfree"
          else
            kfree k (PTE_ADDR w)
            store t i 0
            deallocuvm_from k pgdir oldsz fuel (a + 1)
        else deallocuvm_from k pgdir oldsz fuel (a + 1)
    else pure ()

/-- Deallocate user pages to bring the process size from `oldsz` to `newsz`. -/
def deallocuvm (k : Link) (pgdir oldsz newsz : Nat) : VM Nat :=
  if newsz ≥ oldsz then return oldsz
  else do
    deallocuvm_from k pgdir oldsz (oldsz / PGSIZE + 1 - PGROUNDUP newsz) (PGROUNDUP newsz)
    return newsz

/-- The loop of `freevm` over the directory entries, with `n` of them left. -/
def freevm_from (k : Link) (pgdir : Nat) : Nat → VM Unit
  | 0 => pure ()
  | n + 1 => do
    let m ← get
    let pde := word m.mem pgdir (NPDENTRIES - (n + 1))
    if has pde PTE_P then
      kfree k (PTE_ADDR pde)
      freevm_from k pgdir n
    else freevm_from k pgdir n

/-- Free a page table and all the physical memory pages in the user part. -/
def freevm (k : Link) (pgdir : Nat) : VM Unit := do
  let _ ← deallocuvm k pgdir KERNBASE 0
  freevm_from k pgdir NPDENTRIES
  kfree k pgdir

/-- An entry of `kmap`. -/
structure Kmap where
  virt : Nat
  phys_start : Nat
  phys_end : Nat
  perm : Nat

/-- The kernel's mappings, which are present in every process's page table. -/
def kmap (k : Link) : List Kmap := [
  -- I/O space
  ⟨KERNBASE,0,EXTMEM,PTE_W⟩,
  -- kern text+rodata
  ⟨KERNBASE + EXTMEM,EXTMEM,k.data * PGSIZE,0⟩,
  -- kern data+memory
  ⟨KERNBASE + k.data * PGSIZE,k.data * PGSIZE,PHYSTOP,PTE_W⟩,
  -- more devices
  ⟨DEVSPACE,DEVSPACE,0,PTE_W⟩]

/-- The loop of `setupkvm`. -/
def setupkvm_from (k : Link) (pgdir : Nat) : List Kmap → VM (Option Nat)
  | [] => return some pgdir
  | e :: rest => do
    if ← mappages pgdir e.virt ((e.phys_end + 2 ^ 32 - e.phys_start) % 2 ^ 32) (e.phys_start / PGSIZE) e.perm then
      setupkvm_from k pgdir rest
    else
      freevm k pgdir
      return none

/-- Set up kernel part of a page table. -/
def setupkvm (k : Link) : VM (Option Nat) := do
  match ← kalloc with
  | none => return none
  | some pgdir =>
    memset pgdir 0
    setupkvm_from k pgdir (kmap k)

/-- The loop of `allocuvm`. -/
def allocuvm_from (k : Link) (pgdir oldsz newsz : Nat) : Nat → Nat → VM Bool
  | 0,_ => pure true
  | fuel + 1,a =>
    if a * PGSIZE < newsz then do
      match ← kalloc with
      | none =>
        let _ ← deallocuvm k pgdir newsz oldsz
        return false
      | some page =>
        memset page 0
        if ← mappages pgdir (a * PGSIZE) PGSIZE page (PTE_W ||| PTE_U) then
          allocuvm_from k pgdir oldsz newsz fuel (a + 1)
        else
          let _ ← deallocuvm k pgdir newsz oldsz
          kfree k page
          return false
    else pure true

/-- Allocate page tables and physical memory to grow process from `oldsz` to `newsz`. Returns new size or 0 on error. -/
def allocuvm (k : Link) (pgdir oldsz newsz : Nat) : VM Nat :=
  if newsz ≥ KERNBASE then return 0
  else if newsz < oldsz then return oldsz
  else do
    if ← allocuvm_from k pgdir oldsz newsz (newsz / PGSIZE + 1 - PGROUNDUP oldsz) (PGROUNDUP oldsz) then return newsz
    else return 0

/-- Clear PTE_U on a page. -/
def clearpteu (pgdir va : Nat) : VM Unit := do
  match ← walkpgdir pgdir va false with
  | none => throw "clearpteu"
  | some (t,i) =>
    let m ← get
    let w := word m.mem t i
    store t i (pte (PTE_ADDR w) (if has w PTE_U then PTE_FLAGS w - PTE_U else PTE_FLAGS w))

/-- The loop of `copyuvm` into the directory `d`, from page `i` on. -/
def copyuvm_from (pgdir d sz : Nat) : Nat → Nat → VM Bool
  | 0,_ => pure true
  | fuel + 1,i =>
    if i * PGSIZE < sz then do
      match ← walkpgdir pgdir i false with
      | none => throw "copyuvm: pte should exist"
      | some (t,j) =>
        let m ← get
        let w := word m.mem t j
        if has w PTE_P = false then throw "copyuvm: page not present"
        else
          match ← kalloc with
          | none => return false
          | some page =>
            modify fun m => { m with mem := update m.mem page (m.mem (PTE_ADDR w)) }
            if ← mappages d (i * PGSIZE) PGSIZE page (PTE_FLAGS w) then copyuvm_from pgdir d sz fuel (i + 1)
            else return false
    else pure true

/-- Given a parent process's page table, create a copy of it for a child. -/
def copyuvm (k : Link) (pgdir sz : Nat) : VM (Option Nat) := do
  match ← setupkvm k with
  | none => return none
  | some d =>
    if ← copyuvm_from pgdir d sz (sz / PGSIZE + 1) 0 then return some d
    else
      freevm k d
      return none

/-- What `readi` gives for the chunks of a segment, page by page. -/
abbrev Chunks := Nat → List UInt8

/-- The loop of `loaduvm`, at the `i`-th page of the segment. -/
def loaduvm_from (pgdir addr sz : Nat) (file : Chunks) : Nat → Nat → VM Bool
  | 0,_ => pure true
  | fuel + 1,i =>
    if i * PGSIZE < sz then do
      match ← walkpgdir pgdir ((addr + i * PGSIZE) % 2 ^ 32 / PGSIZE) false with
      | none => throw "loaduvm: address should exist"
      | some (t,j) =>
        let m ← get
        let pa := PTE_ADDR (word m.mem t j)
        let n := min (sz - i * PGSIZE) PGSIZE
        -- what could be read has been read into the page
        modify fun m => { m with mem := update m.mem pa (splice (m.mem pa) 0 (min (file i).length n) fun j => (file i).getD j 0) }
        if (file i).length ≠ n then return false else loaduvm_from pgdir addr sz file fuel (i + 1)
    else pure true

/-- Load a program segment into `pgdir`. -/
def loaduvm (pgdir addr sz : Nat) (file : Chunks) : VM Bool :=
  if addr % PGSIZE ≠ 0 then throw "loaduvm: addr must be page aligned"
  else loaduvm_from pgdir addr sz file (sz / PGSIZE + 1) 0

/-- A word at address 0 of the address space that is in use. -/
def loadNull (cur : Nat) : VM UInt32 := do
  match ← walkpgdir cur 0 false with
  | none => throw "trap"
  | some (t,i) =>
    let m ← get
    let w := word m.mem t i
    if has w PTE_P then return word m.mem (PTE_ADDR w) 0 else throw "trap"

/-- What the code does with `pte` when `walkpgdir` has returned 0: the machine reads the word at
    address 0 of the current address space. The careful kernel stops there. -/
inductive Null where
  | reads (cur : Nat)
  | stops

/-- Map user virtual address to kernel address. -/
def uva2ka (null : Null) (pgdir uva : Nat) : VM (Option Nat) := do
  let w ← match ← walkpgdir pgdir uva false with
    | some (t,i) => do
      let m ← get
      pure (word m.mem t i)
    | none =>
      match null with
      | .reads cur => loadNull cur
      | .stops => throw "null pte"
  return if has w PTE_P = false then none else if has w PTE_U = false then none else some (PTE_ADDR w)

/-- The kernel can write to the page where it is mapped. -/
def Link.Writeable (k : Link) (page : Nat) : Prop :=
  page < EXTMEM / PGSIZE ∨ k.data ≤ page ∧ page < PHYSTOP / PGSIZE

instance (k : Link) (page : Nat) : Decidable (k.Writeable page) := inferInstanceAs (Decidable (_ ∨ _))

/-- Copy bytes to user address `va` in page table `pgdir`; each round copies a byte at least. -/
def copyout (k : Link) (null : Null) (pgdir : Nat) : Nat → Nat → List UInt8 → VM Bool
  | 0,_,_ => pure true
  | fuel + 1,va,src =>
    if src = [] then pure true
    else do
      match ← uva2ka null pgdir (va / PGSIZE) with
      | none => return false
      | some page =>
        let n := min (PGSIZE - va % PGSIZE) src.length
        if k.Writeable page then
          modify fun m => { m with mem := update m.mem page (splice (m.mem page) (va % PGSIZE) n fun j => src.getD j 0) }
          copyout k null pgdir fuel ((va / PGSIZE + 1) * PGSIZE % 2 ^ 32) (src.drop n)
        else throw "trap"

end Xv6.Vm
