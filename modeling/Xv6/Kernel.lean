import Xv6.Param

/-!
The state of the file system: the disk as the buffer cache presents it, the inode cache of `fs.c`, the file table of
`file.c` and what `proc.c` keeps of a process for them.
-/
namespace Xv6
open Xv6.Lib Function

/-- `struct superblock` -/
structure Superblock where
  size : Nat
  nblocks : Nat
  ninodes : Nat
  nlog : Nat
  logstart : Nat
  inodestart : Nat
  bmapstart : Nat
  deriving DecidableEq

/-- What an inode says of its file, its blocks apart. -/
@[ext] structure Attr where
  type : UInt16
  major : UInt16
  minor : UInt16
  nlink : UInt16
  size : UInt32
  deriving DecidableEq

/-- `struct dinode`, and the part of `struct inode` that is a copy of it. -/
@[ext] structure Dinode extends Attr where
  addrs : Fin (NDIRECT + 1) → UInt32
  deriving DecidableEq

/-- An entry of the process table. -/
abbrev Pid := Fin NPROC
/-- An entry of the inode cache. -/
abbrev Slot := Fin NINODE
/-- An entry of the file table. -/
abbrev FileId := Fin NFILE

/-- `struct inode`. The sleep-lock is the process that holds it. -/
structure Inode where
  dev : Nat
  inum : Nat
  ref : Int
  lock : Option Pid
  valid : Bool
  node : Dinode

inductive FdType where
  | FD_NONE | FD_PIPE | FD_INODE
  deriving DecidableEq

/-- `struct file` -/
structure File where
  type : FdType
  ref : Int
  readable : Bool
  writable : Bool
  pipe : Nat
  ip : Slot
  off : Nat
  deriving DecidableEq

inductive ProcState where
  | UNUSED | EMBRYO | SLEEPING | RUNNABLE | RUNNING | ZOMBIE
  deriving DecidableEq

/-- What the file system sees of `struct proc`. -/
structure Proc where
  state : ProcState
  parent : Option Pid
  ofile : Fin NOFILE → Option FileId
  cwd : Option Slot

/-- `struct pipe`, without the data. -/
structure Pipe where
  readopen : Bool
  writeopen : Bool
  deriving DecidableEq

/-- The file table, the process table and the allocated pipe pages. -/
structure Tables where
  file : FileId → File
  proc : Pid → Proc
  initproc : Pid
  pipe : Nat → Option Pipe

/-- The tables with one file replaced. -/
def Tables.setFile (t : Tables) (f : FileId) (g : File) : Tables := { t with file := update t.file f g }

/-- The tables with one process replaced. -/
def Tables.setProc (t : Tables) (p : Pid) (q : Proc) : Tables := { t with proc := update t.proc p q }

/-- An entry of `devsw`: what a device answers, where it has the function at all. -/
structure Driver where
  read : Option (Nat → Option (List UInt8))
  write : Option (List UInt8 → Int)

/-- The kernel's file-system state. -/
structure State where
  sb : Superblock
  disk : Disk
  icache : Slot → Inode
  tables : Tables
  devsw : Fin NDEV → Driver

/-- Kernel code between two inode-lock operations: it runs to its end or panics. -/
abbrev M := StateT State (Except String)

/-! ### The C structures in a block -/

/-- `struct superblock` at the start of a block. -/
def superblockAt (b : Block) : Superblock where
  size := (get32 b 0).toNat
  nblocks := (get32 b 4).toNat
  ninodes := (get32 b 8).toNat
  nlog := (get32 b 12).toNat
  logstart := (get32 b 16).toNat
  inodestart := (get32 b 20).toNat
  bmapstart := (get32 b 24).toNat

/-- The `i`-th `struct dinode` of a block. -/
def dinodeIn (b : Block) (i : Nat) : Dinode where
  type := get16 b (64 * i)
  major := get16 b (64 * i + 2)
  minor := get16 b (64 * i + 4)
  nlink := get16 b (64 * i + 6)
  size := get32 b (64 * i + 8)
  addrs := fun k => get32 b (64 * i + 12 + 4 * k)

/-- The bytes of a `struct dinode`. -/
def Dinode.byte (d : Dinode) (k : Nat) : UInt8 :=
  if k < 2 then leByte d.type.toNat k
  else if k < 4 then leByte d.major.toNat (k - 2)
  else if k < 6 then leByte d.minor.toNat (k - 4)
  else if k < 8 then leByte d.nlink.toNat (k - 6)
  else if k < 12 then leByte d.size.toNat (k - 8)
  else if h : (k - 12) / 4 < NDIRECT + 1 then leByte (d.addrs ⟨(k - 12) / 4,h⟩).toNat ((k - 12) % 4)
  else 0

/-- The block with its `i`-th `struct dinode` replaced. -/
def putDinode (b : Block) (i : Nat) (d : Dinode) : Block := splice b (64 * i) 64 d.byte

/-- `IBLOCK(i, sb)` -/
def Superblock.iblock (sb : Superblock) (inum : Nat) : Nat := inum / IPB + sb.inodestart

/-- `BBLOCK(b, sb)` -/
def Superblock.bblock (sb : Superblock) (b : Nat) : Nat := b / BPB + sb.bmapstart

/-- The on-disk inode with a number. -/
def dinodeAt (sb : Superblock) (disk : Disk) (inum : Nat) : Dinode := dinodeIn (disk (sb.iblock inum)) (inum % IPB)

/-- `struct dirent` -/
structure Dirent where
  inum : UInt16
  name : List UInt8
  deriving DecidableEq

/-- A `struct dirent` read into memory. -/
def Dirent.decode (bytes : List UInt8) : Dirent where
  inum := UInt16.ofNat ((bytes.getD 0 0).toNat + 256 * (bytes.getD 1 0).toNat)
  name := (bytes.drop 2).take DIRSIZ

/-- The bytes of a `struct dirent`. -/
def Dirent.encode (de : Dirent) : List UInt8 := leByte de.inum.toNat 0 :: leByte de.inum.toNat 1 :: de.name

/-! ### `string.c` -/

/-- `strncmp`; a string is the bytes before its NUL, and past the end of a list there is one. -/
def strncmp : List UInt8 → List UInt8 → Nat → Int
  | _,_,0 => 0
  | p,q,n + 1 =>
    if p.headD 0 ≠ 0 ∧ p.headD 0 = q.headD 0 then strncmp p.tail q.tail n
    else (p.headD 0).toNat - (q.headD 0).toNat

/-- What `strncpy` leaves in a buffer of `n` bytes. -/
def strncpy : List UInt8 → Nat → List UInt8
  | _,0 => []
  | t,n + 1 => if t.headD 0 ≠ 0 then t.headD 0 :: strncpy t.tail n else List.replicate (n + 1) 0

end Xv6
