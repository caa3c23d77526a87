import Xv6.Lib.Bytes

/-!
The constants of `param.h`, `fs.h`, `stat.h`, `fcntl.h` and `memlayout.h`, and disk blocks.
-/
namespace Xv6
open Xv6.Lib

def NPROC : Nat := 64
/-- maximum number of CPUs -/
def NCPU : Nat := 8
def NOFILE : Nat := 16
def NFILE : Nat := 100
def NINODE : Nat := 50
def NDEV : Nat := 10
def ROOTDEV : Nat := 1
/-- max # of blocks any FS op writes -/
def MAXOPBLOCKS : Nat := 10
/-- max data blocks in on-disk log -/
def LOGSIZE : Nat := MAXOPBLOCKS * 3
/-- size of file system in blocks -/
def FSSIZE : Nat := 1000

/-- root i-number -/
def ROOTINO : Nat := 1
/-- block size -/
def BSIZE : Nat := 512
def NDIRECT : Nat := 12
def NINDIRECT : Nat := BSIZE / 4
def MAXFILE : Nat := NDIRECT + NINDIRECT
def DIRSIZ : Nat := 14
/-- Inodes per block: `BSIZE / sizeof(struct dinode)`. -/
def IPB : Nat := BSIZE / 64
/-- Bitmap bits per block. -/
def BPB : Nat := BSIZE * 8

def T_DIR : UInt16 := 1
def T_FILE : UInt16 := 2
def T_DEV : UInt16 := 3

def O_RDONLY : Nat := 0x000
def O_WRONLY : Nat := 0x001
def O_RDWR : Nat := 0x002
def O_CREATE : Nat := 0x200

/-- First kernel virtual address -/
def KERNBASE : Nat := 0x80000000

instance : NeZero NPROC := ⟨by decide⟩
instance : NeZero NFILE := ⟨by decide⟩
instance : NeZero NINODE := ⟨by decide⟩

/-- The contents of a disk block. -/
abbrev Block := Bytes BSIZE
/-- The blocks of the one device, by block number. -/
abbrev Disk := Nat → Block

end Xv6
