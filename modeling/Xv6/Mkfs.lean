import Xv6.Inodes
import Xv6.Image

/-!
`mkfs.c`, the program that makes a file-system image out of a list of files. Its state is the image
file, which a write past its end makes longer and a read past its end fails on, and the two counters
`freeinode` and `freeblock`. A run that does not reach `exit(0)` is an error with its reason: a failed
system call or a failed assertion. The log of the writes, each with its use, is a history that the
program does not have.
-/
namespace Xv6.Mkfs
open Xv6 Xv6.Lib Function

def NINODES : Nat := 200
def nbitmap : Nat := FSSIZE / (BSIZE * 8) + 1
def ninodeblocks : Nat := NINODES / IPB + 1
def nlog : Nat := LOGSIZE
/-- Number of meta blocks (boot, sb, nlog, inode, bitmap). -/
def nmeta : Nat := 2 + nlog + ninodeblocks + nbitmap
/-- Number of data blocks. -/
def nblocks : Nat := FSSIZE - nmeta

/-- The superblock of the image. -/
def sb : Superblock where
  size := FSSIZE
  nblocks := nblocks
  ninodes := NINODES
  nlog := nlog
  logstart := 2
  inodestart := 2 + nlog
  bmapstart := 2 + nlog + ninodeblocks

/-- What a block is written for. -/
inductive Use where
  | zeroes
  | super
  /-- the inode block of an inode -/
  | inode (inum : Nat)
  /-- the indirect block of an inode -/
  | indirect (inum : Nat)
  /-- a block of data of an inode -/
  | data (inum : Nat)
  | bitmap
  deriving DecidableEq

/-- The image file of `len` blocks, the counters, and the writes so far. -/
structure Fs where
  img : Disk
  len : Nat
  freeinode : Nat
  freeblock : Nat
  log : List (Use × Nat)

/-- Code of `mkfs` that goes on or ends the program. -/
abbrev Mk := StateT Fs (Except String)

/-! ### Sectors -/

/-- The block of the file at the offset `sec * BSIZE`, which is a `uint`. -/
def sector (sec : Nat) : Nat := sec * BSIZE % 2 ^ 32 / BSIZE

def wsect (use : Use) (sec : Nat) (buf : Block) : Mk Unit :=
  modify fun s => { s with
    img := update s.img (sector sec) buf
    len := max s.len (sector sec + 1)
    log := s.log ++ [(use,sector sec)] }

def rsect (sec : Nat) : Mk Block := do
  let s ← get
  if sector sec < s.len then return s.img (sector sec) else throw "read"

def winode (inum : Nat) (d : Dinode) : Mk Unit := do
  let buf ← rsect (sb.iblock inum)
  wsect (.inode inum) (sb.iblock inum) (putDinode buf (inum % IPB) d)

def rinode (inum : Nat) : Mk Dinode := do
  let buf ← rsect (sb.iblock inum)
  return dinodeIn buf (inum % IPB)

/-- The inode that `ialloc` writes: one link and no contents. -/
def newInode (type : UInt16) : Dinode := ⟨⟨type,0,0,1,0⟩,fun _ => 0⟩

def ialloc (type : UInt16) : Mk Nat := do
  let inum := (← get).freeinode
  modify fun s => { s with freeinode := s.freeinode + 1 }
  winode inum (newInode type)
  return inum

/-- The loop of `balloc`: a block with the first `used` bits set. -/
def setBits : Nat → Block
  | 0 => fun _ => 0
  | i + 1 => putByte (setBits i) i (byteAt (setBits i) (i / 8) ||| mask i)

def balloc (used : Nat) : Mk Unit := do
  if used < BSIZE * 8 then wsect .bitmap sb.bmapstart (setBits used) else throw "used < BSIZE*8"

/-! ### `iappend` -/

/-- `freeblock++` -/
def takeBlock : Mk Nat := do
  let b := (← get).freeblock
  modify fun s => { s with freeblock := s.freeblock + 1 }
  return b

/-- The inode with its pointer `k`, which gets a block if it has none. -/
def iappend_addr (din : Dinode) (k : Fin (NDIRECT + 1)) : Mk Dinode := do
  if din.addrs k = 0 then return din.setAddr k (← takeBlock) else return din

/-- Entry `n` of the indirect block, which gets a block if it has none. -/
def iappend_entry (inum : Nat) (din : Dinode) (n : Nat) : Mk Nat := do
  let indirect ← rsect (din.addrs (Fin.last NDIRECT)).toNat
  if get32 indirect (4 * n) = 0 then
    let b ← takeBlock
    wsect (.indirect inum) (din.addrs (Fin.last NDIRECT)).toNat (put32 indirect (4 * n) (UInt32.ofNat b))
    return (UInt32.ofNat b).toNat
  else return (get32 indirect (4 * n)).toNat

/-- The block `x` of `iappend` for the `fbn`-th block of the file, and the inode with the pointers to it. -/
def iappend_block (inum : Nat) (din : Dinode) (fbn : Nat) : Mk (Dinode × Nat) := do
  if h : fbn < NDIRECT then
    let din ← iappend_addr din ⟨fbn,Nat.lt_succ_of_lt h⟩
    return (din,(din.addrs ⟨fbn,Nat.lt_succ_of_lt h⟩).toNat)
  else
    let din ← iappend_addr din (Fin.last NDIRECT)
    return (din,← iappend_entry inum din (fbn - NDIRECT))

/-- The loop of `iappend`, from the bytes that are left. -/
def iappend_from (inum : Nat) : Nat → Dinode → Nat → List UInt8 → Mk (Dinode × Nat)
  | 0,din,off,_ => return (din,off)
  | fuel + 1,din,off,p =>
    if p.length = 0 then return (din,off)
    else do
      let fbn := off / BSIZE
      if MAXFILE ≤ fbn then throw "fbn < MAXFILE"
      else
        let (din,x) ← iappend_block inum din fbn
        let n1 := min p.length ((fbn + 1) * BSIZE - off)
        let buf ← rsect x
        wsect (.data inum) x (splice buf (off - fbn * BSIZE) n1 fun k => p.getD k 0)
        iappend_from inum fuel din (off + n1) (p.drop n1)

def iappend (inum : Nat) (p : List UInt8) : Mk Unit := do
  let din ← rinode inum
  let (din,off) ← iappend_from inum p.length din din.size.toNat p
  winode inum { din with size := UInt32.ofNat off }

/-! ### `main` -/

/-- An argument: the name of a file, and what the calls of `read` on it give, if it can be opened. -/
structure Arg where
  name : List UInt8
  reads : Option (List (List UInt8))

/-- Skip leading _ in name. -/
def skip (name : List UInt8) : List UInt8 := if name.head? = some 95 then name.tail else name

/-- The loop that copies a file. -/
def copy (inum : Nat) : List (List UInt8) → Mk Unit
  | [] => return ()
  | buf :: reads => do
    iappend inum buf
    copy inum reads

/-- A directory entry of the root. -/
def dirent (inum : Nat) (name : List UInt8) : List UInt8 := Dirent.encode ⟨UInt16.ofNat inum,strncpy name DIRSIZ⟩

/-- One round of the loop over the arguments. -/
def add (a : Arg) : Mk Unit := do
  if slash ∈ a.name then throw "index(argv[i], '/') == 0"
  else match a.reads with
    | none => throw "open"
    | some reads =>
      let inum ← ialloc T_FILE
      iappend ROOTINO (dirent inum (skip a.name))
      copy inum reads

def adds : List Arg → Mk Unit
  | [] => return ()
  | a :: args => do
    add a
    adds args

/-- The first `n` blocks are zeroed. -/
def zero : Nat → Mk Unit
  | 0 => return ()
  | i + 1 => do
    zero i
    wsect .zeroes i fun _ => 0

theorem zero_none : zero 0 = return () := rfl

theorem zero_succ (i : Nat) : zero (i + 1) = (do zero i; wsect .zeroes i fun _ => 0) := rfl

-- a thousand rounds: nothing is gained by looking into them again
attribute [irreducible] zero

/-- The image up to the entries `.` and `..` of the root. -/
def start : Mk Unit := do
  modify fun s => { s with freeblock := nmeta }
  zero FSSIZE
  wsect .super 1 (Image.sbBlock sb)
  let rootino ← ialloc T_DIR
  if rootino = ROOTINO then
    iappend rootino (dirent rootino dot)
    iappend rootino (dirent rootino dotdot)
  else throw "rootino == ROOTINO"

/-- Fix size of root inode dir, and write the bitmap. -/
def finish : Mk Unit := do
  let din ← rinode ROOTINO
  winode ROOTINO { din with size := UInt32.ofNat ((din.size.toNat / BSIZE + 1) * BSIZE) }
  balloc (← get).freeblock

def main (args : List Arg) : Mk Unit := do
  start
  adds args
  finish

/-- The image file when `mkfs` reaches `exit(0)`, or why it does not. -/
def mkfs (args : List Arg) : Except String Fs := (main args ⟨fun _ => fun _ => 0,0,1,0,[]⟩).map (·.2)

end Xv6.Mkfs
