import Xv6.Kernel

/-!
The functions of `fs.c` that take no inode lock: the block allocator, the inode
cache, and the contents of an inode. A block is read and written through the
buffer cache, which the log makes transparent, so `bread` and `log_write` work on
the disk of the state directly. Loops of the source are recursions on the number
of rounds that are left.
-/
namespace Xv6
open Xv6.Lib Function

/-! ### Blocks -/

def bread (b : Nat) : M Block := do return (← get).disk b

/-- `log_write` on a buffer of block `b` that holds `data`, in a transaction that has room for it; the tests are in
    `Logged.log_write`. -/
def log_write (b : Nat) (data : Block) : M Unit := modify fun s => { s with disk := update s.disk b data }

def readsb : M Unit := modify fun s => { s with sb := superblockAt (s.disk 1) }

def bzero (b : Nat) : M Unit := log_write b fun _ => 0

/-- `1 << (bi % 8)` -/
def mask (bi : Nat) : UInt8 := 1 <<< UInt8.ofNat (bi % 8)

/-- Is bit `bi` of a bitmap block set? -/
def bitIn (bp : Block) (bi : Nat) : Bool := byteAt bp (bi / 8) &&& mask bi != 0

/-- The bitmap block with the byte of bit `bi` replaced. -/
def putByte (bp : Block) (bi : Nat) (v : UInt8) : Block := splice bp (bi / 8) 1 fun _ => v

/-- The inner loop of `balloc`: the first clear bit of a bitmap block from `bi` on. -/
def balloc_bits (bp : Block) (b size : Nat) : Nat → Nat → Option Nat
  | 0,_ => none
  | n + 1,bi =>
    if b + bi < size then if bitIn bp bi then balloc_bits bp b size n (bi + 1) else some bi
    else none

/-- The outer loop of `balloc`. -/
def balloc_from : Nat → Nat → M Nat
  | 0,_ => throw "balloc: out of blocks"
  | n + 1,b => do
    let sb := (← get).sb
    if b < sb.size then
      let bp ← bread (sb.bblock b)
      match balloc_bits bp b sb.size BPB 0 with
      | some bi =>
        log_write (sb.bblock b) (putByte bp bi (byteAt bp (bi / 8) ||| mask bi))
        bzero (b + bi)
        return b + bi
      | none => balloc_from n (b + BPB)
    else throw "balloc: out of blocks"

/-- Allocate a zeroed disk block. -/
def balloc : M Nat := do balloc_from ((← get).sb.size / BPB + 1) 0

/-- Free a disk block. -/
def bfree (b : Nat) : M Unit := do
  readsb
  let sb := (← get).sb
  let bp ← bread (sb.bblock b)
  let bi := b % BPB
  if bitIn bp bi then log_write (sb.bblock b) (putByte bp bi (byteAt bp (bi / 8) &&& ~~~mask bi))
  else throw "freeing free block"

/-! ### Inodes -/

/-- A change of one entry of the inode cache. -/
def modifyInode (ip : Slot) (f : Inode → Inode) : M Unit :=
  modify fun s => { s with icache := update s.icache ip (f (s.icache ip)) }

/-- A change of the copy of the on-disk inode in the cache. -/
def modifyNode (ip : Slot) (f : Dinode → Dinode) : M Unit := modifyInode ip fun i => { i with node := f i.node }

/-- The loop of `ialloc`: find a free inode from `inum` on and mark it allocated. -/
def ialloc_from (type : UInt16) : Nat → Nat → M Nat
  | 0,_ => throw "ialloc: no inodes"
  | n + 1,inum => do
    let s ← get
    if inum < s.sb.ninodes then
      if (dinodeAt s.sb s.disk inum).type = 0 then
        let bp ← bread (s.sb.iblock inum)
        log_write (s.sb.iblock inum) (putDinode bp (inum % IPB) ⟨⟨type,0,0,0,0⟩,fun _ => 0⟩)
        return inum
      else ialloc_from type n (inum + 1)
    else throw "ialloc: no inodes"

/-- The number of the inode that `ialloc` allocates. -/
def ialloc_inum (type : UInt16) : M Nat := do ialloc_from type (← get).sb.ninodes 1

/-- Copy a modified in-memory inode to disk. -/
def iupdate (ip : Slot) : M Unit := do
  let s ← get
  let i := s.icache ip
  let bp ← bread (s.sb.iblock i.inum)
  log_write (s.sb.iblock i.inum) (putDinode bp (i.inum % IPB) i.node)

/-- Find the inode in the cache, or give it an entry there. -/
def iget (dev inum : Nat) : M Slot := do
  let s ← get
  match (List.finRange NINODE).find? fun ip =>
      (s.icache ip).ref > 0 && (s.icache ip).dev == dev && (s.icache ip).inum == inum with
  | some ip =>
    modifyInode ip fun i => { i with ref := i.ref + 1 }
    return ip
  | none =>
    match (List.finRange NINODE).find? fun ip => (s.icache ip).ref == 0 with
    | some ip =>
      modifyInode ip fun i => { i with dev := dev, inum := inum, ref := 1, valid := false }
      return ip
    | none => throw "iget: no inodes"

def idup (ip : Slot) : M Unit := modifyInode ip fun i => { i with ref := i.ref + 1 }

/-- What `ilock` does once it has the lock: read the inode from disk if necessary. -/
def iload (ip : Slot) : M Unit := do
  let s ← get
  let i := s.icache ip
  if i.valid then return ()
  else
    let node := dinodeAt s.sb s.disk i.inum
    modifyInode ip fun i => { i with node := node, valid := true }
    if node.type = 0 then throw "ilock: no type"

/-! ### Inode content -/

/-- `ip->addrs[k]`, allocated if it is zero. -/
def bmap_addr (ip : Slot) (k : Fin (NDIRECT + 1)) : M Nat := do
  let addr := ((← get).icache ip).node.addrs k
  if addr = 0 then
    let b ← balloc
    modifyNode ip fun d => { d with addrs := update d.addrs k (UInt32.ofNat b) }
    return b
  else return addr.toNat

/-- Entry `n` of the indirect block `addr`, allocated if it is zero. -/
def bmap_entry (addr n : Nat) : M Nat := do
  let bp ← bread addr
  if get32 bp (4 * n) = 0 then
    let b ← balloc
    log_write addr (put32 bp (4 * n) (UInt32.ofNat b))
    return b
  else return (get32 bp (4 * n)).toNat

/-- The disk block address of the `bn`-th block of an inode, allocated if necessary. -/
def bmap (ip : Slot) (bn : Nat) : M Nat := do
  if h : bn < NDIRECT then bmap_addr ip ⟨bn,Nat.lt_succ_of_lt h⟩
  else if bn - NDIRECT < NINDIRECT then
    let addr ← bmap_addr ip (Fin.last NDIRECT)
    bmap_entry addr (bn - NDIRECT)
  else throw "bmap: out of range"

/-- The loop of `itrunc` over the direct blocks. -/
def itrunc_direct (ip : Slot) : Nat → M Unit
  | 0 => return ()
  | n + 1 => do
    itrunc_direct ip n
    if h : n < NDIRECT + 1 then
      let addr := ((← get).icache ip).node.addrs ⟨n,h⟩
      if addr ≠ 0 then
        bfree addr.toNat
        modifyNode ip fun d => { d with addrs := update d.addrs ⟨n,h⟩ 0 }

/-- The loop of `itrunc` over the entries of the indirect block. -/
def itrunc_entries (bp : Block) : Nat → M Unit
  | 0 => return ()
  | n + 1 => do
    itrunc_entries bp n
    if get32 bp (4 * n) ≠ 0 then bfree (get32 bp (4 * n)).toNat

def itrunc_indirect (ip : Slot) : M Unit := do
  let addr := ((← get).icache ip).node.addrs (Fin.last NDIRECT)
  if addr ≠ 0 then
    let bp ← bread addr.toNat
    itrunc_entries bp NINDIRECT
    bfree addr.toNat
    modifyNode ip fun d => { d with addrs := update d.addrs (Fin.last NDIRECT) 0 }

/-- Truncate inode (discard contents). -/
def itrunc (ip : Slot) : M Unit := do
  itrunc_direct ip NDIRECT
  itrunc_indirect ip
  modifyNode ip fun d => { d with size := 0 }
  iupdate ip

/-- What `iput` does with an inode that has no links and no other references. -/
def ifree (ip : Slot) : M Unit := do
  itrunc ip
  modifyNode ip fun d => { d with type := 0 }
  iupdate ip
  modifyInode ip fun i => { i with valid := false }

/-- A change of the fields that the calls assign, and the `iupdate` that follows it. -/
def isetattr (ip : Slot) (major minor nlink : UInt16) : M Unit := do
  modifyNode ip fun d => { d with major := major, minor := minor, nlink := nlink }
  iupdate ip

/-- `len` bytes of a block. -/
def bytesIn (bp : Block) (off len : Nat) : List UInt8 := (List.range len).map fun k => byteAt bp (off + k)

/-- The loop of `readi`. -/
def readi_from (ip : Slot) : Nat → Nat → Nat → M (List UInt8)
  | 0,_,_ => return []
  | fuel + 1,off,n =>
    if n = 0 then return []
    else do
      let bp ← bread (← bmap ip (off / BSIZE))
      let m := min n (BSIZE - off % BSIZE)
      let rest ← readi_from ip fuel (off + m) (n - m)
      return bytesIn bp (off % BSIZE) m ++ rest

/-- Read `n` bytes at `off`. No bytes are the `-1` of the source. -/
def readi (ip : Slot) (off n : Nat) : M (Option (List UInt8)) := do
  let s ← get
  let d := (s.icache ip).node
  if d.type = T_DEV then
    if h : d.major.toNat < NDEV then
      match (s.devsw ⟨d.major.toNat,h⟩).read with
      | some f => return f n
      | none => return none
    else return none
  else if off > d.size.toNat ∨ (off + n) % 2 ^ 32 < off then return none
  else
    let n := if off + n > d.size.toNat then d.size.toNat - off else n
    return some (← readi_from ip n off n)

/-- The loop of `writei`. -/
def writei_from (ip : Slot) : Nat → Nat → List UInt8 → M Unit
  | 0,_,_ => return ()
  | fuel + 1,off,src =>
    if src.length = 0 then return ()
    else do
      let b ← bmap ip (off / BSIZE)
      let bp ← bread b
      let m := min src.length (BSIZE - off % BSIZE)
      log_write b (splice bp (off % BSIZE) m fun k => src.getD k 0)
      writei_from ip fuel (off + m) (src.drop m)

/-- Write the bytes `src` at `off`. -/
def writei (ip : Slot) (src : List UInt8) (off : Nat) : M Int := do
  let s ← get
  let d := (s.icache ip).node
  let n := src.length
  if d.type = T_DEV then
    if h : d.major.toNat < NDEV then
      match (s.devsw ⟨d.major.toNat,h⟩).write with
      | some f => return f src
      | none => return -1
    else return -1
  else if off > d.size.toNat ∨ (off + n) % 2 ^ 32 < off then return -1
  else if off + n > MAXFILE * BSIZE then return -1
  else
    writei_from ip n off src
    if n > 0 ∧ off + n > d.size.toNat then
      modifyNode ip fun d => { d with size := UInt32.ofNat (off + n) }
      iupdate ip
    return n

end Xv6
