import Xv6.Processes
import Xv6.Inodes

/-!
The file system without its blocks: inodes have attributes and contents, the cache says which inodes are in use, and
an operation of the calls is one step on them.
-/
namespace Xv6
open Xv6.Lib Prog Function

/-- An inode and its contents. -/
@[ext] structure Node extends Attr where
  data : Nat → UInt8

/-- An entry of the inode cache that is in use. -/
@[ext] structure Handle where
  inum : Nat
  ref : Nat
  lock : Option Pid
  valid : Bool
  deriving DecidableEq

structure Files where
  ninodes : Nat
  node : Nat → Node
  /-- The blocks of an inode that may be missing: below its size they read as zeros. -/
  hole : Nat → Nat → Bool
  /-- Blocks have been allocated for the inode that its copy on disk does not have. -/
  unsaved : Nat → Bool
  slot : Slot → Option Handle
  tables : Tables
  devsw : Fin NDEV → Driver

/-- The files with one inode replaced. -/
def Files.setNode (a : Files) (i : Nat) (n : Node) : Files := { a with node := update a.node i n }

/-- The files with one entry of the cache replaced. -/
def Files.setSlot (a : Files) (ip : Slot) (h : Option Handle) : Files := { a with slot := update a.slot ip h }

/-- The files when all of an inode has been saved. -/
def Files.save (a : Files) (i : Nat) : Files := { a with unsaved := update a.unsaved i false }

/-- The files with an inode that has no blocks. -/
def Files.clear (a : Files) (i : Nat) : Files := { a.save i with hole := update a.hole i fun _ => false }

/-- What a step of the machine gives. -/
abbrev Outcome (β : Type) := Except (Stop Wait) (β × Files)

/-- A step on an entry of the cache that is in use. -/
def Files.handle {β : Type} (a : Files) (ip : Slot) (f : Handle → Outcome β) : Outcome β :=
  match a.slot ip with
  | some h => f h
  | none => .error .undefined

/-- A step on an inode that has been read from disk. -/
def Files.loaded {β : Type} (a : Files) (ip : Slot) (f : Handle → Node → Outcome β) : Outcome β :=
  a.handle ip fun h => if h.valid then f h (a.node h.inum) else .error .undefined

/-- The entry that caches an inode. -/
def Files.cached (a : Files) (inum : Nat) : Option Slot :=
  (List.finRange NINODE).find? fun ip => (a.slot ip).any (·.inum == inum)

/-- The first entry that is not in use. -/
def Files.unused (a : Files) : Option Slot := (List.finRange NINODE).find? fun ip => (a.slot ip).isNone

theorem cached_some {a : Files} {inum : Nat} {ip : Slot} (found : a.cached inum = some ip) :
    ∃ h, a.slot ip = some h ∧ h.inum = inum := by
  have this := List.find?_some found
  cases here : a.slot ip with
  | none => simp [here] at this
  | some h => exact ⟨h,rfl,by simpa [here] using this⟩

theorem cached_none {a : Files} {inum : Nat} (absent : a.cached inum = none) {ip : Slot} {h : Handle}
    (here : a.slot ip = some h) : h.inum ≠ inum := by
  have this := List.find?_eq_none.mp absent ip (List.mem_finRange ip)
  simpa [here] using this

theorem unused_some {a : Files} {ip : Slot} (found : a.unused = some ip) : a.slot ip = none := by
  simpa using List.find?_some found

def Files.iget (a : Files) (dev inum : Nat) : Outcome Slot :=
  if dev = ROOTDEV ∧ inum < a.ninodes then
    match a.cached inum with
    | some ip => a.handle ip fun h => .ok (ip,a.setSlot ip (some { h with ref := h.ref + 1 }))
    | none => match a.unused with
      | some ip => .ok (ip,a.setSlot ip (some ⟨inum,1,none,false⟩))
      | none => .error (.panic "iget: no inodes")
  else .error .undefined

/-- A reference is dropped. The last one takes the inode out of the cache. -/
def Files.unref (a : Files) (ip : Slot) : Outcome Unit :=
  a.handle ip fun h =>
    if 1 < h.ref then .ok ((),a.setSlot ip (some { h with ref := h.ref - 1 }))
    else if h.ref = 1 ∧ h.lock = none ∧ a.unsaved h.inum = false then .ok ((),a.setSlot ip none)
    else .error .undefined

def Files.iload (a : Files) (ip : Slot) : Outcome Unit :=
  a.handle ip fun h =>
    if h.valid then .ok ((),a)
    else if a.unsaved h.inum then .error .undefined
    else if (a.node h.inum).type = 0 then .error (.panic "ilock: no type")
    else .ok ((),a.setSlot ip (some { h with valid := true }))

def Files.isetattr (a : Files) (ip : Slot) (major minor nlink : UInt16) : Outcome Unit :=
  a.loaded ip fun h n =>
    .ok ((),(a.setNode h.inum { n with major := major, minor := minor, nlink := nlink }).save h.inum)

/-- A new inode. -/
def Node.fresh (type : UInt16) : Node := ⟨⟨type,0,0,0,0⟩,fun _ => 0⟩

def Files.ialloc (a : Files) (type : UInt16) : Outcome Nat :=
  if type = 0 then .error .undefined
  else match freeInode (fun i => (a.node i).type = 0) (a.ninodes - 1) 1 with
    | some i => .ok (i,(a.setNode i (.fresh type)).clear i)
    | none => .error (.panic "ialloc: no inodes")

/-- An inode without type and contents. -/
def Node.freed (n : Node) : Node := ⟨{ n.toAttr with type := 0, size := 0 },fun _ => 0⟩

def Files.ifree (a : Files) (ip : Slot) : Outcome Unit :=
  a.loaded ip fun h n =>
    .ok ((),((a.setNode h.inum n.freed).clear h.inum).setSlot ip (some { h with valid := false }))

/-- Does a range of bytes touch a block that may be missing? -/
def missing (hole : Nat → Bool) (off len : Nat) : Bool :=
  (List.range MAXFILE).any fun bn => decide (Touches off len bn) && hole bn

/-- The files when the blocks of a range of an inode have been allocated. -/
def Files.fill (a : Files) (i off len : Nat) : Files := { a with
  hole := update a.hole i fun bn => a.hole i bn && !decide (Touches off len bn)
  unsaved := update a.unsaved i (a.unsaved i || missing (a.hole i) off len) }

def Files.readi (a : Files) (ip : Slot) (off n : Nat) : Outcome (Option (List UInt8)) :=
  a.loaded ip fun h d =>
    if d.type = T_DEV then
      .ok ((if b : d.major.toNat < NDEV then ((a.devsw ⟨d.major.toNat,b⟩).read).bind (· n) else none),a)
    else if off > d.size.toNat ∨ (off + n) % 2 ^ 32 < off then .ok (none,a)
    else
      let n := if off + n > d.size.toNat then d.size.toNat - off else n
      .ok (some (slice d.data off n),a.fill h.inum off n)

/-- What a driver answers to a write. -/
def devWrite (devsw : Fin NDEV → Driver) (major : UInt16) (src : List UInt8) : Int :=
  if b : major.toNat < NDEV then
    match (devsw ⟨major.toNat,b⟩).write with
    | some f => f src
    | none => -1
  else -1

/-- Does a write of `n` bytes at `off` make a file of `size` bytes longer? -/
def grows (off n size : Nat) : Bool := 0 < n ∧ size < off + n

/-- The size of a file of `size` bytes when `n` bytes have been written at `off`. -/
def sizeAfter (off n : Nat) (size : UInt32) : UInt32 := if grows off n size.toNat then UInt32.ofNat (off + n) else size

/-- The inode with bytes written. -/
def Node.write (d : Node) (src : List UInt8) (off : Nat) : Node :=
  { d with data := overlay d.data off src, size := sizeAfter off src.length d.size }

/-- The files with bytes of an inode written; a new size is saved with the inode. -/
def Files.write (a : Files) (i : Nat) (src : List UInt8) (off : Nat) : Files :=
  let b := (a.setNode i ((a.node i).write src off)).fill i off src.length
  if grows off src.length (a.node i).size.toNat then b.save i else b

def Files.writei (a : Files) (ip : Slot) (src : List UInt8) (off : Nat) : Outcome Int :=
  a.loaded ip fun h d =>
    if d.type = T_DEV then .ok (devWrite a.devsw d.major src,a)
    else if off > d.size.toNat ∨ (off + src.length) % 2 ^ 32 < off then .ok (-1,a)
    else if off + src.length > MAXFILE * BSIZE then .ok (-1,a)
    else .ok (src.length,a.write h.inum src off)

/-- Only an inode has changed, and not what the cache and the tables say. -/
structure OnlyInode (i : Nat) (a b : Files) : Prop where
  ninodes : b.ninodes = a.ninodes
  slot : b.slot = a.slot
  tables : b.tables = a.tables
  devsw : b.devsw = a.devsw
  node : ∀ j, j ≠ i → b.node j = a.node j
  hole : ∀ j, j ≠ i → b.hole j = a.hole j
  unsaved : ∀ j, j ≠ i → b.unsaved j = a.unsaved j

theorem OnlyInode.refl (i : Nat) (a : Files) : OnlyInode i a a :=
  ⟨rfl,rfl,rfl,rfl,fun _ _ => rfl,fun _ _ => rfl,fun _ _ => rfl⟩

theorem OnlyInode.trans {i : Nat} {a b c : Files} (one : OnlyInode i a b) (two : OnlyInode i b c) : OnlyInode i a c where
  ninodes := two.ninodes.trans one.ninodes
  slot := two.slot.trans one.slot
  tables := two.tables.trans one.tables
  devsw := two.devsw.trans one.devsw
  node j other := (two.node j other).trans (one.node j other)
  hole j other := (two.hole j other).trans (one.hole j other)
  unsaved j other := (two.unsaved j other).trans (one.unsaved j other)

theorem onlyInode_setNode (a : Files) (i : Nat) (n : Node) : OnlyInode i a (a.setNode i n) :=
  ⟨rfl,rfl,rfl,rfl,fun _ other => update_of_ne other ..,fun _ _ => rfl,fun _ _ => rfl⟩

theorem onlyInode_save (a : Files) (i : Nat) : OnlyInode i a (a.save i) :=
  ⟨rfl,rfl,rfl,rfl,fun _ _ => rfl,fun _ _ => rfl,fun _ other => update_of_ne other ..⟩

theorem onlyInode_clear (a : Files) (i : Nat) : OnlyInode i a (a.clear i) :=
  ⟨rfl,rfl,rfl,rfl,fun _ _ => rfl,fun _ other => update_of_ne other ..,fun _ other => update_of_ne other ..⟩

theorem onlyInode_fill (a : Files) (i off len : Nat) : OnlyInode i a (a.fill i off len) :=
  ⟨rfl,rfl,rfl,rfl,fun _ _ => rfl,fun _ other => update_of_ne other ..,fun _ other => update_of_ne other ..⟩

theorem onlyInode_write (a : Files) (i : Nat) (src : List UInt8) (off : Nat) : OnlyInode i a (a.write i src off) := by
  have filled := (onlyInode_setNode a i ((a.node i).write src off)).trans (onlyInode_fill _ i off src.length)
  unfold Files.write
  dsimp only
  split
  · exact filled.trans (onlyInode_save _ i)
  · exact filled

/-- What the operations of process `p` do to the files. -/
def filesStep (p : Pid) (a : Files) : {β : Type} → Op β → Outcome β
  | _,.iget dev inum => a.iget dev inum
  | _,.idup ip => a.handle ip fun h => .ok ((),a.setSlot ip (some { h with ref := h.ref + 1 }))
  | _,.ref ip => a.handle ip fun h => .ok ((h.ref : Int),a)
  | _,.unref ip => a.unref ip
  | _,.dev ip => a.handle ip fun _ => .ok (ROOTDEV,a)
  | _,.inum ip => a.handle ip fun h => .ok (h.inum,a)
  | _,.holdingsleep ip => a.handle ip fun h => .ok (h.lock.isSome,a)
  | _,.lock ip => a.handle ip fun h => .ok ((),a.setSlot ip (some { h with lock := some p }))
  | _,.unlock ip => a.handle ip fun h => .ok ((),a.setSlot ip (some { h with lock := none }))
  | _,.valid ip => a.handle ip fun h => .ok (h.valid,a)
  | _,.iload ip => a.iload ip
  | _,.attr ip => a.loaded ip fun _ n => .ok (n.toAttr,a)
  | _,.isetattr ip major minor nlink => a.isetattr ip major minor nlink
  | _,.ialloc type => a.ialloc type
  | _,.ifree ip => a.ifree ip
  | _,.readi ip off n => a.readi ip off n
  | _,.writei ip src off => a.writei ip src off
  | _,.tables f => match f a.tables with
    | .ok (b,t) => .ok (b,{ a with tables := t })
    | .error why => .error (.panic why)

/-- The process that holds the lock of an entry. -/
def Files.lock (a : Files) (ip : Slot) : Option Pid := (a.slot ip).bind (·.lock)

/-- The files as a machine, for the calls of process `p`. -/
def files (p : Pid) : Machine Op Wait Files where
  step o a := filesStep p a o
  free w a := mayRun p a.lock a.tables w

end Xv6
