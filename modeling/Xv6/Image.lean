import Xv6.Processes

/-!
Small disk images, for runs that show what the kernel does on a file system with a few directories.
-/
namespace Xv6.Image
open Xv6 Xv6.Lib

/-- The superblock of the images. -/
def sb : Superblock where
  size := 12
  nblocks := 6
  ninodes := 8
  nlog := 1
  logstart := 2
  inodestart := 3
  bmapstart := 5

/-- The bytes of a `struct superblock`. -/
def sbBlock (sb : Superblock) : Block := fun i =>
  leByte ([sb.size,sb.nblocks,sb.ninodes,sb.nlog,sb.logstart,sb.inodestart,sb.bmapstart].getD (i / 4) 0) (i % 4)

/-- An inode block. -/
def inodeBlock (inodes : List Dinode) : Block := fun i => (inodes.getD (i / 64) .zero).byte (i % 64)

/-- A bitmap block with the first `used` bits set. -/
def bitmapBlock (used : Nat) : Block := fun i => UInt8.ofNat (2 ^ min 8 (used - 8 * i) - 1)

/-- A block of directory entries. -/
def dirBlock (entries : List Dirent) : Block := fun i => (entries.flatMap Dirent.encode).getD i 0

/-- A directory entry for a name. -/
def entry (inum : UInt16) (name : List UInt8) : Dirent := ⟨inum,strncpy name DIRSIZ⟩

/-- A directory with `n` entries in one block. -/
def dir (nlink : UInt16) (n : Nat) (b : UInt32) : Dinode :=
  ⟨⟨T_DIR,0,0,nlink,UInt32.ofNat (16 * n)⟩,fun k => if k = 0 then b else 0⟩

/-- An empty file. -/
def file (nlink : UInt16) : Dinode := ⟨⟨T_FILE,0,0,nlink,0⟩,fun _ => 0⟩

/-- The image with the inodes given, inode 1 first, and the directory blocks given, block 6 first. -/
def image (inodes : List Dinode) (dirs : List (List Dirent)) : Disk
  | 1 => sbBlock sb
  | 3 => inodeBlock (.zero :: inodes)
  | 5 => bitmapBlock (6 + dirs.length)
  | b => dirBlock (dirs.getD (b - 6) [])

/-- The kernel that has booted on an image, without devices. -/
def booted (disk : Disk) : State := boot disk fun _ => ⟨none,none⟩

/-- Run calls one after the other, as long as they return. -/
def run : List (Pid × SysCall) → State → Except (Stop Wait) (List Int × State)
  | [],s => .ok ([],s)
  | (p,c) :: calls,s => do
    let (r,s) ← exec (kernel p) (c.prog p) s
    let (rs,s) ← run calls s
    return (r :: rs,s)

/-- The processes that make the calls can run. -/
def Runnable : List (Pid × SysCall) → State → Prop
  | [],_ => True
  | (p,c) :: calls,s => (s.tables.proc p).state = .RUNNABLE ∧ match exec (kernel p) (c.prog p) s with
    | .ok (_,s) => Runnable calls s
    | .error _ => True

instance : ∀ calls s, Decidable (Runnable calls s)
  | [],_ => isTrue trivial
  | (p,c) :: calls,s =>
    have _rest : Decidable (match exec (kernel p) (c.prog p) s with
        | .ok (_,s) => Runnable calls s
        | .error _ => True) :=
      match exec (kernel p) (c.prog p) s with
      | .ok (_,s) => instDecidableRunnable calls s
      | .error _ => isTrue trivial
    inferInstanceAs (Decidable (_ ∧ _))

theorem eq_ok_get {ε α : Type} {x : Except ε α} (returned : x.toOption.isSome) : x = .ok (x.toOption.get returned) := by
  cases x with
  | error e => cases returned
  | ok a => rfl

theorem eq_ok {ε α : Type} {x : Except ε α} {a : α} (returned : x.toOption = some a) : x = .ok a := by
  cases x with
  | error e => cases returned
  | ok b => rw [Option.some.inj returned]

/-- Why a run stopped. -/
def stop {ε α : Type} : Except ε α → Option ε
  | .error e => some e
  | .ok _ => none

theorem eq_error {ε α : Type} {x : Except ε α} {e : ε} (stopped : stop x = some e) : x = .error e := by
  cases x with
  | error e' => rw [Option.some.inj stopped]
  | ok a => cases stopped

theorem run_calls {calls : List (Pid × SysCall)} {s₀ s : State} {done : List Int × State} (before : Calls s₀ s)
    (runnable : Runnable calls s) (ran : run calls s = .ok done) : Calls s₀ done.2 := by
  induction calls generalizing s done with
  | nil =>
    cases ran
    exact before
  | cons call calls ih =>
    obtain ⟨p,c⟩ := call
    obtain ⟨can,rest⟩ := runnable
    unfold run at ran
    cases first : exec (kernel p) (c.prog p) s with
    | error stop => rw [first] at ran; cases ran
    | ok one =>
      rw [first] at ran rest
      cases second : run calls one.2 with
      | error stop => simp [bind,Except.bind,second] at ran
      | ok two =>
        simp only [bind,Except.bind,second,pure,Except.pure,Except.ok.injEq] at ran
        have rest := ih (before.step can first) rest second
        rw [← ran]
        exact rest

end Xv6.Image
