import Xv6.Lib.Monitor
import Xv6.Lib.Chain
import Xv6.Param

/-!
The disk drivers. `ide.c` keeps the requests in a queue whose links are in the buffers: `iderw`
appends a buffer and sleeps until `ideintr`, which takes the first one off after the disk's
interrupt, has served it. Both run under `idelock`. `memide.c` copies to and from memory at once.
The two are linked interchangeably. Here are the drivers, and the invariant that each of their steps
keeps.

The history records the buffers that were appended, each with what was in it then, how many of
them were taken off, and the commands that the disk has performed.
-/
namespace Xv6.Ide
open Xv6.Lib Function

variable {ι β α : Type}

/-- `struct buf`, with the block `data` of any type; `valid` and `dirty` are its flags. -/
structure Buf (α : Type) where
  dev : Nat
  blockno : Nat
  valid : Bool
  dirty : Bool
  data : α
  deriving DecidableEq

/-- `(b->flags & (B_VALID|B_DIRTY)) == B_VALID` -/
abbrev Buf.Done (b : Buf α) : Prop := b.valid = true ∧ b.dirty = false

/-- What `idestart` writes to the disk's registers: the disk, the sector, and the data of a write. -/
structure Cmd (α : Type) where
  disk : Nat
  sector : Nat
  write : Option α
  deriving DecidableEq

/-- `BSIZE/SECTOR_SIZE` -/
def sector_per_block : Nat := 1

def Buf.cmd (b : Buf α) : Cmd α where
  disk := b.dev % 2
  sector := b.blockno * sector_per_block
  write := if b.dirty then some b.data else none

/-- The disk's controller. It performs the command that it was given, then raises one interrupt; `data` is what a read
    from its port gives then. -/
inductive Hw (α : Type) where
  | idle
  | busy (c : Cmd α)
  | raised (data : α)
  /-- The interrupt has been delivered. -/
  | taken (data : α)
  deriving DecidableEq

/-- Where a process, or an interrupt handler, is. -/
inductive Point (β : Type) where
  | idle
  /-- holds the sleep-lock of a buffer -/
  | has (b : β)
  /-- `iderw`, before `acquire` -/
  | call (b : β)
  /-- `iderw`, after `acquire` -/
  | begin (b : β)
  /-- `iderw`, in the loop, with the pointer to a link: `none` for `&idequeue`, `some x` for `&x->qnext` -/
  | append (b : β) (pp : Option β)
  /-- `iderw`, before it starts the disk if necessary; its request is the `j`-th -/
  | check (b : β) (j : Nat)
  /-- `iderw`, at the test of its last loop -/
  | wait (b : β) (j : Nat)
  /-- `ideintr`, before `acquire` -/
  | irq
  /-- `ideintr`, after `acquire` -/
  | intr
  /-- `ideintr`, before `wakeup` -/
  | wake (b : β)
  /-- `ideintr`, after `wakeup` -/
  | next
  /-- `ideintr`, before `release` -/
  | leave
  /-- a panic, in `iderw` or `ideintr`; the former may have appended its request -/
  | panicked (request : Option (β × Nat))
  deriving DecidableEq

/-- The buffers with their sleep-locks, the queue, the disks, and the history. -/
structure Data (ι β α : Type) where
  buf : β → Buf α
  owner : β → Option ι
  idequeue : Option β
  qnext : β → Option β
  havedisk1 : Bool
  disk : Nat → Nat → α
  hw : Hw α
  queued : List (β × Buf α)
  served : Nat
  log : List (Cmd α)

variable [DecidableEq ι] [DecidableEq β]

/-- `*pp = b` -/
def Data.link (s : Data ι β α) (pp : Option β) (b : β) : Data ι β α :=
  let links := assign s.idequeue s.qnext pp (some b)
  { s with idequeue := links.1, qnext := links.2, queued := s.queued ++ [(b,s.buf b)] }

/-- `idestart`, unless it panics -/
def Data.idestart (s : Data ι β α) (b : β) : Option (Data ι β α) :=
  if (s.buf b).blockno ≥ FSSIZE then none else some { s with hw := .busy (s.buf b).cmd }

/-- A buffer after its request: what was read comes from the controller. -/
def Buf.finish (b : Buf α) (data : α) : Buf α :=
  { b with data := if b.dirty then b.data else data, valid := true, dirty := false }

/-- What a read from the controller's port gives. -/
def Hw.port : Hw α → Option α
  | .raised x => some x
  | .taken x => some x
  | _ => none

/-- `ideintr`, up to `wakeup`: the first buffer leaves the queue. -/
def Data.intr (s : Data ι β α) (b : β) : Data ι β α :=
  { s with
    idequeue := s.qnext b
    buf := update s.buf b ((s.buf b).finish (s.hw.port.getD (s.buf b).data))
    hw := .idle
    served := s.served + 1 }

/-- `idestart`, as a step of its caller, which goes on or panics. -/
def Data.start (s : Data ι β α) (b : β) (k k' : Point β) : Act β (Data ι β α) (Point β) :=
  match s.idestart b with
  | some s => .go s k
  | none => .go s k'

/-- What a process does next with `idelock`. -/
def act (k : Point β) (s : Data ι β α) : Act β (Data ι β α) (Point β) :=
  match k with
  | .begin b => .go { s with qnext := update s.qnext b none } (.append b none)
  | .append b pp => match deref s.idequeue s.qnext pp with
    | some c => .go s (.append b (some c))
    | none => .go (s.link pp b) (.check b s.queued.length)
  | .check b j => if s.idequeue = some b then s.start b (.wait b j) (.panicked (some (b,j))) else .go s (.wait b j)
  | .wait b j => if (s.buf b).Done then .release (.has b) else .sleep b (.wait b j)
  | .intr => match s.idequeue with
    | none => .go s .leave
    | some b => .go (s.intr b) (.wake b)
  | .wake b => .wakeup b .next
  | .next => match s.idequeue with
    | none => .go s .leave
    | some b => s.start b .leave (.panicked none)
  | .leave => .release .idle
  | .panicked r => .go s (.panicked r)
  -- the other points are in no section
  | k => .release k

/-- The sections of `idelock`. -/
def enter : Point β → Point β → Prop
  | .call b,.begin b' => b' = b
  | .irq,.intr => True
  | _,_ => False

/-- The disk after a command. -/
def Cmd.perform (c : Cmd α) (disk : Nat → Nat → α) : Nat → Nat → α :=
  match c.write with
  | some x => update disk c.disk (update (disk c.disk) c.sector x)
  | none => disk

/-- `iderw`'s checks of its buffer -/
def Data.Accepts (s : Data ι β α) (b : β) : Prop := ¬(s.buf b).Done ∧ ((s.buf b).dev ≠ 0 → s.havedisk1 = true)

/-- What happens without `idelock`: processes use the buffers that they have locked, the disk performs its command, and
    its interrupt is delivered. -/
inductive Outside (p : ι) : Point β → Data ι β α → Point β → Data ι β α → Prop where
  | lock {s} (b : β) (free : s.owner b = none) : Outside p .idle s (.has b) { s with owner := update s.owner b (some p) }
  | change {s} (b : β) (x : Buf α) : Outside p (.has b) s (.has b) { s with buf := update s.buf b x }
  | unlock {s} (b : β) : Outside p (.has b) s .idle { s with owner := update s.owner b none }
  | iderw {s} (b : β) (fine : s.Accepts b) : Outside p (.has b) s (.call b) s
  | panic {s} (b : β) (bad : ¬s.Accepts b) : Outside p (.has b) s (.panicked none) s
  | perform {s k} (c : Cmd α) (busy : s.hw = .busy c) :
    Outside p k s k { s with disk := c.perform s.disk, hw := .raised (s.disk c.disk c.sector), log := s.log ++ [c] }
  | interrupt {s x} (raised : s.hw = .raised x) : Outside p .idle s .irq { s with hw := .taken x }

/-- The driver as a monitor; its channels are the buffers. -/
def ide (ι β α : Type) [DecidableEq ι] [DecidableEq β] : Monitor ι β (Data ι β α) (Point β) where
  act _ _ := act
  enter _ := enter
  outside := Outside

/-- Before the first request. -/
def initial (buf : β → Buf α) (qnext : β → Option β) (havedisk1 : Bool) (disk : Nat → Nat → α) :
    World ι β (Data ι β α) (Point β) where
  data := ⟨buf,fun _ => none,none,qnext,havedisk1,disk,.idle,[],0,[]⟩
  lock := none
  ptable := none
  place _ := .out .idle
  killed _ := false

/-! ### The driver in memory -/

/-- `iderw` of `memide.c`, on a disk of `FSSIZE` blocks -/
def memide (b : Buf α) (memdisk : Nat → α) : Except String (Buf α × (Nat → α)) :=
  if b.Done then .error "iderw: nothing to do"
  else if b.dev ≠ 1 then .error "iderw: request not for disk 1"
  else if b.blockno ≥ FSSIZE then .error "iderw: block out of range"
  else if b.dirty then .ok ({ b with dirty := false, valid := true },update memdisk b.blockno b.data)
  else .ok ({ b with data := memdisk b.blockno, valid := true },memdisk)

/-- Requests one after the other: the buffers after them, and the disk. -/
def memides : List (Buf α) → (Nat → α) → Except String (List (Buf α) × (Nat → α))
  | [],m => .ok ([],m)
  | b :: bs,m => do
    let (b,m) ← memide b m
    let (bs,m) ← memides bs m
    pure (b :: bs,m)

section
omit [DecidableEq ι] [DecidableEq β]

theorem memides_cons {bs rs : List (Buf α)} {b : Buf α} {m m' : Nat → α} : memides (b :: bs) m = .ok (rs,m') ↔
    ∃ x, memide b m = .ok x ∧ ∃ ys, memides bs x.2 = .ok (ys,m') ∧ rs = x.1 :: ys := by
  rw [memides]
  rcases memide b m with why | x
  · exact ⟨nofun,nofun⟩
  · rcases rest : memides bs x.2 with why | ⟨ys,m₁⟩ <;> simp [bind,Except.bind,pure,Except.pure,rest]
    exact ⟨fun ⟨list,disk⟩ => ⟨disk,list.symm⟩,fun ⟨disk,list⟩ => ⟨list.symm,disk⟩⟩

theorem memides_snoc {bs rs : List (Buf α)} {b r : Buf α} {m m' m'' : Nat → α} (before : memides bs m = .ok (rs,m'))
    (last : memide b m' = .ok (r,m'')) : memides (bs ++ [b]) m = .ok (rs ++ [r],m'') := by
  induction bs generalizing rs m with
  | nil =>
    cases before
    exact memides_cons.mpr ⟨_,last,[],rfl,rfl⟩
  | cons c bs ih =>
    obtain ⟨x,first,ys,rest,rfl⟩ := memides_cons.mp before
    exact memides_cons.mpr ⟨x,first,_,ih rest,rfl⟩

theorem memides_length {bs rs : List (Buf α)} {m m' : Nat → α} (runs : memides bs m = .ok (rs,m')) :
    rs.length = bs.length := by
  induction bs generalizing rs m with
  | nil =>
    cases runs
    rfl
  | cons c bs ih =>
    obtain ⟨x,_,ys,rest,rfl⟩ := memides_cons.mp runs
    rw [List.length_cons,List.length_cons,ih rest]

theorem memide_cmd {b : Buf α} {disk : Nat → Nat → α} (todo : ¬b.Done) (dev : b.dev = 1) (range : b.blockno < FSSIZE) :
    memide b (disk 1) = .ok (b.finish (disk b.cmd.disk b.cmd.sector),b.cmd.perform disk 1) := by
  have number : b.cmd.disk = 1 := by simp [Buf.cmd,dev]
  have sector : b.cmd.sector = b.blockno := by simp [Buf.cmd,sector_per_block]
  unfold memide
  rw [if_neg todo,if_neg (by simpa using dev),if_neg (by omega),number,sector]
  by_cases dirty : b.dirty = true
  · simp only [if_pos dirty,Buf.finish,Cmd.perform,number,sector]
    simp [Buf.cmd,dirty]
  · have clean : b.dirty = false := by simpa using dirty
    simp [Buf.finish,Cmd.perform,Buf.cmd,clean]
end

/-! ### The invariant -/

/-- The buffer whose sleep-lock the process holds. -/
def Point.buf : Point β → Option β
  | .has b => some b
  | .call b => some b
  | .begin b => some b
  | .append b _ => some b
  | .check b _ => some b
  | .wait b _ => some b
  | .panicked r => r.map (·.1)
  | _ => none

/-- The buffer that the process waits for, and the number of the request. -/
def Point.waits : Point β → Option (β × Nat)
  | .check b j => some (b,j)
  | .wait b j => some (b,j)
  | .panicked r => r
  | _ => none

/-- The buffer that the process is going to append. -/
def Point.todo : Point β → Option β
  | .call b => some b
  | .begin b => some b
  | .append b _ => some b
  | _ => none

/-- The handler is on its way to the buffer. -/
def Point.handles : Point β → Bool
  | .irq => true
  | .intr => true
  | _ => false

/-- The buffers in the queue. -/
def Data.waiting (s : Data ι β α) : List β := (s.queued.drop s.served).map (·.1)

/-- The controller has nothing to do, or it has the command of the first request that is not served yet. -/
inductive Serves (s : Data ι β α) : Prop where
  | idle (hw : s.hw = .idle) (log : s.log.length = s.served)
  | busy {x : β × Buf α} (first : s.queued[s.served]? = some x) (hw : s.hw = .busy x.2.cmd) (range : x.2.blockno < FSSIZE)
    (log : s.log.length = s.served)
  | performed {x : β × Buf α} {y : α} (first : s.queued[s.served]? = some x) (hw : s.hw.port = some y)
    (log : s.log.length = s.served + 1)

omit [DecidableEq ι] [DecidableEq β] in
theorem Serves.congr {s s' : Data ι β α} (serves : Serves s) (hw : s'.hw = s.hw) (log : s'.log = s.log)
    (served : s'.served = s.served) (queued : s'.queued = s.queued) : Serves s' := by
  cases serves with
  | idle idle count => exact .idle (by rwa [hw]) (by rwa [log,served])
  | busy first busy range count => exact .busy (by rwa [queued,served]) (by rwa [hw]) range (by rwa [log,served])
  | performed first port count => exact .performed (by rwa [queued,served]) (by rwa [hw]) (by rwa [log,served])

/-- The driver in memory has done the same: its disk is disk 1, and its buffers are those of the requests that are served. -/
structure Agrees (disk : Nat → α) (s : Data ι β α) (point : ι → Point β) (rs : List (Buf α)) : Prop where
  runs : memides ((s.queued.take s.log.length).map (·.2)) disk = .ok (rs,s.disk 1)
  returned : ∀ {p b j}, (point p).waits = some (b,j) → j < s.served → rs[j]? = some (s.buf b)
  port : ∀ {x y}, s.queued[s.served]? = some x → s.hw.port = some y → rs[s.served]? = some (x.2.finish y)

/-- What holds of the driver; `started` says that the disk is at work if there is any. -/
structure Core (disk : Nat → α) (started : Bool) (s : Data ι β α) (point : ι → Point β) : Prop where
  chain : Chain s.qnext s.idequeue s.waiting
  count : s.served ≤ s.queued.length
  same : ∀ {j x}, s.served ≤ j → s.queued[j]? = some x → s.buf x.1 = x.2 ∧ ¬x.2.Done
  holds : ∀ {p b}, (point p).buf = some b → s.owner b = some p
  todo : ∀ {p b}, (point p).todo = some b → ¬(s.buf b).Done
  asked : ∀ {p b j}, (point p).waits = some (b,j) → ∃ x, s.queued[j]? = some x ∧ x.1 = b
  waited : ∀ {j x}, s.served ≤ j → s.queued[j]? = some x → ∃ p, (point p).waits = some (x.1,j)
  done : ∀ {p b j}, (point p).waits = some (b,j) → j < s.served → (s.buf b).Done
  serves : Serves s
  working : started = true → s.hw = .idle → s.queued.length = s.served
  stopped : started = false → s.hw = .idle
  log : s.log = (s.queued.take s.log.length).map (·.2.cmd)
  handler : ∀ {p}, (point p).handles = true → ∃ x, s.hw = .taken x
  alone : ∀ {p q}, (point p).handles = true → (point q).handles = true → p = q
  handled : ∀ {x}, s.hw = .taken x → ∃ p, (point p).handles = true
  agrees : (∀ x ∈ s.queued, x.2.dev = 1) → ∃ rs, Agrees disk s point rs

variable {disk : Nat → α} {started : Bool} {s : Data ι β α} {point : ι → Point β} {p q : ι} {b : β} {k : Point β}

section
omit [DecidableEq ι] [DecidableEq β]

theorem waits_buf {k : Point β} {j : Nat} (waits : k.waits = some (b,j)) : k.buf = some b := by
  cases k <;> simp_all [Point.waits,Point.buf]

theorem todo_buf {k : Point β} (todo : k.todo = some b) : k.buf = some b ∧ k.waits = none := by
  cases k <;> simp_all [Point.todo,Point.buf,Point.waits]

theorem mem_waiting : b ∈ s.waiting ↔ ∃ j x, s.served ≤ j ∧ s.queued[j]? = some x ∧ x.1 = b := by
  unfold Data.waiting
  rw [List.mem_map]
  constructor
  · rintro ⟨x,listed,same⟩
    obtain ⟨i,there⟩ := List.mem_iff_getElem?.mp listed
    rw [List.getElem?_drop] at there
    exact ⟨s.served + i,x,Nat.le_add_right _ _,there,same⟩
  · rintro ⟨j,x,le,there,same⟩
    refine ⟨x,List.mem_iff_getElem?.mpr ⟨j - s.served,?_⟩,same⟩
    rw [List.getElem?_drop,Nat.add_sub_cancel' le]
    exact there

section
variable (core : Core disk started s point)
include core

theorem Core.number {i j : Nat} {x y : β × Buf α} (le : s.served ≤ i) (le' : s.served ≤ j)
    (at_i : s.queued[i]? = some x) (at_j : s.queued[j]? = some y) (same : x.1 = y.1) : i = j := by
  obtain ⟨p,waits⟩ := core.waited le at_i
  obtain ⟨q,waits'⟩ := core.waited le' at_j
  have mine := core.holds (waits_buf waits)
  have his := core.holds (waits_buf waits')
  rw [same,his] at mine
  cases mine
  rw [waits'] at waits
  exact (congrArg Prod.snd (Option.some.inj waits)).symm

theorem Core.once : s.waiting.Nodup := by
  rw [List.nodup_iff_getElem?_ne_getElem?]
  intro i j less bound same
  simp only [Data.waiting,List.length_map,List.length_drop,List.getElem?_map,List.getElem?_drop] at same bound
  have there : s.served + j < s.queued.length := by omega
  have here : s.served + i < s.queued.length := by omega
  rw [List.getElem?_eq_getElem there,List.getElem?_eq_getElem here] at same
  have equal := core.number (Nat.le_add_right _ i) (Nat.le_add_right _ j) (List.getElem?_eq_getElem here)
    (List.getElem?_eq_getElem there) (Option.some.inj same)
  omega

theorem Core.holder (mine : (point p).buf = some b) (not : (point p).waits = none) :
    b ∉ s.waiting := by
  intro listed
  obtain ⟨j,x,le,there,rfl⟩ := mem_waiting.mp listed
  obtain ⟨q,waits⟩ := core.waited le there
  have his := core.holds (waits_buf waits)
  rw [core.holds mine] at his
  cases his
  rw [not] at waits
  cases waits

theorem Core.first (head : s.idequeue = some b) :
    ∃ x, s.queued[s.served]? = some x ∧ x.1 = b := by
  have first := core.chain.head_eq
  rw [head] at first
  unfold Data.waiting at first
  rw [List.head?_map,List.head?_drop] at first
  obtain ⟨x,there,same⟩ := Option.map_eq_some_iff.mp first.symm
  exact ⟨x,there,same⟩

theorem Core.head {x : β × Buf α} (first : s.queued[s.served]? = some x) :
    s.idequeue = some x.1 := by
  rw [core.chain.head_eq,Data.waiting,List.head?_map,List.head?_drop,first]
  rfl

end

theorem Core.emptied (core : Core disk started s point) (head : s.idequeue = none) : s.queued.length = s.served := by
  have count := core.count
  by_contra more
  have there : s.served < s.queued.length := by omega
  have := core.head (List.getElem?_eq_getElem there)
  rw [head] at this
  cases this
end

section
omit [DecidableEq β]

theorem point_same {γ : Type} (f : Point β → γ) (same : f k = f (point p)) (q : ι) : f (update point p k q) = f (point q) := by
  rcases eq_or_ne q p with rfl | other
  · rw [update_self,same]
  · rw [update_of_ne other]

theorem point_none {γ : Type} {f : Point β → Option γ} (none' : f k = none) {q : ι} {x : γ} (here : f (update point p k q) = some x) :
    q ≠ p ∧ f (point q) = some x := by
  rcases eq_or_ne q p with rfl | other
  · rw [update_self,none'] at here
    cases here
  · rw [update_of_ne other] at here
    exact ⟨other,here⟩

/-- Another process waits for a request that `p` does not wait for. -/
theorem Core.elsewhere (core : Core disk started s point) {j : Nat} {x : β × Buf α} (le : s.served ≤ j) (there : s.queued[j]? = some x)
    (not : ∀ c, (point p).waits ≠ some (c,j)) (k : Point β) : ∃ q, (update point p k q).waits = some (x.1,j) := by
  obtain ⟨q,asks⟩ := core.waited le there
  refine ⟨q,?_⟩
  rwa [update_of_ne]
  rintro rfl
  exact not _ asks

/-- A process moves on, with the same buffer, and it waits for the same request as before. -/
theorem Core.move (core : Core disk started s point) (buf : ∀ b, k.buf = some b → (point p).buf = some b)
    (todo : ∀ b, k.todo = some b → ¬(s.buf b).Done) (waits : k.waits = (point p).waits)
    (handles : k.handles = (point p).handles) : Core disk started s (update point p k) := by
  have waits' := point_same Point.waits waits
  have handles' := point_same Point.handles handles
  refine { core with
    holds := fun {q c} mine => ?_
    todo := fun {q c} new => ?_
    asked := fun {q c j} asks => core.asked ((waits' q).symm.trans asks)
    waited := fun le there => (core.waited le there).imp fun q asks => (waits' q).trans asks
    done := fun {q c j} asks => core.done ((waits' q).symm.trans asks)
    handler := fun {q} mine => core.handler ((handles' q).symm.trans mine)
    alone := fun {q q'} mine his => core.alone ((handles' q).symm.trans mine) ((handles' q').symm.trans his)
    handled := fun hw => (core.handled hw).imp fun q mine => (handles' q).trans mine
    agrees := fun ones => (core.agrees ones).imp fun rs agrees =>
      { agrees with returned := fun {q c j} asks => agrees.returned ((waits' q).symm.trans asks) } }
  · rcases eq_or_ne q p with rfl | other
    · rw [update_self] at mine
      exact core.holds (buf c mine)
    · rw [update_of_ne other] at mine
      exact core.holds mine
  · rcases eq_or_ne q p with rfl | other
    · rw [update_self] at new
      exact todo c new
    · rw [update_of_ne other] at new
      exact core.todo new
end

omit [DecidableEq ι] [DecidableEq β] in
theorem Core.log_le (core : Core disk started s point) : s.log.length ≤ s.queued.length := by
  have count := core.count
  cases core.serves with
  | idle hw log => omega
  | busy first hw range log => omega
  | performed first hw log =>
    have := (List.getElem?_eq_some_iff.mp first).1
    omega

section
omit [DecidableEq ι]

theorem Core.clear (core : Core disk started s point) (out : b ∉ s.waiting) :
    Core disk started { s with qnext := update s.qnext b none } point :=
  { core with
    chain := core.chain.congr fun _ listed => update_of_ne (ne_of_mem_of_not_mem listed out) _ _
    serves := core.serves.congr rfl rfl rfl rfl
    agrees := fun ones => (core.agrees ones).imp fun _ agrees => { agrees with } }

theorem waiting_link (count : s.served ≤ s.queued.length) (pp : Option β) : (s.link pp b).waiting = s.waiting ++ [b] := by
  simp [Data.waiting,Data.link,List.drop_append_of_le_length count]
end

/-- A buffer is appended to the queue; the disk is to be started if it is the first one there. -/
theorem Core.link (core : Core disk true s point) (new : (point p).todo = some b)
    (handles : (point p).handles = false) (clear : s.qnext b = none) :
    let s' := s.link s.waiting.getLast? b
    Core disk (decide (s'.idequeue ≠ some b)) s' (update point p (.check b s.queued.length)) := by
  intro s'
  obtain ⟨mine,not⟩ := todo_buf new
  have out := core.holder mine not
  have queued : s'.queued = s.queued ++ [(b,s.buf b)] := rfl
  have old {j : Nat} {x : β × Buf α} (there : s.queued[j]? = some x) : s'.queued[j]? = some x := by
    rw [queued,List.getElem?_append_left (List.getElem?_eq_some_iff.mp there).1,there]
  have cases' {j : Nat} {x : β × Buf α} (there : s'.queued[j]? = some x) :
      s.queued[j]? = some x ∨ j = s.queued.length ∧ x = (b,s.buf b) := by
    rw [queued,List.getElem?_append] at there
    split at there
    · exact .inl there
    · next bound =>
      obtain ⟨less,same⟩ := List.getElem?_eq_some_iff.mp there
      have zero : j - s.queued.length = 0 := by simpa using less
      simp only [zero,List.getElem_cons_zero] at same
      exact .inr ⟨by omega,same.symm⟩
  have waits {q : ι} {c : β} {j : Nat} (asks : (update point p (.check b s.queued.length) q).waits = some (c,j)) :
      (point q).waits = some (c,j) ∨ q = p ∧ c = b ∧ j = s.queued.length := by
    rcases eq_or_ne q p with rfl | other
    · rw [update_self] at asks
      cases asks
      exact .inr ⟨rfl,rfl,rfl⟩
    · rw [update_of_ne other] at asks
      exact .inl asks
  have handles' := point_same (k := .check b s.queued.length) Point.handles handles.symm
  have performs : s'.queued.take s'.log.length = s.queued.take s.log.length := List.take_append_of_le_length core.log_le
  have count := core.count
  constructor
  · rw [waiting_link core.count]
    exact core.chain.link core.once out clear
  · show s.served ≤ s'.queued.length
    rw [queued,List.length_append]
    omega
  · intro j x le there
    rcases cases' there with before | ⟨rfl,rfl⟩
    · exact core.same le before
    · exact ⟨rfl,core.todo new⟩
  · intro q c his
    rcases eq_or_ne q p with rfl | other
    · rw [update_self] at his
      cases his
      exact core.holds mine
    · rw [update_of_ne other] at his
      exact core.holds his
  · exact fun his => core.todo (point_none rfl his).2
  · intro q c j asks
    rcases waits asks with before | ⟨rfl,rfl,rfl⟩
    · obtain ⟨x,there,same⟩ := core.asked before
      exact ⟨x,old there,same⟩
    · exact ⟨(c,s.buf c),by rw [queued]; simp,rfl⟩
  · intro j x le there
    rcases cases' there with before | ⟨rfl,rfl⟩
    · exact core.elsewhere le before (by rw [not]; nofun) _
    · exact ⟨p,by rw [update_self]; rfl⟩
  · intro q c j asks less
    rcases waits asks with before | ⟨rfl,rfl,rfl⟩
    · exact core.done before less
    · exact absurd less (by show ¬s.queued.length < s.served; omega)
  · cases core.serves with
    | idle hw log => exact .idle hw log
    | busy first hw range log => exact .busy (old first) hw range log
    | performed first hw log => exact .performed (old first) hw log
  · -- the disk is at work for the first request
    intro working idle
    have ends := core.working rfl idle
    have none' : s.waiting = [] := by simp [Data.waiting,← ends]
    refine absurd ?_ (of_decide_eq_true working)
    show (assign s.idequeue s.qnext s.waiting.getLast? (some b)).1 = some b
    rw [none']
    rfl
  · -- nothing was in the queue
    intro first
    have first : s'.idequeue = some b := by simpa using first
    have head := (core.chain.link core.once out clear).head_eq
    change s'.idequeue = _ at head
    rw [first] at head
    have none' : s.waiting = [] := by
      cases list : s.waiting with
      | nil => rfl
      | cons c l =>
        rw [list] at head out
        cases head
        exact absurd List.mem_cons_self out
    have ends : s.queued.length ≤ s.served := by simpa [Data.waiting] using none'
    cases core.serves with
    | idle hw log => exact hw
    | busy first hw range log | performed first hw log =>
      have := (List.getElem?_eq_some_iff.mp first).1
      omega
  · rw [performs]
    exact core.log
  · intro q his
    exact core.handler ((handles' q).symm.trans his)
  · intro q q' his other
    exact core.alone ((handles' q).symm.trans his) ((handles' q').symm.trans other)
  · intro x hw
    exact (core.handled hw).imp fun q his => (handles' q).trans his
  · intro ones
    obtain ⟨rs,agrees⟩ := core.agrees fun x listed => ones x (by rw [queued]; exact List.mem_append_left _ listed)
    refine ⟨rs,?_,?_,?_⟩
    · rw [performs]
      exact agrees.runs
    · intro q c j asks less
      rcases waits asks with before | ⟨rfl,rfl,rfl⟩
      · exact agrees.returned before less
      · exact absurd less (by show ¬s.queued.length < s.served; omega)
    · intro x y there port
      rcases cases' there with before | ⟨ends,rfl⟩
      · exact agrees.port before port
      · cases core.serves with
        | idle hw log | busy first hw range log =>
          change s.hw.port = _ at port
          rw [hw] at port
          cases port
        | performed first hw log =>
          have bound := (List.getElem?_eq_some_iff.mp first).1
          change s.served = _ at ends
          omega

section
omit [DecidableEq ι] [DecidableEq β]

theorem Core.start (core : Core disk false s point) (head : s.idequeue = some b) {s' : Data ι β α}
    (starts : s.idestart b = some s') : Core disk true s' point := by
  obtain ⟨x,first,rfl⟩ := core.first head
  have idle := core.stopped rfl
  obtain ⟨same,todo⟩ := core.same (le_refl _) first
  unfold Data.idestart at starts
  split at starts
  · cases starts
  · next range =>
    cases starts
    rw [same] at range
    have log : s.log.length = s.served := by
      cases core.serves with
      | idle hw log => exact log
      | busy first hw range log => exact log
      | performed first hw log =>
        rw [idle] at hw
        cases hw
    exact { core with
      serves := .busy first (by rw [same]) (by omega) log
      working := nofun
      stopped := nofun
      handler := fun his => by
        obtain ⟨x,hw⟩ := core.handler his
        rw [idle] at hw
        cases hw
      handled := nofun
      agrees := fun ones => (core.agrees ones).imp fun rs agrees => { agrees with port := nofun } }

theorem Core.performed (core : Core disk started s point) {y : α} (taken : s.hw = .taken y) :
    (∃ x, s.queued[s.served]? = some x) ∧ s.log.length = s.served + 1 := by
  cases core.serves with
  | idle hw log | busy first hw range log =>
    rw [taken] at hw
    cases hw
  | performed first hw log => exact ⟨⟨_,first⟩,log⟩
end

section
variable (core : Core disk started s point)
include core

theorem Core.intr (handles : (point p).handles = true) (waits : (point p).waits = none)
    (head : s.idequeue = some b) : Core disk false (s.intr b) (update point p (.wake b)) := by
  obtain ⟨y,taken⟩ := core.handler handles
  obtain ⟨x,first,rfl⟩ := core.first head
  obtain ⟨same,todo⟩ := core.same (le_refl _) first
  obtain ⟨_,log⟩ := core.performed taken
  obtain ⟨bound,at_x⟩ := List.getElem?_eq_some_iff.mp first
  have drops : s.queued.drop s.served = x :: s.queued.drop (s.served + 1) := by
    rw [List.drop_eq_getElem_cons bound,at_x]
  have mine : (s.intr x.1).buf x.1 = x.2.finish y := by simp [Data.intr,taken,Hw.port,same]
  have others {c : β} (other : c ≠ x.1) : (s.intr x.1).buf c = s.buf c := update_of_ne other _ _
  -- who waits for this buffer waits for this request
  have number {q : ι} {j : Nat} (asks : (point q).waits = some (x.1,j)) : j = s.served := by
    obtain ⟨q',asks'⟩ := core.waited (le_refl _) first
    have his := core.holds (waits_buf asks)
    rw [core.holds (waits_buf asks')] at his
    cases his
    rw [asks'] at asks
    exact (congrArg Prod.snd (Option.some.inj asks)).symm
  have before {q : ι} {c : β} {j : Nat} (asks : (point q).waits = some (c,j)) (less : j < s.served + 1) (other : c ≠ x.1) :
      j < s.served := by
    by_contra more
    have here : j = s.served := by omega
    subst here
    obtain ⟨z,there,rfl⟩ := core.asked asks
    rw [first] at there
    cases there
    exact other rfl
  have old {q : ι} {c : β} {j : Nat} (asks : (update point p (.wake x.1) q).waits = some (c,j)) : (point q).waits = some (c,j) :=
    (point_none rfl asks).2
  have nobody (q : ι) : (update point p (.wake x.1) q).handles ≠ true := by
    rcases eq_or_ne q p with rfl | other
    · rw [update_self]
      exact nofun
    · rw [update_of_ne other]
      exact fun his => other (core.alone his handles)
  constructor
  · have chain := core.chain
    rw [Data.waiting,drops] at chain
    exact chain.tail
  · exact bound
  · intro j z le there
    have le : s.served + 1 ≤ j := le
    have apart : z.1 ≠ x.1 := by
      intro equal
      have := core.number (by omega) (le_refl _) there first equal
      omega
    rw [others apart]
    exact core.same (by omega) there
  · exact fun his => core.holds (point_none rfl his).2
  · intro q c his
    obtain ⟨_,his⟩ := point_none rfl his
    obtain ⟨mine,not⟩ := todo_buf his
    rw [others]
    · exact core.todo his
    · rintro rfl
      exact core.holder mine not (mem_waiting.mpr ⟨_,x,le_refl _,first,rfl⟩)
  · intro q c j asks
    exact core.asked (old asks)
  · intro j z le there
    have le : s.served + 1 ≤ j := le
    exact core.elsewhere (by omega) there (by rw [waits]; nofun) _
  · intro q c j asks less
    by_cases this : c = x.1
    · rw [this,mine]
      exact ⟨rfl,rfl⟩
    · rw [others this]
      exact core.done (old asks) (before (old asks) less this)
  · exact .idle rfl log
  · exact nofun
  · exact fun _ => rfl
  · exact core.log
  · exact fun {q} his => absurd his (nobody q)
  · exact fun {q _} his => absurd his (nobody q)
  · exact nofun
  · intro ones
    obtain ⟨rs,agrees⟩ := core.agrees ones
    refine ⟨rs,agrees.runs,?_,nofun⟩
    intro q c j asks less
    by_cases this : c = x.1
    · subst this
      rw [mine,number (old asks)]
      exact agrees.port first (by rw [taken]; rfl)
    · rw [others this]
      exact agrees.returned (old asks) (before (old asks) less this)

omit [DecidableEq ι] [DecidableEq β] in
theorem Core.perform {c : Cmd α} (busy : s.hw = .busy c) :
    Core disk started { s with disk := c.perform s.disk, hw := .raised (s.disk c.disk c.sector), log := s.log ++ [c] } point := by
  obtain ⟨x,first,rfl,range,log⟩ : ∃ x, s.queued[s.served]? = some x ∧ x.2.cmd = c ∧ x.2.blockno < FSSIZE ∧
      s.log.length = s.served := by
    cases core.serves with
    | idle hw log | performed first hw log =>
      rw [busy] at hw
      cases hw
    | @busy x first hw range log =>
      rw [busy] at hw
      cases hw
      exact ⟨x,first,rfl,range,log⟩
  obtain ⟨bound,at_x⟩ := List.getElem?_eq_some_iff.mp first
  have takes : s.queued.take (s.log ++ [x.2.cmd]).length = s.queued.take s.log.length ++ [x] := by
    rw [List.length_append,List.length_singleton,log,List.take_add_one,first]
    rfl
  exact { core with
    serves := .performed first rfl (by simp [log])
    working := nofun
    stopped := fun stops => by
      rw [core.stopped stops] at busy
      cases busy
    log := by
      show s.log ++ [x.2.cmd] = (s.queued.take (s.log ++ [x.2.cmd]).length).map (·.2.cmd)
      rw [takes,List.map_append,← core.log]
      rfl
    handler := fun his => by
      obtain ⟨y,hw⟩ := core.handler his
      rw [busy] at hw
      cases hw
    handled := nofun
    agrees := fun ones => by
      obtain ⟨rs,agrees⟩ := core.agrees ones
      have todo := (core.same (le_refl _) first).2
      have dev : x.2.dev = 1 := ones x (List.mem_of_getElem? first)
      have count : rs.length = s.served := by
        have := memides_length agrees.runs
        rw [List.length_map,List.length_take] at this
        omega
      refine ⟨rs ++ [x.2.finish (s.disk x.2.cmd.disk x.2.cmd.sector)],?_,?_,?_⟩
      · dsimp only
        rw [takes,List.map_append]
        exact memides_snoc agrees.runs (memide_cmd todo dev range)
      · intro q b j asks less
        have before := agrees.returned asks less
        rw [List.getElem?_append_left (List.getElem?_eq_some_iff.mp before).1]
        exact before
      · intro z y there port
        cases port
        dsimp only at there
        rw [first] at there
        cases there
        dsimp only
        rw [List.getElem?_append_right (by omega)]
        simp [count] }

omit [DecidableEq β] in
theorem Core.interrupt (idle : point p = .idle) {x : α} (raised : s.hw = .raised x) :
    Core disk started { s with hw := .taken x } (update point p .irq) := by
  have nobody (q : ι) : (point q).handles ≠ true := by
    intro his
    obtain ⟨y,hw⟩ := core.handler his
    rw [raised] at hw
    cases hw
  have only {q : ι} (his : (update point p .irq q).handles = true) : q = p := by
    by_contra other
    rw [update_of_ne other] at his
    exact nobody q his
  have old {q : ι} {c : β} {j : Nat} (asks : (update point p .irq q).waits = some (c,j)) : (point q).waits = some (c,j) :=
    (point_none rfl asks).2
  exact { core with
    holds := fun his => core.holds (point_none rfl his).2
    todo := fun his => core.todo (point_none rfl his).2
    asked := fun asks => core.asked (old asks)
    waited := fun le there => core.elsewhere le there (by rw [idle]; nofun) _
    done := fun asks => core.done (old asks)
    serves := by
      cases core.serves with
      | idle hw log | busy first hw range log =>
        rw [raised] at hw
        cases hw
      | performed first hw log => exact .performed first rfl log
    working := nofun
    stopped := fun stops => by
      rw [core.stopped stops] at raised
      cases raised
    handler := fun _ => ⟨x,rfl⟩
    alone := fun his other => (only his).trans (only other).symm
    handled := fun _ => ⟨p,by rw [update_self]; rfl⟩
    agrees := fun ones => (core.agrees ones).imp fun rs agrees =>
      { agrees with
        returned := fun asks => agrees.returned (old asks)
        port := fun first port => agrees.port first (by rw [raised]; exact port) } }

omit [DecidableEq ι] in
theorem Core.change (here : point p = .has b) (x : Buf α) :
    Core disk started { s with buf := update s.buf b x } point := by
  have mine : (point p).buf = some b := by rw [here]; rfl
  have out := core.holder mine (by rw [here]; rfl)
  have apart {q : ι} {c : β} (his : (point q).buf = some c) (other : point q ≠ .has b) : c ≠ b := by
    rintro rfl
    have owner := core.holds his
    rw [core.holds mine] at owner
    cases owner
    exact other here
  have asks_apart {q : ι} {c : β} {j : Nat} (asks : (point q).waits = some (c,j)) : c ≠ b := by
    refine apart (waits_buf asks) fun same => ?_
    rw [same] at asks
    cases asks
  exact { core with
    same := fun {j z} le there => by
      have other : z.1 ≠ b := ne_of_mem_of_not_mem (mem_waiting.mpr ⟨j,z,le,there,rfl⟩) out
      dsimp only
      rw [update_of_ne other]
      exact core.same le there
    todo := fun {q c} his => by
      have other : c ≠ b := by
        refine apart (todo_buf his).1 fun same => ?_
        rw [same] at his
        cases his
      dsimp only
      rw [update_of_ne other]
      exact core.todo his
    done := fun {q c j} asks less => by
      dsimp only
      rw [update_of_ne (asks_apart asks)]
      exact core.done asks less
    serves := core.serves.congr rfl rfl rfl rfl
    agrees := fun ones => (core.agrees ones).imp fun rs agrees =>
      { agrees with
        returned := fun {q c j} asks less => by
          dsimp only
          rw [update_of_ne (asks_apart asks)]
          exact agrees.returned asks less } }

/-- A sleep-lock changes hands: its owner, if any, is the one who moves. -/
theorem Core.owner {o : Option ι} (mine : s.owner b = none ∨ s.owner b = some p)
    (buf : ∀ c, k.buf = some c → c = b ∧ o = some p) (todo : k.todo = none) (waits : k.waits = none)
    (before : ∀ c j, (point p).waits = some (c,j) → j < s.served) (handles : k.handles = (point p).handles) :
    Core disk started { s with owner := update s.owner b o } (update point p k) := by
  have old {q : ι} {c : β} {j : Nat} (asks : (update point p k q).waits = some (c,j)) : (point q).waits = some (c,j) :=
    (point_none waits asks).2
  have handles' := point_same Point.handles handles
  exact { core with
    holds := fun {q c} his => by
      rcases eq_or_ne q p with rfl | other
      · rw [update_self] at his
        obtain ⟨rfl,rfl⟩ := buf c his
        simp
      · rw [update_of_ne other] at his
        have owner := core.holds his
        dsimp only
        rw [update_of_ne]
        · exact owner
        · rintro rfl
          rw [owner] at mine
          rcases mine with nobody | same
          · cases nobody
          · exact other (Option.some.inj same)
    todo := fun his => core.todo (point_none todo his).2
    asked := fun asks => core.asked (old asks)
    waited := fun le there => core.elsewhere le there (fun _ asks => absurd le (not_le.mpr (before _ _ asks))) _
    done := fun asks => core.done (old asks)
    serves := core.serves.congr rfl rfl rfl rfl
    handler := fun {q} his => core.handler ((handles' q).symm.trans his)
    alone := fun {q q'} his other => core.alone ((handles' q).symm.trans his) ((handles' q').symm.trans other)
    handled := fun hw => (core.handled hw).imp fun q his => (handles' q).trans his
    agrees := fun ones => (core.agrees ones).imp fun rs agrees =>
      { agrees with returned := fun asks => agrees.returned (old asks) } }

omit [DecidableEq ι] [DecidableEq β] in
theorem Core.finished {j : Nat} (waits : (point p).waits = some (b,j))
    (done : (s.buf b).Done) : j < s.served := by
  by_contra more
  obtain ⟨x,there,rfl⟩ := core.asked waits
  obtain ⟨same,todo⟩ := core.same (not_lt.mp more) there
  rw [same] at done
  exact todo done

theorem Core.return {j : Nat} (here : point p = .wait b j) (done : (s.buf b).Done) :
    Core disk started s (update point p (.has b)) := by
  have mine : s.owner b = some p := core.holds (by rw [here]; rfl)
  have returned := core.owner (k := .has b) (.inr mine) (fun c his => ⟨(Option.some.inj his).symm,rfl⟩) rfl rfl
    (fun c i asks => by
      rw [here] at asks
      cases asks
      exact core.finished (p := p) (by rw [here]; rfl) done) (by rw [here]; rfl)
  rwa [← mine,update_eq_self] at returned

theorem Core.outside {s' : Data ι β α} (does : Outside p (point p) s k s') :
    Core disk started s' (update point p k) := by
  generalize here : point p = k₀ at does
  cases does with
  | lock b free =>
    exact core.owner (.inl free) (fun c mine => ⟨(Option.some.inj mine).symm,rfl⟩) rfl rfl (by rw [here]; nofun)
      (by rw [here]; rfl)
  | change b x =>
    rw [← here,update_eq_self]
    exact core.change here x
  | unlock b =>
    exact core.owner (.inr (core.holds (by rw [here]; rfl))) nofun rfl rfl (by rw [here]; nofun) (by rw [here]; rfl)
  | iderw b fine =>
    refine core.move (fun c mine => by rw [here]; exact mine) (fun c new => ?_) (by rw [here]; rfl) (by rw [here]; rfl)
    cases new
    exact fine.1
  | panic b bad => exact core.move nofun nofun (by rw [here]; rfl) (by rw [here]; rfl)
  | perform c busy =>
    rw [← here,update_eq_self]
    exact core.perform busy
  | interrupt raised => exact core.interrupt here raised

end

omit [DecidableEq ι] in
theorem Outside.frame [DecidableEq ι] {k₀ : Point β} {s' : Data ι β α} (does : Outside p k₀ s k s') :
    s'.idequeue = s.idequeue ∧ s'.qnext = s.qnext ∧ s'.waiting = s.waiting := by
  cases does <;> exact ⟨rfl,rfl,rfl⟩

end Xv6.Ide
