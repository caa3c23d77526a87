import Xv6.Bio
import Xv6.Lib.Counts

/-!
The buffer cache is transparent. What the processes have put into blocks is a plain map from block numbers to bytes
(`plain`), a function of the history alone.
-/
namespace Xv6.Bio
open Function Xv6.Lib

variable {ι : Type}

/-- The map of block numbers to bytes after a history. -/
def plain (disk : Disk) : List (Label ι) → Disk
  | [] => disk
  | .put _ _ b data :: labels => update (plain disk labels) b data
  | _ :: labels => plain disk labels

/-- The buffer was modified, and neither logged nor written since. -/
def loose : List (Label ι) → Fin NBUF → Bool
  | [] => fun _ => false
  | .put _ i _ _ :: labels => update (loose labels) i true
  | .log_write _ i _ :: labels => update (loose labels) i false
  | .bwrite _ i :: labels => update (loose labels) i false
  | .install_trans _ i :: labels => update (loose labels) i false
  | _ :: labels => loose labels

/-- The block for which `log_write` has marked the buffer, until `install_trans` writes it. -/
def marked : List (Label ι) → Fin NBUF → Option Nat
  | [] => fun _ => none
  | .log_write _ i b :: labels => update (marked labels) i (some b)
  | .install_trans _ i :: labels => update (marked labels) i none
  | _ :: labels => marked labels

/-- Every step of the history satisfies the condition, given the history before it. -/
def Each (C : Label ι → List (Label ι) → Prop) : List (Label ι) → Prop
  | [] => True
  | label :: labels => C label labels ∧ Each C labels

/-- A buffer that is released is not loose. -/
def Tight : Label ι → List (Label ι) → Prop
  | .brelse _ i,before => loose before i = false
  | _,_ => True

/-- A buffer that is given to `bwrite` is not marked. -/
def Unmarked : Label ι → List (Label ι) → Prop
  | .bwrite _ i,before => marked before i = none
  | _,_ => True

/-- `bread` returns the bytes of the plain map. -/
def Reads (disk : Disk) : Label ι → List (Label ι) → Prop
  | .bread _ b data,before => data = plain disk before b
  | _,_ => True

/-- Modifications are followed by `log_write` or `bwrite` before the buffer is released. -/
def WrittenBack : List (Label ι) → Prop := Each Tight

/-- `log_write` replaces `bwrite`: no buffer marked by `log_write` is written but by `install_trans`. -/
def Replaced : List (Label ι) → Prop := Each Unmarked

/-- Every `bread` has returned the bytes of the plain map. -/
def Transparent (disk : Disk) : List (Label ι) → Prop := Each (Reads disk)

instance : DecidableRel (Tight (ι := ι)) := fun label before => by
  cases label <;> unfold Tight <;> infer_instance

instance : DecidableRel (Unmarked (ι := ι)) := fun label before => by
  cases label <;> unfold Unmarked <;> infer_instance

instance decidableEach (C : Label ι → List (Label ι) → Prop) [DecidableRel C] : DecidablePred (Each C)
  | [] => isTrue trivial
  | _ :: labels =>
    have := decidableEach C labels
    inferInstanceAs (Decidable (_ ∧ _))

instance : DecidablePred (WrittenBack (ι := ι)) := decidableEach Tight
instance : DecidablePred (Replaced (ι := ι)) := decidableEach Unmarked

/-! ### What a step does to the cache -/

variable [DecidableEq ι]

omit [DecidableEq ι] in
@[simp] theorem buf_set (io : Io ι) (i j : Fin NBUF) (v : Buf ι) :
    (io.set i v).buf j = if j = i then v else io.buf j := by
  unfold Io.set Io.buf Bcache.set
  by_cases same : j = i
  · subst same; simp
  · simp [same]

omit [DecidableEq ι] in
@[simp] theorem place_set (io : Io ι) (i : Fin NBUF) (v : Buf ι) : (io.set i v).place = io.place := rfl
omit [DecidableEq ι] in
@[simp] theorem memdisk_set (io : Io ι) (i : Fin NBUF) (v : Buf ι) : (io.set i v).memdisk = io.memdisk := rfl
omit [DecidableEq ι] in
@[simp] theorem links_set (io : Io ι) (i : Fin NBUF) (v : Buf ι) :
    (io.set i v).bcache.links = io.bcache.links := rfl
@[simp] theorem buf_move (io : Io ι) (p : ι) (place : Place) : (io.move p place).buf = io.buf := rfl
@[simp] theorem memdisk_move (io : Io ι) (p : ι) (place : Place) : (io.move p place).memdisk = io.memdisk := rfl
@[simp] theorem links_move (io : Io ι) (p : ι) (place : Place) :
    (io.move p place).bcache.links = io.bcache.links := rfl
@[simp] theorem place_move (io : Io ι) (p : ι) (place : Place) : (io.move p place).place = update io.place p place := rfl

/-- What a step can do to the cache, the disk and the buffers of the processes. -/
inductive Moves (io : Io ι) : Label ι → Io ι → Prop where
  | still {label : Label ι} (quiet : label = .tau ∨ label = .panic) : Moves io label io
  | bget {p : ι} {b : Nat} {i : Fin NBUF} {c : Bcache ι} (out : (io.place p).call = .out)
    (found : bget io.bcache ROOTDEV b = some (.ok (i,c))) :
    Moves io .tau ({ io with bcache := c }.move p { io.place p with call := .wants b i })
  | acquiresleep {p : ι} {b : Nat} {i : Fin NBUF} (wants : (io.place p).call = .wants b i) (free : (io.buf i).lock = none) :
    Moves io .tau ((io.set i { io.buf i with lock := some p }).move p { io.place p with call := .got b i })
  | bread {p : ι} {b : Nat} {i : Fin NBUF} (got : (io.place p).call = .got b i) (valid : (io.buf i).valid = true) :
    Moves io (.bread p b (io.buf i).data) (io.move p ⟨i :: (io.place p).held,.out⟩)
  | fill {p : ι} {b : Nat} {i : Fin NBUF} {buf : Buf ι} {memdisk : Disk} (got : (io.place p).call = .got b i)
    (invalid : (io.buf i).valid = false) (read : iderw (io.buf i) io.memdisk io.disksize = .ok (buf,memdisk)) :
    Moves io (.bread p b buf.data)
      (({ io with memdisk := memdisk }.set i buf).move p ⟨i :: (io.place p).held,.out⟩)
  | putBack {p : ι} {i : Fin NBUF} (drops : (io.place p).call = .drops i) :
    Moves io .tau ({ io with bcache := putBack io.bcache i }.move p { io.place p with call := .out })
  | put {p : ι} {i : Fin NBUF} {data : Block} (held : i ∈ (io.place p).held) :
    Moves io (.put p i (io.buf i).blockno data) (io.set i { io.buf i with data := data })
  | log_write {p : ι} {i : Fin NBUF} (held : i ∈ (io.place p).held) :
    Moves io (.log_write p i (io.buf i).blockno) (io.set i { io.buf i with dirty := true })
  /-- `bwrite` that panics in `iderw` -/
  | unwritten {p : ι} {i : Fin NBUF} (held : i ∈ (io.place p).held) :
    Moves io .panic (io.set i { io.buf i with dirty := true })
  | bwrite {p : ι} {i : Fin NBUF} {b : Buf ι} {memdisk : Disk} {label : Label ι} (held : i ∈ (io.place p).held)
    (wrote : iderw { io.buf i with dirty := true } io.memdisk io.disksize = .ok (b,memdisk))
    (write : label = .bwrite p i ∨ label = .install_trans p i) : Moves io label ({ io with memdisk := memdisk }.set i b)
  | brelse {p : ι} {k : Nat} {i : Fin NBUF} (out : (io.place p).call = .out) (held : (io.place p).held[k]? = some i) :
    Moves io (.brelse p i)
      ((io.set i { io.buf i with lock := none }).move p ⟨(io.place p).held.eraseIdx k,.drops i⟩)

variable {p : ι} {label : Label ι}

theorem inside_moves {io io' : Io ι} (step : inside io p = some (.ok (label,io'))) :
    Moves io label io' := by
  unfold inside at step
  cases call : (io.place p).call with
  | out => simp [call] at step
  | wants b i =>
    simp only [call] at step
    split at step
    · cases step
    · next free =>
      cases step
      exact .acquiresleep call (by simpa using free)
  | got b i =>
    simp only [call] at step
    split at step
    · next valid =>
      cases step
      have same : ({ io with memdisk := io.memdisk } : Io ι).set i (io.buf i) = io := by
        simp [Io.set,Io.buf,Bcache.set]
      rw [same]
      exact .bread call valid
    · next invalid =>
      split at step
      · cases step
      · next read =>
        cases step
        exact .fill call (by simpa using invalid) read
  | drops i =>
    simp only [call] at step
    cases step
    exact .putBack call

variable {i : Fin NBUF}

theorem bwrite_moves {s s' : State ι} {rest : List Cmd} {write label : Label ι}
    (held : i ∈ (s.io.place p).held) (kind : write = .bwrite p i ∨ write = .install_trans p i)
    (step : bwrite s p i rest write = (label,s')) : Moves s.io label s'.io := by
  unfold bwrite at step
  split at step
  · cases step
    exact .still (.inr rfl)
  · dsimp only at step
    split at step
    · cases step
      exact .unwritten held
    · next b memdisk wrote =>
      cases step
      exact .bwrite held wrote kind

theorem exec_moves {s s' : State ι} {rest : List Cmd} {cmd : Cmd}
    (out : (s.io.place p).call = .out) (step : exec s p rest cmd = some (label,s')) : Moves s.io label s'.io := by
  have quiet : ∀ {r : Label ι × State ι}, some r = some (label,s') → r.2.io = s.io → r.1 = .tau ∨ r.1 = .panic →
      Moves s.io label s'.io := by
    rintro r ⟨⟩ same kind
    rw [← same]
    exact .still kind
  cases cmd with
  | bread b =>
    simp only [exec] at step
    split at step
    · cases step
    · exact quiet step rfl (.inr rfl)
    · next i c found =>
      cases step
      exact .bget out found
  | put k data | putHead =>
    simp only [exec,bind,Option.bind] at step
    split at step
    · cases step
    · next i held =>
      cases step
      exact .put (List.mem_of_getElem? held)
  | log_write k =>
    simp only [exec] at step
    split at step
    · exact quiet step rfl (.inr rfl)
    · split at step
      · exact quiet step rfl (.inr rfl)
      · exact quiet step rfl (.inl rfl)
  | logging k =>
    simp only [exec,bind,Option.bind] at step
    split at step
    · cases step
    · next i held =>
      cases step
      exact .log_write (List.mem_of_getElem? held)
  | bwrite k =>
    simp only [exec,bind,Option.bind] at step
    split at step
    · cases step
    · next i held => exact bwrite_moves (List.mem_of_getElem? held) (.inl rfl) (Option.some.inj step)
  | install k =>
    simp only [exec,bind,Option.bind] at step
    split at step
    · cases step
    · next i held => exact bwrite_moves (List.mem_of_getElem? held) (.inr rfl) (Option.some.inj step)
  | brelse k =>
    simp only [exec,bind,Option.bind] at step
    split at step
    · cases step
    · next i held =>
      dsimp only at step
      split at step
      · exact quiet step rfl (.inr rfl)
      · cases step
        exact .brelse out held
  | copy dst src =>
    simp only [exec,bind,Option.bind] at step
    split at step
    · cases step
    · next i held =>
      dsimp only at step
      split at step
      · cases step
      · cases step
        exact .put (List.mem_of_getElem? held)
  | getHead =>
    simp only [exec,bind,Option.bind] at step
    split at step
    · cases step
    · exact quiet step rfl (.inl rfl)
  | begin_op =>
    simp only [exec] at step
    split at step
    · cases step
    · exact quiet step rfl (.inl rfl)
  | end_op =>
    simp only [exec] at step
    split at step
    · exact quiet step rfl (.inr rfl)
    · split at step
      · exact quiet step rfl (.inl rfl)
      · exact quiet step rfl (.inl rfl)
  | commit | write_log tail | install_trans tail =>
    simp only [exec] at step
    split at step
    · exact quiet step rfl (.inl rfl)
    · exact quiet step rfl (.inl rfl)
  | committed | clear | write_head | recover_from_log => exact quiet step rfl (.inl rfl)

theorem Step.moves {s s' : State ι} (step : Step s label s') : Moves s.io label s'.io := by
  cases step with
  | call => exact .still (.inl rfl)
  | next step =>
    unfold Bio.next at step
    split at step
    · cases step
    · split at step
      · cases step
      · next out _ => exact exec_moves out step
      · split at step
        · cases step
        · cases step
          exact .still (.inr rfl)
        · next inner =>
          cases step
          exact inside_moves inner

/-! ### References and locks -/

/-- The reference of a process inside `bread` or `brelse`. -/
def Call.refs : Call → Fin NBUF → Nat
  | .out,_ => 0
  | .wants _ j,i => if j = i then 1 else 0
  | .got _ j,i => if j = i then 1 else 0
  | .drops j,i => if j = i then 1 else 0

/-- The sleep-lock that `bget` has acquired. -/
def Call.owns : Call → Fin NBUF → Nat
  | .got _ j,i => if j = i then 1 else 0
  | _,_ => 0

/-- The references that a process has to a buffer. -/
def Place.refs (place : Place) (i : Fin NBUF) : Nat := place.held.count i + place.call.refs i

/-- How often a process has the sleep-lock of a buffer. -/
def Place.owns (place : Place) (i : Fin NBUF) : Nat := place.held.count i + place.call.owns i

variable [Fintype ι]

/-- The reference counts and the sleep-locks agree with what the processes hold. -/
structure Counted (io : Io ι) : Prop where
  refs : ∀ i, (io.buf i).refcnt = ∑ p, (io.place p).refs i
  locks : ∀ p i, (io.place p).owns i = if (io.buf i).lock = some p then 1 else 0

theorem Counted.change {io io' : Io ι} (counted : Counted io) (p : ι) (others : ∀ q, q ≠ p → io'.place q = io.place q)
    (refs : ∀ i, (io'.buf i).refcnt + (io.place p).refs i = (io.buf i).refcnt + (io'.place p).refs i)
    (mine : ∀ i, (io'.place p).owns i = if (io'.buf i).lock = some p then 1 else 0)
    (theirs : ∀ q, q ≠ p → ∀ i, (io'.buf i).lock = some q ↔ (io.buf i).lock = some q) : Counted io' where
  refs i := by
    have sum := sum_change (fun q => (io.place q).refs i) (fun q => (io'.place q).refs i) p
      fun q other => by simp only [others q other]
    have before := counted.refs i
    have after := refs i
    omega
  locks q i := by
    by_cases same : q = p
    · subst same
      exact mine i
    · rw [others q same,counted.locks q i]
      simp only [theirs q same i]

theorem Counted.le {io : Io ι} (counted : Counted io) (p : ι) (i : Fin NBUF) : (io.place p).refs i ≤ (io.buf i).refcnt := by
  rw [counted.refs i]
  exact Finset.single_le_sum (f := fun q => (io.place q).refs i) (fun _ _ => Nat.zero_le _) (Finset.mem_univ p)

theorem Counted.referenced {io : Io ι} (counted : Counted io) (held : i ∈ (io.place p).held) :
    (io.buf i).refcnt ≠ 0 := by
  have one : 0 < (io.place p).held.count i := List.count_pos_iff.mpr held
  have most := counted.le p i
  unfold Place.refs at most
  omega

/-! ### The bytes -/

/-- One buffer, compared with the plain map. -/
structure Sound (map : Disk) (b : Buf ι) : Prop where
  whole : b.dirty = true → b.valid = true
  rooted : b.valid = true → b.dev = ROOTDEV
  seen : b.valid = true → b.data = map b.blockno

/-- The cache and the disk show the plain map. -/
structure Coherent (map : Disk) (loose : Fin NBUF → Bool) (io : Io ι) : Prop where
  unique : ∀ i j, (io.buf i).dev = ROOTDEV → (io.buf j).dev = ROOTDEV → (io.buf i).blockno = (io.buf j).blockno → i = j
  sound : ∀ i, Sound map (io.buf i)
  filled : ∀ p, ∀ i ∈ (io.place p).held, (io.buf i).valid = true
  holder : ∀ i, loose i = true → ∃ p, i ∈ (io.place p).held
  stored : ∀ b, io.memdisk b = map b ∨
    ∃ i, (io.buf i).dev = ROOTDEV ∧ (io.buf i).blockno = b ∧ ((io.buf i).dirty = true ∨ loose i = true)

/-- The two agree on what the plain map is about. -/
structure Alike (a b : Buf ι) : Prop where
  valid : a.valid = b.valid
  dirty : a.dirty = b.dirty
  dev : a.dev = b.dev
  blockno : a.blockno = b.blockno
  data : a.data = b.data

section
omit [Fintype ι]
variable {map : Disk} {loose : Fin NBUF → Bool} {io io' : Io ι}

omit [DecidableEq ι] in
theorem Coherent.unique_of (good : Coherent map loose io)
    (same : ∀ i, (io'.buf i).dev = (io.buf i).dev ∧ (io'.buf i).blockno = (io.buf i).blockno) (i j : Fin NBUF) :
    (io'.buf i).dev = ROOTDEV → (io'.buf j).dev = ROOTDEV → (io'.buf i).blockno = (io'.buf j).blockno → i = j := by
  rw [(same i).1,(same j).1,(same i).2,(same j).2]
  exact good.unique i j

omit [DecidableEq ι] in
theorem Coherent.frame (good : Coherent map loose io) (same : ∀ i, Alike (io'.buf i) (io.buf i))
    (disk : io'.memdisk = io.memdisk) (filled : ∀ p, ∀ i ∈ (io'.place p).held, (io.buf i).valid = true)
    (holder : ∀ i, loose i = true → ∃ p, i ∈ (io'.place p).held) : Coherent map loose io' where
  unique := good.unique_of fun i => ⟨(same i).dev,(same i).blockno⟩
  sound i := by
    obtain ⟨whole,rooted,seen⟩ := good.sound i
    constructor
    · rw [(same i).dirty,(same i).valid]; exact whole
    · rw [(same i).valid,(same i).dev]; exact rooted
    · rw [(same i).valid,(same i).data,(same i).blockno]; exact seen
  filled p i held := (same i).valid.trans (filled p i held)
  holder := holder
  stored b := by
    rw [disk]
    refine (good.stored b).imp_right ?_
    rintro ⟨i,dev,blockno,why⟩
    refine ⟨i,(same i).dev.trans dev,(same i).blockno.trans blockno,?_⟩
    rw [(same i).dirty]
    exact why

variable {i : Fin NBUF}

section
variable (good : Coherent map loose io)
include good

omit [DecidableEq ι] in
theorem Coherent.clean (dev : (io.buf i).dev = ROOTDEV)
    (clean : (io.buf i).dirty = false) (tight : loose i = false) :
    io.memdisk (io.buf i).blockno = map (io.buf i).blockno := by
  rcases good.stored (io.buf i).blockno with same | ⟨j,root,block,why⟩
  · exact same
  · obtain rfl := good.unique j i root dev block
    simp [clean,tight] at why

omit [DecidableEq ι] in
/-- A buffer that nobody holds is given to a block that is not cached. -/
theorem Coherent.recycle {b : Nat} {v : Buf ι}
    (fresh : ∀ j, ¬((io.buf j).dev = ROOTDEV ∧ (io.buf j).blockno = b)) (clean : (io.buf i).dirty = false)
    (alone : ∀ p, i ∉ (io.place p).held) (block : v.blockno = b) (invalid : v.valid = false) (undirty : v.dirty = false)
    (buf : ∀ j, io'.buf j = if j = i then v else io.buf j) (disk : io'.memdisk = io.memdisk)
    (held : ∀ p, (io'.place p).held = (io.place p).held) : Coherent map loose io' where
  unique j k := by
    simp only [buf]
    split_ifs with first second second
    · intros; rw [first,second]
    · intro _ root same
      exact absurd ⟨root,same.symm.trans block⟩ (fresh k)
    · intro root _ same
      exact absurd ⟨root,same.trans block⟩ (fresh j)
    · exact good.unique j k
  sound j := by
    rw [buf]
    split_ifs with same
    · exact ⟨fun yes => by simp [undirty] at yes,fun yes => by simp [invalid] at yes,fun yes => by simp [invalid] at yes⟩
    · exact good.sound j
  filled p j member := by
    rw [held] at member
    rw [buf,if_neg (by rintro rfl; exact alone p member)]
    exact good.filled p j member
  holder j free := by
    obtain ⟨p,member⟩ := good.holder j free
    exact ⟨p,by rwa [held]⟩
  stored c := by
    rw [disk]
    refine (good.stored c).imp_right ?_
    rintro ⟨j,root,same,why⟩
    have other : j ≠ i := by
      rintro rfl
      rcases why with dirty | free
      · simp [clean] at dirty
      · obtain ⟨p,member⟩ := good.holder j free
        exact alone p member
    exact ⟨j,by rw [buf,if_neg other]; exact ⟨root,same,why⟩⟩

omit [DecidableEq ι] in
theorem Coherent.fill {v : Buf ι} (dev : (io.buf i).dev = ROOTDEV)
    (invalid : (io.buf i).valid = false) (same : v = { io.buf i with data := io.memdisk (io.buf i).blockno, valid := true })
    (buf : ∀ j, io'.buf j = if j = i then v else io.buf j) (disk : io'.memdisk = io.memdisk)
    (held : ∀ p j, j ∈ (io'.place p).held → j = i ∨ j ∈ (io.place p).held)
    (kept : ∀ p j, j ∈ (io.place p).held → j ∈ (io'.place p).held) : Coherent map loose io' := by
  have clean : (io.buf i).dirty = false := by
    by_contra dirty
    simp [(good.sound i).whole (by simpa using dirty)] at invalid
  have tight : loose i = false := by
    by_contra free
    obtain ⟨p,member⟩ := good.holder i (by simpa using free)
    simp [good.filled p i member] at invalid
  have bytes := good.clean dev clean tight
  have fields : ∀ j, (io'.buf j).dev = (io.buf j).dev ∧ (io'.buf j).blockno = (io.buf j).blockno ∧
      (io'.buf j).dirty = (io.buf j).dirty := by
    intro j
    rw [buf]
    split_ifs with here <;> simp [same,here]
  refine ⟨good.unique_of fun j => ⟨(fields j).1,(fields j).2.1⟩,fun j => ?_,fun p j member => ?_,fun j free => ?_,fun c => ?_⟩
  · rw [buf]
    split_ifs with here
    · subst same
      exact ⟨fun _ => rfl,fun _ => dev,fun _ => bytes⟩
    · exact good.sound j
  · rw [buf]
    split_ifs with here
    · rw [same]
    · exact good.filled p j ((held p j member).resolve_left here)
  · obtain ⟨p,member⟩ := good.holder j free
    exact ⟨p,kept p j member⟩
  · rw [disk]
    refine (good.stored c).imp_right ?_
    rintro ⟨j,root,block,why⟩
    exact ⟨j,(fields j).1.trans root,(fields j).2.1.trans block,by rwa [(fields j).2.2]⟩

omit [DecidableEq ι] in
theorem Coherent.put {p : ι} (held : i ∈ (io.place p).held) (data : Block) :
    Coherent (update map (io.buf i).blockno data) (update loose i true) (io.set i { io.buf i with data := data }) where
  unique := good.unique_of fun j => by
    rw [buf_set]
    split_ifs with same <;> simp [same]
  sound j := by
    have valid := good.filled p i held
    have root := (good.sound i).rooted valid
    rw [buf_set]
    split_ifs with same
    · exact ⟨fun _ => valid,fun _ => root,fun _ => by simp⟩
    · obtain ⟨whole,rooted,seen⟩ := good.sound j
      refine ⟨whole,rooted,fun yes => ?_⟩
      rw [update_of_ne]
      · exact seen yes
      · exact fun block => same (good.unique j i (rooted yes) root block)
  filled q j member := by
    rw [buf_set]
    split_ifs with same
    · subst same; exact good.filled q j member
    · exact good.filled q j member
  holder j free := by
    by_cases same : j = i
    · subst same; exact ⟨p,held⟩
    · rw [update_of_ne same] at free
      exact good.holder j free
  stored b := by
    have root := (good.sound i).rooted (good.filled p i held)
    by_cases here : b = (io.buf i).blockno
    · exact .inr ⟨i,by simp [root,here]⟩
    · rw [update_of_ne here]
      refine (good.stored b).imp_right ?_
      rintro ⟨j,dev,block,why⟩
      have other : j ≠ i := by rintro rfl; exact here block.symm
      exact ⟨j,by simpa [other] using ⟨dev,block,why⟩⟩

omit [DecidableEq ι] in
theorem Coherent.dirty (valid : (io.buf i).valid = true) :
    Coherent map loose (io.set i { io.buf i with dirty := true }) where
  unique := good.unique_of fun j => by
    rw [buf_set]
    split_ifs with same <;> simp [same]
  sound j := by
    rw [buf_set]
    split_ifs with same
    · exact ⟨fun _ => valid,(good.sound i).rooted,(good.sound i).seen⟩
    · exact good.sound j
  filled q j member := by
    rw [buf_set]
    split_ifs with same
    · exact valid
    · exact good.filled q j member
  holder := good.holder
  stored b := by
    refine (good.stored b).imp_right ?_
    rintro ⟨j,dev,block,why⟩
    refine ⟨j,?_⟩
    rw [buf_set]
    split_ifs with same
    · subst same; exact ⟨dev,block,.inl rfl⟩
    · exact ⟨dev,block,why⟩

omit [DecidableEq ι] in
theorem Coherent.tighten (dirty : (io.buf i).dirty = true) :
    Coherent map (update loose i false) io where
  unique := good.unique
  sound := good.sound
  filled := good.filled
  holder j free := by
    by_cases same : j = i
    · subst same; simp at free
    · rw [update_of_ne same] at free
      exact good.holder j free
  stored b := by
    refine (good.stored b).imp_right ?_
    rintro ⟨j,dev,block,why⟩
    refine ⟨j,dev,block,?_⟩
    by_cases same : j = i
    · subst same; exact .inl dirty
    · rwa [update_of_ne same]

end

omit [DecidableEq ι] in
theorem Coherent.write (good : Coherent map loose io) (dirty : (io.buf i).dirty = true)
    (tight : loose i = false) (buf : ∀ j, io'.buf j = if j = i then { io.buf i with dirty := false } else io.buf j)
    (disk : io'.memdisk = update io.memdisk (io.buf i).blockno (io.buf i).data) (place : io'.place = io.place) :
    Coherent map loose io' where
  unique := good.unique_of fun j => by
    rw [buf]
    split_ifs with same <;> simp [same]
  sound j := by
    rw [buf]
    split_ifs with same
    · exact ⟨fun yes => by simp at yes,(good.sound i).rooted,(good.sound i).seen⟩
    · exact good.sound j
  filled q j member := by
    rw [place] at member
    rw [buf]
    split_ifs with same
    · subst same; exact good.filled q j member
    · exact good.filled q j member
  holder := by rw [place]; exact good.holder
  stored b := by
    rw [disk]
    by_cases here : b = (io.buf i).blockno
    · left
      rw [here,update_self]
      exact (good.sound i).seen ((good.sound i).whole dirty)
    · rw [update_of_ne here]
      refine (good.stored b).imp_right ?_
      rintro ⟨j,dev,block,why⟩
      have other : j ≠ i := by rintro rfl; exact here block.symm
      exact ⟨j,by rw [buf,if_neg other]; exact ⟨dev,block,why⟩⟩
end

/-! ### Every run -/

/-- The list through the buffers has each of them once. -/
def Ringed (io : Io ι) : Prop := ∃ l, io.bcache.links.Lists l ∧ l.Perm (List.finRange NBUF)

/-- The buffer that `bget` has chosen has the block that it was asked for. -/
def Call.Right (buf : Fin NBUF → Buf ι) : Call → Prop
  | .wants b i => (buf i).blockno = b
  | .got b i => (buf i).blockno = b
  | _ => True

omit [DecidableEq ι] [Fintype ι] in
/-- What a process waits for or has got keeps its block, if the buffers with a reference do. -/
theorem Call.Right.keep {buf buf' : Fin NBUF → Buf ι} {call : Call} (right : call.Right buf)
    (same : ∀ i, call.refs i ≠ 0 → (buf' i).blockno = (buf i).blockno) : call.Right buf' := by
  cases call with
  | out => trivial
  | drops i => trivial
  | wants b i | got b i => exact (same i (by simp [Call.refs])).trans right

/-- What holds after every history, with the plain map and the loose buffers. -/
structure Good (map : Disk) (loose : Fin NBUF → Bool) (io : Io ι) : Prop where
  ring : Ringed io
  counted : Counted io
  used : ∀ i, (io.buf i).refcnt ≠ 0 → (io.buf i).dev = ROOTDEV
  asked : ∀ p, (io.place p).call.Right io.buf
  coherent : Coherent map loose io

section
omit [DecidableEq ι] [Fintype ι]

theorem Ringed.scan {io : Io ι} (ring : Ringed io) (test : Fin NBUF → Bool) :
    (∃ l : List (Fin NBUF), (∀ i, i ∈ l) ∧
      Links.scan io.bcache.links.next test (NBUF + 1) (io.bcache.links.next none) = some (l.find? test)) ∧
    ∃ l : List (Fin NBUF), Links.scan io.bcache.links.prev test (NBUF + 1) (io.bcache.links.prev none) = some (l.find? test) := by
  obtain ⟨l,lists,perm⟩ := ring
  have enough : l.length < NBUF + 1 := by simp [perm.length_eq]
  exact ⟨⟨l,fun i => perm.mem_iff.mpr (List.mem_finRange i),lists.scan_next test enough⟩,_,lists.scan_prev test enough⟩

/-- `bget` finds the block, or recycles a buffer for a block that is not cached. -/
theorem Ringed.bget {io : Io ι} (ring : Ringed io) {b : Nat} {i : Fin NBUF} {c : Bcache ι}
    (found : bget io.bcache ROOTDEV b = some (.ok (i,c))) :
    ((io.buf i).dev = ROOTDEV ∧ (io.buf i).blockno = b ∧
      c = io.bcache.set i { io.buf i with refcnt := (io.buf i).refcnt + 1 }) ∨
    ((∀ j, ¬((io.buf j).dev = ROOTDEV ∧ (io.buf j).blockno = b)) ∧ (io.buf i).refcnt = 0 ∧ (io.buf i).dirty = false ∧
      c = io.bcache.set i
        { io.buf i with dev := ROOTDEV, blockno := b, valid := false, dirty := false, refcnt := 1 }) := by
  obtain ⟨⟨l,all,first⟩,-⟩ := ring.scan (cached io.bcache ROOTDEV b)
  obtain ⟨-,m,second⟩ := ring.scan (unused io.bcache)
  simp only [Bio.bget,first,second] at found
  cases hit : l.find? (cached io.bcache ROOTDEV b) with
  | some j =>
    rw [hit] at found
    cases found
    have passes := List.find?_some hit
    simp only [cached,Bool.and_eq_true,beq_iff_eq] at passes
    exact .inl ⟨passes.1,passes.2,rfl⟩
  | none =>
    rw [hit] at found
    cases free : m.find? (unused io.bcache) with
    | none => simp [free] at found
    | some j =>
      rw [free] at found
      cases found
      have passes := List.find?_some free
      simp only [unused,Bool.and_eq_true,beq_iff_eq,Bool.not_eq_true'] at passes
      refine .inr ⟨?_,passes.1,passes.2,rfl⟩
      rintro j ⟨dev,block⟩
      have fails := List.find?_eq_none.mp hit j (all j)
      simp only [Io.buf] at dev block
      simp [cached,dev,block] at fails

theorem Ringed.putBack {io : Io ι} (ring : Ringed io) (i : Fin NBUF) :
    Ringed { io with bcache := putBack io.bcache i } := by
  obtain ⟨l,lists,perm⟩ := ring
  simp only [Ringed,Bio.putBack]
  split
  · obtain ⟨l',moved,same⟩ := lists.moveFront (perm.mem_iff.mpr (List.mem_finRange i))
    exact ⟨l',moved,same.trans perm⟩
  · exact ⟨l,lists,perm⟩

theorem putBack_buf (c : Bcache ι) (i j : Fin NBUF) :
    (putBack c i).buf j = if j = i then { c.buf i with refcnt := (c.buf i).refcnt - 1 } else c.buf j := by
  have plain : (putBack c i).buf = update c.buf i { c.buf i with refcnt := (c.buf i).refcnt - 1 } := by
    simp only [Bio.putBack]
    split <;> rfl
  rw [plain]
  by_cases same : j = i
  · subst same; simp
  · simp [same]

theorem binit_ringed (l : List (Fin NBUF)) : ∀ (r : Links (Fin NBUF)) (before : List (Fin NBUF)), r.Lists before →
    (l ++ before).Nodup → ∃ after, (l.foldl Links.insert r).Lists after ∧ after.Perm (l ++ before) := by
  induction l with
  | nil => exact fun r before lists _ => ⟨before,lists,.refl _⟩
  | cons i l ih =>
    intro r before lists nodup
    obtain ⟨fresh,rest⟩ := List.nodup_cons.mp nodup
    have next := lists.insert fun member => fresh (List.mem_append_right _ member)
    obtain ⟨after,lists',perm⟩ := ih (r.insert i) (i :: before) next
      (List.perm_middle.nodup_iff.mpr (List.nodup_cons.mpr ⟨fresh,rest⟩))
    exact ⟨after,lists',perm.trans List.perm_middle⟩
end

theorem boot_good (disk : Disk) (disksize start : Nat) (size : Int) :
    Good disk (fun _ => false) (boot (ι := ι) disk disksize start size).io where
  ring := by
    obtain ⟨l,lists,perm⟩ := binit_ringed (List.finRange NBUF) Links.empty [] .empty
      (by rw [List.append_nil]; exact List.nodup_finRange _)
    exact ⟨l,lists,by rwa [List.append_nil] at perm⟩
  counted := ⟨fun i => by simp [boot,Io.buf,binit,Place.refs,Call.refs],
    fun p i => by simp [boot,Io.buf,binit,Place.owns,Call.owns]⟩
  used i used := absurd rfl used
  asked p := trivial
  coherent := {
    unique := fun i j dev => absurd dev (by simp [boot,Io.buf,binit,ROOTDEV])
    sound := fun i => ⟨(nomatch ·),(nomatch ·),(nomatch ·)⟩
    filled := fun p i member => by cases member
    holder := fun i free => by cases free
    stored := fun b => .inl rfl }

omit [DecidableEq ι] [Fintype ι] in
theorem iderw_ok {b b' : Buf ι} {disk disk' : Disk} {size : Nat} (done : iderw b disk size = .ok (b',disk')) :
    if b.dirty then b' = { b with dirty := false, valid := true } ∧ disk' = update disk b.blockno b.data
    else b' = { b with data := disk b.blockno, valid := true } ∧ disk' = disk := by
  unfold iderw at done
  split_ifs at done ⊢
  all_goals
    cases done
    exact ⟨rfl,rfl⟩

variable {map : Disk} {loose : Fin NBUF → Bool} {io io' : Io ι}

section
variable (good : Good map loose io)
include good

theorem Good.same {map' : Disk} {loose' : Fin NBUF → Bool} {v : Buf ι}
    (links : io'.bcache.links = io.bcache.links) (place : io'.place = io.place)
    (buf : ∀ j, io'.buf j = if j = i then v else io.buf j) (dev : v.dev = (io.buf i).dev)
    (blockno : v.blockno = (io.buf i).blockno) (refcnt : v.refcnt = (io.buf i).refcnt) (lock : v.lock = (io.buf i).lock) (coherent : Coherent map' loose' io') :
    Good map' loose' io' where
  ring := by rw [Ringed,links]; exact good.ring
  counted := ⟨fun j => by
      rw [place,← good.counted.refs j,buf]
      split_ifs with same
      · rw [refcnt,same]
      · rfl,
    fun p j => by
      rw [place,good.counted.locks p j,buf]
      split_ifs with same <;> simp_all⟩
  used j := by
    rw [buf]
    split_ifs with same
    · subst same; rw [refcnt,dev]; exact good.used j
    · exact good.used j
  asked p := by
    rw [place]
    refine (good.asked p).keep fun j _ => ?_
    rw [buf]
    split_ifs with same
    · rw [blockno,same]
    · rfl
  coherent := coherent

/-- Process `p` goes on in `bread` or `brelse` of buffer `i`, which keeps its bytes. -/
theorem Good.pass {v : Buf ι} {place : Place} (ring : Ringed io')
    (buf : ∀ j, io'.buf j = if j = i then v else io.buf j) (disk : io'.memdisk = io.memdisk)
    (moved : io'.place = update io.place p place) (alike : Alike v (io.buf i))
    (refs : ∀ j, (if j = i then v.refcnt else (io.buf j).refcnt) + (io.place p).refs j = (io.buf j).refcnt + place.refs j)
    (mine : ∀ j, place.owns j = if (if j = i then v.lock else (io.buf j).lock) = some p then 1 else 0)
    (theirs : ∀ q, q ≠ p → (v.lock = some q ↔ (io.buf i).lock = some q))
    (used : v.refcnt ≠ 0 → (io.buf i).dev = ROOTDEV) (asked : place.call.Right io.buf) (filled : ∀ j ∈ place.held, (io.buf j).valid = true)
    (holder : ∀ j ∈ (io.place p).held, loose j = true → j ∈ place.held) : Good map loose io' where
  ring := ring
  counted := by
    refine good.counted.change p (fun q other => by rw [moved,update_of_ne other]) (fun j => ?_) (fun j => ?_) ?_
    · rw [moved,update_self,← refs j,buf]
      split_ifs <;> rfl
    · rw [moved,update_self,mine j,buf]
      split_ifs <;> rfl
    · intro q other j
      rw [buf]
      split_ifs with same
      · subst same; exact theirs q other
      · exact Iff.rfl
  used j := by
    rw [buf]
    split_ifs with same
    · rw [alike.dev]; exact used
    · exact good.used j
  asked q := by
    have before : (io'.place q).call.Right io.buf := by
      rw [moved]
      by_cases same : q = p
      · subst same; rwa [update_self]
      · rw [update_of_ne same]; exact good.asked q
    refine before.keep fun j _ => ?_
    rw [buf]
    split_ifs with same
    · rw [alike.blockno,same]
    · rfl
  coherent := by
    refine good.coherent.frame (fun j => ?_) disk (fun q j member => ?_) (fun j free => ?_)
    · rw [buf]
      split_ifs with same
      · subst same; exact alike
      · exact ⟨rfl,rfl,rfl,rfl,rfl⟩
    · rw [moved] at member
      by_cases same : q = p
      · subst same
        rw [update_self] at member
        exact filled j member
      · rw [update_of_ne same] at member
        exact good.coherent.filled q j member
    · obtain ⟨q,member⟩ := good.coherent.holder j free
      refine ⟨q,?_⟩
      rw [moved]
      by_cases same : q = p
      · subst same
        rw [update_self]
        exact holder j member free
      · rwa [update_of_ne same]

theorem Good.root (referenced : (io.place p).refs i ≠ 0) :
    (io.buf i).dev = ROOTDEV := by
  have most := good.counted.le p i
  exact good.used i (by omega)

theorem Good.right {b : Nat} (got : (io.place p).call = .got b i) : (io.buf i).blockno = b := by
  have right := good.asked p
  rwa [got] at right

theorem Good.hit {b : Nat} (out : (io.place p).call = .out)
    (dev : (io.buf i).dev = ROOTDEV) (block : (io.buf i).blockno = b) :
    Good map loose ((io.set i { io.buf i with refcnt := (io.buf i).refcnt + 1 }).move p
      { io.place p with call := .wants b i }) := by
  refine good.pass (v := { io.buf i with refcnt := (io.buf i).refcnt + 1 }) good.ring (fun j => by rw [buf_move,buf_set])
    rfl rfl ⟨rfl,rfl,rfl,rfl,rfl⟩ (fun j => ?_) (fun j => ?_) (fun q _ => Iff.rfl) (fun _ => dev)
    block (good.coherent.filled p) (fun j member _ => member)
  · by_cases same : j = i
    · subst same; simp [Place.refs,Call.refs,out]; omega
    · simp [Place.refs,Call.refs,out,same,Ne.symm same]
  · have mine := good.counted.locks p j
    simp only [Place.owns,Call.owns,out] at mine ⊢
    rw [mine]
    by_cases same : j = i <;> simp [same]

theorem Good.acquiresleep {b : Nat} (wants : (io.place p).call = .wants b i)
    (free : (io.buf i).lock = none) :
    Good map loose ((io.set i { io.buf i with lock := some p }).move p { io.place p with call := .got b i }) := by
  have right := good.asked p
  rw [wants] at right
  refine good.pass (v := { io.buf i with lock := some p }) good.ring (fun j => by rw [buf_move,buf_set])
    rfl rfl ⟨rfl,rfl,rfl,rfl,rfl⟩ (fun j => ?_) (fun j => ?_) (fun q other => ?_) (good.used i)
    right (good.coherent.filled p) (fun j member _ => member)
  · by_cases same : j = i
    · simp [Place.refs,Call.refs,wants,same]
    · simp [Place.refs,Call.refs,wants,same]
  · have mine := good.counted.locks p j
    simp only [Place.owns,Call.owns,wants] at mine ⊢
    by_cases same : j = i
    · subst same
      simp [free] at mine
      simp [mine]
    · simpa [same,Ne.symm same] using mine
  · simp [free,Ne.symm other]

theorem Good.bread {b : Nat} (got : (io.place p).call = .got b i)
    (valid : (io.buf i).valid = true) : Good map loose (io.move p ⟨i :: (io.place p).held,.out⟩) := by
  refine good.pass (i := i) (v := io.buf i) good.ring (fun j => ?_) rfl rfl ⟨rfl,rfl,rfl,rfl,rfl⟩ (fun j => ?_)
    (fun j => ?_) (fun q _ => Iff.rfl) (good.used i) trivial ?_ (fun j member _ => List.mem_cons_of_mem _ member)
  · rw [buf_move]
    split_ifs with same
    · rw [same]
    · rfl
  · by_cases same : j = i
    · subst same; simp [Place.refs,Call.refs,got]
    · simp [Place.refs,Call.refs,got,same,Ne.symm same]
  · have mine := good.counted.locks p j
    simp only [Place.owns,Call.owns,got] at mine ⊢
    by_cases same : j = i
    · subst same; simpa using mine
    · simpa [same,Ne.symm same] using mine
  · intro j member
    rcases List.mem_cons.mp member with rfl | before
    · exact valid
    · exact good.coherent.filled p j before

theorem Good.putBack (drops : (io.place p).call = .drops i) :
    Good map loose ({ io with bcache := putBack io.bcache i }.move p { io.place p with call := .out }) := by
  have most := good.counted.le p i
  have root : (io.buf i).dev = ROOTDEV := good.root (p := p) (by simp [Place.refs,Call.refs,drops])
  refine good.pass (v := { io.buf i with refcnt := (io.buf i).refcnt - 1 }) (good.ring.putBack i)
    (fun j => putBack_buf io.bcache i j) rfl rfl ⟨rfl,rfl,rfl,rfl,rfl⟩ (fun j => ?_) (fun j => ?_) (fun q _ => Iff.rfl)
    (fun _ => root) trivial (good.coherent.filled p) (fun j member _ => member)
  · by_cases same : j = i
    · subst same
      simp [Place.refs,Call.refs,drops] at most ⊢
      omega
    · simp [Place.refs,Call.refs,drops,same,Ne.symm same]
  · have mine := good.counted.locks p j
    simp only [Place.owns,Call.owns,drops] at mine ⊢
    rw [mine]
    by_cases same : j = i <;> simp [same]

end

theorem count_eraseIdx {held : List (Fin NBUF)} {k : Nat} (here : held[k]? = some i) (j : Fin NBUF) :
    (held.eraseIdx k).count j + (if i = j then 1 else 0) = held.count j := by
  obtain ⟨inside,rfl⟩ := List.getElem?_eq_some_iff.mp here
  rw [← (List.getElem_cons_eraseIdx_perm inside).count_eq j,List.count_cons]
  simp only [beq_iff_eq]

section
variable (good : Good map loose io)
include good

theorem Good.brelse {k : Nat} (out : (io.place p).call = .out)
    (held : (io.place p).held[k]? = some i) (tight : loose i = false) :
    Good map loose ((io.set i { io.buf i with lock := none }).move p ⟨(io.place p).held.eraseIdx k,.drops i⟩) := by
  have member : i ∈ (io.place p).held := List.mem_of_getElem? held
  have count := count_eraseIdx held
  refine good.pass (v := { io.buf i with lock := none }) good.ring (fun j => by rw [buf_move,buf_set])
    rfl rfl ⟨rfl,rfl,rfl,rfl,rfl⟩ (fun j => ?_) (fun j => ?_) (fun q other => ?_) (good.used i) trivial ?_ ?_
  · have change := count j
    by_cases same : j = i
    · subst same
      simp [Place.refs,Call.refs,out] at change ⊢
      omega
    · simp [Place.refs,Call.refs,out,same,Ne.symm same] at change ⊢
      omega
  · have mine := good.counted.locks p j
    have change := count j
    simp only [Place.owns,Call.owns,out] at mine ⊢
    by_cases same : j = i
    · subst same
      split_ifs at mine <;> simp at mine change ⊢ <;> omega
    · simp only [same,if_false,Ne.symm same] at change ⊢
      omega
  · have mine := good.counted.locks p i
    have pos : 0 < (io.place p).held.count i := List.count_pos_iff.mpr member
    have lock : (io.buf i).lock = some p := by
      by_contra unlocked
      rw [if_neg unlocked] at mine
      simp only [Place.owns] at mine
      omega
    simp [lock,Ne.symm other]
  · exact fun j inside => good.coherent.filled p j (List.mem_of_mem_eraseIdx inside)
  · intro j inside free
    have change := count j
    have pos : 0 < (io.place p).held.count j := List.count_pos_iff.mpr inside
    have other : i ≠ j := by
      rintro rfl
      simp [tight] at free
    rw [if_neg other] at change
    have left : 0 < ((io.place p).held.eraseIdx k).count j := by omega
    exact List.count_pos_iff.mp left

theorem Good.recycle {b : Nat} (out : (io.place p).call = .out)
    (fresh : ∀ j, ¬((io.buf j).dev = ROOTDEV ∧ (io.buf j).blockno = b)) (free : (io.buf i).refcnt = 0)
    (clean : (io.buf i).dirty = false) :
    Good map loose ((io.set i { io.buf i with dev := ROOTDEV, blockno := b, valid := false, dirty := false, refcnt := 1 }).move p
      { io.place p with call := .wants b i }) where
  ring := good.ring
  counted := by
    refine good.counted.change p (fun q other => by simp [other]) (fun j => ?_) (fun j => ?_) (fun q _ j => ?_)
    · by_cases same : j = i
      · subst same; simp [Place.refs,Call.refs,out,free]; omega
      · simp [Place.refs,Call.refs,out,same,Ne.symm same]
    · have mine := good.counted.locks p j
      simp only [Place.owns,Call.owns,out] at mine
      by_cases same : j = i
      · subst same; simpa [Place.owns,Call.owns] using mine
      · simpa [Place.owns,Call.owns,same] using mine
    · by_cases same : j = i <;> simp [same]
  used j := by
    rw [buf_move,buf_set]
    split_ifs with same
    · exact fun _ => rfl
    · exact good.used j
  asked q := by
    by_cases same : q = p
    · subst same; simp [Call.Right]
    · simp only [place_move,update_of_ne same,place_set]
      refine (good.asked q).keep fun j needed => ?_
      have most := good.counted.le q j
      unfold Place.refs at most
      have other : j ≠ i := by rintro rfl; omega
      rw [buf_move,buf_set,if_neg other]
  coherent := by
    refine good.coherent.recycle (b := b) fresh clean (fun q member => good.counted.referenced member free) ?_ ?_ ?_
      (fun j => by rw [buf_move,buf_set]) rfl (fun q => ?_)
    · rfl
    · rfl
    · rfl
    · by_cases same : q = p
      · subst same; simp
      · simp [same]

theorem Good.fill {b : Nat} (got : (io.place p).call = .got b i)
    (invalid : (io.buf i).valid = false) :
    Good map loose (io.set i { io.buf i with data := io.memdisk (io.buf i).blockno, valid := true }) := by
  have root : (io.buf i).dev = ROOTDEV := good.root (p := p) (by simp [Place.refs,Call.refs,got])
  exact good.same rfl rfl (fun j => buf_set ..) rfl rfl rfl rfl
    (good.coherent.fill root invalid rfl (fun j => buf_set ..) rfl (fun q j member => .inr member) fun q j member => member)

theorem Good.put (held : i ∈ (io.place p).held) (data : Block) :
    Good (update map (io.buf i).blockno data) (update loose i true) (io.set i { io.buf i with data := data }) :=
  good.same rfl rfl (fun _ => buf_set ..) rfl rfl rfl rfl (good.coherent.put held data)

theorem Good.dirty (held : i ∈ (io.place p).held) :
    Good map loose (io.set i { io.buf i with dirty := true }) :=
  good.same rfl rfl (fun _ => buf_set ..) rfl rfl rfl rfl (good.coherent.dirty (good.coherent.filled p i held))

theorem Good.log_write (held : i ∈ (io.place p).held) :
    Good map (update loose i false) (io.set i { io.buf i with dirty := true }) := by
  have dirty := good.dirty held
  exact ⟨dirty.ring,dirty.counted,dirty.used,dirty.asked,dirty.coherent.tighten (by simp)⟩

theorem Good.bwrite {b : Buf ι} {memdisk : Disk}
    (held : i ∈ (io.place p).held)
    (wrote : iderw { io.buf i with dirty := true } io.memdisk io.disksize = .ok (b,memdisk)) :
    Good map (update loose i false) ({ io with memdisk := memdisk }.set i b) := by
  have valid := good.coherent.filled p i held
  obtain ⟨rfl,rfl⟩ : b = { io.buf i with dirty := false, valid := true } ∧
      memdisk = update io.memdisk (io.buf i).blockno (io.buf i).data := by simpa using iderw_ok wrote
  have logged := good.log_write held
  refine good.same rfl rfl (fun j => buf_set ..) rfl rfl rfl rfl
    (logged.coherent.write (i := i) (by simp) (by simp) (fun j => ?_) (by simp) rfl)
  simp only [buf_set]
  split_ifs with same
  · simp [valid]
  · rfl

end

variable {labels : List (Label ι)}

/-- What a step does keeps what holds after every history, and `bread` returns the bytes of the map. -/
theorem Good.step {disk : Disk}
    (good : Good (plain disk labels) (Bio.loose labels) io) (moves : Moves io label io')
    (written : ∀ p i, label = .brelse p i → Bio.loose labels i = false) :
    Good (plain disk (label :: labels)) (Bio.loose (label :: labels)) io' ∧
      ∀ p b data, label = .bread p b data → data = plain disk labels b := by
  cases moves with
  | still quiet => rcases quiet with rfl | rfl <;> exact ⟨good,nofun⟩
  | @bget p b i c out found =>
    rcases good.ring.bget found with ⟨dev,block,rfl⟩ | ⟨fresh,free,clean,rfl⟩
    · exact ⟨good.hit out dev block,nofun⟩
    · exact ⟨good.recycle out fresh free clean,nofun⟩
  | acquiresleep wants free => exact ⟨good.acquiresleep wants free,nofun⟩
  | @bread p b i got valid =>
    refine ⟨good.bread got valid,?_⟩
    rintro _ _ _ ⟨⟩
    rw [← good.right got]
    exact (good.coherent.sound i).seen valid
  | @fill p b i buf memdisk got invalid read =>
    have clean : (io.buf i).dirty = false := by
      by_contra dirty
      simp [(good.coherent.sound i).whole (by simpa using dirty)] at invalid
    obtain ⟨rfl,rfl⟩ : buf = { io.buf i with data := io.memdisk (io.buf i).blockno, valid := true } ∧
        memdisk = io.memdisk := by simpa [clean] using iderw_ok read
    have filled := good.fill got invalid
    refine ⟨filled.bread (i := i) got (by simp),?_⟩
    rintro _ _ _ ⟨⟩
    have seen := (filled.coherent.sound i).seen (by simp)
    simpa [good.right got] using seen
  | putBack drops => exact ⟨good.putBack drops,nofun⟩
  | put held => exact ⟨good.put held _,nofun⟩
  | log_write held => exact ⟨good.log_write held,nofun⟩
  | unwritten held => exact ⟨good.dirty held,nofun⟩
  | bwrite held wrote write => rcases write with rfl | rfl <;> exact ⟨good.bwrite held wrote,nofun⟩
  | @brelse p k i out held => exact ⟨good.brelse out held (written p i rfl),nofun⟩

/-- A buffer that `log_write` has marked has the block, and cannot be recycled. -/
def Marks (labels : List (Label ι)) (io : Io ι) : Prop :=
  ∀ i b, marked labels i = some b → (io.buf i).dev = ROOTDEV ∧ (io.buf i).blockno = b ∧ (io.buf i).dirty = true

omit [DecidableEq ι] [Fintype ι] in
theorem Marks.one {labels labels' : List (Label ι)} (marks : Marks labels io) {v : Buf ι}
    (buf : ∀ j, io'.buf j = if j = i then v else io.buf j) (before : ∀ j, j ≠ i → marked labels' j = marked labels j)
    (here : ∀ b, marked labels' i = some b → v.dev = ROOTDEV ∧ v.blockno = b ∧ v.dirty = true) : Marks labels' io' := by
  intro j b mark
  rw [buf]
  split_ifs with other
  · subst other
    exact here b mark
  · rw [before j other] at mark
    exact marks j b mark

theorem Marks.step {disk : Disk}
    (good : Good (plain disk labels) (Bio.loose labels) io) (marks : Marks labels io) (moves : Moves io label io')
    (replaced : ∀ p i, label = .bwrite p i → marked labels i = none) : Marks (label :: labels) io' := by
  cases moves with
  | still quiet => rcases quiet with rfl | rfl <;> exact marks
  | @bget p b i c out found =>
    rcases good.ring.bget found with ⟨-,-,rfl⟩ | ⟨-,-,clean,rfl⟩
    · exact marks.one (fun _ => buf_set ..) (fun _ _ => rfl) (marks i)
    · refine marks.one (fun _ => buf_set ..) (fun _ _ => rfl) fun c mark => ?_
      have kept := marks i c mark
      simp [clean] at kept
  | @acquiresleep p b i wants free | @put p i data held | @brelse p k i out held =>
    exact marks.one (fun _ => buf_set ..) (fun _ _ => rfl) (marks i)
  | bread got valid => exact marks
  | @fill p b i buf memdisk got invalid read =>
    refine marks.one (fun _ => buf_set ..) (fun _ _ => rfl) fun c mark => ?_
    have kept := (good.coherent.sound i).whole (marks i c mark).2.2
    simp [kept] at invalid
  | @putBack p i drops => exact marks.one (fun j => putBack_buf io.bcache i j) (fun _ _ => rfl) (marks i)
  | @log_write p i held =>
    refine marks.one (fun _ => buf_set ..) (fun j other => by simp [marked,other]) fun c mark => ?_
    have root := (good.coherent.sound i).rooted (good.coherent.filled p i held)
    simp only [marked,update_self,Option.some.injEq] at mark
    exact ⟨root,mark,rfl⟩
  | @unwritten p i held =>
    exact marks.one (fun _ => buf_set ..) (fun _ _ => rfl) fun c mark => ⟨(marks i c mark).1,(marks i c mark).2.1,rfl⟩
  | @bwrite p i b memdisk label held wrote write =>
    rcases write with rfl | rfl
    · refine marks.one (fun _ => buf_set ..) (fun _ _ => rfl) fun c mark => ?_
      simp [marked,replaced p i rfl] at mark
    · refine marks.one (fun _ => buf_set ..) (fun j other => by simp [marked,other]) fun c mark => ?_
      simp [marked] at mark

variable {disksize start : Nat} {size : Int}

theorem Run.good {disk : Disk} {s : State ι} (run : Run (boot disk disksize start size) labels s)
    (written : WrittenBack labels) :
    Good (plain disk labels) (Bio.loose labels) s.io ∧ Transparent disk labels ∧ (Replaced labels → Marks labels s.io) := by
  induction run with
  | start => exact ⟨boot_good disk disksize start size,trivial,fun _ i b mark => nomatch mark⟩
  | @step labels s s' label run step ih =>
    obtain ⟨good,transparent,marks⟩ := ih written.2
    obtain ⟨good',returned⟩ := good.step step.moves fun p i same => by
      subst same
      exact written.1
    refine ⟨good',⟨?_,transparent⟩,fun replaced => (marks replaced.2).step good step.moves fun p i same => ?_⟩
    · cases label with
      | bread p b data => exact returned p b data rfl
      | _ => trivial
    · subst same
      exact replaced.1

instance : DecidablePred Cmd.Client := fun cmd => by
  cases cmd <;> first | exact isTrue trivial | exact isFalse id

/-- A process makes the calls one after the other, in at most `fuel` steps. -/
def play (p : ι) : Nat → List Cmd → List (Label ι) → State ι → Option (List (Label ι) × State ι)
  | 0, _, _, _ => none
  | fuel + 1, calls, labels, s =>
    if (s.todo p).isEmpty ∧ (s.io.place p).call = .out ∧ s.panic.isNone then
      match calls with
      | [] => some (labels,s)
      | cmd :: rest => if cmd.Client then play p fuel rest (.tau :: labels) (s.go p [cmd]) else none
    else
      match next s p with
      | none => none
      | some (label,s') => play p fuel calls (label :: labels) s'

omit [Fintype ι] in
theorem play_run {s₀ : State ι} : ∀ {fuel : Nat} {calls : List Cmd} {labels labels' : List (Label ι)} {s s' : State ι},
    Run s₀ labels s → play p fuel calls labels s = some (labels',s') → Run s₀ labels' s' := by
  intro fuel
  induction fuel with
  | zero => exact fun _ played => nomatch played
  | succ fuel ih =>
    intro calls labels labels' s s' run played
    unfold play at played
    split at played
    · next idle =>
      obtain ⟨free,out,alive⟩ := idle
      cases calls with
      | nil =>
        cases played
        exact run
      | cons cmd rest =>
        dsimp only at played
        split at played
        · next client => exact ih (run.step (.call (by simpa using alive) (by simpa using free) out client)) played
        · cases played
    · split at played
      · cases played
      · next moved => exact ih (run.step (.next moved)) played

/-- The buffer cache is transparent: `bread` returns what was last put into the block that it was
    asked for, a block is in one buffer at most, the list has every buffer once, and a buffer marked by `log_write`
    keeps its block until `install_trans` has written it, provided that nobody else gives it to
    `bwrite`. -/
theorem bcache_transparent (disk : Disk) (disksize start : Nat) (size : Int) {labels : List (Label ι)} {s : State ι}
    (run : Run (boot disk disksize start size) labels s) (written : WrittenBack labels) :
    Transparent disk labels ∧
    (Replaced labels → ∀ i b, marked labels i = some b →
      (s.io.buf i).dev = ROOTDEV ∧ (s.io.buf i).blockno = b ∧ (s.io.buf i).dirty = true) ∧
    (∀ i j, (s.io.buf i).dev = ROOTDEV → (s.io.buf j).dev = ROOTDEV → (s.io.buf i).blockno = (s.io.buf j).blockno → i = j) ∧
    Ringed s.io := by
  obtain ⟨good,transparent,marks⟩ := run.good written
  exact ⟨transparent,marks,good.coherent.unique,good.ring⟩

theorem play_boot (fuel : Nat) (calls : List Cmd) (C : List (Label Unit) × State Unit → Prop) [DecidablePred C]
    (played : (play () fuel calls [] (boot (fun _ _ => 0) 1000 2 30)).any (fun r => C r) = true) :
    ∃ labels s, Run (boot (fun _ _ => 0) 1000 2 30) labels s ∧ C (labels,s) := by
  obtain ⟨⟨labels,s⟩,result,holds⟩ := (Option.any_eq_true ..).mp played
  exact ⟨labels,s,play_run .start result,by simpa using holds⟩

/-- A block is read, modified and logged, and read again. -/
theorem bcache_transparent_logged : ∃ (labels : List (Label Unit)) (s : State Unit),
    Run (boot (fun _ _ => 0) 1000 2 30) labels s ∧ WrittenBack labels ∧ Replaced labels ∧
    Transparent (fun _ _ => 0) labels ∧
    ∃ i, marked labels i = some 100 ∧ (s.io.buf i).blockno = 100 ∧ (s.io.buf i).dirty = true := by
  obtain ⟨labels,s,run,written,replaced,mark⟩ := play_boot 40
    [.begin_op,.bread 100,.put 0 fun _ => 1,.log_write 0,.brelse 0,.bread 100]
    (fun r => WrittenBack r.1 ∧ Replaced r.1 ∧ marked r.1 ⟨0,by decide⟩ = some 100) (by decide +kernel)
  obtain ⟨reads,marks,-,-⟩ := bcache_transparent _ _ _ _ run written
  exact ⟨labels,s,run,written,replaced,reads,_,mark,(marks replaced _ _ mark).2⟩

/-- The condition on `bwrite` is needed: a block is logged and then modified again and written with
    `bwrite`. Its buffer is no longer dirty, and is recycled while the log still names the block. -/
theorem bwrite_unmarks : ∃ (labels : List (Label Unit)) (s : State Unit),
    Run (boot (fun _ _ => 0) 1000 2 30) labels s ∧ WrittenBack labels ∧ s.panic = none ∧
    ∃ i, marked labels i = some 100 ∧ (s.io.buf i).blockno = 229 := by
  obtain ⟨labels,s,run,written,alive,mark,block⟩ := play_boot 200
    ([.begin_op,.bread 100,.put 0 fun _ => 1,.log_write 0,.brelse 0,.bread 100,.put 0 fun _ => 2,.bwrite 0,.brelse 0] ++
      (List.range 30).map fun k => .bread (200 + k))
    (fun r => WrittenBack r.1 ∧ r.2.panic.isNone ∧ marked r.1 ⟨0,by decide⟩ = some 100 ∧
      (r.2.io.buf ⟨0,by decide⟩).blockno = 229) (by decide +kernel)
  exact ⟨labels,s,run,written,by simpa using alive,_,mark,block⟩

end Xv6.Bio
