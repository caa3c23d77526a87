import Xv6.Lib.Monitor
import Xv6.Lib.Slice

/-!
One pipe of `pipe.c` and the processes that share it. The descriptors of the two ends
are counted for each process: a process calls `piperead` or `pipewrite` only while it
has a descriptor of that end, `dup` and `fork` make more of them, and who closes the
last one calls `pipeclose`. The bytes are copied one by one under the pipe's lock.
All the bytes that were ever stored and returned are recorded, and the pipe is a
lossless queue (`pipe_fifo`), also when the counters wrap around.
-/
namespace Xv6.Pipes
open Xv6.Lib Function

/-- `PIPESIZE` -/
def PIPESIZE : Nat := 512

/-- `struct pipe`, without the spinlock. -/
structure Pipe where
  data : Nat → UInt8
  nread : UInt32
  nwrite : UInt32
  readopen : Bool
  writeopen : Bool

/-- `p->nread == p->nwrite` -/
def Pipe.Empty (pi : Pipe) : Prop := pi.nread = pi.nwrite

/-- `p->nwrite == p->nread + PIPESIZE` -/
def Pipe.Full (pi : Pipe) : Prop := pi.nwrite = pi.nread + 512

instance (pi : Pipe) : Decidable pi.Empty := inferInstanceAs (Decidable (_ = _))
instance (pi : Pipe) : Decidable pi.Full := inferInstanceAs (Decidable (_ = _))

/-- `p->data[p->nwrite++ % PIPESIZE] = b` -/
def Pipe.store (pi : Pipe) (b : UInt8) : Pipe :=
  { pi with data := update pi.data (pi.nwrite.toNat % PIPESIZE) b, nwrite := pi.nwrite + 1 }

/-- The byte that `p->data[p->nread++ % PIPESIZE]` gives. -/
def Pipe.front (pi : Pipe) : UInt8 := pi.data (pi.nread.toNat % PIPESIZE)

/-- The pipe after `p->data[p->nread++ % PIPESIZE]`. -/
def Pipe.advance (pi : Pipe) : Pipe := { pi with nread := pi.nread + 1 }

/-- The channels: the addresses of the two counters. -/
inductive Chan where
  | nread
  | nwrite
  deriving DecidableEq

/-- Where a process is. -/
inductive Point where
  | idle
  /-- It calls `pipewrite` with these bytes. -/
  | wantWrite (src : List UInt8)
  /-- `pipewrite`, after `acquire` -/
  | begin (src : List UInt8)
  /-- `pipewrite`, with `i` bytes stored; `new` if some were since it took the lock -/
  | write (src : List UInt8) (i : Nat) (new : Bool)
  /-- `pipewrite`, before `sleep` -/
  | writeSleep (src : List UInt8) (i : Nat)
  /-- `pipewrite`, before the last `release` -/
  | written
  /-- It calls `piperead` for so many bytes. -/
  | wantRead (n : Nat)
  /-- `piperead`, at the test of its first loop -/
  | read (n : Nat)
  /-- `piperead`, in its second loop, with the bytes that it has taken -/
  | copy (n : Nat) (taken : List UInt8)
  /-- `piperead`, after `wakeup` -/
  | copied (n : Nat) (taken : List UInt8)
  /-- `piperead`, before the last `release` -/
  | returned
  /-- The last descriptor of an end is closed; the flag is for the write end. -/
  | last (writable : Bool)
  /-- `pipeclose`, after `acquire` -/
  | close (writable : Bool)
  /-- `pipeclose`, before `wakeup` -/
  | closing (writable : Bool)
  /-- `pipeclose`, before `release` -/
  | closed
  deriving DecidableEq

variable {ι : Type}

/-- The pipe, the descriptors of its ends that each process has, and the history: the bytes stored, by whom; the calls
    of `piperead` that have returned, by whom and with which bytes; and for each process the bytes of its calls of
    `pipewrite` with how many of them it has stored. -/
structure Data (ι : Type) where
  pipe : Pipe
  readers : ι → Nat
  writers : ι → Nat
  stored : List (ι × UInt8)
  returned : List (ι × List UInt8)
  calls : ι → List (List UInt8 × Nat)

/-- The calls of a process when it has stored one more byte. -/
def oneMore : List (List UInt8 × Nat) → List (List UInt8 × Nat)
  | [] => []
  | [(src,i)] => [(src,i + 1)]
  | call :: calls => call :: oneMore calls

variable [DecidableEq ι]

/-- Process `p` starts a call of `pipewrite`. -/
def Data.call (s : Data ι) (p : ι) (src : List UInt8) : Data ι :=
  { s with calls := update s.calls p (s.calls p ++ [(src,0)]) }

/-- Process `p` stores a byte. -/
def Data.store (s : Data ι) (p : ι) (b : UInt8) : Data ι :=
  { s with pipe := s.pipe.store b, stored := s.stored ++ [(p,b)], calls := update s.calls p (oneMore (s.calls p)) }

/-- Process `p` returns from `piperead` with the bytes that it has copied. -/
def Data.returns (s : Data ι) (p : ι) (taken : List UInt8) : Data ι := { s with returned := s.returned ++ [(p,taken)] }

/-- An end is closed. -/
def Data.close (s : Data ι) (writable : Bool) : Data ι :=
  { s with pipe := if writable then { s.pipe with writeopen := false } else { s.pipe with readopen := false } }

/-- The channel that `pipeclose` wakes. -/
def wakes (writable : Bool) : Chan := if writable then .nread else .nwrite

/-- What process `p` does next with the pipe's lock. -/
def act (p : ι) (killed : Bool) (k : Point) (s : Data ι) : Act Chan (Data ι) Point :=
  match k with
  | .begin src => .go (s.call p src) (.write src 0 false)
  | .write src i _ => match src[i]? with
    | none => .wakeup .nread .written
    | some b =>
      if s.pipe.Full then
        if s.pipe.readopen = false ∨ killed then .release .idle  -- returns -1
        else .wakeup .nread (.writeSleep src i)
      else .go (s.store p b) (.write src (i + 1) true)
  | .writeSleep src i => .sleep .nwrite (.write src i false)
  | .written => .release .idle
  | .read n =>
    if s.pipe.Empty ∧ s.pipe.writeopen then
      if killed then .release .idle  -- returns -1
      else .sleep .nread (.read n)
    else .go s (.copy n [])
  | .copy n taken =>
    if taken.length < n ∧ ¬s.pipe.Empty then .go { s with pipe := s.pipe.advance } (.copy n (taken ++ [s.pipe.front]))
    else .wakeup .nwrite (.copied n taken)
  | .copied _ taken => .go (s.returns p taken) .returned
  | .returned => .release .idle
  | .close writable => .go (s.close writable) (.closing writable)
  | .closing writable => .wakeup (wakes writable) .closed
  | .closed => .release .idle  -- and frees the page, if both ends are closed
  | .idle => .release .idle
  | .wantWrite src => .release (.wantWrite src)
  | .wantRead n => .release (.wantRead n)
  | .last writable => .release (.last writable)

/-- The steps of `act`, each with what its test has found. -/
inductive Acts (p : ι) (killed : Bool) (s : Data ι) : Point → Act Chan (Data ι) Point → Prop where
  | begin {src} : Acts p killed s (.begin src) (.go (s.call p src) (.write src 0 false))
  | all {src i new} : Acts p killed s (.write src i new) (.wakeup .nread .written)
  | fail {src i new} (more : i < src.length) (full : s.pipe.Full) (stop : s.pipe.readopen = false ∨ killed = true) :
    Acts p killed s (.write src i new) (.release .idle)
  | full {src i new} (full : s.pipe.Full) (opened : s.pipe.readopen = true) :
    Acts p killed s (.write src i new) (.wakeup .nread (.writeSleep src i))
  | store {src i new b} (more : src[i]? = some b) (room : ¬s.pipe.Full) :
    Acts p killed s (.write src i new) (.go (s.store p b) (.write src (i + 1) true))
  | writeSleep {src i} : Acts p killed s (.writeSleep src i) (.sleep .nwrite (.write src i false))
  | readFail {n} : Acts p killed s (.read n) (.release .idle)
  | readSleep {n} (waits : s.pipe.Empty ∧ s.pipe.writeopen = true) : Acts p killed s (.read n) (.sleep .nread (.read n))
  | ready {n} (ready : ¬s.pipe.Empty ∨ s.pipe.writeopen = false) : Acts p killed s (.read n) (.go s (.copy n []))
  | take {n taken} (some' : ¬s.pipe.Empty) :
    Acts p killed s (.copy n taken) (.go { s with pipe := s.pipe.advance } (.copy n (taken ++ [s.pipe.front])))
  | copied {n taken} (done : ¬(taken.length < n ∧ ¬s.pipe.Empty)) :
    Acts p killed s (.copy n taken) (.wakeup .nwrite (.copied n taken))
  | returns {n taken} : Acts p killed s (.copied n taken) (.go (s.returns p taken) .returned)
  | close {writable} : Acts p killed s (.close writable) (.go (s.close writable) (.closing writable))
  | closing {writable} : Acts p killed s (.closing writable) (.wakeup (wakes writable) .closed)
  | written : Acts p killed s .written (.release .idle)
  | returned : Acts p killed s .returned (.release .idle)
  | closed : Acts p killed s .closed (.release .idle)
  | idle : Acts p killed s .idle (.release .idle)
  | wantWrite {src} : Acts p killed s (.wantWrite src) (.release (.wantWrite src))
  | wantRead {n} : Acts p killed s (.wantRead n) (.release (.wantRead n))
  | last {writable} : Acts p killed s (.last writable) (.release (.last writable))

theorem acts_of {p : ι} {killed : Bool} {k : Point} {s : Data ι} {a : Act Chan (Data ι) Point}
    (does : act p killed k s = a) : Acts p killed s k a := by
  subst does
  cases k with
  | write src i new =>
    simp only [act]
    split
    · exact .all
    · next b more =>
      split
      · next full =>
        split
        · next stop => exact .fail (List.getElem?_eq_some_iff.mp more).1 full (by simpa using stop)
        · next can => exact .full full (by simpa using fun shut => can (.inl shut))
      · next room => exact .store more room
  | read n =>
    simp only [act]
    split
    · next waits =>
      split
      · exact .readFail
      · exact .readSleep (by simpa using waits)
    · next ready => exact .ready ((not_and_or.mp ready).imp_right (by simp))
  | copy n taken =>
    simp only [act]
    split
    · next more => exact .take more.2
    · next done => exact .copied done
  | _ => constructor

/-- The sections of the pipe's lock. -/
def enter : Point → Point → Prop
  | .wantWrite src,.begin src' => src = src'
  | .wantRead n,.read n' => n = n'
  | .last writable,.close writable' => writable = writable'
  | _,_ => False

/-- What a process does without the lock: it calls a function, makes a descriptor for itself or for a child `q`, or
    closes one. -/
inductive Outside (p : ι) (s : Data ι) : Point → Data ι → Prop where
  | write (src : List UInt8) (has : 0 < s.writers p) : Outside p s (.wantWrite src) s
  | read (n : Nat) (has : 0 < s.readers p) : Outside p s (.wantRead n) s
  | dupRead (q : ι) (has : 0 < s.readers p) :
    Outside p s .idle { s with readers := update s.readers q (s.readers q + 1) }
  | dupWrite (q : ι) (has : 0 < s.writers p) :
    Outside p s .idle { s with writers := update s.writers q (s.writers q + 1) }
  | closeRead (has : 0 < s.readers p) (more : ∃ q, 0 < update s.readers p (s.readers p - 1) q) :
    Outside p s .idle { s with readers := update s.readers p (s.readers p - 1) }
  | closeWrite (has : 0 < s.writers p) (more : ∃ q, 0 < update s.writers p (s.writers p - 1) q) :
    Outside p s .idle { s with writers := update s.writers p (s.writers p - 1) }
  | lastRead (has : 0 < s.readers p) (none : ∀ q, update s.readers p (s.readers p - 1) q = 0) :
    Outside p s (.last false) { s with readers := update s.readers p (s.readers p - 1) }
  | lastWrite (has : 0 < s.writers p) (none : ∀ q, update s.writers p (s.writers p - 1) q = 0) :
    Outside p s (.last true) { s with writers := update s.writers p (s.writers p - 1) }

/-- The pipe as a monitor. -/
def pipes (ι : Type) [DecidableEq ι] : Monitor ι Chan (Data ι) Point where
  act := act
  enter _ := enter
  outside p k s k' s' := k = .idle ∧ Outside p s k' s'

/-- `pipealloc` has made the pipe for process `p`, which has one descriptor for each end. -/
def initial (p : ι) (data : Nat → UInt8) : World ι Chan (Data ι) Point where
  data := {
    pipe := ⟨data,0,0,true,true⟩
    readers := update (fun _ => 0) p 1
    writers := update (fun _ => 0) p 1
    stored := []
    returned := []
    calls := fun _ => [] }
  lock := none
  ptable := none
  place _ := .out .idle
  killed _ := false

/-- The worlds that any interleaving of calls reaches from a new pipe. -/
abbrev Reached (p : ι) (data : Nat → UInt8) (w : World ι Chan (Data ι) Point) : Prop :=
  Run (pipes ι) (fun _ _ => True) (initial p data) w

/-! ### The queue -/

/-- How many bytes are in the buffer. -/
def Pipe.count (pi : Pipe) : Nat := (pi.nwrite - pi.nread).toNat

/-- The bytes in the buffer, in the order in which they will be taken. -/
def Pipe.queue (pi : Pipe) : List UInt8 := (List.range pi.count).map fun j => pi.data ((pi.nread.toNat + j) % PIPESIZE)

theorem full_iff (pi : Pipe) : pi.Full ↔ pi.count = PIPESIZE := by
  unfold Pipe.Full Pipe.count PIPESIZE
  rw [UInt32.toNat_sub,← UInt32.toNat_inj,UInt32.toNat_add]
  have := pi.nread.toNat_lt
  have := pi.nwrite.toNat_lt
  have : (512 : UInt32).toNat = 512 := rfl
  omega

theorem divides : PIPESIZE ∣ 2 ^ 32 := by decide

variable {pi : Pipe}

theorem count_store (b : UInt8) (room : pi.count < PIPESIZE) : (pi.store b).count = pi.count + 1 :=
  distance_push (n := PIPESIZE) (by decide) room

theorem queue_store (b : UInt8) (room : pi.count < PIPESIZE) : (pi.store b).queue = pi.queue ++ [b] :=
  slice_snoc divides (by decide) room b

theorem count_advance (some' : ¬pi.Empty) : pi.advance.count + 1 = pi.count := (distance_succ some').symm

theorem queue_advance (some' : ¬pi.Empty) : pi.queue = pi.front :: pi.advance.queue := slice_cons divides some'

/-! ### The history -/

/-- The bytes that a process has stored. -/
def bytesOf (p : ι) (stored : List (ι × UInt8)) : List UInt8 := (stored.filter fun x => x.1 = p).map (·.2)

/-- The bytes that calls of `pipewrite` have stored. -/
def sent (calls : List (List UInt8 × Nat)) : List UInt8 := calls.flatMap fun call => call.1.take call.2

/-- The last call of a process is the one it is in. -/
def Current (calls : List (List UInt8 × Nat)) : Point → Prop
  | .write src i _ => ∃ before, calls = before ++ [(src,i)]
  | .writeSleep src i => ∃ before, calls = before ++ [(src,i)]
  | _ => True

theorem oneMore_append (before : List (List UInt8 × Nat)) (src : List UInt8) (i : Nat) :
    oneMore (before ++ [(src,i)]) = before ++ [(src,i + 1)] := by
  induction before with
  | nil => rfl
  | cons call before ih =>
    cases before with
    | nil => rfl
    | cons next before =>
      show call :: oneMore (next :: before ++ [(src,i)]) = _
      rw [ih]
      rfl

theorem sent_oneMore {calls before : List (List UInt8 × Nat)} {src : List UInt8} {i : Nat} {b : UInt8}
    (last : calls = before ++ [(src,i)]) (here : src[i]? = some b) : sent (oneMore calls) = sent calls ++ [b] := by
  rw [last,oneMore_append]
  unfold sent
  simp only [List.flatMap_append,List.flatMap_cons,List.flatMap_nil,List.append_nil,List.append_assoc]
  rw [List.take_add_one,here]
  rfl

/-- Whose bytes were stored, at every moment. -/
structure Sent (s : Data ι) (point : ι → Point) : Prop where
  own : ∀ p, bytesOf p s.stored = sent (s.calls p)
  current : ∀ p, Current (s.calls p) (point p)

variable {point : ι → Point} {p : ι}

theorem current_update {calls : ι → List (List UInt8 × Nat)} {k : Point}
    (current : ∀ q, Current (calls q) (point q)) (mine : Current (calls p) k) (q : ι) : Current (calls q) (update point p k q) := by
  rcases eq_or_ne q p with rfl | other
  · rwa [update_self]
  · rw [update_of_ne other]
    exact current q

theorem Sent.same {s s' : Data ι} {k : Point} (sent : Sent s point) (stored : s'.stored = s.stored)
    (calls : s'.calls = s.calls) (mine : Current (s.calls p) k) : Sent s' (update point p k) where
  own := by
    rw [stored,calls]
    exact sent.own
  current := by
    rw [calls]
    exact current_update sent.current mine

theorem Sent.call {s : Data ι} (sent : Sent s point) (src : List UInt8) :
    Sent (s.call p src) (update point p (.write src 0 false)) where
  own q := by
    show bytesOf q s.stored = Pipes.sent (update s.calls p _ q)
    rw [sent.own q]
    rcases eq_or_ne q p with rfl | other
    · simp [Pipes.sent]
    · rw [update_of_ne other]
  current q := by
    show Current (update s.calls p _ q) _
    rcases eq_or_ne q p with rfl | other
    · rw [update_self,update_self]
      exact ⟨s.calls q,rfl⟩
    · rw [update_of_ne other,update_of_ne other]
      exact sent.current q

theorem Sent.store {s : Data ι} {src : List UInt8} {i : Nat} {new : Bool} {b : UInt8}
    (sent : Sent s point) (here : point p = .write src i new) (next : src[i]? = some b) :
    Sent (s.store p b) (update point p (.write src (i + 1) true)) := by
  have current := sent.current p
  rw [here] at current
  obtain ⟨before,last⟩ := current
  constructor
  · intro q
    show bytesOf q (s.stored ++ [(p,b)]) = Pipes.sent (update s.calls p _ q)
    have own := sent.own q
    unfold bytesOf at own ⊢
    rw [List.filter_append,List.map_append,own]
    rcases eq_or_ne q p with rfl | other
    · rw [update_self,sent_oneMore last next]
      simp
    · rw [update_of_ne other]
      simp [Ne.symm other]
  · intro q
    show Current (update s.calls p _ q) _
    rcases eq_or_ne q p with rfl | other
    · rw [update_self,update_self,last,oneMore_append]
      exact ⟨before,rfl⟩
    · rw [update_of_ne other,update_of_ne other]
      exact sent.current q

variable {data : Nat → UInt8} {w : World ι Chan (Data ι) Point}

theorem Reached.sent (run : Reached p data w) : Sent w.data w.point := by
  refine run.points ?_ (fun s point p k sent enters => ?_) (fun s point p killed x sent acts => ?_)
    fun s point p k s' sent does => ?_
  · exact ⟨fun _ => rfl,fun _ => trivial⟩
  · refine sent.same rfl rfl ?_
    revert enters
    cases point p <;> cases k <;> simp [pipes,enter,Current]
  · subst acts
    have current := sent.current p
    have does := acts_of (rfl : act p killed (point p) s = _)
    simp only [pipes]
    generalize act p killed (point p) s = a at does
    generalize here : point p = k at current does
    cases does with
    | begin => exact sent.call _
    | full | writeSleep => exact sent.same rfl rfl current
    | store more => exact sent.store here more
    | _ => exact sent.same rfl rfl trivial
  · obtain ⟨_,does⟩ := does
    cases does <;> exact sent.same rfl rfl trivial

/-! ### The queue in a section -/

/-- The bytes that calls of `piperead` have returned, those that the call in its loop has copied, and those in the
    buffer are the bytes stored, in this order. -/
structure Fifo (s : Data ι) (hand : List UInt8) : Prop where
  bound : s.pipe.count ≤ PIPESIZE
  order : s.stored.map (·.2) = s.returned.flatMap (·.2) ++ hand ++ s.pipe.queue

/-- The bytes that a process has taken out of the buffer and not returned yet. -/
def hand : Point → List UInt8
  | .copy _ taken => taken
  | .copied _ taken => taken
  | _ => []

/-- A writer that is about to sleep has found the buffer full and the read end open. A reader that has taken no bytes
    has found the write end closed or the buffer not empty. -/
def Known : Point → Pipe → Prop
  | .writeSleep _ _,pi => pi.Full ∧ pi.readopen = true
  | .copy _ taken,pi => taken = [] → ¬pi.Empty ∨ pi.writeopen = false
  | .copied n taken,pi => taken = [] → 0 < n → pi.Empty ∧ pi.writeopen = false
  | _,_ => True

/-- Where a process is in a section, or goes on in one, with nothing in its hands. -/
def Plain (k : Point) : Prop := hand k = [] ∧ ∀ pi, Known k pi

variable {s : Data ι} {h : List UInt8}

theorem Fifo.store {b : UInt8} (fifo : Fifo s []) (room : ¬s.pipe.Full) : Fifo (s.store p b) [] := by
  have bound := fifo.bound
  rw [full_iff] at room
  have room : s.pipe.count < PIPESIZE := by omega
  constructor
  · show (s.pipe.store b).count ≤ PIPESIZE
    rw [count_store b room]
    exact room
  · show (s.stored ++ [(p,b)]).map (·.2) = s.returned.flatMap (·.2) ++ [] ++ (s.pipe.store b).queue
    rw [queue_store b room,List.map_append,fifo.order]
    simp

section
omit [DecidableEq ι]

theorem Fifo.take (fifo : Fifo s h) (some' : ¬s.pipe.Empty) :
    Fifo { s with pipe := s.pipe.advance } (h ++ [s.pipe.front]) := by
  have bound := fifo.bound
  have less := count_advance some'
  constructor
  · show s.pipe.advance.count ≤ PIPESIZE
    omega
  · rw [fifo.order,queue_advance some']
    simp

theorem Fifo.returns (fifo : Fifo s h) : Fifo (s.returns p h) [] := by
  refine ⟨fifo.bound,?_⟩
  show s.stored.map (·.2) = (s.returned ++ [(p,h)]).flatMap (·.2) ++ [] ++ s.pipe.queue
  rw [List.flatMap_append]
  simpa using fifo.order

theorem Fifo.close (fifo : Fifo s h) (writable : Bool) : Fifo (s.close writable) h := by
  cases writable <;> exact ⟨fifo.bound,fifo.order⟩
end

theorem Fifo.outside {s' : Data ι} {k : Point} (fifo : Fifo s h) (does : Outside p s k s') : Fifo s' h := by
  cases does <;> exact ⟨fifo.bound,fifo.order⟩

theorem guards : Guards (pipes ι) (fun s _ => Fifo s []) (fun p s point => Fifo s (hand (point p)) ∧ Known (point p) s.pipe)
    Plain where
  enter {s point p k} fifo enters := by
    rw [update_self]
    revert enters
    cases point p <;> cases k <;> simp [pipes,enter,Known,hand,fifo]
  resume {s point p} fifo plain := ⟨plain.1.symm ▸ fifo,plain.2 s.pipe⟩
  go {s point p b s' k} held acts := by
    obtain ⟨fifo,known⟩ := held
    rw [update_self]
    generalize point p = j at *
    cases acts_of acts with
    | begin => exact ⟨⟨fifo.bound,fifo.order⟩,trivial⟩
    | store more room => exact ⟨fifo.store room,trivial⟩
    | ready ready => exact ⟨fifo,fun _ => ready⟩
    | take some' => exact ⟨fifo.take some',by simp [Known]⟩
    | returns => exact ⟨fifo.returns,trivial⟩
    | close => exact ⟨fifo.close _,trivial⟩
  wakeup {s point p b c k} held acts := by
    obtain ⟨fifo,known⟩ := held
    rw [update_self]
    generalize point p = j at *
    cases acts_of acts with
    | full full opened => exact ⟨fifo,full,opened⟩
    | @copied n taken done =>
      refine ⟨fifo,fun none wanted => ?_⟩
      have empty : s.pipe.Empty := by
        by_contra some'
        exact done ⟨by rw [none]; exact wanted,some'⟩
      exact ⟨empty,(known none).resolve_left (not_not.mpr empty)⟩
    | all | closing => exact ⟨fifo,trivial⟩
  sleep {s point p b c k} held acts := by
    have fifo := held.1
    generalize point p = j at *
    cases acts_of acts <;> exact ⟨fifo,rfl,fun _ => trivial⟩
  release {s point p b k} held acts := by
    have fifo := held.1
    generalize point p = j at *
    cases acts_of acts <;> exact fifo
  free fifo does := fifo.outside does.2
  held {s point p q k s'} held other does := by
    rw [update_of_ne (Ne.symm other)]
    refine ⟨held.1.outside does.2,?_⟩
    obtain ⟨_,does⟩ := does
    cases does <;> exact held.2

theorem initial_locked (p : ι) (data : Nat → UInt8) : Locked (initial p data) :=
  ⟨fun _ => by simp [initial,Place.Holds],fun _ drowsy => False.elim drowsy⟩

theorem run_guarded {ok : Label ι → World ι Chan (Data ι) Point → Prop} (run : Run (pipes ι) ok (initial p data) w) :
    Guarded (fun s _ => Fifo s []) (fun p s point => Fifo s (hand (point p)) ∧ Known (point p) s.pipe) Plain w :=
  run.guarded guards (initial_locked p data)
    ⟨fun _ => ⟨by simp [initial,Pipe.count],by simp [initial,Pipe.queue,Pipe.count]⟩,nofun,fun _ => trivial⟩

/-- Who is in a section has its bytes in its hands, and knows what its control point says. -/
theorem run_inside {ok : Label ι → World ι Chan (Data ι) Point → Prop} (run : Run (pipes ι) ok (initial p data) w)
    {q : ι} {k : Point} (here : w.place q = .inside k) : Fifo w.data (hand k) ∧ Known k w.data.pipe := by
  have held := (run_guarded run).held q k here
  have point : w.point q = k := by
    rw [World.point,here]
    rfl
  rwa [point] at held

/-- For any interleaving of any calls on one pipe, with counters that may wrap around: the buffer never holds more than
    `PIPESIZE` bytes; the bytes that the calls of `piperead` have returned, followed by those that a call which still
    copies has in its hands and by those in the buffer, are the bytes stored, in this order; the bytes of a process are
    stored in the order of its calls and within them; and a `piperead` for some bytes returns none only if the buffer is
    empty and the write end closed. -/
theorem pipe_fifo {p : ι} {data : Nat → UInt8} {w : World ι Chan (Data ι) Point} (run : Reached p data w) :
    (w.data.pipe.nwrite - w.data.pipe.nread).toNat ≤ PIPESIZE ∧
      (∃ copied, w.data.stored.map (·.2) = w.data.returned.flatMap (·.2) ++ copied ++ w.data.pipe.queue ∧
        (w.lock = none → copied = []) ∧ ∀ q k, w.place q = .inside k → copied = hand k) ∧
      (∀ q, bytesOf q w.data.stored = (w.data.calls q).flatMap fun call => call.1.take call.2) ∧
      ∀ q n taken, w.place q = .inside (.copied n taken) → 0 < n → taken.length = 0 →
        w.data.pipe.Empty ∧ w.data.pipe.writeopen = false := by
  have locked := run.locked (initial_locked p data)
  have one : ∃ copied, Fifo w.data copied ∧ (w.lock = none → copied = []) ∧
      ∀ q k, w.place q = .inside k → copied = hand k := by
    by_cases inside : ∃ q k, w.place q = .inside k
    · obtain ⟨q,k,here⟩ := inside
      refine ⟨hand k,(run_inside run here).1,fun free => ?_,fun r l there => ?_⟩
      · have held := (locked.lock q).mpr (by rw [here]; trivial)
        rw [free] at held
        cases held
      · rw [(locked.alone here there).2]
    · simp only [not_exists] at inside
      exact ⟨[],(run_guarded run).free inside,fun _ => rfl,fun q k here => absurd here (inside q k)⟩
  obtain ⟨copied,fifo,rest⟩ := one
  refine ⟨fifo.bound,⟨copied,fifo.order,rest⟩,run.sent.own,fun q n taken here wanted none => ?_⟩
  exact (run_inside run here).2 (List.length_eq_zero_iff.mp none) wanted

instance (p : ι) (k k' : Point) : Decidable ((pipes ι).enter p k k') := by
  cases k <;> cases k' <;> simp only [pipes,enter] <;> infer_instance

theorem Reached.callWrite (run : Reached p data w) (q : ι)
    (here : w.place q = .out .idle) (src : List UInt8) (has : 0 < w.data.writers q) :
    Reached p data (w.put q (.out (.wantWrite src))) := run.step trivial (.outside here ⟨rfl,.write src has⟩)

theorem Reached.callRead (run : Reached p data w) (q : ι)
    (here : w.place q = .out .idle) (n : Nat) (has : 0 < w.data.readers q) :
    Reached p data (w.put q (.out (.wantRead n))) := run.step trivial (.outside here ⟨rfl,.read n has⟩)

/-- Three bytes are written, and two of them are read. -/
theorem pipe_fifo_threeBytes : ∃ w : World (Fin 1) Chan (Data (Fin 1)) Point,
    w.data.returned = [(0,[1,2])] ∧ [1,2,3] = [1,2] ++ w.data.pipe.queue := by
  have writes : (((initial 0 fun _ => 0).put 0 (.out (.wantWrite [1,2,3]))).follow (pipes (Fin 1))
      [.enter 0 (.wantWrite [1,2,3]) (.begin [1,2,3]),.go 0,.go 0,.go 0,.go 0,.go 0,.go 0]).isSome := by decide
  have wrote : Reached 0 (fun _ => 0) (Option.get _ writes) :=
    Run.follow (Reached.callWrite .start 0 rfl [1,2,3] (by decide)) (Option.some_get writes).symm
  have reads : (((Option.get _ writes).put 0 (.out (.wantRead 2))).follow (pipes (Fin 1))
      [.enter 0 (.wantRead 2) (.read 2),.go 0,.go 0,.go 0,.go 0,.go 0,.go 0]).isSome := rfl
  have read : Reached 0 (fun _ => 0) (Option.get _ reads) :=
    Run.follow (wrote.callRead 0 rfl 2 Nat.one_pos) (Option.some_get reads).symm
  obtain ⟨copied,order,free,_⟩ := (pipe_fifo read).2.1
  obtain rfl := free rfl
  exact ⟨_,rfl,order⟩

end Xv6.Pipes
