import Xv6.Pipes

/-!
Who sleeps on a pipe. A reader should sleep only while the buffer is empty and the write end open, a writer only while
the buffer is full and the read end open.
-/
namespace Xv6.Pipes
open Xv6.Lib Function

variable {ι : Type}

/-- The calls of `piperead`. -/
def Point.Reads : Point → Prop
  | .wantRead _ => True
  | .read _ => True
  | .copy _ _ => True
  | .copied _ _ => True
  | _ => False

/-- The last descriptor of the read end is gone, and the end not closed yet. -/
def Point.EndsRead (k : Point) : Prop := k = .last false ∨ k = .close false

/-- Readers have descriptors of the read end, which is closed only without any. -/
structure Reading (s : Data ι) (point : ι → Point) : Prop where
  reads : ∀ q, (point q).Reads → 0 < s.readers q
  ends : ∀ q, (point q).EndsRead → ∀ r, s.readers r = 0
  closed : s.pipe.readopen = false → ∀ r, s.readers r = 0

variable [DecidableEq ι]

variable {s s' : Data ι} {point : ι → Point} {p : ι} {k : Point}

theorem Reading.move (reading : Reading s point)
    (readers : s'.readers = s.readers) (reads : k.Reads → (point p).Reads) (ends : k.EndsRead → (point p).EndsRead)
    (closed : s'.pipe.readopen = false → s.pipe.readopen = false ∨ (point p).EndsRead) : Reading s' (update point p k) where
  reads q uses := by
    rw [readers]
    rcases eq_or_ne q p with rfl | other
    · rw [update_self] at uses
      exact reading.reads q (reads uses)
    · rw [update_of_ne other] at uses
      exact reading.reads q uses
  ends q last := by
    rw [readers]
    rcases eq_or_ne q p with rfl | other
    · rw [update_self] at last
      exact reading.ends q (ends last)
    · rw [update_of_ne other] at last
      exact reading.ends q last
  closed shut := by
    rw [readers]
    rcases closed shut with before | last
    · exact reading.closed before
    · exact reading.ends p last

theorem Reading.leave (reading : Reading s point)
    (plain : ¬k.Reads ∧ ¬k.EndsRead) (readers : s'.readers = s.readers)
    (same : s'.pipe.readopen = s.pipe.readopen) : Reading s' (update point p k) :=
  reading.move readers (fun reads => absurd reads plain.1) (fun ends => absurd ends plain.2) fun shut => .inl (same ▸ shut)

theorem Reading.stay (reading : Reading s point)
    (here : (point p).Reads) (more : ¬k.EndsRead) (readers : s'.readers = s.readers)
    (same : s'.pipe.readopen = s.pipe.readopen) : Reading s' (update point p k) :=
  reading.move readers (fun _ => here) (fun ends => absurd ends more) fun shut => .inl (same ▸ shut)

theorem Reading.outside (reading : Reading s point)
    (idle : point p = .idle) (does : Outside p s k s') : Reading s' (update point p k) := by
  -- a process that has a descriptor shows that the read end is neither closed nor about to be
  have live (q : ι) (has : 0 < s.readers q) : s.pipe.readopen ≠ false ∧ ∀ r, ¬(point r).EndsRead := by
    refine ⟨fun shut => ?_,fun r last => ?_⟩
    · have := reading.closed shut q
      omega
    · have := reading.ends r last q
      omega
  have others (q : ι) (other : q ≠ p) : update point p k q = point q := update_of_ne other ..
  cases does with
  | write src has | dupWrite q has | closeWrite has more | lastWrite has none =>
    exact reading.leave (by simp [Point.Reads,Point.EndsRead]) rfl rfl
  | read n has =>
    refine ⟨fun q uses => ?_,fun q last => ?_,reading.closed⟩
    · rcases eq_or_ne q p with rfl | other
      · exact has
      · exact reading.reads q (by rwa [others q other] at uses)
    · rcases eq_or_ne q p with rfl | other
      · simp [Point.EndsRead] at last
      · exact reading.ends q (by rwa [others q other] at last)
  | dupRead q has =>
    obtain ⟨opened,no⟩ := live p has
    refine ⟨fun r uses => ?_,fun r last => ?_,fun shut => absurd shut opened⟩
    · rcases eq_or_ne r p with rfl | other
      · simp [Point.Reads] at uses
      · have before := reading.reads r (by rwa [others r other] at uses)
        show 0 < update s.readers q _ r
        rcases eq_or_ne r q with rfl | apart
        · simp
        · rwa [update_of_ne apart]
    · rcases eq_or_ne r p with rfl | other
      · simp [Point.EndsRead] at last
      · exact absurd (by rwa [others r other] at last) (no r)
  | closeRead has more =>
    obtain ⟨opened,no⟩ := live p has
    refine ⟨fun r uses => ?_,fun r last => ?_,fun shut => absurd shut opened⟩
    · rcases eq_or_ne r p with rfl | other
      · simp [Point.Reads] at uses
      · have before := reading.reads r (by rwa [others r other] at uses)
        show 0 < update s.readers p _ r
        rwa [update_of_ne other]
    · rcases eq_or_ne r p with rfl | other
      · simp [Point.EndsRead] at last
      · exact absurd (by rwa [others r other] at last) (no r)
  | lastRead has none =>
    obtain ⟨opened,no⟩ := live p has
    refine ⟨fun r uses => ?_,fun _ _ => none,fun shut => absurd shut opened⟩
    rcases eq_or_ne r p with rfl | other
    · simp [Point.Reads] at uses
    · have before := reading.reads r (by rwa [others r other] at uses)
      have gone : s.readers r = 0 := by
        have := none r
        rwa [update_of_ne other] at this
      omega

variable {w : World ι Chan (Data ι) Point}

theorem run_reading {ok : Label ι → World ι Chan (Data ι) Point → Prop} {data : Nat → UInt8}
    (run : Run (pipes ι) ok (initial p data) w) : Reading w.data w.point := by
  refine run.points ?_ (fun s point p k reading enters => ?_) (fun s point p killed x reading acts => ?_) ?_
  · exact ⟨fun _ uses => False.elim uses,fun _ last => by simp [World.point,initial,Place.point,Point.EndsRead] at last,
      fun shut => by cases shut⟩
  · refine reading.move rfl ?_ ?_ .inl <;> revert enters <;> cases point p <;> cases k <;>
      simp +contextual [pipes,enter,Point.Reads,Point.EndsRead]
  · subst acts
    have does := acts_of (rfl : act p killed (point p) s = _)
    simp only [pipes]
    generalize act p killed (point p) s = a at does
    generalize here : point p = k at does
    have stays (reads : k.Reads) : (point p).Reads := here ▸ reads
    cases does with
    | readSleep | ready | take | copied | wantRead =>
      exact reading.stay (stays trivial) (by simp [Act.next,Point.EndsRead]) rfl rfl
    | @close writable =>
      refine reading.move rfl (by simp [Act.next,Point.Reads]) (by simp [Act.next,Point.EndsRead]) fun shut => ?_
      cases writable with
      | true => exact .inl shut
      | false => exact .inr (by rw [here]; exact .inr rfl)
    | last =>
      refine reading.move rfl (by simp [Act.next,Point.Reads]) (fun last => ?_) .inl
      rw [here]
      exact last
    | _ => exact reading.leave (by simp [Act.next,Point.Reads,Point.EndsRead]) rfl rfl
  · exact fun s point p k s' reading does => reading.outside does.1 does.2

/-! ### Reasons to sleep -/

/-- Why a process sleeps on a channel. -/
def reason : Chan → Data ι → Prop
  | .nread,s => s.pipe.Empty ∧ s.pipe.writeopen = true
  | .nwrite,s => s.pipe.Full ∧ s.pipe.readopen = true

/-- The wakeups that are still to come in a section. -/
def owes : Point → Chan → Prop
  | .write _ _ new,.nread => new = true
  | .copy _ taken,.nwrite => taken ≠ []
  | .closing writable,c => c = wakes writable
  | _,_ => False

/-- Where a process goes on after it has slept on a channel. -/
def Rests : Chan → Point → Prop
  | .nread,k => ∃ n, k = .read n
  | .nwrite,k => ∃ src i, k = .write src i false

/-- No step is the return of a `pipewrite` that finds its process killed and the buffer full, has stored bytes since it
    took the lock, and leaves a process in `sleep` on `nread`. -/
def Served (l : Label ι) (w : World ι Chan (Data ι) Point) : Prop :=
  ∀ p src i, l = .by p → w.place p = .inside (.write src i true) → i < src.length → w.data.pipe.Full → w.killed p = true →
    ∀ q, ¬(w.place q).Sleeps .nread

/-- What else holds in every world that is reached. -/
structure Fine (w : World ι Chan (Data ι) Point) : Prop where
  known : ∀ q k, w.place q = .inside k → Known k w.data.pipe
  reading : Reading w.data w.point
  rests : ∀ q, (w.place q).Rests Rests

theorem act_sleep {killed : Bool} {k k' : Point} {s : Data ι} {c : Chan} (acts : act p killed k s = .sleep c k') :
    Rests c k' := by
  cases acts_of acts with
  | writeSleep => exact ⟨_,_,rfl⟩
  | readSleep => exact ⟨_,rfl⟩

theorem run_fine {ok : Label ι → World ι Chan (Data ι) Point → Prop} {data : Nat → UInt8}
    (run : Run (pipes ι) ok (initial p data) w) : Fine w where
  known _ _ here := (run_inside run here).2
  reading := run_reading run
  rests := run.rests (initial_locked _ _) act_sleep fun _ => trivial

omit [DecidableEq ι] in
theorem Fine.readopen (fine : Fine w) {q : ι} (sleeps : (w.place q).Sleeps .nread) :
    w.data.pipe.readopen = true := by
  have reads : (w.point q).Reads := by
    have rests := fine.rests q
    unfold World.point
    cases here : w.place q with
    | dozing c k | asleep c k =>
      rw [here] at sleeps rests
      cases sleeps
      obtain ⟨n,rfl⟩ := rests
      trivial
    | _ =>
      rw [here] at sleeps
      cases sleeps
  have has := fine.reading.reads q reads
  by_contra shut
  have := fine.reading.closed (by simpa using shut) q
  omega

theorem pipe_wakes : Wakes (pipes ι) Served Fine reason owes where
  go {w p k s k'} fine _ _ acts c _ before := by
    cases acts_of acts with
    | store more room =>
      cases c with
      | nread => exact .inr rfl
      | nwrite => exact absurd (before.resolve_right id).1 room
    | @take n taken some' =>
      cases c with
      | nread => exact absurd (before.resolve_right id).1 some'
      | nwrite => exact .inr (by simp [owes])
    | @close writable =>
      cases writable <;> cases c
      · exact .inl (before.resolve_right id)
      · exact .inr rfl
      · exact .inr rfl
      · exact .inl (before.resolve_right id)
    | _ => cases c <;> exact .inl (before.resolve_right id)
  wakeup {w p k c k'} _ _ _ acts d _ other owed := by
    cases acts_of acts with
    | closing => exact absurd owed other
    | _ => cases d <;> first | exact absurd rfl other | exact False.elim owed
  sleep {w p k c k'} fine _ here acts := by
    have known := fine.known p k here
    cases acts_of acts with
    | writeSleep => exact ⟨known,fun d _ owed => by cases d <;> exact False.elim owed⟩
    | readSleep waits => exact ⟨waits,fun d _ owed => by cases d <;> exact False.elim owed⟩
  release {w p k k'} fine served here acts d _ owed sleeper := by
    cases acts_of acts with
    | @fail src i new more full stop =>
      cases d with
      | nwrite => exact False.elim owed
      | nread =>
        obtain ⟨q,sleeps⟩ := sleeper
        have new : new = true := owed
        subst new
        -- the read end is open, so the process has been killed
        rcases stop with shut | killed
        · have opened := fine.readopen sleeps
          rw [shut] at opened
          cases opened
        · exact absurd sleeps (served p src i rfl here more full killed q)
    | _ => cases d <;> exact False.elim owed
  outside {w p k s k'} _ _ _ does d _ because := by
    obtain ⟨_,does⟩ := does
    cases d <;> cases does <;> exact because

/-- In every run without a return of a killed `pipewrite` as described by `Served`, whenever the pipe's lock is free: a
    process that is asleep in `piperead` finds the buffer empty and the write end open, and a process that is asleep in
    `pipewrite` finds the buffer full and the read end open. -/
theorem pipe_sleepers_served {p : ι} {data : Nat → UInt8} {w : World ι Chan (Data ι) Point}
    (run : Run (pipes ι) Served (initial p data) w) (free : w.lock = none) :
    (∀ q c n, w.place q = .asleep c (.read n) → w.data.pipe.nread = w.data.pipe.nwrite ∧ w.data.pipe.writeopen = true) ∧
      ∀ q c src i new, w.place q = .asleep c (.write src i new) →
        w.data.pipe.nwrite = w.data.pipe.nread + 512 ∧ w.data.pipe.readopen = true := by
  have first : Reasons reason owes (initial p data) := ⟨fun _ _ sleeps => False.elim sleeps,fun _ _ _ going => by cases going⟩
  have because {q : ι} {c : Chan} (sleeps : (w.place q).Sleeps c) : reason c w.data :=
    run.reasoned (initial_locked p data) first (fun _ => run_fine) pipe_wakes free sleeps
  have rests := (run_fine run).rests
  constructor
  · intro q c n here
    have at' := rests q
    rw [here] at at'
    cases c with
    | nread => exact because (by rw [here]; rfl)
    | nwrite =>
      obtain ⟨src,i,no⟩ := at'
      cases no
  · intro q c src i new here
    have at' := rests q
    rw [here] at at'
    cases c with
    | nwrite => exact because (by rw [here]; rfl)
    | nread =>
      obtain ⟨n,no⟩ := at'
      cases no

abbrev parent : Fin 2 := ⟨0,Nat.zero_lt_two⟩
abbrev child : Fin 2 := ⟨1,Nat.one_lt_two⟩

/-- A process has made a pipe and forked. The child calls `piperead` for one byte, and the parent `pipewrite`. -/
def twoCalls (src : List UInt8) : World (Fin 2) Chan (Data (Fin 2)) Point :=
  ((({ (initial parent fun _ => 0).put parent (.out .idle) with
    data := { (initial parent fun _ => 0).data with readers := update (update (fun _ => 0) parent 1) child 1 } } :
      World (Fin 2) Chan (Data (Fin 2)) Point).put child (.out (.wantRead 1)))).put parent (.out (.wantWrite src))

theorem twoCalls_run {ok : Label (Fin 2) → World (Fin 2) Chan (Data (Fin 2)) Point → Prop} (src : List UInt8)
    (fine : ∀ l w, (w.killed = fun _ => false) → ok l w) : Run (pipes (Fin 2)) ok (initial 0 fun _ => 0) (twoCalls src) := by
  have forked : Run (pipes (Fin 2)) ok (initial 0 fun _ => 0) _ :=
    Run.start.step (fine _ _ rfl) (.outside (p := 0) rfl ⟨rfl,.dupRead 1 (by decide)⟩)
  have reads := forked.step (fine _ _ rfl) (.outside (p := 1) rfl ⟨rfl,.read 1 (by decide)⟩)
  exact reads.step (fine _ _ rfl) (.outside (p := 0) rfl ⟨rfl,.write src (by decide)⟩)

/-- The reader goes to sleep; the writer fills the buffer, is killed and returns. -/
def fillAndReturn (src : List UInt8) : List (Turn (Fin 2) Point) :=
  .enter child (.wantRead 1) (.read 1) :: List.replicate 4 (.go child) ++
    .enter parent (.wantWrite src) (.begin src) :: List.replicate 513 (.go parent) ++ [.kill parent,.go parent]

/-- A reader sleeps while the buffer is full: the writer that has filled it was killed before it could sleep, and
    returned without a wakeup. -/
theorem pipe_lost_wakeup : ∃ w, Reached (0 : Fin 2) (fun _ => 0) w ∧ w.lock = none ∧
    w.place 1 = .asleep .nread (.read 1) ∧ w.data.pipe.nread ≠ w.data.pipe.nwrite := by
  have followed : ((twoCalls (List.replicate 513 7)).follow (pipes (Fin 2)) (fillAndReturn (List.replicate 513 7))).map
      (fun w => (w.lock,w.place 1,w.data.pipe.nread,w.data.pipe.nwrite)) =
        some (none,.asleep .nread (.read 1),0,512) := by decide +kernel
  obtain ⟨w,run,view⟩ := Option.map_eq_some_iff.mp followed
  simp only [Prod.mk.injEq] at view
  obtain ⟨free,asleep,nread,nwrite⟩ := view
  refine ⟨w,(twoCalls_run _ fun _ _ _ => trivial).follow run,free,asleep,?_⟩
  rw [nread,nwrite]
  decide

/-- The child of a process that has made a pipe sleeps in `piperead`, and finds the pipe empty and open. -/
theorem pipe_sleepers_served_reader : ∃ w : World (Fin 2) Chan (Data (Fin 2)) Point, w.lock = none ∧
    w.place 1 = .asleep .nread (.read 1) ∧ w.data.pipe.nread = w.data.pipe.nwrite ∧ w.data.pipe.writeopen = true := by
  have served (l : Label (Fin 2)) (w : World (Fin 2) Chan (Data (Fin 2)) Point) (nobody : w.killed = fun _ => false) :
      Served l w := fun p _ _ _ _ _ _ killed => by simp [nobody] at killed
  have calls : Run (pipes (Fin 2)) Served (initial 0 fun _ => 0) (twoCalls []) := twoCalls_run [] served
  have followed : ((twoCalls []).follow (pipes (Fin 2)) (.enter 1 (.wantRead 1) (.read 1) :: List.replicate 4 (.go 1))).map
      (fun w => (w.lock,w.place 1)) = some (none,.asleep .nread (.read 1)) := by decide
  obtain ⟨w,ran,view⟩ := Option.map_eq_some_iff.mp followed
  simp only [Prod.mk.injEq] at view
  have run : Run (pipes (Fin 2)) Served (initial 0 fun _ => 0) w := by
    refine Run.followed calls (I := fun w => w.killed = fun _ => false) rfl served (fun t member w w' nobody next => ?_) ran
    rw [turn_killed (fun p kill => by simp [kill] at member) next,nobody]
  exact ⟨w,view.1,view.2,(pipe_sleepers_served run view.1).1 1 .nread 1 view.2⟩

end Xv6.Pipes
