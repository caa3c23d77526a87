import Xv6.Ide

/-!
Any interleaving of the processes that call `iderw` with the disk and its interrupts: what holds while `idelock` is
free and what its holder knows, and that nobody sleeps for good.
-/
namespace Xv6.Ide
open Xv6.Lib Function

variable {ι β α : Type} [DecidableEq ι] [DecidableEq β]
variable {disk : Nat → α} {started : Bool} {s : Data ι β α} {point : ι → Point β} {p q : ι} {b : β} {k : Point β}

/-- The disk is at work if there is any, except where it is about to be started. -/
def Data.works (s : Data ι β α) : Point β → Bool
  | .check b _ => decide (s.idequeue ≠ some b)
  | .wake _ => false
  | .next => false
  | .panicked _ => false
  | _ => true

/-- What a process knows in its section: its pointer to a link is one of the queue. -/
structure Held (disk : Nat → α) (p : ι) (s : Data ι β α) (point : ι → Point β) : Prop where
  core : Core disk (s.works (point p)) s point
  walk : ∀ {b pp}, point p = .append b pp → s.qnext b = none ∧ ∃ l₁ l₂, s.waiting = l₁ ++ l₂ ∧ pp = l₁.getLast?

/-- `iderw` sleeps in its last loop. -/
def Sleeping : Point β → Prop
  | .wait _ _ => True
  | _ => False

omit [DecidableEq ι] in
theorem Held.of (here : point p = k) (core : Core disk (s.works k) s point) (other : ∀ b pp, k ≠ .append b pp) :
    Held disk p s point :=
  ⟨by rwa [here],fun walks => absurd (here.symm.trans walks) (other _ _)⟩

theorem Held.move {k₀ : Point β} (here : point p = k₀) (core : Core disk (s.works k) s point)
    (buf : ∀ b, k.buf = some b → k₀.buf = some b) (todo : ∀ b, k.todo = some b → k₀.todo = some b)
    (waits : k.waits = k₀.waits) (handles : k.handles = k₀.handles) (other : ∀ b pp, k ≠ .append b pp) :
    Held disk p s (update point p k) := by
  subst here
  exact .of (update_self ..) (core.move buf (fun b new => core.todo (todo b new)) waits handles) other

omit [DecidableEq ι] [DecidableEq β] in
theorem start_cases (s : Data ι β α) (b : β) (k k' : Point β) :
    (∃ s', s.idestart b = some s' ∧ s.start b k k' = .go s' k) ∨ s.start b k k' = .go s k' := by
  unfold Data.start
  split
  · next s' starts => exact .inl ⟨s',starts,rfl⟩
  · exact .inr rfl

/-- What an action that leaves the data alone comes from. -/
def Explains (s : Data ι β α) (k : Point β) : Act β (Data ι β α) (Point β) → Prop
  | .go _ _ => True
  | .wakeup c k' => k = .wake c ∧ k' = .next
  | .sleep c k' => ∃ j, k = .wait c j ∧ k' = .wait c j ∧ ¬(s.buf c).Done
  | .release k' => (∃ b j, k = .wait b j ∧ k' = .has b ∧ (s.buf b).Done) ∨ k = .leave ∧ k' = .idle ∨ k' = k ∧ s.works k = true

omit [DecidableEq ι] in
theorem act_explained (k : Point β) (s : Data ι β α) : Explains s k (act k s) := by
  have starts (b : β) (k₀ k' : Point β) : Explains s k (s.start b k₀ k') := by
    rcases start_cases s b k₀ k' with ⟨s',_,goes⟩ | panics
    · rw [goes]
      trivial
    · rw [panics]
      trivial
  cases k with
  | append b pp | intr =>
    simp only [act]
    split <;> trivial
  | check b j =>
    simp only [act]
    split
    · exact starts _ _ _
    · trivial
  | wait b j =>
    simp only [act]
    split
    · next done => exact .inl ⟨b,j,rfl,rfl,done⟩
    · next more => exact ⟨j,rfl,rfl,more⟩
  | next =>
    simp only [act]
    split
    · trivial
    · exact starts _ _ _
  | wake b => exact ⟨rfl,rfl⟩
  | leave => exact .inr (.inl ⟨rfl,rfl⟩)
  | begin b => trivial
  | panicked r => trivial
  | _ => exact .inr (.inr ⟨rfl,rfl⟩)

theorem Held.go (held : Held disk p s point) {s' : Data ι β α} (acts : act (point p) s = .go s' k) :
    Held disk p s' (update point p k) := by
  have core := held.core
  generalize here : point p = k₀ at acts core
  cases k₀ with
  | begin b =>
    cases acts
    have out := core.holder (p := p) (b := b) (by rw [here]; rfl) (by rw [here]; rfl)
    have moved := (core.clear out).move (p := p) (k := .append b none) (by rw [here]; exact fun _ => id)
      (fun c new => core.todo (by rw [here]; exact new)) (by rw [here]; rfl) (by rw [here]; rfl)
    refine ⟨by rw [update_self]; exact moved,fun walks => ?_⟩
    rw [update_self] at walks
    cases walks
    exact ⟨update_self ..,[],_,rfl,rfl⟩
  | append b pp =>
    obtain ⟨clear,l₁,l₂,queue,last⟩ := held.walk here
    have new : (point p).todo = some b := by rw [here]; rfl
    have chain := core.chain
    rw [queue] at chain
    simp only [act] at acts
    split at acts
    · next c more =>
      cases acts
      obtain ⟨l₃,rfl,next⟩ := chain.walk last more
      have moved := core.move (p := p) (k := .append b (some c)) (by rw [here]; exact fun _ => id)
        (fun d new => core.todo (by rw [here]; exact new)) (by rw [here]; rfl) (by rw [here]; rfl)
      refine ⟨by rw [update_self]; exact moved,fun walks => ?_⟩
      rw [update_self] at walks
      cases walks
      exact ⟨clear,l₁ ++ [c],l₃,by rw [queue,List.append_assoc]; rfl,next⟩
    · next ends =>
      cases acts
      obtain rfl := chain.walked last ends
      rw [List.append_nil] at queue
      subst last
      rw [← queue]
      exact .of (update_self ..) (core.link new (by rw [here]; rfl) clear) nofun
  | check b j =>
    simp only [act] at acts
    split at acts
    · next head =>
      have stops : Core disk false s point := by simpa [Data.works,head] using core
      rcases start_cases s b (.wait b j) (.panicked (some (b,j))) with ⟨s₁,starts,goes⟩ | panics
      · rw [goes] at acts
        cases acts
        exact .move here (stops.start head starts) (fun _ => id) nofun rfl rfl nofun
      · rw [panics] at acts
        cases acts
        exact .move here stops (fun _ => id) nofun rfl rfl nofun
    · next other =>
      cases acts
      have works : Core disk true s point := by simpa [Data.works,other] using core
      exact .move here works (fun _ => id) nofun rfl rfl nofun
  | intr =>
    simp only [act] at acts
    split at acts
    · next ends =>
      cases acts
      -- the interrupt came for a request in the queue
      obtain ⟨y,taken⟩ := core.handler (p := p) (by rw [here]; rfl)
      obtain ⟨⟨x,first⟩,_⟩ := core.performed taken
      rw [core.head first] at ends
      cases ends
    · next b head =>
      cases acts
      exact .of (update_self ..) (core.intr (by rw [here]; rfl) (by rw [here]; rfl) head) nofun
  | next =>
    simp only [act] at acts
    split at acts
    · next ends =>
      cases acts
      have works : Core disk true s point := { core with working := fun _ _ => core.emptied ends, stopped := nofun }
      exact .move here works (fun _ => id) nofun rfl rfl nofun
    · next b head =>
      rcases start_cases s b .leave (.panicked none) with ⟨s₁,starts,goes⟩ | panics
      · rw [goes] at acts
        cases acts
        exact .move here (core.start head starts) (fun _ => id) nofun rfl rfl nofun
      · rw [panics] at acts
        cases acts
        exact .move here core (fun _ => id) nofun rfl rfl nofun
  | panicked r =>
    cases acts
    exact .move here core (fun _ => id) nofun rfl rfl nofun
  | wait b j =>
    simp only [act] at acts
    split at acts <;> cases acts
  | _ => cases acts

theorem guards (disk : Nat → α) : Guards (ide ι β α) (Core disk true) (Held disk) Sleeping where
  enter {s point p k} core enters := by
    have enters : enter (point p) k := enters
    generalize here : point p = k₀ at enters
    cases k₀ <;> cases k <;> simp only [enter] at enters
    · subst enters
      exact .move here core (fun _ => id) (fun _ => id) rfl rfl nofun
    · exact .move here core (fun _ => id) (fun _ => id) rfl rfl nofun
  resume {s point p} core sleeping := by
    cases here : point p <;> rw [here] at sleeping <;> cases sleeping
    exact .of here core nofun
  go held acts := held.go acts
  wakeup {s point p _ c k} held acts := by
    have explained := act_explained (point p) s
    rw [show act (point p) s = _ from acts] at explained
    obtain ⟨here,rfl⟩ := explained
    have core := held.core
    rw [here] at core
    exact .move here core (fun _ => id) (fun _ => id) rfl rfl nofun
  sleep {s point p _ c k} held acts := by
    have explained := act_explained (point p) s
    rw [show act (point p) s = _ from acts] at explained
    obtain ⟨j,here,rfl,_⟩ := explained
    have core := held.core
    rw [here] at core
    rw [← here,update_eq_self,here]
    exact ⟨core,trivial⟩
  release {s point p _ k} held acts := by
    have explained := act_explained (point p) s
    rw [show act (point p) s = _ from acts] at explained
    have core := held.core
    rcases explained with ⟨b,j,here,rfl,done⟩ | ⟨here,rfl⟩ | ⟨rfl,works⟩
    · rw [here] at core
      exact core.return here done
    · rw [here] at core
      exact core.move nofun nofun (by rw [here]; rfl) (by rw [here]; rfl)
    · rw [works] at core
      rwa [update_eq_self]
  free core does := core.outside does
  held {s point p q k s'} held other does := by
    obtain ⟨head,links,queue⟩ := Outside.frame does
    have same : update point p k q = point q := update_of_ne (Ne.symm other) _ _
    refine ⟨?_,fun walks => ?_⟩
    · have works : s'.works (point q) = s.works (point q) := by cases point q <;> simp [Data.works,head]
      rw [same,works]
      exact held.core.outside does
    · rw [same] at walks
      rw [links,queue]
      exact held.walk walks

omit [DecidableEq ι] in
/-- Who takes a buffer off the queue owes its sleeper a wakeup. -/
theorem Held.owes (held : Held disk p s point) {s' : Data ι β α} (acts : act (point p) s = .go s' k) {c : β}
    (waits : c ∈ s.waiting) : c ∈ s'.waiting ∨ k = .wake c := by
  have core := held.core
  have starts {b : β} {k₁ k₂ : Point β} (goes : s.start b k₁ k₂ = .go s' k) : s'.waiting = s.waiting := by
    rcases start_cases s b k₁ k₂ with ⟨s₁,starts,same⟩ | same
    · rw [same] at goes
      cases goes
      unfold Data.idestart at starts
      split at starts
      · cases starts
      · cases starts
        rfl
    · rw [same] at goes
      cases goes
      rfl
  cases here : point p with
  | begin b | panicked r =>
    rw [here] at acts
    cases acts
    exact .inl waits
  | append b pp =>
    rw [here] at acts
    simp only [act] at acts
    split at acts
    · cases acts
      exact .inl waits
    · cases acts
      rw [waiting_link core.count]
      exact .inl (List.mem_append_left _ waits)
  | check b j =>
    rw [here] at acts
    simp only [act] at acts
    split at acts
    · rw [starts acts]
      exact .inl waits
    · cases acts
      exact .inl waits
  | intr =>
    rw [here] at acts
    simp only [act] at acts
    split at acts
    · cases acts
      exact .inl waits
    · next b head =>
      cases acts
      obtain ⟨x,first,rfl⟩ := core.first head
      obtain ⟨j,z,le,there,rfl⟩ := mem_waiting.mp waits
      by_cases this : j = s.served
      · subst this
        rw [first] at there
        cases there
        exact .inr rfl
      · exact .inl (mem_waiting.mpr ⟨j,z,by show s.served + 1 ≤ j; omega,there,rfl⟩)
  | next =>
    rw [here] at acts
    simp only [act] at acts
    split at acts
    · cases acts
      exact .inl waits
    · rw [starts acts]
      exact .inl waits
  | wait b j =>
    rw [here] at acts
    simp only [act] at acts
    split at acts <;> cases acts
  | _ =>
    rw [here] at acts
    cases acts

theorem wakes (disk : Nat → α) : Wakes (ide ι β α) (fun _ _ => True) (Guarded (Core disk true) (Held disk) Sleeping)
    (fun b s => b ∈ s.waiting) (fun k b => k = .wake b) where
  go {w p k s k'} guarded _ here acts c _ due := by
    have held := guarded.held p k here
    have at_k : w.point p = k := by rw [World.point,here]; rfl
    rcases due with waits | rfl
    · exact held.owes (by rw [at_k]; exact acts) waits
    · cases acts
  wakeup {w p k c k'} _ _ here acts d _ other due := by
    subst due
    cases acts
    exact absurd rfl other
  sleep {w p k c k'} guarded _ here acts := by
    have at_k : w.point p = k := by rw [World.point,here]; rfl
    have core := (guarded.held p k here).core
    have explained := act_explained k w.data
    rw [show act k w.data = _ from acts] at explained
    obtain ⟨j,rfl,rfl,more⟩ := explained
    refine ⟨?_,by simp⟩
    have waits : (w.point p).waits = some (c,j) := by rw [at_k]; rfl
    obtain ⟨x,there,same⟩ := core.asked waits
    refine mem_waiting.mpr ⟨j,x,?_,there,same⟩
    by_contra less
    exact more (core.done waits (not_le.mp less))
  release {w p k k'} _ _ here acts d _ due := by
    subst due
    cases acts
  outside _ _ _ does d _ waits := by
    show d ∈ Data.waiting _
    rwa [(Outside.frame does).2.2]

variable {w : World ι β (Data ι β α) (Point β)} {buf : β → Buf α} {qnext : β → Option β} {havedisk1 : Bool}
  {disks : Nat → Nat → α}

/-- The worlds that any interleaving of requests and interrupts reaches. -/
abbrev Reached (buf : β → Buf α) (qnext : β → Option β) (havedisk1 : Bool) (disks : Nat → Nat → α)
    (w : World ι β (Data ι β α) (Point β)) : Prop :=
  Run (ide ι β α) (fun _ _ => True) (initial buf qnext havedisk1 disks) w

omit [DecidableEq ι] [DecidableEq β] in
theorem initial_locked : Locked (initial (ι := ι) buf qnext havedisk1 disks) :=
  ⟨fun _ => ⟨nofun,nofun⟩,fun _ => nofun⟩

omit [DecidableEq ι] [DecidableEq β] in
theorem initial_core : Core (disks 1) true (⟨buf,fun _ => none,none,qnext,havedisk1,disks,.idle,[],0,[]⟩ : Data ι β α)
    fun _ => .idle where
  chain := rfl
  count := le_refl _
  same _ there := by simp at there
  holds := nofun
  todo := nofun
  asked := nofun
  waited _ there := by simp at there
  done := nofun
  serves := .idle rfl rfl
  working _ _ := rfl
  stopped := nofun
  log := rfl
  handler := nofun
  alone := nofun
  handled := nofun
  agrees _ := ⟨[],rfl,nofun,nofun⟩

theorem Reached.guarded (run : Reached buf qnext havedisk1 disks w) :
    Guarded (Core (disks 1) true) (Held (disks 1)) Sleeping w :=
  Run.guarded run (guards _) initial_locked ⟨fun _ => initial_core,nofun,fun _ => trivial⟩

theorem Reached.core (run : Reached buf qnext havedisk1 disks w) : ∃ started, Core (disks 1) started w.data w.point := by
  by_cases inside : ∃ p k, w.place p = .inside k
  · obtain ⟨p,k,here⟩ := inside
    exact ⟨_,(run.guarded.held p k here).core⟩
  · push Not at inside
    exact ⟨true,run.guarded.free inside⟩

/-- For any interleaving of requests by processes, each on a buffer that it has locked, with the disk and its interrupts:
    the disk performs the requests once each, in the order in which they were appended, and those that were taken off the
    queue; the command that was started is that of the first buffer of the queue, and as long as there is one, the disk is
    at work; a sleeper's buffer is in the queue; and if all requests are for disk 1, then the disk, and the data and flags
    of a buffer when `iderw` returns, are those that `memide.c` gives for the same requests one after the other. -/
theorem iderw_refines_memide (run : Reached buf qnext havedisk1 disks w) :
    let s := w.data
    s.log = (s.queued.take s.log.length).map (·.2.cmd) ∧ s.served ≤ s.log.length ∧
    Chain s.qnext s.idequeue ((s.queued.drop s.served).map (·.1)) ∧
    (s.hw ≠ .idle → ∃ x, s.queued[s.served]? = some x ∧ s.idequeue = some x.1 ∧ ∀ c, s.hw = .busy c → c = x.2.cmd) ∧
    (w.lock = none → s.hw = .idle → s.idequeue = none) ∧
    (w.lock = none → ∀ p b, (w.place p).Sleeps b → b ∈ (s.queued.drop s.served).map (·.1)) ∧
    (∀ p b j, w.place p = .inside (.wait b j) → (s.buf b).Done → j < s.served ∧ ∃ x, s.queued[j]? = some x ∧ x.1 = b) ∧
    ((∀ x ∈ s.queued, x.2.dev = 1) → ∃ rs, memides ((s.queued.take s.log.length).map (·.2)) (disks 1) = .ok (rs,s.disk 1) ∧
      ∀ p b j, w.place p = .inside (.wait b j) → (s.buf b).Done → rs[j]? = some (s.buf b)) := by
  intro s
  obtain ⟨started,core⟩ := run.core
  have waits {p : ι} {b : β} {j : Nat} (here : w.place p = .inside (.wait b j)) : (w.point p).waits = some (b,j) := by
    rw [World.point,here]
    rfl
  refine ⟨core.log,?_,core.chain,?_,?_,?_,?_,?_⟩
  · cases core.serves with
    | idle hw log => exact log.ge
    | busy first hw range log => exact log.ge
    | performed first hw log =>
      rw [log]
      exact Nat.le_succ _
  · intro works
    cases core.serves with
    | idle hw log => exact absurd hw works
    | busy first hw range log =>
      refine ⟨_,first,core.head first,fun c busy => ?_⟩
      rw [hw] at busy
      cases busy
      rfl
    | performed first hw log =>
      refine ⟨_,first,core.head first,fun c busy => ?_⟩
      rw [busy] at hw
      cases hw
  · intro free idle
    have ends := (run.guarded.idle (Run.locked initial_locked run) free).working rfl idle
    rw [core.chain.head_eq,Data.waiting,← ends]
    simp
  · intro free p b sleeps
    exact run.reasoned initial_locked ⟨by simp [initial,Place.Sleeps],by simp [initial]⟩ (fun _ before => Reached.guarded before) (wakes _) free sleeps
  · intro p b j here done
    exact ⟨core.finished (waits here) done,core.asked (waits here)⟩
  · intro ones
    obtain ⟨rs,agrees⟩ := core.agrees ones
    exact ⟨rs,agrees.runs,fun p b j here done => agrees.returned (waits here) (core.finished (waits here) done)⟩

theorem request_served (dev : Nat) : ∃ w : World (Fin 2) Unit (Data (Fin 2) Unit Bool) (Point Unit),
    Reached (fun _ => ⟨dev,7,false,true,true⟩) (fun _ => none) true (fun _ _ => false) w ∧
    w.place 0 = .inside (.wait () 0) ∧ w.data.buf () = ⟨dev,7,true,false,true⟩ ∧
    w.data.queued = [((),⟨dev,7,false,true,true⟩)] ∧ w.data.log.length = 1 := by
  have r₀ : Reached (ι := Fin 2) (β := Unit) (fun _ => ⟨dev,7,false,true,true⟩) (fun _ => none) true (fun _ _ => false) _ := .start
  have r₁ := r₀.step trivial (.outside (p := 0) rfl (.lock () rfl))
  have r₂ := r₁.step trivial (.outside (p := 0) rfl (.iderw () ⟨by simp [initial],fun _ => rfl⟩))
  have r₃ := r₂.step trivial (.acquire (p := 0) rfl (show (ide (Fin 2) Unit Bool).enter 0 (.call ()) (.begin ()) from rfl) rfl)
  have r₄ := r₃.step trivial (.go (p := 0) rfl rfl)
  have r₅ := r₄.step trivial (.go (p := 0) rfl rfl)
  have r₆ := r₅.step trivial (.go (p := 0) rfl rfl)
  have r₇ := r₆.step trivial (.sleep (p := 0) rfl rfl rfl)
  have r₈ := r₇.step trivial (.unlock (p := 0) rfl)
  have r₉ := r₈.step trivial (.doze (p := 0) rfl)
  have r₁₀ := r₉.step trivial (.sched (p := 0) rfl rfl)
  -- the disk, its interrupt, and the handler
  have r₁₁ := r₁₀.step trivial (.outside (p := 1) rfl (.perform _ rfl))
  have r₁₂ := r₁₁.step trivial (.outside (p := 1) rfl (.interrupt rfl))
  have r₁₃ := r₁₂.step trivial (.acquire (p := 1) rfl (show (ide (Fin 2) Unit Bool).enter 1 .irq .intr from trivial) rfl)
  have r₁₄ := r₁₃.step trivial (.go (p := 1) rfl rfl)
  have r₁₅ := r₁₄.step trivial (.wakeup (p := 1) rfl rfl rfl)
  have r₁₆ := r₁₅.step trivial (.go (p := 1) rfl rfl)
  have r₁₇ := r₁₆.step trivial (.release (p := 1) rfl rfl)
  have r₁₈ := r₁₇.step trivial (.reacquire (p := 0) rfl rfl)
  exact ⟨_,r₁₈,rfl,rfl,rfl,rfl⟩

/-- A write to disk 1 returns, with the buffer that the driver in memory gives. -/
theorem iderw_refines_memide_write : ∃ w : World (Fin 2) Unit (Data (Fin 2) Unit Bool) (Point Unit),
    Reached (fun _ => ⟨1,7,false,true,true⟩) (fun _ => none) true (fun _ _ => false) w ∧
    w.place 0 = .inside (.wait () 0) ∧ (w.data.buf ()).Done ∧
    ∃ rs, memides [⟨1,7,false,true,true⟩] (fun _ => false) = .ok (rs,w.data.disk 1) ∧ rs[0]? = some (w.data.buf ()) := by
  obtain ⟨w,run,here,flags,queued,log⟩ := request_served 1
  have done : (w.data.buf ()).Done := by
    rw [flags]
    exact ⟨rfl,rfl⟩
  obtain ⟨rs,runs,returned⟩ := (iderw_refines_memide run).2.2.2.2.2.2.2 (by simp [queued])
  rw [queued,log] at runs
  exact ⟨w,run,here,done,rs,runs,returned 0 () 0 here done⟩

/-- A write to disk 0 returns as well, and there the driver in memory panics. -/
theorem memide_refuses_disk0 : ∃ w : World (Fin 2) Unit (Data (Fin 2) Unit Bool) (Point Unit),
    Reached (fun _ => ⟨0,7,false,true,true⟩) (fun _ => none) true (fun _ _ => false) w ∧
    w.place 0 = .inside (.wait () 0) ∧ (w.data.buf ()).Done ∧
    memides ((w.data.queued.take w.data.log.length).map (·.2)) (fun _ => false) =
      .error "iderw: request not for disk 1" := by
  obtain ⟨w,run,here,flags,queued,log⟩ := request_served 0
  refine ⟨w,run,here,?_,?_⟩
  · rw [flags]
    exact ⟨rfl,rfl⟩
  · rw [queued,log]
    rfl

end Xv6.Ide
