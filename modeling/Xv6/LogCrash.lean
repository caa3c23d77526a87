import Xv6.LogCommit

/-!
Crash atomicity of the redo log.
-/
namespace Xv6.LogCrash
open Function Xv6.Lib Xv6.LogCommit

/-- The blocks of the log region. -/
def InLog (log : Log) (b : Nat) : Prop := log.start ≤ b ∧ b < log.start + log.size

/-- Two disks that agree outside the log region. -/
def SameHome (log : Log) (d e : Disk) : Prop := ∀ b, ¬ InLog log b → d b = e b

/-- The home blocks of the transaction. -/
def Home (log : Log) (b : Nat) : Prop := ∃ x ∈ log.lh, x.toNat = b

/-- What `log_write` leaves for a commit: blocks outside the log region, room for
    them in the header and in the log, their new contents in pinned buffers and
    every other buffer as on the disk. That the blocks are distinct is not needed. -/
structure Ready (log : Log) (io : Io) (new : Nat → Block) : Prop where
  outside : ∀ b ∈ log.lh, ¬ InLog log b.toNat
  room : log.lh.length ≤ LOGSIZE
  space : log.lh.length + 1 ≤ log.size
  pinned : ∀ b ∈ log.lh, io.cache b.toNat = some (new b.toNat)
  coherent : ∀ b data, io.cache b = some data → ¬ Home log b → data = io.disk b
  fresh : io.writes = []

/-- The disk with all blocks of the transaction replaced by their new contents. -/
def committed (log : Log) (new : Nat → Block) (d : Disk) : Disk :=
  fun b => if b ∈ log.lh.map UInt32.toNat then new b else d b

/-- The disk when the machine stops after the first `k` writes of a commit. -/
def crash (log : Log) (io : Io) (k : Nat) : Disk := applyAll ((commit log io).2.writes.take k) io.disk

/-- The writes of a recovery that starts from the disk. -/
def recoveryWrites (log : Log) (d : Disk) : List (Nat × Block) := (recover_from_log log (reboot d)).2.writes

/-- The disk after a recovery that is cut off after its first `k` writes. -/
def cutRecovery (log : Log) (d : Disk) (k : Nat) : Disk := applyAll ((recoveryWrites log d).take k) d

/-- The disk after a recovery that completes. -/
def recovered (log : Log) (d : Disk) : Disk := (recover_from_log log (reboot d)).2.disk

/-- The first header write is among the first `k` writes of the commit. -/
def HeadWritten (log : Log) (io : Io) (k : Nat) : Prop := ∃ w ∈ (commit log io).2.writes.take k, w.1 = log.start

/-! ### The two conditions of the disk -/

/-- The header lists no block. -/
def Idle (log : Log) (d : Disk) : Prop := headCount (d log.start) = 0

/-- The header lists the transaction and its slots hold the new contents. -/
structure Pending (log : Log) (new : Nat → Block) (d : Disk) : Prop where
  listed : headBlocks (d log.start) = log.lh
  slots : ∀ i (inside : i < log.lh.length), d (log.start + (0 + i) + 1) = new (log.lh[i]).toNat

section
variable {log : Log} {io : Io} {new : Nat → Block}

section
variable (ready : Ready log io new)
include ready

theorem Ready.apart : Apart log.start 0 log.lh := by
  intro b member k low high same
  refine ready.outside b member ⟨by omega,?_⟩
  have := ready.space
  omega

theorem Ready.start_inLog : InLog log log.start := by
  have := ready.space
  exact ⟨Nat.le_refl _,by omega⟩

theorem Ready.slot_inLog {i : Nat} (inside : i < log.lh.length) :
    InLog log (log.start + (0 + i) + 1) := by
  have := ready.space
  exact ⟨by omega,by omega⟩

theorem Ready.homes : ∀ b ∈ log.lh, b.toNat ≠ log.start :=
  fun b member same => ready.outside b member (same ▸ ready.start_inLog)

theorem Ready.view_home {b : UInt32} (member : b ∈ log.lh) :
    view io b.toNat = new b.toNat := by
  simp [view,ready.pinned b member]

theorem Ready.view_other {b : Nat} (other : ¬ Home log b) : view io b = io.disk b := by
  unfold view
  cases found : io.cache b with
  | none => rfl
  | some data => exact ready.coherent b data found other

end

variable {w : Nat × Block}

theorem transaction_named {lh : List UInt32} (member : w ∈ transaction lh new) :
    ∃ x ∈ lh, x.toNat = w.1 := by
  obtain ⟨x,listed,rfl⟩ := List.mem_map.mp member
  exact ⟨x,listed,rfl⟩

theorem Ready.transaction_outside (ready : Ready log io new)
    (member : w ∈ transaction log.lh new) : ¬ InLog log w.1 := by
  obtain ⟨x,listed,same⟩ := transaction_named member
  exact same ▸ ready.outside x listed

theorem Ready.replay_log (ready : Ready log io new) {ws : List (Nat × Block)}
    (part : ∀ w ∈ ws, w ∈ transaction log.lh new) (d : Disk) {b : Nat} (inLog : InLog log b) :
    applyAll ws d b = d b :=
  applyAll_other (fun w member same => ready.transaction_outside (part w member) (same ▸ inLog)) d

variable {d : Disk}

theorem Ready.pending_replay (ready : Ready log io new) {ws : List (Nat × Block)}
    (part : ∀ w ∈ ws, w ∈ transaction log.lh new) (pending : Pending log new d) :
    Pending log new (applyAll ws d) where
  listed := by rw [ready.replay_log part d ready.start_inLog]; exact pending.listed
  slots i inside := by rw [ready.replay_log part d (ready.slot_inLog inside)]; exact pending.slots i inside

theorem transaction_apply (lh : List UInt32) (d : Disk) (b : Nat) :
    applyAll (transaction lh new) d b = if b ∈ lh.map UInt32.toNat then new b else d b := by
  induction lh generalizing d with
  | nil => rfl
  | cons x rest ih =>
    have step := ih (update d x.toNat (new x.toNat))
    rw [List.map_cons]
    by_cases later : b ∈ rest.map UInt32.toNat
    · rw [if_pos later] at step
      rw [if_pos (List.mem_cons_of_mem _ later)]
      exact step
    · rw [if_neg later] at step
      refine step.trans ?_
      by_cases here : b = x.toNat
      · subst here; simp
      · rw [update_of_ne here,if_neg]
        simp only [List.mem_cons,not_or]
        exact ⟨here,later⟩

theorem committed_eq (d : Disk) : committed log new d = applyAll (transaction log.lh new) d :=
  funext fun b => (transaction_apply log.lh d b).symm

/-! ### Recovery -/

theorem recoveryWrites_idle (idle : Idle log d) :
    recoveryWrites log d = [(log.start,headBlock (d log.start) [])] := by
  have none : headBlocks (d log.start) = [] := headBlocks_clean idle
  have issued := (recover_issues log d (by simp [Apart,none]) (by simp [none])).writes
  simpa [recoveryWrites,none,homeWrites,reboot_writes] using issued

theorem recoveryWrites_pending (ready : Ready log io new) (pending : Pending log new d) :
    recoveryWrites log d = transaction log.lh new ++ [(log.start,headBlock (d log.start) [])] := by
  have issued := (recover_issues log d (by rw [pending.listed]; exact ready.apart)
    (by rw [pending.listed]; exact ready.homes)).writes
  rw [pending.listed,homeWrites_eq pending.slots] at issued
  simpa [recoveryWrites,reboot_writes] using issued

theorem cleared_idle (d : Disk) (buf : Block) : Idle log (update d log.start (headBlock buf [])) := by
  simp [Idle,headCount_cleared]

theorem update_start_home (ready : Ready log io new) (d : Disk) (buf : Block) :
    SameHome log (update d log.start buf) d :=
  fun b out => update_of_ne (fun same : b = log.start => out (same ▸ ready.start_inLog)) _ _

theorem cutRecovery_idle (ready : Ready log io new) (idle : Idle log d) (k : Nat) :
    Idle log (cutRecovery log d k) ∧ SameHome log (cutRecovery log d k) d := by
  rw [cutRecovery,recoveryWrites_idle idle]
  cases k with
  | zero => exact ⟨idle,fun _ _ => rfl⟩
  | succ k =>
    rw [List.take_succ_cons,List.take_nil,applyAll,applyAll_nil]
    exact ⟨cleared_idle d _,update_start_home ready d _⟩

/-- The disk after the header is written: still pending, or replayed and cleared. -/
def Replaying (log : Log) (new : Nat → Block) (before d : Disk) : Prop :=
  (Pending log new d ∧ ∀ b, ¬ InLog log b → ¬ Home log b → d b = before b) ∨
    (Idle log d ∧ SameHome log d (committed log new before))

theorem replay_committed {d before : Disk}
    (rest : ∀ b, ¬ InLog log b → ¬ Home log b → d b = before b) :
    SameHome log (applyAll (transaction log.lh new) d) (committed log new before) := by
  intro b out
  rw [committed_eq]
  by_cases named : ∃ w ∈ transaction log.lh new, w.1 = b
  · exact applyAll_named named _ _
  · have absent : ∀ w ∈ transaction log.lh new, w.1 ≠ b := fun w member same => named ⟨w,member,same⟩
    rw [applyAll_other absent,applyAll_other absent]
    refine rest b out ?_
    rintro ⟨x,listed,rfl⟩
    exact absent (x.toNat,new x.toNat) (List.mem_map.mpr ⟨x,listed,rfl⟩) rfl

variable {before d : Disk}

section
variable (ready : Ready log io new)
include ready

theorem cutRecovery_replaying (replaying : Replaying log new before d) (k : Nat) : Replaying log new before (cutRecovery log d k) := by
  rcases replaying with ⟨pending,rest⟩ | ⟨idle,same⟩
  · rw [cutRecovery,recoveryWrites_pending ready pending]
    by_cases cut : k ≤ (transaction log.lh new).length
    · -- some home blocks replayed, the header still lists the transaction
      left
      rw [List.take_append_of_le_length cut]
      have part : ∀ w ∈ (transaction log.lh new).take k, w ∈ transaction log.lh new :=
        fun w member => List.mem_of_mem_take member
      refine ⟨ready.pending_replay part pending,fun b out other => ?_⟩
      rw [applyAll_other,rest b out other]
      intro w member same
      obtain ⟨x,listed,value⟩ := transaction_named (part w member)
      exact other ⟨x,listed,value.trans same⟩
    · -- all of them replayed and the header cleared
      right
      rw [List.take_of_length_le (by simp only [List.length_append,List.length_singleton]; omega),applyAll_append]
      refine ⟨cleared_idle _ _,fun b out => ?_⟩
      exact (update_start_home ready _ _ b out).trans (replay_committed rest b out)
  · obtain ⟨still,kept⟩ := cutRecovery_idle ready idle k
    exact .inr ⟨still,fun b out => (kept b out).trans (same b out)⟩

theorem cuts_idle (cuts : List Nat) (idle : Idle log d) :
    Idle log (cuts.foldl (cutRecovery log) d) ∧ SameHome log (cuts.foldl (cutRecovery log) d) d := by
  induction cuts generalizing d with
  | nil => exact ⟨idle,fun _ _ => rfl⟩
  | cons k rest ih =>
    obtain ⟨still,kept⟩ := cutRecovery_idle ready idle k
    obtain ⟨last,same⟩ := ih still
    exact ⟨last,fun b out => (same b out).trans (kept b out)⟩

theorem cuts_replaying (cuts : List Nat)
    (replaying : Replaying log new before d) : Replaying log new before (cuts.foldl (cutRecovery log) d) := by
  induction cuts generalizing d with
  | nil => exact replaying
  | cons k rest ih => exact ih (cutRecovery_replaying ready replaying k)

theorem recovered_eq (listed : Idle log d ∨ Pending log new d) :
    recovered log d = applyAll (recoveryWrites log d) d := by
  rcases listed with idle | pending
  · have none : headBlocks (d log.start) = [] := headBlocks_clean idle
    have issued := recover_issues log d (by simp [Apart,none]) (by simp [none])
    simp only [recovered,recoveryWrites,issued.disk,issued.writes,reboot_disk,reboot_writes,List.nil_append]
  · have issued := recover_issues log d (by rw [pending.listed]; exact ready.apart)
      (by rw [pending.listed]; exact ready.homes)
    simp only [recovered,recoveryWrites,issued.disk,issued.writes,reboot_disk,reboot_writes,List.nil_append]

theorem recovered_idle (idle : Idle log d) : SameHome log (recovered log d) d := by
  rw [recovered_eq ready (.inl idle),recoveryWrites_idle idle]
  exact update_start_home ready d _

theorem recovered_replaying (replaying : Replaying log new before d) : SameHome log (recovered log d) (committed log new before) := by
  rcases replaying with ⟨pending,rest⟩ | ⟨idle,same⟩
  · rw [recovered_eq ready (.inr pending),recoveryWrites_pending ready pending,applyAll_append]
    exact fun b out => (update_start_home ready _ _ b out).trans (replay_committed rest b out)
  · exact fun b out => (recovered_idle ready idle b out).trans (same b out)

theorem recoveryWrites_touch (listed : Idle log d ∨ Pending log new d)
    (member : w ∈ recoveryWrites log d) : InLog log w.1 ∨ Home log w.1 := by
  rcases listed with idle | pending
  · rw [recoveryWrites_idle idle,List.mem_singleton] at member
    subst member
    exact .inl ready.start_inLog
  · rw [recoveryWrites_pending ready pending] at member
    rcases List.mem_append.mp member with replayed | cleared
    · exact .inr (transaction_named replayed)
    · rw [List.mem_singleton] at cleared
      subst cleared
      exact .inl ready.start_inLog

end

/-! ### The commit -/

theorem Ready.commit_writes (ready : Ready log io new) (nonempty : 0 < log.lh.length) :
    (commit log io).2.writes =
      slotWrites log.start new 0 log.lh ++ [(log.start,headBlock (io.disk log.start) log.lh)] ++
        (transaction log.lh new ++ [(log.start,headBlock (headBlock (io.disk log.start) log.lh) [])]) := by
  have issued := (commit_issues io nonempty ready.apart ready.homes).writes
  have slots : slotWrites log.start (view io) 0 log.lh = slotWrites log.start new 0 log.lh :=
    slotWrites_congr fun b member => ready.view_home member
  have homes : transaction log.lh (view io) = transaction log.lh new :=
    List.map_congr_left fun b member => by rw [ready.view_home member]
  have head : view io log.start = io.disk log.start := by
    refine ready.view_other ?_
    rintro ⟨x,listed,same⟩
    exact ready.homes x listed same
  rwa [ready.fresh,List.nil_append,slots,homes,head] at issued

theorem commit_empty (none : log.lh = []) : (commit log io).2 = io := by simp [commit,none]

theorem slotWrites_inLog (ready : Ready log io new)
    (member : w ∈ slotWrites log.start new 0 log.lh) : InLog log w.1 ∧ w.1 ≠ log.start := by
  have bounds := slotWrites_range member
  have := ready.space
  exact ⟨⟨by omega,by omega⟩,by omega⟩

theorem crash_before (ready : Ready log io new) (clean : Idle log io.disk) {k : Nat}
    (unwritten : ¬ HeadWritten log io k) : Idle log (crash log io k) ∧ SameHome log (crash log io k) io.disk := by
  have touched : ∀ w ∈ (commit log io).2.writes.take k, InLog log w.1 ∧ w.1 ≠ log.start := by
    intro w member
    refine ⟨?_,fun same => unwritten ⟨w,member,same⟩⟩
    rcases Nat.eq_zero_or_pos log.lh.length with none | nonempty
    · rw [commit_empty (List.length_eq_zero_iff.mp none),ready.fresh] at member
      simp at member
    · rw [HeadWritten,ready.commit_writes nonempty] at unwritten
      rw [ready.commit_writes nonempty] at member
      -- a longer prefix would hold the header write
      have cut : k ≤ (slotWrites log.start new 0 log.lh).length := by
        by_contra long
        refine unwritten ⟨(log.start,headBlock (io.disk log.start) log.lh),?_,rfl⟩
        rw [List.append_assoc,List.take_append,List.mem_append]
        right
        obtain ⟨m,more⟩ : ∃ m, k - (slotWrites log.start new 0 log.lh).length = m + 1 :=
          Nat.exists_eq_add_one.mpr (by omega)
        rw [more]
        simp
      rw [List.append_assoc,List.take_append_of_le_length cut] at member
      exact (slotWrites_inLog ready (List.mem_of_mem_take member)).1
  constructor
  · rw [Idle,crash,applyAll_other fun w member => (touched w member).2]
    exact clean
  · intro b out
    refine applyAll_other (fun w member same => ?_) _
    exact out (same ▸ (touched w member).1)

/-- After the header is written the disk is being replayed. -/
theorem crash_after (ready : Ready log io new) {k : Nat} (written : HeadWritten log io k) :
    Replaying log new io.disk (crash log io k) := by
  have nonempty : 0 < log.lh.length := by
    rcases Nat.eq_zero_or_pos log.lh.length with none | nonempty
    · obtain ⟨w,member,_⟩ := written
      rw [commit_empty (List.length_eq_zero_iff.mp none),ready.fresh] at member
      simp at member
    · exact nonempty
  -- the prefix reaches past the slots: one of its writes is the header's
  have long : (slotWrites log.start new 0 log.lh ++ [(log.start,headBlock (io.disk log.start) log.lh)]).length ≤ k := by
    obtain ⟨w,member,same⟩ := written
    rw [ready.commit_writes nonempty,List.append_assoc] at member
    by_contra short
    rw [List.length_append,List.length_singleton] at short
    rw [List.take_append_of_le_length (by omega)] at member
    exact (slotWrites_inLog ready (List.mem_of_mem_take member)).2 same
  -- the disk right after the header
  have headed : Pending log new (applyAll (slotWrites log.start new 0 log.lh ++
      [(log.start,headBlock (io.disk log.start) log.lh)]) io.disk) ∧
      ∀ b, ¬ InLog log b → applyAll (slotWrites log.start new 0 log.lh ++
        [(log.start,headBlock (io.disk log.start) log.lh)]) io.disk b = io.disk b := by
    rw [applyAll_append]
    refine ⟨⟨?_,fun i inside => ?_⟩,fun b out => ?_⟩
    · simp [applyAll,headBlocks_headBlock _ ready.room]
    · rw [applyAll_other]
      · exact slot_contents inside
      · intro w member
        rw [List.mem_singleton] at member
        subst member
        simp only [ne_eq]
        omega
    · refine (update_start_home ready _ _ b out).trans (applyAll_other ?_ _)
      exact fun w member same => out (same ▸ (slotWrites_inLog ready member).1)
  rw [crash,ready.commit_writes nonempty,List.take_append,List.take_of_length_le long,applyAll_append]
  generalize k - (slotWrites log.start new 0 log.lh ++ [(log.start,headBlock (io.disk log.start) log.lh)]).length = m
  generalize applyAll (slotWrites log.start new 0 log.lh ++
    [(log.start,headBlock (io.disk log.start) log.lh)]) io.disk = d at headed
  obtain ⟨pending,rest⟩ := headed
  by_cases cut : m ≤ (transaction log.lh new).length
  · left
    rw [List.take_append_of_le_length cut]
    have part : ∀ w ∈ (transaction log.lh new).take m, w ∈ transaction log.lh new :=
      fun w member => List.mem_of_mem_take member
    refine ⟨ready.pending_replay part pending,fun b out other => ?_⟩
    rw [applyAll_other,rest b out]
    intro w member same
    obtain ⟨x,listed,value⟩ := transaction_named (part w member)
    exact other ⟨x,listed,value.trans same⟩
  · right
    rw [List.take_of_length_le (by simp only [List.length_append,List.length_singleton]; omega),applyAll_append]
    refine ⟨cleared_idle _ _,fun b out => ?_⟩
    exact (update_start_home ready _ _ b out).trans (replay_committed (fun b out _ => rest b out) b out)

theorem commit_touch (ready : Ready log io new) (member : w ∈ (commit log io).2.writes) :
    InLog log w.1 ∨ Home log w.1 := by
  rcases Nat.eq_zero_or_pos log.lh.length with none | nonempty
  · rw [commit_empty (List.length_eq_zero_iff.mp none),ready.fresh] at member
    cases member
  · rw [ready.commit_writes nonempty] at member
    simp only [List.mem_append,List.mem_singleton] at member
    rcases member with (slot | rfl) | home | rfl
    · exact .inl (slotWrites_inLog ready slot).1
    · exact .inl ready.start_inLog
    · exact .inr (transaction_named home)
    · exact .inl ready.start_inLog

/-- **Crash atomicity.** Stop a commit after any `k` of its writes, cut any number
    of recoveries off anywhere and let a last one complete. If the header had been
    written, the home blocks are those of the transaction; if not, they are those
    of the disk before it. No write goes to another block. -/
theorem log_crash_atomic (ready : Ready log io new) (clean : headCount (io.disk log.start) = 0) (k : Nat)
    (cuts : List Nat) :
    (HeadWritten log io k → SameHome log (recovered log (cuts.foldl (cutRecovery log) (crash log io k)))
      (committed log new io.disk)) ∧
    (¬ HeadWritten log io k → SameHome log (recovered log (cuts.foldl (cutRecovery log) (crash log io k))) io.disk) ∧
    (¬ SameHome log io.disk (committed log new io.disk) →
      (SameHome log (recovered log (cuts.foldl (cutRecovery log) (crash log io k))) (committed log new io.disk) ↔
        HeadWritten log io k)) ∧
    (∀ w ∈ (commit log io).2.writes, InLog log w.1 ∨ Home log w.1) ∧
    ∀ runs, runs <+: cuts → ∀ w ∈ recoveryWrites log (runs.foldl (cutRecovery log) (crash log io k)),
      InLog log w.1 ∨ Home log w.1 := by
  have after : HeadWritten log io k → SameHome log (recovered log (cuts.foldl (cutRecovery log) (crash log io k)))
      (committed log new io.disk) :=
    fun written => recovered_replaying ready (cuts_replaying ready cuts (crash_after ready written))
  have before : ¬ HeadWritten log io k →
      SameHome log (recovered log (cuts.foldl (cutRecovery log) (crash log io k))) io.disk := by
    intro unwritten
    obtain ⟨idle,same⟩ := crash_before ready clean unwritten
    obtain ⟨still,kept⟩ := cuts_idle ready cuts idle
    exact fun b out => ((recovered_idle ready still b out).trans (kept b out)).trans (same b out)
  refine ⟨after,before,fun different => ⟨fun reached => ?_,after⟩,fun w member => commit_touch ready member,?_⟩
  · by_contra unwritten
    exact different fun b out => ((before unwritten b out).symm.trans (reached b out))
  · intro runs _ w member
    refine recoveryWrites_touch ready ?_ member
    by_cases written : HeadWritten log io k
    · rcases cuts_replaying ready runs (crash_after ready written) with ⟨pending,_⟩ | ⟨idle,_⟩
      · exact .inr pending
      · exact .inl idle
    · exact .inl (cuts_idle ready runs (crash_before ready clean written).1).1

end

/-- One logged block: block 100 with its new contents in the cache. -/
def oneBlock : Log := ⟨2,30,[100]⟩
def oneBlockIo (d : Disk) (c : UInt8) : Io := ⟨d,update (fun _ => none) 100 (some fun _ => c),[]⟩

theorem oneBlock_ready (d : Disk) (c : UInt8) : Ready oneBlock (oneBlockIo d c) fun _ _ => c := by
  refine ⟨by simp [oneBlock,InLog],by decide,by decide,by simp [oneBlock,oneBlockIo],fun b data found other => ?_,rfl⟩
  have same : b ≠ 100 := fun same => other ⟨100,by simp [oneBlock],same.symm⟩
  simp [oneBlockIo,update_of_ne same] at found

theorem oneBlock_written (d : Disk) (c : UInt8) : HeadWritten oneBlock (oneBlockIo d c) 2 := by
  rw [HeadWritten,(oneBlock_ready d c).commit_writes (by decide)]
  exact ⟨(2,headBlock (d 2) [100]),by simp [oneBlock,oneBlockIo,slotWrites],rfl⟩

theorem log_crash_atomic_oneBlock : SameHome oneBlock
    (recovered oneBlock ([1,0].foldl (cutRecovery oneBlock) (crash oneBlock (oneBlockIo (fun _ _ => 0) 1) 2)))
    (committed oneBlock (fun _ _ => 1) fun _ _ => 0) :=
  (log_crash_atomic (oneBlock_ready _ 1) (by decide) 2 [1,0]).1 (oneBlock_written _ 1)

/-! ### The lives of a machine -/

/-- The disk of a machine and the transactions on it, the last first. A commit completes, or the machine stops during it and is
    started again until a recovery completes; the transaction counts if its header had been written. -/
inductive Lives (start size : Nat) (d₀ : Disk) : List (List UInt32 × (Nat → Block)) → Disk → Prop where
  | mkfs : Lives start size d₀ [] d₀
  | commit {ts lh io new} (before : Lives start size d₀ ts io.disk) (ready : Ready ⟨start,size,lh⟩ io new) :
    Lives start size d₀ ((lh,new) :: ts) (commit ⟨start,size,lh⟩ io).2.disk
  | kept {ts lh io new k} (before : Lives start size d₀ ts io.disk) (ready : Ready ⟨start,size,lh⟩ io new)
    (written : HeadWritten ⟨start,size,lh⟩ io k) (cuts : List Nat) : Lives start size d₀ ((lh,new) :: ts)
      (recovered ⟨start,size,lh⟩ (cuts.foldl (cutRecovery ⟨start,size,lh⟩) (crash ⟨start,size,lh⟩ io k)))
  | lost {ts lh io new k} (before : Lives start size d₀ ts io.disk) (ready : Ready ⟨start,size,lh⟩ io new)
    (unwritten : ¬ HeadWritten ⟨start,size,lh⟩ io k) (cuts : List Nat) : Lives start size d₀ ts
      (recovered ⟨start,size,lh⟩ (cuts.foldl (cutRecovery ⟨start,size,lh⟩) (crash ⟨start,size,lh⟩ io k)))

section
variable {log : Log} {io : Io} {new : Nat → Block} {start size : Nat} {d₀ d : Disk} {ts : List (List UInt32 × (Nat → Block))}

theorem recovered_clean (ready : Ready log io new) (listed : Idle log d ∨ Pending log new d) : Idle log (recovered log d) := by
  rw [recovered_eq ready listed]
  rcases listed with idle | pending
  · rw [recoveryWrites_idle idle]
    exact cleared_idle _ _
  · rw [recoveryWrites_pending ready pending,applyAll_append]
    exact cleared_idle _ _

theorem commit_clean (ready : Ready log io new) (clean : Idle log io.disk) :
    Idle log (commit log io).2.disk ∧ SameHome log (commit log io).2.disk (committed log new io.disk) := by
  rcases Nat.eq_zero_or_pos log.lh.length with none | nonempty
  · have none := List.length_eq_zero_iff.mp none
    rw [commit_empty none]
    exact ⟨clean,fun b _ => by simp [committed,none]⟩
  · -- a commit that completes is one that stops after its last write
    have issued := commit_issues io nonempty ready.apart ready.homes
    have all : (commit log io).2.disk = crash log io (commit log io).2.writes.length := by
      rw [crash,List.take_length,issued.writes,ready.fresh]
      exact issued.disk
    have idle : Idle log (crash log io (commit log io).2.writes.length) := by
      rw [crash,List.take_length,ready.commit_writes nonempty,← List.append_assoc,applyAll_append]
      exact cleared_idle _ _
    have written : HeadWritten log io (commit log io).2.writes.length := by
      refine ⟨(log.start,headBlock (io.disk log.start) log.lh),?_,rfl⟩
      rw [List.take_length,ready.commit_writes nonempty]
      simp
    rw [all]
    rcases crash_after ready written with ⟨pending,_⟩ | done
    · have listed := pending.listed
      rw [headBlocks_clean idle] at listed
      simp [← listed] at nonempty
    · exact done

/-- Over any number of commits, crashes at any write and recoveries cut off anywhere: outside of the log the disk is the first
    one with the transactions that count, each as a whole and in their order, and its header is clear. -/
theorem log_lives_ordered (clean : headCount (d₀ start) = 0) (lives : Lives start size d₀ ts d) :
    headCount (d start) = 0 ∧ ∀ b, ¬(start ≤ b ∧ b < start + size) →
      d b = ts.foldr (fun t => committed ⟨start,size,t.1⟩ t.2) d₀ b := by
  have next {lh : List UInt32} {new : Nat → Block} {e e' : Disk} {b : Nat} (same : e b = e' b) :
      committed ⟨start,size,lh⟩ new e b = committed ⟨start,size,lh⟩ new e' b := by
    simp only [committed,same]
  induction lives with
  | mkfs => exact ⟨clean,fun _ _ => rfl⟩
  | commit before ready ih =>
    obtain ⟨idle,same⟩ := commit_clean ready ih.1
    exact ⟨idle,fun b out => (same b out).trans (next (ih.2 b out))⟩
  | kept before ready written cuts ih =>
    have replaying := cuts_replaying ready cuts (crash_after ready written)
    have same := recovered_replaying ready replaying
    exact ⟨recovered_clean ready (replaying.symm.imp And.left And.left),fun b out => (same b out).trans (next (ih.2 b out))⟩
  | lost before ready unwritten cuts ih =>
    obtain ⟨idle,kept⟩ := crash_before ready ih.1 unwritten
    obtain ⟨still,same⟩ := cuts_idle ready cuts idle
    refine ⟨recovered_clean ready (.inl still),fun b out => ?_⟩
    exact (recovered_idle ready still b out).trans ((same b out).trans ((kept b out).trans (ih.2 b out)))

end

/-- A commit of one block, and one that is cut off after its header, with two recoveries that are cut off before the last. -/
theorem log_lives_ordered_oneBlock :
    let first := (commit oneBlock (oneBlockIo (fun _ _ => 0) 1)).2.disk
    let last := recovered oneBlock ([1,0].foldl (cutRecovery oneBlock) (crash oneBlock (oneBlockIo first 2) 2))
    Lives 2 30 (fun _ _ => 0) [([100],fun _ _ => 2),([100],fun _ _ => 1)] last ∧ first 100 = (fun _ => 1) ∧
      last 100 = fun _ => 2 := by
  intro first last
  have one : Lives 2 30 (fun _ _ => 0) [([100],fun _ _ => 1)] first := .commit .mkfs (oneBlock_ready _ 1)
  have two : Lives 2 30 (fun _ _ => 0) [([100],fun _ _ => 2),([100],fun _ _ => 1)] last :=
    .kept (show Lives _ _ _ _ (oneBlockIo first 2).disk from one) (oneBlock_ready first 2) (oneBlock_written first 2) [1,0]
  exact ⟨two,(log_lives_ordered (by decide) one).2 100 (by decide),(log_lives_ordered (by decide) two).2 100 (by decide)⟩

end Xv6.LogCrash
