import Xv6.LogOps
import Xv6.Lib.Counts

/-!
Operations are never split across transactions.
-/
namespace Xv6.LogGroups
open Function Xv6.Lib Xv6.LogOps

variable {np : Nat}

/-- The number of processes between `begin_op` and `end_op`. -/
def opCount (pc : Fin np → Pc) : Nat := ∑ p, if InOp (pc p) then 1 else 0

/-- What holds of the log and the processes in every reachable state. -/
structure Inv (s : LogOps.State np) : Prop where
  count : s.outstanding = opCount s.pc
  quiet : s.committing = true → ∀ p, ¬ InOp (s.pc p)
  busy : ∀ p, InCommit (s.pc p) → s.committing = true
  single : ∀ p q, InCommit (s.pc p) → InCommit (s.pc q) → p = q
  distinct : s.lh.Nodup
  calm : s.panic ≠ some "log.committing"

/-! ### Changes of one process -/

/-- Every process is in an operation, or in a commit, as before. -/
def SamePlace (pc pc' : Fin np → Pc) : Prop :=
  ∀ q, (InOp (pc' q) ↔ InOp (pc q)) ∧ (InCommit (pc' q) ↔ InCommit (pc q))

variable {pc : Fin np → Pc} {p : Fin np} {v : Pc}

theorem samePlace_update (op : InOp v ↔ InOp (pc p))
    (commit : InCommit v ↔ InCommit (pc p)) : SamePlace pc (update pc p v) := by
  intro q
  by_cases same : q = p
  · subst same; simpa using ⟨op,commit⟩
  · simp [update_of_ne same]

theorem opCount_congr {pc pc' : Fin np → Pc} (same : ∀ q, InOp (pc' q) ↔ InOp (pc q)) : opCount pc' = opCount pc := by
  simp only [opCount,same]

theorem opCount_enter (out : ¬ InOp (pc p)) (inside : InOp v) :
    opCount (update pc p v) = opCount pc + 1 := by
  have change := sum_change (fun q => if InOp (pc q) then 1 else 0)
    (fun q => if InOp (update pc p v q) then 1 else 0) p (fun q other => by simp [update_of_ne other])
  simpa [opCount,out,inside] using change

theorem opCount_leave (inside : InOp (pc p)) (out : ¬ InOp v) :
    opCount (update pc p v) + 1 = opCount pc := by
  have change := sum_change (fun q => if InOp (pc q) then 1 else 0)
    (fun q => if InOp (update pc p v q) then 1 else 0) p (fun q other => by simp [update_of_ne other])
  simpa [opCount,out,inside] using change

theorem opCount_eq_zero : opCount pc = 0 ↔ ∀ p, ¬ InOp (pc p) := by
  simp [opCount]

variable {s s' : LogOps.State np}

theorem Inv.samePlace (inv : Inv s) (same : SamePlace s.pc s'.pc)
    (counted : s'.outstanding = s.outstanding) (flag : s'.committing = s.committing) (distinct : s'.lh.Nodup)
    (calm : s'.panic ≠ some "log.committing") : Inv s' where
  count := by rw [counted,inv.count,opCount_congr fun q => (same q).1]
  quiet committing p inside := inv.quiet (flag ▸ committing) p ((same p).1.mp inside)
  busy p inside := flag ▸ inv.busy p ((same p).2.mp inside)
  single p q left right := inv.single p q ((same p).2.mp left) ((same q).2.mp right)
  distinct := distinct
  calm := calm

variable {s : LogOps.State np}

theorem Inv.move (inv : Inv s) (op : InOp v ↔ InOp (s.pc p))
    (commit : InCommit v ↔ InCommit (s.pc p)) : Inv { s with pc := update s.pc p v } :=
  inv.samePlace (samePlace_update op commit) rfl rfl inv.distinct inv.calm

theorem absorb_mem {lh : List Nat} {b c : Nat} : c ∈ absorb lh b ↔ c = b ∨ c ∈ lh := by
  induction lh with
  | nil => simp [absorb]
  | cons x rest ih =>
    unfold absorb
    split_ifs with same
    · subst same; simp
    · simp only [List.mem_cons,ih]; tauto

theorem absorb_distinct {lh : List Nat} (distinct : lh.Nodup) (b : Nat) : (absorb lh b).Nodup := by
  induction lh with
  | nil => simp [absorb]
  | cons x rest ih =>
    unfold absorb
    split_ifs with same
    · exact distinct
    · rw [List.nodup_cons] at distinct ⊢
      refine ⟨?_,ih distinct.2⟩
      rw [absorb_mem]
      rintro (rfl | member)
      · exact same rfl
      · exact distinct.1 member

/-! ### The invariant over a run -/

theorem inv_initial (size : Int) : Inv (initial np size) where
  count := by simp [initial,opCount,InOp]
  quiet committing := by simp [initial] at committing
  busy p inside := by simp [initial,InCommit] at inside
  single p q inside := by simp [initial,InCommit] at inside
  distinct := List.nodup_nil
  calm := by simp [initial]

theorem Inv.no_commit (inv : Inv s) (inside : InOp (s.pc p)) :
    s.committing = false ∧ ∀ q, ¬ InCommit (s.pc q) := by
  have free : s.committing = false := by
    cases flag : s.committing with
    | false => rfl
    | true => exact absurd inside (inv.quiet flag p)
  exact ⟨free,fun q commit => by simp [inv.busy q commit] at free⟩

theorem inv_step {e : Event np} (inv : Inv s) (step : Step s e s') : Inv s' := by
  cases step with
  | call here | sleep here _ | wake here | log_write here _ | enter here | writeLog here | writeHead here
  | install here | eraseHead here => exact inv.move (by simp [here,InOp]) (by simp [here,InCommit])
  | @begin p here free _ =>
    have out : ¬ InOp (s.pc p) := by simp [here,InOp]
    have noCommit : ∀ q, ¬ InCommit (update s.pc p .op q) := by
      intro q
      by_cases same : q = p
      · subst same; simp [InCommit]
      · rw [update_of_ne same]
        intro commit
        simp [inv.busy q commit] at free
    refine ⟨?_,?_,?_,?_,inv.distinct,inv.calm⟩
    · have := opCount_enter (v := .op) out trivial
      simp only [inv.count,this,Nat.cast_add,Nat.cast_one]
    · intro committing; simp [free] at committing
    · intro q commit; exact absurd commit (noCommit q)
    · intro q r commit; exact absurd commit (noCommit q)
  | tooBig here _ | outside here _ _ => exact ⟨inv.count,inv.quiet,inv.busy,inv.single,inv.distinct,by simp⟩
  | @logged p b here =>
    exact inv.samePlace (samePlace_update (by simp [here,InOp]) (by simp [here,InCommit])) rfl rfl
      (absorb_distinct inv.distinct b) inv.calm
  | @broken p here busy =>
    -- an operation in progress excludes the commit that would panic
    have := (inv.no_commit (p := p) (by simp [here,InOp])).1
    simp [busy] at this
  | @last p here free only =>
    have inside : InOp (s.pc p) := by simp [here,InOp]
    have left := opCount_leave (v := .commit .enter) inside (by simp [InOp])
    have zero : opCount (update s.pc p (.commit .enter)) = 0 := by
      have := inv.count
      omega
    have others : ∀ q, InCommit (update s.pc p (.commit .enter) q) → q = p := by
      intro q commit
      by_contra other
      rw [update_of_ne other] at commit
      exact (inv.no_commit inside).2 q commit
    refine ⟨by simp [zero],fun _ => opCount_eq_zero.mp zero,fun _ _ => rfl,?_,inv.distinct,inv.calm⟩
    intro q r left right
    rw [others q left,others r right]
  | @ended p here free more =>
    have inside : InOp (s.pc p) := by simp [here,InOp]
    have noCommit : ∀ q, ¬ InCommit (wakeup (update s.pc p .idle) q) := by
      intro q commit
      cases stage : wakeup (update s.pc p .idle) q with
      | commit st =>
        rw [wakeup_commit] at stage
        by_cases same : q = p
        · subst same; simp at stage
        · rw [update_of_ne same] at stage
          exact (inv.no_commit inside).2 q (by simp [stage,InCommit])
      | _ => simp [stage,InCommit] at commit
    refine ⟨?_,?_,?_,?_,inv.distinct,inv.calm⟩
    · have left := opCount_leave (v := .idle) inside (by simp [InOp])
      rw [opCount_congr (wakeup_inOp _)]
      have := inv.count
      simp only
      omega
    · intro committing; simp [free] at committing
    · intro q commit; exact absurd commit (noCommit q)
    · intro q r commit; exact absurd commit (noCommit q)
  | @clear p here =>
    exact inv.samePlace (samePlace_update (by simp [here,InOp]) (by simp [here,InCommit])) rfl rfl List.nodup_nil inv.calm
  | @done p here =>
    have committing : s.committing = true := inv.busy p (by simp [here,InCommit])
    have only : ∀ q, ¬ InCommit (wakeup (update s.pc p .idle) q) := by
      intro q commit
      cases stage : wakeup (update s.pc p .idle) q with
      | commit st =>
        rw [wakeup_commit] at stage
        by_cases same : q = p
        · subst same; simp at stage
        · rw [update_of_ne same] at stage
          exact same (inv.single q p (by simp [stage,InCommit]) (by simp [here,InCommit]))
      | _ => simp [stage,InCommit] at commit
    have stay : ∀ q, InOp (wakeup (update s.pc p .idle) q) ↔ InOp (s.pc q) := by
      intro q
      rw [wakeup_inOp]
      by_cases same : q = p
      · subst same; simp [here,InOp]
      · rw [update_of_ne same]
    refine ⟨?_,?_,?_,?_,inv.distinct,inv.calm⟩
    · simp only [inv.count,opCount_congr stay]
    · intro flag; cases flag
    · intro q commit; exact absurd commit (only q)
    · intro q r commit; exact absurd commit (only q)

variable {es : List (Event np)}

theorem run_inv {size : Int} (run : Run size es s) : Inv s :=
  run.invariant (I := fun _ s => Inv s) (inv_initial size) fun _ _ _ _ inv _ step => inv_step inv step

/-! ### What the header has collected -/

/-- The history leaves process `p` between its `begin_op` and its `end_op`. -/
def OpenOp (p : Fin np) : List (Event np) → Prop
  | [] => False
  | .begin q :: es => q = p ∨ OpenOp p es
  | .ended q :: es => q ≠ p ∧ OpenOp p es
  | .last q :: es => q ≠ p ∧ OpenOp p es
  | _ :: es => OpenOp p es

/-- The blocks logged since the header was last written. -/
def uncommitted : List (Event np) → List Nat
  | [] => []
  | .commit _ _ :: _ => []
  | .logged _ b :: es => b :: uncommitted es
  | _ :: es => uncommitted es

/-- The header of the transaction is on the disk and not yet cleared in memory. -/
def Written (pc : Pc) : Prop := pc = .commit .install ∨ pc = .commit .clear

/-- The log holds every block logged since the header was last written. -/
structure Collected (es : List (Event np)) (s : LogOps.State np) : Prop where
  kept : ∀ b ∈ uncommitted es, b ∈ s.lh
  written : ∀ p, Written (s.pc p) → uncommitted es = []
  placed : ∀ p, InOp (s.pc p) ↔ OpenOp p es

theorem written_inCommit {pc : Pc} (written : Written pc) : InCommit pc := by
  rcases written with rfl | rfl <;> trivial

theorem written_update {p q : Fin np} (early : ¬ Written v)
    (written : Written (update pc p v q)) : Written (pc q) := by
  by_cases same : q = p
  · subst same; simp only [update_self] at written; exact absurd written early
  · rwa [update_of_ne same] at written

theorem written_wakeup {q : Fin np} (written : Written (wakeup pc q)) : Written (pc q) := by
  simpa [Written,wakeup_commit] using written

theorem Collected.move {e : Event np} (collected : Collected es s)
    (op : InOp v ↔ InOp (s.pc p)) (early : ¬ Written v ∨ Written (s.pc p))
    (same : uncommitted (e :: es) = uncommitted es) (placed : ∀ q, OpenOp q (e :: es) ↔ OpenOp q es) :
    Collected (e :: es) { s with pc := update s.pc p v } where
  kept := by rw [same]; exact collected.kept
  written q late := by
    rw [same]
    rcases early with early | late'
    · exact collected.written q (written_update early late)
    · exact collected.written p late'
  placed q := by
    rw [placed,← collected.placed q]
    by_cases here : q = p
    · subst here; simpa using op
    · simp only [update_of_ne here]

theorem collected_initial (size : Int) : Collected [] (initial np size) where
  kept b member := by cases member
  written _ _ := rfl
  placed p := by simp [initial,InOp,OpenOp]

theorem collected_step {e : Event np} (inv : Inv s)
    (collected : Collected es s) (step : Step s e s') : Collected (e :: es) s' := by
  cases step with
  | call here | sleep here _ | wake here | log_write here _ | writeLog here | eraseHead here =>
    exact collected.move (by simp [here,InOp]) (.inl (by simp [Written])) rfl fun _ => Iff.rfl
  | @begin p here _ _ =>
    refine ⟨collected.kept,fun q late => collected.written q (written_update (by simp [Written]) late),fun q => ?_⟩
    by_cases same : q = p
    · subst same; simp [InOp,OpenOp]
    · simp only [update_of_ne same,OpenOp,collected.placed q,Ne.symm same,false_or]
  | tooBig here _ | outside here _ _ => exact ⟨collected.kept,collected.written,collected.placed⟩
  | @logged p b here =>
    have inside : InOp (s.pc p) := by simp [here,InOp]
    refine ⟨?_,fun q late => ?_,fun q => ?_⟩
    · intro c member
      rw [absorb_mem]
      exact (List.mem_cons.mp member).imp id (collected.kept c)
    · -- nothing is logged while the header of a transaction is being installed
      exact absurd (written_inCommit (written_update (by simp [Written]) late)) ((inv.no_commit inside).2 q)
    · simp only [OpenOp,← collected.placed q]
      by_cases same : q = p
      · subst same; simp [here,InOp]
      · rw [update_of_ne same]
  | @broken p here busy =>
    have := (inv.no_commit (p := p) (by simp [here,InOp])).1
    simp [busy] at this
  | @last p here _ _ =>
    refine ⟨collected.kept,fun q late => collected.written q (written_update (by simp [Written]) late),fun q => ?_⟩
    by_cases same : q = p
    · subst same; simp [InOp,OpenOp]
    · simp only [update_of_ne same,OpenOp,collected.placed q,ne_eq,Ne.symm same,not_false_eq_true,true_and]
  | @ended p here _ _ =>
    refine ⟨collected.kept,fun q late => ?_,fun q => ?_⟩
    · exact collected.written q (written_update (by simp [Written]) (written_wakeup late))
    · simp only [wakeup_inOp]
      by_cases same : q = p
      · subst same; simp [InOp,OpenOp]
      · simp only [update_of_ne same,OpenOp,collected.placed q,ne_eq,Ne.symm same,not_false_eq_true,true_and]
  | enter here =>
    exact collected.move (by simp [here,InOp]) (.inl (by split_ifs <;> simp [Written])) rfl fun _ => Iff.rfl
  | @writeHead p here =>
    refine ⟨by simp [uncommitted],fun _ _ => rfl,fun q => ?_⟩
    simp only [OpenOp,← collected.placed q]
    by_cases same : q = p
    · subst same; simp [here,InOp]
    · rw [update_of_ne same]
  | install here =>
    exact collected.move (by simp [here,InOp]) (.inr (by simp [here,Written])) rfl fun _ => Iff.rfl
  | @clear p here =>
    have none : uncommitted es = [] := collected.written p (by simp [here,Written])
    refine ⟨by simp [uncommitted,none],fun _ _ => none,fun q => ?_⟩
    simp only [OpenOp,← collected.placed q]
    by_cases same : q = p
    · subst same; simp [here,InOp]
    · rw [update_of_ne same]
  | @done p here =>
    refine ⟨collected.kept,fun q late => ?_,fun q => ?_⟩
    · exact collected.written q (written_update (by simp [Written]) (written_wakeup late))
    · simp only [wakeup_inOp,OpenOp,← collected.placed q]
      by_cases same : q = p
      · subst same; simp [here,InOp]
      · rw [update_of_ne same]

theorem run_collected {size : Int} (run : Run size es s) :
    Inv s ∧ Collected es s :=
  run.invariant (I := fun es s => Inv s ∧ Collected es s) ⟨inv_initial size,collected_initial size⟩
    fun _ _ _ _ both _ step => ⟨inv_step both.1 step,collected_step both.1 both.2 step⟩

/-! ### One operation, one commit -/

theorem mem_uncommitted {b : Nat} : ∀ {mid old : List (Event np)},
    (∀ q header, .commit q header ∉ mid) → .logged p b ∈ mid → b ∈ uncommitted (mid ++ old)
  | [], _, _, member => by cases member
  | e :: rest, old, free, member => by
    have tail : .logged p b ∈ rest → b ∈ uncommitted (rest ++ old) :=
      mem_uncommitted fun q header listed => free q header (List.mem_cons_of_mem _ listed)
    rcases List.mem_cons.mp member with rfl | later
    · simp [uncommitted]
    · cases e with
      | commit q header => exact absurd List.mem_cons_self (free q header)
      | logged q c => exact List.mem_cons_of_mem _ (tail later)
      | _ => exact tail later

theorem ended_of_closed : ∀ {mid old : List (Event np)},
    ¬ OpenOp p (mid ++ .begin p :: old) → .ended p ∈ mid ∨ .last p ∈ mid
  | [], _, closed => absurd (.inl rfl) closed
  | e :: rest, old, closed => by
    have tail : ¬ OpenOp p (rest ++ .begin p :: old) → .ended p ∈ e :: rest ∨ .last p ∈ e :: rest := fun closed' =>
      (ended_of_closed closed').imp (List.mem_cons_of_mem _) (List.mem_cons_of_mem _)
    cases e with
    | begin q => exact tail fun still => closed (.inr still)
    | ended q =>
      by_cases same : q = p
      · subst same; exact .inl List.mem_cons_self
      · exact tail fun still => closed ⟨same,still⟩
    | last q =>
      by_cases same : q = p
      · subst same; exact .inr List.mem_cons_self
      · exact tail fun still => closed ⟨same,still⟩
    | _ => exact tail closed

/-- **Operations are never split across transactions.** Take an operation that
    begins, and the next header written after that. The operation has ended by
    then, and every block it logged is in that header. While `log.committing` is
    set no operation is in progress and nothing is logged, there is one commit at
    a time, `end_op` does not panic, and the header holds no block twice. -/
theorem operations_not_split {size : Int} {es : List (Event np)} {s : LogOps.State np} (run : Run size es s) :
    (∀ (p q : Fin np) (header : List Nat) (new mid old : List (Event np)),
      es = new ++ .commit q header :: (mid ++ .begin p :: old) → (∀ r h, .commit r h ∉ mid) →
        (.ended p ∈ mid ∨ .last p ∈ mid) ∧ ∀ b, .logged p b ∈ mid → b ∈ header) ∧
    (s.committing = true → s.outstanding = 0 ∧ ∀ p, ¬ InOp (s.pc p)) ∧
    (∀ p a e s', next s p a = some (e,s') → (∃ q b, e = .log_write q b ∨ e = .logged q b) →
      s.committing = false ∧ ∀ q, ¬ InCommit (s.pc q)) ∧
    (∀ p q, InCommit (s.pc p) → InCommit (s.pc q) → p = q) ∧
    s.panic ≠ some "log.committing" ∧
    s.lh.Nodup := by
  have inv := run_inv run
  refine ⟨?_,fun flag => ⟨?_,inv.quiet flag⟩,?_,inv.single,inv.calm,inv.distinct⟩
  · intro p q header new mid old history free
    rw [history] at run
    obtain ⟨s₀,s₁,r,a,older,stepped⟩ := run_suffix run
    obtain ⟨inv₀,collected⟩ := run_collected older
    obtain ⟨_,step⟩ := next_step stepped
    cases step with
    | writeHead here =>
      have flag := inv₀.busy q (by simp [here,InCommit])
      refine ⟨ended_of_closed fun still => inv₀.quiet flag p ((collected.placed p).mpr still),fun b member => ?_⟩
      exact collected.kept b (mem_uncommitted free member)
  · rw [inv.count,opCount_eq_zero.mpr (inv.quiet flag)]; rfl
  · rintro p a e s' stepped ⟨q,b,rfl | rfl⟩
    · obtain ⟨_,step⟩ := next_step stepped
      cases step with
      | tooBig here _ | outside here _ _ | log_write here _ => exact inv.no_commit (p := q) (by simp [here,InOp])
    · obtain ⟨_,step⟩ := next_step stepped
      cases step with
      | logged here => exact inv.no_commit (p := q) (by simp [here,InOp])

/-- Two overlapping operations of two processes, up to the write of their header. -/
def overlapping : List (Fin 2 × Act) :=
  [(0,.begin_op),(0,.run),(1,.begin_op),(1,.run),(0,.log_write 7),(0,.run),(1,.log_write 9),(1,.run),(0,.end_op),
    (1,.end_op),(1,.run),(1,.run),(1,.run)]

/-- Where they lead. -/
def overlapped : List (Event 2) × LogOps.State 2 := (exec (initial 2 30) [] overlapping).get (by decide)

theorem operations_not_split_overlapping :
    overlapped.2.committing = true ∧ overlapped.2.outstanding = 0 ∧ ∀ p, ¬ InOp (overlapped.2.pc p) := by
  have reached : exec (initial 2 30) [] overlapping = some (overlapped.1,overlapped.2) :=
    (Option.some_get (by decide)).symm
  have flag : overlapped.2.committing = true := by decide
  exact ⟨flag,(operations_not_split (exec_run .init reached)).2.1 flag⟩

end Xv6.LogGroups
