import Xv6.LogGroups

/-!
The space that `begin_op` reserves in the log. Operations that log at most `MAXOPBLOCKS` distinct blocks never fill
the header beyond `LOGSIZE` (`Reserved`).
-/
namespace Xv6.LogSpace
open Function Xv6.Lib Xv6.LogOps Xv6.LogGroups

variable {np : Nat}

/-- The distinct blocks that process `p` has called `log_write` on since its operation began. -/
def opBlocks (p : Fin np) : List (Event np) → Finset Nat
  | [] => ∅
  | .begin q :: es => if q = p then ∅ else opBlocks p es
  | .log_write q b :: es => if q = p then insert b (opBlocks p es) else opBlocks p es
  | _ :: es => opBlocks p es

/-- No operation of the history calls `log_write` on more than `MAXOPBLOCKS` distinct blocks. -/
def Bounded : List (Event np) → Prop
  | [] => True
  | e :: es => (∀ p, (opBlocks p (e :: es)).card ≤ MAXOPBLOCKS) ∧ Bounded es

/-- The distinct blocks logged since the last `end_op` that left no operation in progress. -/
def groupBlocks : List (Event np) → Finset Nat
  | [] => ∅
  | .last _ :: _ => ∅
  | .logged _ b :: es => insert b (groupBlocks es)
  | _ :: es => groupBlocks es

/-- Every call of `log_write` finds fewer than `LOGSIZE - 1` blocks logged by its group. -/
def GroupsFit : List (Event np) → Prop
  | [] => True
  | .log_write _ _ :: es => (groupBlocks es).card < LOGSIZE - 1 ∧ GroupsFit es
  | _ :: es => GroupsFit es

instance : ∀ es : List (Event np), Decidable (Bounded es)
  | [] => isTrue trivial
  | e :: es =>
    have := instDecidableBounded es
    inferInstanceAs (Decidable ((∀ p, (opBlocks p (e :: es)).card ≤ MAXOPBLOCKS) ∧ Bounded es))

instance : ∀ es : List (Event np), Decidable (GroupsFit es)
  | [] => isTrue trivial
  | e :: es =>
    have := instDecidableGroupsFit es
    match e with
    | .log_write .. => inferInstanceAs (Decidable (_ ∧ GroupsFit es))
    | .call _ | .sleep _ | .wake _ | .begin _ | .logged .. | .ended _ | .last _ | .commit .. | .stage .. =>
      inferInstanceAs (Decidable (GroupsFit es))

/-! ### The header is the group's blocks -/

/-- The header in memory holds the blocks of the current group, and none of a
    group whose commit has cleared it. -/
structure Grouped (es : List (Event np)) (s : LogOps.State np) : Prop where
  same : s.committing = false → s.lh.toFinset = groupBlocks es
  past : s.committing = true → groupBlocks es = ∅
  cleared : ∀ p, s.pc p = .commit .eraseHead ∨ s.pc p = .commit .done → s.lh = []

theorem absorb_toFinset (lh : List Nat) (b : Nat) : (absorb lh b).toFinset = insert b lh.toFinset := by
  ext c
  simp [absorb_mem]

theorem grouped_initial (size : Int) : Grouped [] (initial np size) where
  same _ := rfl
  past flag := by simp [initial] at flag
  cleared _ _ := rfl

variable {es : List (Event np)} {s : LogOps.State np} {e : Event np} {p : Fin np}

theorem Grouped.move (grouped : Grouped es s) {v : Pc}
    (early : v = .commit .eraseHead ∨ v = .commit .done → s.lh = []) (same : groupBlocks (e :: es) = groupBlocks es) :
    Grouped (e :: es) { s with pc := update s.pc p v } where
  same free := by rw [same]; exact grouped.same free
  past flag := by rw [same]; exact grouped.past flag
  cleared q late := by
    by_cases here : q = p
    · subst here; simp only [update_self] at late; exact early late
    · simp only [update_of_ne here] at late; exact grouped.cleared q late

variable {s s' : LogOps.State np}

theorem grouped_step (inv : Inv s)
    (grouped : Grouped es s) (step : Step s e s') : Grouped (e :: es) s' := by
  cases step with
  | call here | sleep here _ | wake here | log_write here _ | writeLog here | writeHead here | install here =>
    exact grouped.move (by simp) rfl
  | @begin p here free _ =>
    have moved : Grouped (.begin p :: es) { s with pc := update s.pc p .op } := grouped.move (by simp) rfl
    exact ⟨moved.same,moved.past,moved.cleared⟩
  | tooBig here _ | outside here _ _ => exact ⟨grouped.same,grouped.past,grouped.cleared⟩
  | @logged p b here =>
    obtain ⟨free,noCommit⟩ := inv.no_commit (p := p) (by simp [here,InOp])
    refine ⟨fun _ => ?_,fun flag => by simp [free] at flag,fun q late => ?_⟩
    · rw [absorb_toFinset,grouped.same free]; rfl
    · by_cases same : q = p
      · subst same; simp at late
      · simp only [update_of_ne same] at late
        rcases late with late | late <;> exact absurd (by simp [late,InCommit]) (noCommit q)
  | @broken p here busy =>
    have := (inv.no_commit (p := p) (by simp [here,InOp])).1
    simp [busy] at this
  | @last p here free _ =>
    have noCommit := (inv.no_commit (p := p) (by simp [here,InOp])).2
    refine ⟨fun flag => (by cases flag),fun _ => rfl,fun q late => ?_⟩
    by_cases same : q = p
    · subst same; simp at late
    · simp only [update_of_ne same] at late
      rcases late with late | late <;> exact absurd (by simp [late,InCommit]) (noCommit q)
  | @ended p here free _ =>
    refine ⟨grouped.same,grouped.past,fun q late => ?_⟩
    simp only [wakeup_commit] at late
    by_cases same : q = p
    · subst same; simp at late
    · simp only [update_of_ne same] at late; exact grouped.cleared q late
  | enter here =>
    refine grouped.move ?_ rfl
    split_ifs with some
    · simp
    · exact fun _ => List.length_eq_zero_iff.mp (Nat.eq_zero_of_not_pos some)
  | @clear p here =>
    have flag := inv.busy p (by simp [here,InCommit])
    exact ⟨fun free => by simp [flag] at free,grouped.past,fun _ _ => rfl⟩
  | @eraseHead p here => exact grouped.move (fun _ => grouped.cleared p (.inl here)) rfl
  | @done p here =>
    have flag := inv.busy p (by simp [here,InCommit])
    have empty : s.lh = [] := grouped.cleared p (.inr here)
    refine ⟨fun _ => ?_,fun flag => (by cases flag),fun _ _ => empty⟩
    have none : groupBlocks (.stage p .done :: es) = ∅ := grouped.past flag
    simp [empty,none]

theorem Grouped.length (grouped : Grouped es s) (inv : Inv s)
    (inside : InOp (s.pc p)) : (groupBlocks es).card = s.lh.length := by
  rw [← grouped.same (inv.no_commit inside).1,List.toFinset_card_of_nodup inv.distinct]

/-! ### The reservation -/

/-- The distinct blocks that process `p` has put into the header since its operation began. -/
def opLogged (p : Fin np) : List (Event np) → Finset Nat
  | [] => ∅
  | .begin q :: es => if q = p then ∅ else opLogged p es
  | .logged q b :: es => if q = p then insert b (opLogged p es) else opLogged p es
  | _ :: es => opLogged p es

/-- What process `p` may still add to the header. -/
def reserve (es : List (Event np)) (pc : Fin np → Pc) (p : Fin np) : Nat :=
  if InOp (pc p) then MAXOPBLOCKS - (opLogged p es).card else 0

/-- The header and what the operations in progress may still add fit in the log. -/
structure Reserved (es : List (Event np)) (s : LogOps.State np) : Prop where
  called : ∀ p, opLogged p es ⊆ opBlocks p es
  calling : ∀ p b, s.pc p = .logging b → b ∈ opBlocks p es
  held : ∀ p, InOp (s.pc p) → ∀ b ∈ opLogged p es, b ∈ s.lh
  space : s.lh.length + ∑ p, reserve es s.pc p ≤ LOGSIZE

theorem reserved_initial (size : Int) : Reserved [] (initial np size) where
  called _ := by simp [opLogged]
  calling p b here := by simp [initial] at here
  held p inside := by simp [initial,InOp] at inside
  space := by simp [initial,reserve,InOp]

theorem Reserved.mono (reserved : Reserved es s)
    (logged : ∀ q, opLogged q (e :: es) = opLogged q es) (blocks : ∀ q, opBlocks q es ⊆ opBlocks q (e :: es))
    (places : ∀ q, InOp (s'.pc q) → InOp (s.pc q))
    (calling : ∀ q b, s'.pc q = .logging b → s.pc q = .logging b ∨ b ∈ opBlocks q (e :: es)) (same : s'.lh = s.lh) :
    Reserved (e :: es) s' where
  called q := by rw [logged]; exact (reserved.called q).trans (blocks q)
  calling q b here := (calling q b here).elim (fun before => blocks q (reserved.calling q b before)) id
  held q inside b member := by
    rw [same]
    exact reserved.held q (places q inside) b (logged q ▸ member)
  space := by
    have less : ∑ q, reserve (e :: es) s'.pc q ≤ ∑ q, reserve es s.pc q := by
      refine Finset.sum_le_sum fun q _ => ?_
      unfold reserve
      rw [logged]
      split_ifs with after before
      · exact Nat.le_refl _
      · exact absurd (places q after) before
      · exact Nat.zero_le _
      · exact Nat.le_refl _
    have := reserved.space
    rw [same]
    omega

variable {pc : Fin np → Pc}

theorem update_logging {p q : Fin np} {v : Pc} {b : Nat} (other : ∀ c, v ≠ .logging c)
    (here : update pc p v q = .logging b) : pc q = .logging b := by
  by_cases same : q = p
  · subst same; simp only [update_self] at here; exact absurd here (other b)
  · rwa [update_of_ne same] at here

theorem update_inOp {p q : Fin np} {v : Pc} (out : InOp v → InOp (pc p))
    (inside : InOp (update pc p v q)) : InOp (pc q) := by
  by_cases same : q = p
  · subst same; simp only [update_self] at inside; exact out inside
  · rwa [update_of_ne same] at inside

theorem Reserved.move (reserved : Reserved es s) {v : Pc}
    (logged : ∀ q, opLogged q (e :: es) = opLogged q es) (blocks : ∀ q, opBlocks q (e :: es) = opBlocks q es)
    (out : ¬ InOp v) : Reserved (e :: es) { s with pc := update s.pc p v } := by
  refine reserved.mono logged (fun q => (blocks q).ge) (fun q => update_inOp fun inside => absurd inside out) ?_ rfl
  intro q b here
  refine .inl (update_logging (fun c same => ?_) here)
  subst same
  exact out trivial

theorem wakeup_logging {q : Fin np} {b : Nat} (here : wakeup pc q = .logging b) :
    pc q = .logging b := by
  unfold wakeup at here
  split_ifs at here with asleep
  exact here

theorem reserve_sum_le (es : List (Event np)) (pc : Fin np → Pc) :
    ∑ p, reserve es pc p ≤ opCount pc * MAXOPBLOCKS := by
  rw [opCount,Finset.sum_mul]
  refine Finset.sum_le_sum fun p _ => ?_
  unfold reserve
  split_ifs <;> omega

theorem absorb_length_le (lh : List Nat) (b : Nat) : (absorb lh b).length ≤ lh.length + 1 := by
  induction lh with
  | nil => simp [absorb]
  | cons x rest ih =>
    unfold absorb
    split_ifs
    · simp
    · simp only [List.length_cons]; omega

theorem absorb_length_mem {lh : List Nat} {b : Nat} (member : b ∈ lh) : (absorb lh b).length = lh.length := by
  induction lh with
  | nil => cases member
  | cons x rest ih =>
    unfold absorb
    split_ifs with same
    · rfl
    · have later : b ∈ rest := (List.mem_cons.mp member).resolve_left (Ne.symm same)
      simp only [List.length_cons,ih later]

/-- A block put into the header uses up a block of its operation's reservation, or no space. -/
theorem reserved_logged (reserved : Reserved es s) {b : Nat}
    (here : s.pc p = .logging b) (bounded : (opBlocks p es).card ≤ MAXOPBLOCKS) :
    Reserved (.logged p b :: es) { s with lh := absorb s.lh b, pc := update s.pc p .op } := by
  have inside : InOp (s.pc p) := by simp [here,InOp]
  have own : opLogged p (.logged p b :: es) = insert b (opLogged p es) := by simp [opLogged]
  have others : ∀ q, q ≠ p → opLogged q (.logged p b :: es) = opLogged q es := by
    intro q other
    simp [opLogged,Ne.symm other]
  have fits : insert b (opLogged p es) ⊆ opBlocks p es :=
    Finset.insert_subset (reserved.calling p b here) (reserved.called p)
  refine ⟨fun q => ?_,fun q c calling => ?_,fun q inside' c member => ?_,?_⟩
  · by_cases same : q = p
    · subst same; rw [own]; exact fits
    · rw [others q same]; exact reserved.called q
  · exact reserved.calling q c (update_logging (by simp) calling)
  · rw [absorb_mem]
    by_cases same : q = p
    · subst same
      rw [own,Finset.mem_insert] at member
      exact member.imp id fun old => reserved.held q inside c old
    · rw [others q same] at member
      exact .inr (reserved.held q (update_inOp (fun _ => inside) inside') c member)
  · have change := sum_change (reserve es s.pc) (reserve (.logged p b :: es) (update s.pc p .op)) p (by
      intro q other
      simp only [reserve,update_of_ne other,others q other])
    have before : reserve es s.pc p = MAXOPBLOCKS - (opLogged p es).card := by simp [reserve,inside]
    have after : reserve (.logged p b :: es) (update s.pc p .op) p =
        MAXOPBLOCKS - (insert b (opLogged p es)).card := by simp [reserve,InOp,own]
    have room := (Finset.card_le_card fits).trans bounded
    have space := reserved.space
    by_cases listed : b ∈ s.lh
    · have grown : (opLogged p es).card ≤ (insert b (opLogged p es)).card :=
        Finset.card_le_card (Finset.subset_insert _ _)
      simp only [absorb_length_mem listed]
      omega
    · have fresh : b ∉ opLogged p es := fun old => listed (reserved.held p inside b old)
      rw [Finset.card_insert_of_notMem fresh] at after room
      have := absorb_length_le s.lh b
      simp only
      omega

theorem reserved_step (inv : Inv s)
    (reserved : Reserved es s) (bounded : Bounded (e :: es)) (step : Step s e s') : Reserved (e :: es) s' := by
  cases step with
  | call here | sleep here _ | wake here | enter here | writeLog here | writeHead here | install here | eraseHead here =>
    exact reserved.move (fun _ => rfl) (fun _ => rfl) (by simp [InOp])
  | @begin p here _ room =>
    have out : ¬ InOp (s.pc p) := by simp [here,InOp]
    have others : ∀ q, q ≠ p → opLogged q (.begin p :: es) = opLogged q es ∧
        opBlocks q (.begin p :: es) = opBlocks q es := by
      intro q other
      simp [opLogged,opBlocks,Ne.symm other]
    have own : opLogged p (.begin p :: es) = ∅ := by simp [opLogged]
    refine ⟨fun q => ?_,fun q b calling => ?_,fun q inside b member => ?_,?_⟩
    · by_cases same : q = p
      · subst same; simp [own]
      · rw [(others q same).1,(others q same).2]; exact reserved.called q
    · have other : q ≠ p := by
        rintro rfl
        simp at calling
      rw [(others q other).2]
      exact reserved.calling q b (update_logging (by simp) calling)
    · by_cases same : q = p
      · subst same; simp [own] at member
      · simp only [update_of_ne same] at inside
        rw [(others q same).1] at member
        exact reserved.held q inside b member
    · -- the test of `begin_op` counts a full reservation for every operation
      have change := sum_change (reserve es s.pc) (reserve (.begin p :: es) (update s.pc p .op)) p (by
        intro q other
        simp only [reserve,update_of_ne other,(others q other).1])
      have before : reserve es s.pc p = 0 := by simp [reserve,out]
      have after : reserve (.begin p :: es) (update s.pc p .op) p = MAXOPBLOCKS := by simp [reserve,InOp,own]
      have most := reserve_sum_le es s.pc
      have counted := inv.count
      have ten : MAXOPBLOCKS = 10 := rfl
      simp only [ten] at room most after
      simp only
      omega
  | tooBig here _ | outside here _ _ =>
    refine reserved.mono (fun _ => rfl) (fun q => ?_) (fun _ inside => inside) (fun _ _ calling => .inl calling) rfl
    simp only [opBlocks]; split_ifs
    · exact Finset.subset_insert _ _
    · exact subset_rfl
  | @log_write p b here _ =>
    refine reserved.mono (fun _ => rfl) (fun q => ?_) (fun q => update_inOp (by simp [here,InOp])) (fun q c calling => ?_) rfl
    · simp only [opBlocks]; split_ifs
      · exact Finset.subset_insert _ _
      · exact subset_rfl
    · by_cases same : q = p
      · subst same
        simp only [update_self,Pc.logging.injEq] at calling
        subst calling
        simp [opBlocks]
      · simp only [update_of_ne same] at calling; exact .inl calling
  | @logged p b here => exact reserved_logged reserved here (bounded.1 p)
  | @broken p here busy =>
    have := (inv.no_commit (p := p) (by simp [here,InOp])).1
    simp [busy] at this
  | @last p here _ _ =>
    have moved := reserved.move (p := p) (e := .last p) (v := .commit .enter) (fun _ => rfl) (fun _ => rfl)
      (by simp [InOp])
    exact ⟨moved.called,moved.calling,moved.held,moved.space⟩
  | ended here _ _ | done here =>
    refine reserved.mono (fun _ => rfl) (fun _ => subset_rfl) (fun q inside => ?_) (fun q b calling => ?_) rfl
    · simp only [wakeup_inOp] at inside
      exact update_inOp (by simp [InOp]) inside
    · exact .inl (update_logging (by simp) (wakeup_logging calling))
  | @clear p here =>
    have moved : Reserved (.stage p .clear :: es) { s with pc := update s.pc p (.commit .eraseHead) } :=
      reserved.move (fun _ => rfl) (fun _ => rfl) (by simp [InOp])
    have quiet := inv.quiet (inv.busy p (by simp [here,InCommit]))
    refine ⟨moved.called,moved.calling,fun q inside => ?_,?_⟩
    · exact absurd (update_inOp (by simp [InOp]) inside) (quiet q)
    · have := moved.space
      simp only [List.length_nil] at this ⊢
      omega

theorem run_reserved {size : Int} (run : Run size es s) :
    Bounded es → Inv s ∧ Reserved es s :=
  run.invariant (I := fun es s => Bounded es → Inv s ∧ Reserved es s)
    (fun _ => ⟨inv_initial size,reserved_initial size⟩) fun _ _ _ _ both _ step bounded =>
      have before := both bounded.2
      ⟨inv_step before.1 step,reserved_step before.1 before.2 bounded step⟩

/-! ### When the reservation is enough -/

theorem run_groupsFit (run : Run LOGSIZE es s) :
    Inv s ∧ Grouped es s ∧ s.size = LOGSIZE ∧ (s.panic ≠ some "too big a transaction" ↔ GroupsFit es) := by
  refine run.invariant (I := fun es s => Inv s ∧ Grouped es s ∧ s.size = LOGSIZE ∧
    (s.panic ≠ some "too big a transaction" ↔ GroupsFit es)) ?_ ?_
  · exact ⟨inv_initial _,grouped_initial _,rfl,by simp [initial,GroupsFit]⟩
  · rintro es s e s' ⟨inv,grouped,size,fits⟩ running step
    have fit : GroupsFit es := fits.mp (by simp [running])
    refine ⟨inv_step inv step,grouped_step inv grouped step,?_,?_⟩
    · cases step <;> exact size
    cases step with
    | @tooBig p b here full =>
      -- the header is as long as the group has blocks, so the test is the condition
      have length := grouped.length inv (p := p) (by simp [here,InOp])
      have thirty : LOGSIZE = 30 := rfl
      rw [size] at full
      simp only [GroupsFit,length,ne_eq,not_true_eq_false,false_iff,not_and]
      omega
    | @outside p b here room _ =>
      have length := grouped.length inv (p := p) (by simp [here,InOp])
      have thirty : LOGSIZE = 30 := rfl
      rw [size] at room
      have small : (groupBlocks es).card < LOGSIZE - 1 := by omega
      simp [GroupsFit,fit,small]
    | @log_write p b here room =>
      have length := grouped.length inv (p := p) (by simp [here,InOp])
      have thirty : LOGSIZE = 30 := rfl
      rw [size] at room
      have small : (groupBlocks es).card < LOGSIZE - 1 := by omega
      simp [GroupsFit,fit,small,running]
    | _ => simp [GroupsFit,fit,running]

/-- **The log reservation.** In a run over a log of `LOGSIZE` blocks whose
    operations log at most `MAXOPBLOCKS` distinct blocks each, `begin_op` keeps the
    header within `LOGSIZE` blocks, and `log_write` does not panic if and only if
    every call of it finds fewer than `LOGSIZE - 1` blocks logged by its group. -/
theorem reservation_sufficient_iff {es : List (Event np)} {s : LogOps.State np} (run : Run LOGSIZE es s)
    (bounded : Bounded es) :
    s.lh.length ≤ LOGSIZE ∧ (s.panic ≠ some "too big a transaction" ↔ GroupsFit es) := by
  have space := (run_reserved run bounded).2.space
  exact ⟨by omega,(run_groupsFit run).2.2.2⟩

/-- Three processes begin and log ten, ten and nine blocks of their own. -/
def threeOps : List (Fin 3 × Act) :=
  [(0,.begin_op),(0,.run),(1,.begin_op),(1,.run),(2,.begin_op),(2,.run)] ++
    (List.range 10).flatMap (fun i => [(0,.log_write (100 + i)),(0,.run)]) ++
    (List.range 10).flatMap (fun i => [(1,.log_write (200 + i)),(1,.run)]) ++
    (List.range 9).flatMap (fun i => [(2,.log_write (300 + i)),(2,.run)])

/-- Where a list of actions leads from the start. -/
def after (acts : List (Fin 3 × Act)) (runs : (exec (initial 3 LOGSIZE) [] acts).isSome) : List (Event 3) × LogOps.State 3 :=
  (exec (initial 3 LOGSIZE) [] acts).get runs

theorem after_run (acts : List (Fin 3 × Act)) (runs : (exec (initial 3 LOGSIZE) [] acts).isSome) :
    Run LOGSIZE (after acts runs).1 (after acts runs).2 :=
  exec_run .init (Option.some_get runs).symm

def threeOpsEnd : List (Event 3) × LogOps.State 3 := after threeOps (by decide)

theorem reservation_sufficient_threeOps :
    Bounded threeOpsEnd.1 ∧ threeOpsEnd.2.lh.length = 29 ∧ threeOpsEnd.2.panic ≠ some "too big a transaction" := by
  have bounded : Bounded threeOpsEnd.1 := by decide
  have fits : GroupsFit threeOpsEnd.1 := by decide
  exact ⟨bounded,by decide,(reservation_sufficient_iff (after_run ..) bounded).2.mpr fits⟩

/-- The third of them logs its tenth block. -/
theorem reservation_not_sufficient : ∃ (es : List (Event 3)) (s : LogOps.State 3),
    Run LOGSIZE es s ∧ Bounded es ∧ s.panic = some "too big a transaction" :=
  ⟨_,_,after_run (threeOps ++ [(2,.log_write 309)]) (by decide),by decide,by decide⟩

end Xv6.LogSpace
