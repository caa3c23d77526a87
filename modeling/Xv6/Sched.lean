import Xv6.ProcForest

/-!
The choice that `scheduler` makes. The inner loop over the table finds a process of the smallest priority value: the
one that the outer loop has come to, if that is one, and else the first.
-/
namespace Xv6.Procs
open Function

variable {κ γ : Type}

/-! ### The inner loop -/

/-- The process can run, and none that can has a smaller priority value. -/
def Top (t : Table γ) (p : Slot) : Prop :=
  (t p).state = .RUNNABLE ∧ ∀ q, (t q).state = .RUNNABLE → (t p).priority ≤ (t q).priority

instance (t : Table γ) (p : Slot) : Decidable (Top t p) := inferInstanceAs (Decidable (_ ∧ _))

/-- A turn of the inner loop. -/
def better (t : Table γ) (highP p1 : Slot) : Slot :=
  if (t p1).state ≠ .RUNNABLE then highP else if (t highP).priority > (t p1).priority then p1 else highP

theorem highest_eq (t : Table γ) (p : Slot) : highest t p = (List.finRange NPROC).foldl (better t) p := rfl

variable {t : Table γ} {p q : Slot}

theorem better_top (top : Top t p) : better t p q = p := by
  unfold better
  split
  · rfl
  · next runnable =>
    have least := top.2 q (by simpa using runnable)
    rw [if_neg (by omega)]

theorem foldl_better_top (top : Top t p) (l : List Slot) : l.foldl (better t) p = p := by
  induction l with
  | nil => rfl
  | cons q l ih => rw [List.foldl_cons,better_top top,ih]

theorem foldl_better_le (l : List Slot) (p : Slot) : (t (l.foldl (better t) p)).priority ≤ (t p).priority := by
  induction l generalizing p with
  | nil => exact le_refl _
  | cons q l ih =>
    rw [List.foldl_cons]
    refine (ih _).trans ?_
    unfold better
    split
    · exact le_refl _
    · split
      · next less => omega
      · exact le_refl _

theorem foldl_better_least {l : List Slot} (listed : q ∈ l) (runnable : (t q).state = .RUNNABLE) (p : Slot) :
    (t (l.foldl (better t) p)).priority ≤ (t q).priority := by
  induction l generalizing p with
  | nil => cases listed
  | cons r l ih =>
    rw [List.foldl_cons]
    rcases List.mem_cons.mp listed with rfl | later
    · refine (foldl_better_le l _).trans ?_
      unfold better
      rw [if_neg (by simpa using runnable)]
      split
      · exact le_refl _
      · next less => omega
    · exact ih later _

theorem highest_top (runnable : (t p).state = .RUNNABLE) : Top t (highest t p) := by
  constructor
  · exact highest_runnable runnable
  · intro q other
    exact foldl_better_least (List.mem_finRange q) other p

variable {i : Nat}

theorem choose_top (chosen : choose t i = some p) : Top t p := by
  obtain ⟨q,found,rfl⟩ := Option.map_eq_some_iff.mp chosen
  have runnable := List.find?_some found
  exact highest_top (by simpa using runnable)

theorem foldl_better_mem (l : List Slot) (p : Slot) : l.foldl (better t) p = p ∨ l.foldl (better t) p ∈ l := by
  induction l generalizing p with
  | nil => exact .inl rfl
  | cons q l ih =>
    rw [List.foldl_cons]
    have step : better t p q = p ∨ better t p q = q := by
      unfold better
      split
      · exact .inl rfl
      · split
        · exact .inr rfl
        · exact .inl rfl
    rcases ih (better t p q) with same | listed
    · rw [same]
      rcases step with kept | taken
      · exact .inl kept
      · exact .inr (by rw [taken]; exact List.mem_cons_self)
    · exact .inr (List.mem_cons_of_mem _ listed)

/-- The first slot of the highest priority. -/
def FirstTop (t : Table γ) (p : Slot) : Prop := Top t p ∧ ∀ q, Top t q → p ≤ q

theorem exists_firstTop (top : Top t p) : ∃ f, FirstTop t f := by
  have some' : ((Finset.univ : Finset Slot).filter (Top t)).Nonempty := ⟨p,by simpa using top⟩
  refine ⟨Finset.min' _ some',?_,fun q other => Finset.min'_le _ q (by simpa using other)⟩
  simpa using Finset.min'_mem _ some'

theorem foldl_better_runnable (runnable : (t p).state = .RUNNABLE) (l : List Slot) :
    (t (l.foldl (better t) p)).state = .RUNNABLE := by
  refine List.foldlRecOn (motive := fun q => (t q).state = .RUNNABLE) _ _ runnable fun q before p1 _ => ?_
  unfold better
  split
  · exact before
  · next also =>
    split
    · simpa using also
    · exact before

variable {f : Slot}

theorem highest_first (first : FirstTop t f) (runnable : (t p).state = .RUNNABLE) (low : ¬Top t p) :
    highest t p = f := by
  have parts : List.finRange NPROC = (List.finRange NPROC).take f ++ f :: (List.finRange NPROC).drop (f + 1) := by
    have here := List.drop_eq_getElem_cons (l := List.finRange NPROC) (i := f.val) (by simp)
    rw [List.getElem_finRange] at here
    exact (List.take_append_drop f.val _).symm.trans (congrArg _ here)
  have before : ¬Top t (((List.finRange NPROC).take f).foldl (better t) p) := by
    rcases foldl_better_mem ((List.finRange NPROC).take f) p with same | listed
    · rwa [same]
    · intro top
      obtain ⟨i,small,same⟩ := List.mem_take_iff_getElem.mp listed
      have order := first.2 _ top
      rw [← same,List.getElem_finRange,Fin.le_def] at order
      simp only [Fin.val_cast] at order
      omega
  have worse : (t f).priority < (t (((List.finRange NPROC).take f).foldl (better t) p)).priority := by
    by_contra less
    refine before ⟨foldl_better_runnable runnable _,fun q other => ?_⟩
    exact (not_lt.mp less).trans (first.1.2 q other)
  have taken : better t (((List.finRange NPROC).take f).foldl (better t) p) f = f := by
    rw [better,if_neg (by simpa using first.1.1),if_pos worse]
  rw [highest_eq,parts,List.foldl_append,List.foldl_cons,taken,foldl_better_top first.1]

/-! ### The outer loop -/

/-- The first process that can run, from slot `i` on. -/
def NextRunnable (t : Table γ) (i : Nat) (p : Slot) : Prop :=
  i ≤ p ∧ (t p).state = .RUNNABLE ∧ ∀ q : Slot, i ≤ q → (t q).state = .RUNNABLE → p ≤ q

theorem find_next (found : ((List.finRange NPROC).drop i).find? (fun p => (t p).state = .RUNNABLE) = some p) :
    NextRunnable t i p := by
  obtain ⟨runnable,k,inside,here,before⟩ := List.find?_eq_some_iff_getElem.mp found
  simp only [List.getElem_drop,List.getElem_finRange] at here before
  subst here
  refine ⟨by simp,by simpa using runnable,fun q later other => ?_⟩
  rw [Fin.le_def]
  by_contra less
  simp only [Fin.val_cast] at less
  have earlier := before (q.val - i) (by omega)
  have same : i + (q.val - i) = q.val := by omega
  simp [same,other] at earlier

theorem find_next_none (found : ((List.finRange NPROC).drop i).find? (fun p => (t p).state = .RUNNABLE) = none)
    (later : i ≤ p) : (t p).state ≠ .RUNNABLE := by
  have listed : p ∈ (List.finRange NPROC).drop i := by
    rw [List.mem_drop_iff_getElem]
    exact ⟨p.val - i,by simp; omega,by simp [Nat.add_sub_cancel' later]⟩
  simpa using List.find?_eq_none.mp found p listed

theorem choose_cases (first : FirstTop t f) (i : Nat) :
    (∃ p, NextRunnable t i p ∧ choose t i = some (if Top t p then p else f)) ∨
      (∀ p : Slot, i ≤ p → (t p).state ≠ .RUNNABLE) ∧ choose t i = none := by
  unfold choose
  cases found : ((List.finRange NPROC).drop i).find? fun p => (t p).state = .RUNNABLE with
  | none => exact .inr ⟨fun p later => find_next_none found later,rfl⟩
  | some p =>
    have next := find_next found
    refine .inl ⟨p,next,congrArg some ?_⟩
    split
    · next top => exact foldl_better_top top _
    · next low => exact highest_first first next.2.1 low

theorem choose_start (first : FirstTop t f) : choose t 0 = some f := by
  rcases choose_cases first 0 with ⟨p,next,chosen⟩ | ⟨nobody,_⟩
  · rw [chosen]
    split
    · next top =>
      have later := next.2.2 f (Nat.zero_le _) first.1.1
      exact congrArg some (le_antisymm later (first.2 p top))
    · rfl
  · exact absurd first.1.1 (nobody f (Nat.zero_le _))

/-- The next `n` processes that one CPU runs, with the loop at slot `i`, when every process
    comes back to the scheduler as it was. After the last slot the table is scanned again. -/
def dispatches (t : Table γ) : Nat → Nat → List Slot
  | 0,_ => []
  | n + 1,i =>
    match (choose t i).or (choose t 0) with
    | some p => p :: dispatches t n (p + 1)
    | none => []

/-- Between two processes of the highest priority there is none of a lower one. -/
def Together (t : Table γ) : Prop :=
  ∀ a b q, Top t a → Top t b → a < q → q < b → (t q).state = .RUNNABLE → Top t q

theorem dispatches_succ (first : FirstTop t f) (n i : Nat) :
    (∃ p, NextRunnable t i p ∧ Top t p ∧ dispatches t (n + 1) i = p :: dispatches t n (p + 1)) ∨
      (∀ p, NextRunnable t i p → ¬Top t p) ∧ dispatches t (n + 1) i = f :: dispatches t n (f + 1) := by
  have once (p q : Slot) (one : NextRunnable t i p) (two : NextRunnable t i q) : p = q :=
    le_antisymm (one.2.2 q two.1 two.2.1) (two.2.2 p one.1 one.2.1)
  rw [dispatches,choose_start first]
  rcases choose_cases first i with ⟨p,next,chosen⟩ | ⟨nobody,chosen⟩
  · rw [chosen]
    by_cases top : Top t p
    · exact .inl ⟨p,next,top,by simp [top]⟩
    · refine .inr ⟨fun q other => ?_,by simp [top]⟩
      rwa [once q p other next]
  · rw [chosen]
    exact .inr ⟨fun q other => absurd other.2.1 (nobody q other.1),rfl⟩

theorem mem_dispatches_behind {f b : Slot} (first : FirstTop t f) (together : Together t) (top : Top t b) {n i : Nat}
    (behind : f.val < i) (ahead : i ≤ b) (enough : b.val - i < n) : b ∈ dispatches t n i := by
  induction n generalizing i with
  | zero => omega
  | succ n ih =>
    obtain ⟨p,next⟩ : ∃ p, NextRunnable t i p := by
      rcases choose_cases first i with ⟨p,next,_⟩ | ⟨nobody,_⟩
      · exact ⟨p,next⟩
      · exact absurd top.1 (nobody b ahead)
    have upTo : p ≤ b := next.2.2 b ahead top.1
    have also : Top t p := by
      rcases eq_or_lt_of_le upTo with rfl | less
      · exact top
      · exact together f b p first.1 top (Fin.lt_def.mpr (behind.trans_le next.1)) less next.2.1
    rcases dispatches_succ first n i with ⟨q,next',_,runs⟩ | ⟨low,_⟩
    · obtain rfl : p = q := le_antisymm (next.2.2 q next'.1 next'.2.1) (next'.2.2 p next.1 next.2.1)
      rw [runs]
      rcases eq_or_lt_of_le upTo with rfl | less
      · exact List.mem_cons_self
      · have after := next.1
        rw [Fin.lt_def] at less
        exact List.mem_cons_of_mem _ (ih (by omega) (by omega) (by omega))
    · exact absurd also (low p next)

theorem mem_dispatches {f b : Slot} (first : FirstTop t f) (together : Together t) (top : Top t b) {n i : Nat}
    (enough : NPROC - i + NPROC ≤ n) : b ∈ dispatches t n i := by
  have behind (n : Nat) (left : NPROC ≤ n + 1) : b ∈ f :: dispatches t n (f + 1) := by
    rcases eq_or_lt_of_le (first.2 b top) with rfl | less
    · exact List.mem_cons_self
    · rw [Fin.lt_def] at less
      have inside := b.isLt
      exact List.mem_cons_of_mem _ (mem_dispatches_behind first together top (by omega) (by omega) (by omega))
  induction n generalizing i with
  | zero => simp [NPROC] at enough
  | succ n ih =>
    rcases dispatches_succ first n i with ⟨p,next,also,runs⟩ | ⟨_,runs⟩
    · rw [runs]
      have after := next.1
      have inside := p.isLt
      exact List.mem_cons_of_mem _ (ih (by omega))
    · rw [runs]
      exact behind n (by omega)

theorem dispatches_before {f q : Slot} (first : FirstTop t f) (less : f < q) (runnable : (t q).state = .RUNNABLE)
    (low : ¬Top t q) (n : Nat) (before : i ≤ q) : ∀ p ∈ dispatches t n i, p < q := by
  induction n generalizing i with
  | zero => simp [dispatches]
  | succ n ih =>
    rcases dispatches_succ first n i with ⟨p,next,top,runs⟩ | ⟨_,runs⟩
    · have ahead : p < q := by
        refine lt_of_le_of_ne (next.2.2 q before runnable) ?_
        rintro rfl
        exact low top
      rw [runs]
      intro r listed
      rcases List.mem_cons.mp listed with rfl | later
      · exact ahead
      · exact ih ahead r later
    · rw [runs]
      intro r listed
      rcases List.mem_cons.mp listed with rfl | later
      · exact less
      · exact ih less r later

theorem drop_dispatches (first : FirstTop t f) (k n i : Nat) :
    ∃ j, (dispatches t (k + n) i).drop k = dispatches t n j := by
  induction k generalizing i with
  | zero => exact ⟨i,by simp⟩
  | succ k ih =>
    have more : k + 1 + n = k + n + 1 := by omega
    rw [more]
    rcases dispatches_succ first (k + n) i with ⟨p,_,_,runs⟩ | ⟨_,runs⟩ <;> rw [runs,List.drop_succ_cons] <;> exact ih _

/-- Among any `2 * NPROC` consecutive dispatches every process of the highest priority gets its turn if and only if
    no process of a lower priority is in a slot between them. -/
theorem scheduler_shares_iff (t : Table γ) :
    (∀ b, Top t b → ∀ i k, b ∈ (dispatches t (k + 2 * NPROC) i).drop k) ↔ Together t := by
  constructor
  · intro shares a b q topA topB after before runnable
    by_contra low
    obtain ⟨f,first⟩ := exists_firstTop topA
    have behind : f < q := (first.2 a topA).trans_lt after
    have turn := shares b topB (f + 1) 0
    rw [List.drop_zero] at turn
    exact absurd before (not_lt.mpr (dispatches_before first behind runnable low _ behind b turn).le)
  · intro together b top i k
    obtain ⟨f,first⟩ := exists_firstTop top
    obtain ⟨j,same⟩ := drop_dispatches first k (2 * NPROC) i
    rw [same]
    exact mem_dispatches first together top (by omega)

/-- Two processes of the highest priority, and one of a lower priority between them. -/
def divided : Table Unit := fun p =>
  if p = 0 ∨ p = 2 then ⟨.RUNNABLE,p.val + 1,none,none,false,2⟩
  else if p = 1 then ⟨.RUNNABLE,2,none,none,false,10⟩
  else ⟨.UNUSED,0,none,none,false,0⟩

/-- The third process never runs. -/
theorem divided_starves : Top divided 2 ∧ 2 ∉ dispatches divided (2 * NPROC) 0 := by
  decide

/-! ### The machine -/

variable [DecidableEq κ] [DecidableEq γ]

/-- CPU `c`, in its scheduler, runs processes one after the other, and each of them yields. -/
inductive Turns (c : κ) : Machine κ γ → List Slot → Machine κ γ → Prop where
  | refl {s} : Turns c s [] s
  /-- The loop has come to its end, and the table is scanned again. -/
  | again {s ps s'} (chosen : choose s.proc (s.cpu c).next = none)
    (rest : Turns c { s with cpu := update s.cpu c ⟨none,0⟩ } ps s') : Turns c s ps s'
  | yield {s p k ps s'} (chosen : choose s.proc (s.cpu c).next = some p) (here : s.ctl p = .yields k) (enabled : k ≠ .panicked)
    (rest : Turns c (s.sched c p (.yields k)) ps s') : Turns c s (p :: ps) s'

section
variable {c : κ} {s s' : Machine κ γ} {ps : List Slot}

theorem Turns.steps (turns : Turns c s ps s') (idle : (s.cpu c).proc = none) (held : s.lock = some c) :
    Relation.ReflTransGen (Step .tau) s s' := by
  induction turns with
  | refl => exact .refl
  | @again s ps s' chosen _ ih =>
    have loop : Step .tau { s with lock := none } { s with cpu := update s.cpu c ⟨none,0⟩ } := by
      rw [held]
      exact .loop idle rfl
    exact .head (.release idle held chosen) (.head loop (ih (by simp) held))
  | @yield s p k ps s' chosen here enabled _ ih =>
    have runnable : { s.proc p with state := .RUNNABLE } = s.proc p := by rw [← (choose_top chosen).1]
    have back := Step.yield (c := c) (p := p) (k := k) (s := { s with
      proc := update s.proc p { s.proc p with state := .RUNNING }, cpu := update s.cpu c ⟨some p,(s.cpu c).next⟩,
      ctl := update s.ctl p (.runs k), lock := none }) (by simp) (by simp) enabled rfl
    simp only [Machine.sched,update_idem,update_self,runnable,update_eq_self] at back
    refine .head (.switch idle held chosen) (.head (.unyield (c := c) (p := p) (by simp) here held) (.head back ?_))
    exact ih (by simp [Machine.sched]) rfl

omit [DecidableEq γ]

/-- In every such run the processes are those of `dispatches`. -/
theorem Turns.are_dispatches (turns : Turns c s ps s') : ps = dispatches s.proc ps.length (s.cpu c).next := by
  induction turns with
  | refl => rfl
  | @again s ps s' chosen _ ih =>
    dsimp only at ih
    rw [update_self] at ih
    cases ps with
    | nil => rfl
    | cons p ps =>
      rw [List.length_cons,dispatches,Option.or_self] at ih
      rw [List.length_cons,dispatches,chosen]
      exact ih
  | yield chosen _ _ _ ih =>
    rw [List.length_cons,dispatches,chosen]
    simpa [Machine.sched] using ih

/-- There is such a run, as long as every process that can run is in `yield`. -/
theorem dispatches_turns (top : Top s.proc p) (n : Nat)
    (yields : ∀ q, (s.proc q).state = .RUNNABLE → ∃ k, s.ctl q = .yields k ∧ k ≠ .panicked) :
    ∃ s', Turns c s (dispatches s.proc n (s.cpu c).next) s' := by
  induction n generalizing s with
  | zero => exact ⟨s,.refl⟩
  | succ n ih =>
    -- a process that is chosen, wherever the loop has come to
    have runs {s : Machine κ γ} {q : Slot} (top : Top s.proc p) (chosen : choose s.proc (s.cpu c).next = some q)
        (yields : ∀ q, (s.proc q).state = .RUNNABLE → ∃ k, s.ctl q = .yields k ∧ k ≠ .panicked) :
        ∃ s', Turns c s (q :: dispatches s.proc n (q + 1)) s' := by
      obtain ⟨k,here,enabled⟩ := yields q (choose_top chosen).1
      obtain ⟨s',rest⟩ := ih (s := s.sched c q (.yields k)) top fun r runnable => by
        rcases eq_or_ne r q with rfl | other
        · exact ⟨k,by simp [Machine.sched],enabled⟩
        · simpa [Machine.sched,other] using yields r runnable
      exact ⟨s',.yield chosen here enabled (by simpa [Machine.sched] using rest)⟩
    obtain ⟨f,first⟩ := exists_firstTop top
    rw [dispatches,choose_start first]
    cases chosen : choose s.proc (s.cpu c).next with
    | some q => exact runs top chosen yields
    | none =>
      obtain ⟨s',rest⟩ := runs (s := { s with cpu := update s.cpu c ⟨none,0⟩ }) top (by simpa using choose_start first) yields
      exact ⟨s',.again chosen rest⟩
end

/-- The steps of the process table, and the one of `exec` that changes a priority. -/
inductive Sched : Label → Machine κ γ → Machine κ γ → Prop where
  | step {l s s'} (next : Step l s s') : Sched l s s'
  | exec {s c p} (runs : (s.cpu c).proc = some p) (here : s.ctl p = .runs .kernel) :
    Sched .tau s { s with proc := update s.proc p { s.proc p with priority := 2 } }

/-- The machines that are reached from the start. -/
inductive Scheduled : Machine κ γ → Prop where
  | start : Scheduled (initial κ γ)
  | next {l s s'} (before : Scheduled s) (next : Sched l s s') : Scheduled s'

variable {s s' : Machine κ γ} {l : Label}

theorem Run.scheduled {ls : List Label} (run : Run ls s) : Scheduled s := by
  induction run with
  | start => exact .start
  | step _ next ih => exact ih.next (.step next)

omit [DecidableEq κ] [DecidableEq γ] in
theorem Quiet.exec (p : Slot) (priority : Int) :
    Quiet s { s with proc := update s.proc p { s.proc p with priority := priority } } := by
  have same (q : Slot) : ∃ n, update s.proc p { s.proc p with priority := priority } q = { s.proc q with priority := n } := by
    rcases eq_or_ne q p with rfl | other
    · exact ⟨priority,update_self ..⟩
    · exact ⟨(s.proc q).priority,update_of_ne other ..⟩
  refine ⟨fun q => .inl ?_,fun q => ?_,fun q => ?_,⟨rfl,rfl,rfl⟩,fun q k here => .inl here,fun q r asleep chan => .inl ?_,
    fun q call killed => .inr ⟨call,?_,rfl⟩⟩
  all_goals
    obtain ⟨n,here⟩ := same q
    dsimp only at *
    simp_all only [and_self]

theorem Scheduled.inv (run : Scheduled s) : Cpus s ∧ Forest s := by
  induction run with
  | start => exact ⟨initial_cpus,initial_forest⟩
  | next _ next ih =>
    obtain ⟨cpus,forest⟩ := ih
    cases next with
    | step next => exact ⟨cpus.step forest next,forest.step cpus next⟩
    | @exec _ c p runs here => exact ⟨cpus.update rfl rfl Iff.rfl,forest.quiet (.exec p 2)⟩

omit [DecidableEq γ] in
theorem not_given {c d : κ} {p : Slot} (idle : (s.cpu c).proc ≠ some p) :
    (update s.cpu d ⟨none,i⟩ c).proc ≠ some p := by
  rcases eq_or_ne c d with rfl | other
  · simp
  · rwa [update_of_ne other]

omit [DecidableEq γ] in
theorem wait_not_given {c d : κ} {p q : Slot} (idle : (s.cpu c).proc ≠ some p) : ((s.wait d q).2.cpu c).proc ≠ some p := by
  rcases wait_split s d q with ⟨r,_,_,ends⟩ | ⟨_,ends⟩ | ⟨_,ends⟩ <;> rw [ends]
  · exact idle
  · exact idle
  · exact not_given idle

theorem Sched.dispatch {c : κ} {p : Slot} (next : Sched l s s') (idle : (s.cpu c).proc ≠ some p)
    (given : (s'.cpu c).proc = some p) : s.lock = some c ∧ choose s.proc (s.cpu c).next = some p := by
  cases next with
  | exec => exact absurd given idle
  | step next =>
    cases next with
    | @switch _ c' p' idle' held chosen =>
      rcases eq_or_ne c c' with rfl | other
      · simp only [update_self,Option.some.injEq] at given
        exact ⟨held,given ▸ chosen⟩
      · simp only [update_of_ne other] at given
        exact absurd given idle
    | exit | yield | sleep | loop => exact absurd given (not_given idle)
    | wait | rewait => exact absurd given (wait_not_given idle)
    | _ => exact absurd given idle

/-- In every run on any number of CPUs, a process that is given a CPU is RUNNABLE, runs on no other CPU, and no RUNNABLE
    process has a smaller priority value, wherever the loop of the scheduler was. -/
theorem scheduler_strict_priority (run : Scheduled s) (next : Sched l s s') {c : κ} {p : Slot}
    (idle : (s.cpu c).proc ≠ some p) (given : (s'.cpu c).proc = some p) :
    (s.proc p).state = .RUNNABLE ∧ (∀ d, (s.cpu d).proc ≠ some p) ∧
      ∀ q, (s.proc q).state = .RUNNABLE → (s.proc p).priority ≤ (s.proc q).priority := by
  obtain ⟨_,chosen⟩ := next.dispatch idle given
  have top := choose_top chosen
  refine ⟨top.1,fun d runs => ?_,top.2⟩
  have running := run.inv.1.state d p runs
  rw [top.1] at running
  cases running

/-- Init forks, calls `exec` and yields; the loop comes to the child, and init runs again. -/
theorem scheduler_strict_priority_exec : ∃ (s s' : Machine Unit Unit), Scheduled s ∧ Sched .tau s s' ∧ (s.cpu ()).next = 1 ∧
    (s.proc 1).state = .RUNNABLE ∧ (s'.cpu ()).proc = some 0 ∧ (s.proc 0).state = .RUNNABLE ∧
      (s.proc 0).priority ≤ (s.proc 1).priority := by
  have run := forked.2.2.scheduled
  replace run := run.next (.exec (c := ()) (p := 0) rfl rfl)
  replace run := run.next (.step (.yield (c := ()) (p := 0) rfl rfl (by decide) rfl))
  have reached : ∃ s : Machine Unit Unit, Scheduled s ∧ (s.cpu ()).proc = none ∧ s.lock = some () ∧ (s.cpu ()).next = 1 ∧
      (s.proc 1).state = .RUNNABLE ∧ choose s.proc (s.cpu ()).next = some 0 :=
    ⟨_,run,by decide,by decide,by decide,by decide,by decide⟩
  obtain ⟨s,run,idle,held,loop,child,chosen⟩ := reached
  have next := Sched.step (.switch idle held chosen)
  have dispatched := scheduler_strict_priority (c := ()) (p := 0) run next (by simp [idle]) (by simp)
  exact ⟨s,_,run,next,loop,child,by simp,dispatched.1,dispatched.2.2 1 child⟩

end Xv6.Procs
