import Xv6.VmFork

/-!
The sizes of processes stay below `KERNBASE`: what `growproc` and `exec` store in `sz` has been returned by
`allocuvm`, which refuses sizes above, or is less than what was there.
-/
namespace Xv6.Vm
open Xv6 Xv6.Lib Function

variable {α β : Type} {k : Link} {m : Mach} {s s' : Sys} {p : Pid}

def Small (s : Sys) : Prop := ∀ p, (s.space p).sz < KERNBASE

/-- Code that leaves the processes small, if it returns. -/
def Keeps (x : SysM α) : Prop := ∀ s, Small s → post x (fun _ s' => Small s') (fun _ => True) s

theorem post_any (x : VM α) : post x (fun _ _ => True) (fun _ => True) m := by
  unfold post
  split <;> trivial

theorem Keeps.pure (a : α) : Keeps (Pure.pure a : SysM α) := fun _ small => small

theorem Keeps.throw (why : String) : Keeps (throw why : SysM α) := fun _ _ => trivial

theorem Keeps.bind {x : SysM β} {f : β → SysM α} (first : Keeps x) (next : ∀ b, Keeps (f b)) : Keeps (x >>= f) := by
  intro s small
  rw [post_bind]
  exact post_use (first s small) fun b s' => next b s'

theorem Keeps.get {f : Sys → SysM α} (next : ∀ s, Small s → Keeps (f s)) : Keeps (MonadState.get >>= f) :=
  fun s small => next s small s small

theorem Keeps.onVm (x : VM α) : Keeps (Vm.onVm x) := fun _ small => post_onVm (post_use (post_any x) fun _ _ _ => small)

theorem Keeps.onTables (f : Xv6.Tables → Except String (α × Xv6.Tables)) : Keeps (Vm.onTables f) := by
  intro s small
  unfold post Vm.onTables
  cases f s.tables with
  | ok done => exact small
  | error why => trivial

theorem Keeps.modifyProc (p : Pid) (f : Proc → Proc) : Keeps (Vm.modifyProc p f) := fun _ small => small

theorem Keeps.modifySpace (p : Pid) {f : Space → Space} (below : ∀ v, v.sz < KERNBASE → (f v).sz < KERNBASE) :
    Keeps (Vm.modifySpace p f) := by
  intro s small q
  dsimp only
  rcases eq_or_ne q p with rfl | other
  · rw [update_self]
    exact below _ (small q)
  · rw [update_of_ne other]
    exact small q

theorem keeps_allocproc : Keeps allocproc := by
  refine .get fun s _ => ?_
  split
  · exact .pure _
  · refine .bind (.modifyProc _ _) fun _ => .bind (.onVm _) fun r => ?_
    cases r with
    | none => exact .bind (.modifySpace _ fun _ below => below) fun _ => .bind (.modifyProc _ _) fun _ => .pure _
    | some page => exact .bind (.modifySpace _ fun _ below => below) fun _ => .pure _

theorem keeps_fork : Keeps (fork k p) := by
  refine .bind keeps_allocproc fun r => ?_
  cases r with
  | none => exact .pure _
  | some np =>
    refine .get fun s small => .bind (.onVm _) fun r => ?_
    cases r with
    | none =>
      exact .bind (.onVm _) fun _ => .bind (.modifySpace _ fun _ below => below) fun _ => .bind (.modifyProc _ _) fun _ => .pure _
    | some d =>
      exact .bind (.modifySpace _ fun _ _ => small p) fun _ => .bind (.onTables _) fun _ =>
        .bind (.modifyProc _ _) fun _ => .pure _

theorem allocuvm_below {d oldsz newsz : Nat} (below : oldsz < KERNBASE ∨ oldsz ≤ newsz) :
    post (allocuvm k d oldsz newsz) (fun r _ => r < KERNBASE) (fun _ => True) m := by
  unfold allocuvm
  split
  case isTrue => exact (by decide : 0 < KERNBASE)
  case isFalse fits =>
    split
    case isTrue less => exact below.resolve_right (Nat.not_le_of_lt less)
    case isFalse =>
      rw [post_bind]
      refine post_use (post_any _) fun done _ _ => ?_
      cases done
      · exact (by decide : 0 < KERNBASE)
      · exact Nat.lt_of_not_le fits

theorem deallocuvm_le {d oldsz newsz : Nat} :
    post (deallocuvm k d oldsz newsz) (fun r _ => r ≤ oldsz) (fun _ => True) m := by
  unfold deallocuvm
  split
  case isTrue => exact Nat.le_refl oldsz
  case isFalse less =>
    rw [post_bind]
    exact post_use (post_any _) fun _ _ _ => (Nat.lt_of_not_le less).le

theorem keeps_growproc {n : Int} : Keeps (growproc k p n) := by
  refine .get fun s small => ?_
  -- what is returned is the size, unless it is 0
  have grown (r : Nat) (below : r < KERNBASE) :
      Keeps (if r = 0 then return -1 else do Vm.modifySpace p fun v => { v with sz := r }; return 0) := by
    split
    · exact .pure _
    · exact .bind (.modifySpace _ fun _ _ => below) fun _ => .pure _
  dsimp only
  split
  · intro t small'
    rw [post_bind]
    exact post_onVm (post_use (allocuvm_below (.inl (small p))) fun r _ below => grown r below _ small')
  · split
    · intro t small'
      rw [post_bind]
      exact post_onVm (post_use deallocuvm_le fun r _ le => grown r (Nat.lt_of_le_of_lt le (small p)) _ small')
    · exact .pure _

theorem exec_load_below {d : Nat} (headers : List Header) : ∀ {sz : Nat} {m : Mach}, sz < KERNBASE →
    post (exec_load k d headers sz) (fun r _ => ∀ sz' ∈ r, sz' < KERNBASE) (fun _ => True) m := by
  induction headers with
  | nil =>
    intro sz m below sz' same
    cases same
    exact below
  | cons header rest ih =>
    intro sz m below
    cases header with
    | unreadable => exact nofun
    | other => exact ih below
    | load vaddr memsz filesz file =>
      unfold exec_load
      split
      · exact nofun
      split
      · exact nofun
      rw [post_bind]
      refine post_use (allocuvm_below (.inl below)) fun r m₁ below' => ?_
      split
      · exact nofun
      split
      · exact nofun
      rw [post_bind]
      refine post_use (post_any _) fun loaded m₂ _ => ?_
      cases loaded
      · exact nofun
      · exact ih below'

theorem exec_image_below {d : Nat} {null : Null} (headers : List Header) (args : List (List UInt8)) :
    post (exec_image k null d headers args) (fun r _ => ∀ sz ∈ r, sz < KERNBASE) (fun _ => True) m := by
  unfold exec_image
  rw [post_bind]
  refine post_use (exec_load_below headers (show 0 < KERNBASE by decide)) fun r m₁ below => ?_
  cases r with
  | none => exact nofun
  | some sz =>
    have small := below sz rfl
    dsimp only
    rw [post_bind]
    -- two pages above the end of the program, whose size is not above `KERNBASE`, is less than 2 ^ 32
    have room : PGROUNDUP sz * PGSIZE ≤ (PGROUNDUP sz * PGSIZE + 2 * PGSIZE) % 2 ^ 32 := by
      have base : KERNBASE = 2 ^ 31 := rfl
      rw [PGROUNDUP_eq sz (by omega),pages,PGSIZE_eq]
      omega
    generalize (PGROUNDUP sz * PGSIZE + 2 * PGSIZE) % 2 ^ 32 = top at room ⊢
    refine post_use (allocuvm_below (.inr room)) fun r m₂ below' => ?_
    · split
      · exact nofun
      rw [post_bind]
      refine post_use (post_any _) fun _ m₃ _ => ?_
      rw [post_bind]
      refine post_use (post_any _) fun pushed m₄ _ => ?_
      cases pushed with
      | none => exact nofun
      | some stack =>
        obtain ⟨sp,ustack⟩ := stack
        dsimp only
        rw [post_bind]
        refine post_use (post_any _) fun copied m₅ _ => ?_
        cases copied
        · exact nofun
        · intro sz' same
          cases same
          exact below'

theorem keeps_exec {null : Null} {headers : Option (List Header)} {args : List (List UInt8)} :
    Keeps (exec k null p headers args) := by
  cases headers with
  | none => exact .pure _
  | some headers =>
    refine .bind (.onVm _) fun r => ?_
    cases r with
    | none => exact .pure _
    | some d =>
      intro s small
      dsimp only
      rw [post_bind]
      refine post_onVm (post_use (exec_image_below headers args) fun r m' below => ?_)
      cases r with
      | none => exact Keeps.bind (.onVm _) (fun _ => .pure _) _ small
      | some sz =>
        exact Keeps.get (fun _ _ => .bind (.modifySpace _ fun _ _ => below sz rfl) fun _ =>
          .bind (.onVm _) fun _ => .pure _) _ small

theorem keeps_userinit {init : Nat → UInt8} {sz : Nat} : Keeps (userinit k init sz) := by
  refine .bind keeps_allocproc fun r => ?_
  cases r with
  | none => exact .throw _
  | some p =>
    refine .bind (fun _ small => small) fun _ => .bind (.onVm _) fun r => ?_
    cases r with
    | none => exact .throw _
    | some d => exact .bind (.onVm _) fun _ => .bind (.modifySpace _ fun _ _ => (by decide : PGSIZE < KERNBASE)) fun _ => .modifyProc _ _

theorem Reachable.small (reached : Reachable k s) : Small s := by
  induction reached with
  | userinit empty ran => exact post_ok (keeps_userinit _ fun p => by rw [(empty p).2]; decide) ran
  | step before step ih =>
    cases step with
    | fork runs ran => exact post_ok (keeps_fork _ (by exact ih)) ran
    | exec runs ran => exact post_ok (keeps_exec _ (by exact ih)) ran
    | sbrk runs ran => exact post_ok (keeps_growproc _ (by exact ih)) ran
    | other same => exact fun p => by rw [same]; exact ih p

/-! ### A first process -/

theorem userinit_returns {own : Nat → Owner} {l : List Nat} (sound : Sound k own l s.vm)
    (slot : (s.tables.proc p).state = .UNUSED) (enough : ∀ n, Fails n l s.vm → 68 ≤ n) (init : Nat → UInt8) {sz : Nat}
    (page : sz < PGSIZE) : ∃ s', userinit k init sz s = .ok ((),s') := by
  have runs : post (userinit k init sz) (fun _ _ => True) (fun _ => False) s := by
    unfold userinit
    rw [post_bind]
    refine post_use (allocproc_spec sound) fun r s₁ done => ?_
    cases r with
    | none =>
      obtain ⟨_,_,full | fails⟩ := done
      · exact absurd slot (full p)
      · exact absurd (enough 0 fails) (by decide)
    | some q =>
      obtain ⟨_,_,g,l₁,rfl,_,sound₁,spent₁,_⟩ := done
      simp only [post_bind,post_modify]
      refine post_onVm (post_use (setupkvm_spec sound₁) fun r m₂ done => ?_)
      cases r with
      | none =>
        obtain ⟨_,n,few,fails⟩ := done
        have := enough _ (spent₁.fails fails)
        omega
      | some d =>
        obtain ⟨own₂,l₂,made,absent,_,_,spent₂,_⟩ := done
        have spent := spent₁.trans spent₂
        simp only [post_bind]
        refine post_onVm ?_
        unfold inituvm
        rw [if_neg (Nat.not_le_of_lt page),post_bind]
        refine kalloc_cases made.sound.toGood (fun fails => ?_) fun g' l₃ list free spent₃ => ?_
        · have := enough _ (spent.fails fails)
          omega
        · subst list
          rw [post_bind,post_memset,post_bind]
          refine Sound.place (a := 0) made.sound made.dir (by decide) (absent 0 (by decide)) (by decide) (fun _ => 0) spent₃
            (fun _ _ => ?_) fun _ _ _ _ => ?_
          all_goals simp
  obtain ⟨_,s',ran,_⟩ := post_returns runs
  exact ⟨s',ran⟩

/-- A hundred free pages, and no process. -/
def unbooted : Sys where
  vm := (freePages 100 (by decide)).mach link
  tables := ⟨fun _ => ⟨.FD_NONE,0,false,false,0,0,0⟩,fun _ => ⟨.UNUSED,none,fun _ => none,none⟩,0,fun _ => none⟩
  space _ := ⟨0,0,0⟩
  kpgdir := 1024

theorem booted : ∃ s, Reachable link s := by
  obtain ⟨s,ran⟩ := userinit_returns (s := unbooted) (p := 0) (freePages 100 (by decide)).sound rfl
    (fun n fails => by rw [Laid.fails fails]; decide) (fun _ => 0) (show 44 < PGSIZE by decide)
  exact ⟨s,.userinit (fun _ => ⟨rfl,rfl⟩) ran⟩

end Xv6.Vm
