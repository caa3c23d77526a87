import Xv6.VmLaid

/-!
Growing and shrinking an address space. `allocuvm` maps exactly the new pages or none.
-/
namespace Xv6.Vm
open Xv6 Xv6.Lib Function

variable {k : Link} {own own' : Nat → Owner} {l l' : List Nat} {m m' : Mach} {d : Nat} {E : String → Prop}

theorem base_eq : KERNBASE / PGSIZE = 2 ^ 19 := by decide

theorem vacant_of {sz : Nat} (below : sz < KERNBASE)
    (exactly : ∀ v < KERNBASE / PGSIZE, has (entry m.mem d v) PTE_P = true ↔ v < PGROUNDUP sz) :
    ∀ v < 2 ^ 19, pages sz ≤ v → view m.mem d v = none := by
  intro v user high
  have absent := mt (exactly v user).mp (by rw [PGROUNDUP_eq _ (by simp only [KERNBASE] at below; omega)]; omega)
  rw [view,if_neg absent]

theorem view_present {mem : Nat → Bytes PGSIZE} {v : Nat} {seen : UInt32 × Bytes PGSIZE} (here : view mem d v = some seen) :
    has (entry mem d v) PTE_P = true := by
  rw [← isSome_view,here]; rfl

theorem has_view {mem mem' : Nat → Bytes PGSIZE} {v : Nat} (same : view mem' d v = view mem d v) :
    has (entry mem' d v) PTE_P = has (entry mem d v) PTE_P := by
  rw [← isSome_view,← isSome_view,same]

theorem Work.returned (work : Work k d own m own' l' m') (sound : Sound k own l m) (dir : own d = .dir)
    (same : ∀ v < 2 ^ 19, view m'.mem d v = view m.mem d v) : ∀ g ∈ l, g ∈ l' ∨ ∃ i, word m'.mem d i = pte g 7 := by
  intro g member
  have free := (sound.listed g).mp member
  rw [work.sound.listed]
  refine (work.back g (.inl free)).imp_right fun mine => ?_
  have tidy := work.sound.tidy d work.dir
  unfold Of at mine
  cases owner : own' g with
  | tab e i =>
    rw [owner] at mine
    exact ⟨i,(tidy.tab g i (owner.trans (by rw [show e = d from mine]))).2⟩
  | user e i j =>
    -- the page is seen now, so it was seen before
    rw [owner] at mine
    obtain ⟨low,index,present,addr⟩ := tidy.user g i j (owner.trans (by rw [show e = d from mine]))
    have seen := same (1024 * i + j) (by omega)
    have before : has (entry m.mem d (1024 * i + j)) PTE_P = true := by rwa [← has_view seen]
    rw [view,if_pos present,view,if_pos before,Option.some.injEq,Prod.mk.injEq] at seen
    have used := sound.toGood.user_page dir (v := 1024 * i + j) (by omega) before
    rw [← seen.1,addr,free] at used
    cases used
  | _ =>
    rw [owner] at mine
    obtain rfl : g = d := mine
    rw [dir] at free
    cases free

theorem Grown.present {oldsz newsz : Nat} (grown : Grown k d (pages oldsz) (pages newsz) own m own' l' m') (order : oldsz ≤ newsz)
    (exactly : ∀ v < 2 ^ 19, has (entry m.mem d v) PTE_P = true ↔ v < pages oldsz) :
    ∀ v < 2 ^ 19, has (entry m'.mem d v) PTE_P = true ↔ v < pages newsz := by
  intro v user
  have more : pages oldsz ≤ pages newsz := by simp only [pages]; omega
  by_cases new : pages oldsz ≤ v ∧ v < pages newsz
  · obtain ⟨g,_,_,seen⟩ := grown.new v new.1 new.2
    exact iff_of_true (view_present seen) new.2
  · rw [has_view (grown.views v user new),exactly v user]
    omega

theorem Allocated.unchanged {oldsz newsz : Nat}
    (failed : Allocated k d (pages oldsz) (pages oldsz) (pages newsz) own l m false m')
    (vacant : ∀ v < 2 ^ 19, pages oldsz ≤ v → view m.mem d v = none) :
    ∃ own' l', Work k d own m own' l' m' ∧ ∀ v < 2 ^ 19, view m'.mem d v = view m.mem d v := by
  obtain ⟨⟨own',l',work,views,_⟩,_⟩ := failed
  refine ⟨own',l',work,fun v user => ?_⟩
  rw [views v user]
  split
  · next inside => exact (vacant v user inside.1).symm
  · rfl

/-- `allocuvm` maps exactly the new pages or none: a result that is the new size leaves the pages up to it present, the old ones
    untouched and the new ones zero and open to the user; after a failure all pages are as before, and what was free is free
    or has become a page table. -/
theorem allocuvm_exact (sound : Sound k own l m) (dir : own d = .dir) {oldsz : Nat} (below : oldsz < KERNBASE)
    (exactly : ∀ v < KERNBASE / PGSIZE, has (entry m.mem d v) PTE_P = true ↔ v < PGROUNDUP oldsz) (newsz : Nat) :
    ∃ r m' own' l', allocuvm k d oldsz newsz m = .ok (r,m') ∧ Work k d own m own' l' m' ∧
      (oldsz ≤ newsz → newsz < KERNBASE → r = newsz → 0 < newsz →
        (∀ v < KERNBASE / PGSIZE, has (entry m'.mem d v) PTE_P = true ↔ v < PGROUNDUP newsz) ∧
        (∀ v < PGROUNDUP oldsz, view m'.mem d v = view m.mem d v) ∧
        ∀ v, PGROUNDUP oldsz ≤ v → v < PGROUNDUP newsz →
          ∃ w, view m'.mem d v = some (w,fun _ => 0) ∧ has w PTE_W = true ∧ has w PTE_U = true) ∧
      (r = 0 → 0 < newsz → (∀ v < KERNBASE / PGSIZE, view m'.mem d v = view m.mem d v) ∧
        ∀ g ∈ l, g ∈ l' ∨ ∃ i, word m'.mem d i = pte g 7) := by
  have base : KERNBASE = 2147483648 := rfl
  have vacant := vacant_of below exactly
  obtain ⟨r,m',ran,result⟩ := post_returns (@allocuvm_spec k own l m d (fun _ => False) sound dir oldsz newsz (Nat.le_of_lt below) vacant)
  rcases result with ⟨high,rfl,rfl⟩ | ⟨low,less,rfl,rfl⟩ | ⟨low,more,done,size,result⟩
  · refine ⟨_,_,own,l,ran,.refl sound dir,fun _ low => by omega,fun _ _ => ⟨fun _ _ => rfl,?_⟩⟩
    exact (Work.refl sound dir).returned sound dir fun _ _ => rfl
  · exact ⟨_,_,own,l,ran,.refl sound dir,fun more => by omega,fun zero => by omega⟩
  · have last := pages_user (Nat.le_of_lt low)
    rw [base_eq] at *
    rw [PGROUNDUP_eq oldsz (by omega)] at *
    rw [PGROUNDUP_eq newsz (by omega)]
    have order : pages oldsz ≤ pages newsz := by simp only [pages]; omega
    cases done with
    | true =>
      rw [if_pos rfl] at size
      obtain ⟨own',l',grown,_⟩ := result
      refine ⟨r,m',own',l',ran,grown.work,fun _ _ _ _ => ⟨grown.present more exactly,fun v old => grown.views v (by omega) (by omega),
        fun v old new => ?_⟩,fun zero some' => by omega⟩
      obtain ⟨g,_,small,seen⟩ := grown.new v old new
      refine ⟨_,seen,?_,?_⟩
      · rw [has,pte_toNat small (by decide),PTE_W,PGSIZE_eq,beq_iff_eq]
        omega
      · rw [has_U_iff,flags_pte small (by decide)]
    | false =>
      rw [if_neg (by decide)] at size
      obtain ⟨own',l',work,same⟩ := result.unchanged vacant
      exact ⟨r,m',own',l',ran,work,fun _ _ full some' => by omega,fun _ _ => ⟨same,work.returned sound dir same⟩⟩

/-- One page of a process, three free ones. -/
def onePage : Laid := ⟨1,4096,3,fun _ _ => 7,Laid.low_4096,by decide⟩

theorem allocuvm_exact_onePage : ∃ r m' own' l', allocuvm link 1024 4096 8193 (onePage.mach link) = .ok (r,m') ∧
    Work link 1024 onePage.own (onePage.mach link) own' l' m' ∧
    (r = 8193 → ∃ w, view m'.mem 1024 2 = some (w,fun _ => 0) ∧ has w PTE_W = true ∧ has w PTE_U = true) := by
  obtain ⟨r,m',own',l',ran,work,done,_⟩ := allocuvm_exact onePage.sound (Laid.own_dir.mpr rfl) (show 4096 < KERNBASE by decide)
    (Laid.exactly (by decide) (by decide)) 8193
  exact ⟨r,m',own',l',ran,work,fun full => (done (by decide) (by decide) full (by decide)).2.2 2 (by decide) (by decide)⟩

/-! ### `growproc` -/

theorem post_onVm {α : Type} {x : VM α} {Q : α → Sys → Prop} {s : Sys}
    (runs : post x (fun a m => Q a { s with vm := m }) E s.vm) : post (onVm x) Q E s := by
  unfold post onVm at *
  cases ran : x s.vm with
  | ok done | error why => rw [ran] at runs; exact runs

@[simp] theorem post_modifySpace (p : Pid) (f : Space → Space) {Q : Unit → Sys → Prop} {s : Sys} :
    post (modifySpace p f) Q E s = Q () { s with space := update s.space p (f (s.space p)) } := rfl

variable {s : Sys} {p : Pid}

/-- `sbrk` changes the size by exactly `n`, or fails and changes nothing; the new size is positive. -/
theorem growproc_exact (sound : Sound k own l s.vm) (dir : own (s.space p).pgdir = .dir) (below : (s.space p).sz < KERNBASE)
    (exactly : ∀ v < KERNBASE / PGSIZE, has (entry s.vm.mem (s.space p).pgdir v) PTE_P = true ↔ v < PGROUNDUP (s.space p).sz)
    {n : Int} (int : -2 ^ 31 ≤ n ∧ n < 2 ^ 31) (some' : 0 < (s.space p).sz + n) :
    ∃ r s', growproc k p n s = .ok (r,s') ∧ (r = 0 ∨ r = -1) ∧
      (r = 0 → (s'.space p).sz = (s.space p).sz + n ∧ (s'.space p).pgdir = (s.space p).pgdir ∧
        (∀ v < KERNBASE / PGSIZE, has (entry s'.vm.mem (s.space p).pgdir v) PTE_P = true ↔ v < PGROUNDUP (s'.space p).sz) ∧
        (∀ v < PGROUNDUP (s.space p).sz, v < PGROUNDUP (s'.space p).sz →
          view s'.vm.mem (s.space p).pgdir v = view s.vm.mem (s.space p).pgdir v) ∧
        ∀ v, PGROUNDUP (s.space p).sz ≤ v → v < PGROUNDUP (s'.space p).sz →
          ∃ w, view s'.vm.mem (s.space p).pgdir v = some (w,fun _ => 0)) ∧
      (r = -1 → s'.space = s.space ∧
        ∀ v < KERNBASE / PGSIZE, view s'.vm.mem (s.space p).pgdir v = view s.vm.mem (s.space p).pgdir v) := by
  generalize sizes : (s.space p).sz = sz at *
  generalize dirs : (s.space p).pgdir = d at *
  have base : KERNBASE = 2147483648 := rfl
  have vacant := vacant_of below exactly
  rw [base_eq] at *
  rw [PGROUNDUP_eq sz (by omega)] at *
  refine post_returns ?_
  unfold growproc
  simp only [post_bind,post_get,sizes,dirs]
  by_cases more : n > 0
  · have size : ((sz + n) % 2 ^ 32).toNat = (sz + n).toNat := by
      rw [Int.emod_eq_of_lt (by omega) (by omega)]
    rw [if_pos more,post_bind,size]
    refine post_onVm (post_use (allocuvm_spec sound dir (Nat.le_of_lt below) vacant) fun r m' result => ?_)
    rcases result with ⟨high,rfl,rfl⟩ | ⟨low,less,rfl,rfl⟩ | ⟨low,_,done,size,result⟩
    · rw [if_pos rfl,post_pure]
      exact ⟨.inr rfl,fun zero => absurd zero (by decide),fun _ => ⟨rfl,fun _ _ => rfl⟩⟩
    · omega
    · have last := pages_user (Nat.le_of_lt low)
      cases done with
      | true =>
        rw [if_pos rfl] at size
        subst size
        obtain ⟨own',l',grown,_⟩ := result
        rw [if_neg (by omega)]
        simp only [post_bind,post_modifySpace,post_pure,update_self]
        rw [PGROUNDUP_eq (sz + n).toNat (by omega)]
        refine ⟨by simp,fun _ => ⟨by omega,dirs,grown.present (by omega) exactly,fun v old _ => grown.views v (by omega) (by omega),
          fun v old new => ?_⟩,fun bad => absurd bad (by decide)⟩
        obtain ⟨g,_,_,seen⟩ := grown.new v old new
        exact ⟨_,seen⟩
      | false =>
        rw [if_neg (by decide)] at size
        subst size
        obtain ⟨_,_,_,same⟩ := result.unchanged vacant
        rw [if_pos rfl,post_pure]
        exact ⟨.inr rfl,fun zero => absurd zero (by decide),fun _ => ⟨rfl,same⟩⟩
  · rw [if_neg more]
    by_cases less : n < 0
    · have size : ((sz + n) % 2 ^ 32).toNat = (sz + n).toNat := by
        rw [Int.emod_eq_of_lt (by omega) (by omega)]
      rw [if_pos less,post_bind,size]
      refine post_onVm (post_use (deallocuvm_spec sound dir (Nat.le_of_lt below)) fun r m' ⟨size,own',l',cut⟩ => ?_)
      rw [Nat.min_eq_right (by omega)] at size
      subst size
      rw [if_neg (by omega)]
      simp only [post_bind,post_modifySpace,post_pure,update_self]
      rw [PGROUNDUP_eq (sz + n).toNat (by omega)]
      have order : pages (sz + n).toNat ≤ pages sz := by simp only [pages]; omega
      have last := pages_user (Nat.le_of_lt below)
      refine ⟨by simp,fun _ => ⟨by omega,dirs,fun v user => ?_,fun v old new => ?_,fun v old new => by omega⟩,fun bad => absurd bad (by decide)⟩
      · by_cases inside : pages (sz + n).toNat ≤ v ∧ v < pages sz
        · have gone := cut.views v user
          rw [if_pos inside] at gone
          refine iff_of_false ?_ (by omega)
          rw [← isSome_view,gone]
          simp
        · have same := cut.views v user
          rw [if_neg inside] at same
          rw [has_view same,exactly v user]
          omega
      · rw [cut.views v (by omega),if_neg (by omega)]
    · obtain rfl : n = 0 := by omega
      rw [if_neg less,post_pure]
      refine ⟨.inl rfl,fun _ => ⟨by omega,dirs,?_,fun _ _ _ => rfl,fun v old new => ?_⟩,fun bad => absurd bad (by decide)⟩
      · rw [sizes,PGROUNDUP_eq sz (by omega)]
        exact exactly
      · rw [sizes,PGROUNDUP_eq sz (by omega)] at new
        omega

theorem growproc_exact_onePage : ∃ r s', growproc link 0 1 (onePage.sys link 4096) = .ok (r,s') ∧ (r = 0 ∨ r = -1) ∧
    (r = 0 → ((s'.space 0).sz : Int) = 4096 + 1) := by
  obtain ⟨r,s',ran,result,done,_⟩ := growproc_exact (p := 0) (s := onePage.sys link 4096) onePage.sound (Laid.own_dir.mpr rfl)
    (by decide) (Laid.exactly (by decide) (by decide)) (n := 1) (by decide) (by decide)
  exact ⟨r,s',ran,result,fun zero => (done zero).1⟩

/-- A process of one page gives back one byte more than it has: `sbrk` succeeds, and the size is what it was. It gives back all
    it has: `sbrk` fails, and its page is gone. -/
theorem growproc_not_above_zero :
    (∃ s', growproc link 0 (-4097) (onePage.sys link 4096) = .ok (0,s') ∧ (s'.space 0).sz = 4096) ∧
    (view (onePage.sys link 4096).vm.mem 1024 0).isSome = true ∧
    ∃ s', growproc link 0 (-4096) (onePage.sys link 4096) = .ok (-1,s') ∧ (s'.space 0).sz = 4096 ∧ view s'.vm.mem 1024 0 = none := by
  refine ⟨⟨_,rfl,rfl⟩,?_,?_⟩
  · change (view (onePage.mach link).mem 1024 0).isSome = true
    rw [Laid.view_mach (by decide)]
    rfl
  · have runs : post (growproc link 0 (-4096)) (fun r s' => r = -1 ∧ (s'.space 0).sz = 4096 ∧ view s'.vm.mem 1024 0 = none)
        (fun _ => False) (onePage.sys link 4096) := by
      unfold growproc
      rw [post_bind,post_get]
      change post (onVm (deallocuvm link 1024 4096 0) >>= _) _ _ _
      rw [post_bind]
      refine post_onVm (post_use (deallocuvm_spec onePage.sound (Laid.own_dir.mpr rfl) (by decide)) fun r m' ⟨size,own',l',cut⟩ => ?_)
      rw [Nat.min_zero] at size
      subst size
      exact ⟨rfl,rfl,(cut.views 0 (by decide)).trans (if_pos (by decide))⟩
    obtain ⟨_,s',ran,rfl,size,gone⟩ := post_returns runs
    exact ⟨s',ran,size,gone⟩

end Xv6.Vm
