import Xv6.VmGrow

/-!
Copying an address space. `copyuvm` gives the child the pages of the parent with their flags, in pages that were free.
-/
namespace Xv6.Vm
open Xv6 Xv6.Lib Function

variable {k : Link} {own own' own₂ : Nat → Owner} {l l' l₂ : List Nat} {m m' m₂ : Mach} {d g q : Nat} {E : String → Prop}

/-! ### The pages that are read -/

/-- The first pages of the directory `q` are present, and what is read for them is in pages of the kind. -/
structure Readable (kind : Nat → Prop) (q n : Nat) (mem : Nat → Bytes PGSIZE) : Prop where
  root : kind q
  present : ∀ v < n, has (entry mem q v) PTE_P = true
  table : ∀ v < n, kind (PTE_ADDR (word mem q (v / 1024)))
  page : ∀ v < n, kind (PTE_ADDR (entry mem q v))

section
variable {kind kind' : Nat → Prop} {n : Nat} {mem mem' : Nat → Bytes PGSIZE}

theorem Readable.pde (readable : Readable kind q n mem) {v : Nat} (inside : v < n) : has (word mem q (v / 1024)) PTE_P = true := by
  by_contra absent
  have present := readable.present v inside
  rw [entry,if_neg absent,has_zero] at present
  cases present

theorem Readable.same (readable : Readable kind q n mem) (kept : ∀ g, kind g → kind' g ∧ mem' g = mem g) {v : Nat} (inside : v < n) :
    word mem' q (v / 1024) = word mem q (v / 1024) ∧ entry mem' q v = entry mem q v ∧
      mem' (PTE_ADDR (entry mem q v)) = mem (PTE_ADDR (entry mem q v)) := by
  have pde := word_congr (kept q readable.root).2 (v / 1024)
  refine ⟨pde,?_,(kept _ (readable.page v inside)).2⟩
  rw [entry,entry,pde,readable.pde inside,if_pos rfl,if_pos rfl]
  exact word_congr (kept _ (readable.table v inside)).2 _

theorem Readable.kept (readable : Readable kind q n mem) (kept : ∀ g, kind g → kind' g ∧ mem' g = mem g) :
    Readable kind' q n mem' := by
  refine ⟨(kept q readable.root).1,fun v inside => ?_,fun v inside => ?_,fun v inside => ?_⟩
  · rw [(readable.same kept inside).2.1]
    exact readable.present v inside
  · rw [(readable.same kept inside).1]
    exact (kept _ (readable.table v inside)).1
  · rw [(readable.same kept inside).2.1]
    exact (kept _ (readable.page v inside)).1

end

/-- The page is in use, and not by the directory. -/
def Used (d : Nat) (own : Nat → Owner) (g : Nat) : Prop := own g ≠ .free ∧ ¬Of d own g

theorem Work.used (work : Work k d own m own' l' m') (g : Nat) (used : Used d own g) : Used d own' g ∧ m'.mem g = m.mem g := by
  obtain ⟨owner,page⟩ := work.only g used.1 used.2
  exact ⟨⟨by rw [owner]; exact used.1,by rw [Of.congr owner]; exact used.2⟩,page⟩

theorem Made.used (made : Made k d own m own' l' m') (g : Nat) (used : own g ≠ .free) : Used d own' g ∧ m'.mem g = m.mem g := by
  obtain ⟨owner,page,other⟩ := made.only g used
  exact ⟨⟨by rwa [owner],other⟩,page⟩

/-! ### `copyuvm` -/

/-- The calls of `kalloc` for the first `i` pages of a copy: the pages, and a page table for each 1024 of them. -/
def calls (i : Nat) : Nat := i + (i + 1023) / 1024

/-- The child has pages of the parent, from `i` on. -/
structure Copied (k : Link) (d q i n : Nat) (own : Nat → Owner) (l : List Nat) (m : Mach) (own' : Nat → Owner) (l' : List Nat)
    (m' : Mach) : Prop where
  work : Work k d own m own' l' m'
  views : ∀ v < 2 ^ 19, ¬(i ≤ v ∧ v < n) → view m'.mem d v = view m.mem d v
  new : ∀ v, i ≤ v → v < n → ∃ w, view m'.mem d v = some (w,m.mem (PTE_ADDR (entry m.mem q v))) ∧
    PTE_FLAGS w = PTE_FLAGS (entry m.mem q v)
  kernel : ∀ v, 2 ^ 19 ≤ v → v < 2 ^ 20 → entry m'.mem d v = entry m.mem d v
  pdes : ∀ j < 512, word m'.mem d j ≠ 0 ↔ 1024 * j < n
  spent : Spent (calls n - calls i) l m l' m'

/-- The copy has failed at a page: it could not be had, or there was no page for its page table, and it is lost. -/
inductive Broken (k : Link) (d i n : Nat) (own : Nat → Owner) (l : List Nat) (m m' : Mach) : Prop where
  | page {own' : Nat → Owner} {l' : List Nat} (j : Nat) (from' : i ≤ j) (to' : j < n) (work : Work k d own m own' l' m')
    (fails : Fails (calls j - calls i) l m) : Broken k d i n own l m m'
  | table {own' : Nat → Owner} {l' : List Nat} {m₁ : Mach} (j g : Nat) (from' : i ≤ j) (to' : j < n) (even : j % 1024 = 0)
    (work : Work k d own m own' (g :: l') m₁) (page : Bytes PGSIZE)
    (state : m' = { m₁.next with freelist := word m₁.mem g 0, mem := update m₁.mem g page }.next)
    (fails : Fails (calls j + 1 - calls i) l m) : Broken k d i n own l m m'

theorem lor_flags {w : UInt32} (present : has w PTE_P = true) : PTE_FLAGS w ||| PTE_P = PTE_FLAGS w := by
  rw [has_P_iff] at present
  apply Nat.eq_of_testBit_eq
  intro b
  rw [Nat.testBit_or]
  cases b with
  | zero => simp [present]
  | succ b => simp [PTE_P,Nat.testBit_succ]

theorem copyuvm_from_spec {sz : Nat} (below : sz < KERNBASE) (fuel : Nat) :
    ∀ {i : Nat} {own : Nat → Owner} {l : List Nat} {m : Mach}, Sound k own l m → own d = .dir → pages sz ≤ i + fuel → i ≤ pages sz →
      Readable (Used d own) q (pages sz) m.mem → (∀ v < 2 ^ 19, i ≤ v → view m.mem d v = none) →
      (∀ j < 512, word m.mem d j ≠ 0 ↔ 1024 * j < i) →
      post (copyuvm_from q d sz fuel i) (fun r m' => match r with
        | true => ∃ own' l', Copied k d q i (pages sz) own l m own' l' m'
        | false => Broken k d i (pages sz) own l m m') E m := by
  have last := pages_user (Nat.le_of_lt below)
  have stay {i : Nat} {own : Nat → Owner} {l : List Nat} {m : Mach} (sound : Sound k own l m) (dir : own d = .dir)
      (done : i = pages sz) (pdes : ∀ j < 512, word m.mem d j ≠ 0 ↔ 1024 * j < i) :
      ∃ own' l', Copied k d q i (pages sz) own l m own' l' m := by
    subst done
    exact ⟨own,l,.refl sound dir,fun _ _ _ => rfl,fun v low high => by omega,fun _ _ _ => rfl,pdes,by rw [Nat.sub_self]; exact .zero l m⟩
  induction fuel with
  | zero => exact fun sound dir enough most _ _ pdes => stay sound dir (by omega) pdes
  | succ fuel ih =>
    intro i own l m sound dir enough most readable vacant pdes
    rw [copyuvm_from]
    split
    · next more =>
      rw [← lt_pages] at more
      have pde := readable.pde more
      have present := readable.present i more
      have here : word m.mem (PTE_ADDR (word m.mem q (i / 1024))) (i % 1024) = entry m.mem q i := by rw [entry,if_pos pde]
      rw [post_bind,post_lookup,lookup,if_pos pde]
      dsimp only
      rw [post_bind,post_get,here,if_neg (by rw [present]; decide),post_bind]
      refine kalloc_cases sound.toGood (fun none' => ?_) fun g l' list free spent => ?_
      · exact .page i (le_refl _) more (.next sound dir) (by rwa [Nat.sub_self])
      · subst list
        rw [post_bind,post_modify,post_bind]
        have low : PTE_FLAGS (entry m.mem q i) < PGSIZE := Nat.mod_lt _ (by decide)
        refine sound.place dir (by omega) (vacant i (by omega) (le_refl _)) low (m.mem (PTE_ADDR (entry m.mem q i))) spent
          (fun none' empty => ?_) fun own₁ l₁ m₁ placed => ?_
        · rw [if_neg (by decide)]
          have even : i % 1024 = 0 := by
            by_contra odd
            exact (pdes (i / 1024) (by omega)).mpr (by omega) empty
          exact .table i g (le_refl _) more even (.refl sound dir) _ rfl (by rwa [Nat.add_sub_cancel_left])
        · rw [if_pos rfl]
          have cost : (1 + if word m.mem d (i / 1024) = 0 then 1 else 0) = calls (i + 1) - calls i := by
            have table := pdes (i / 1024) (by omega)
            simp only [calls]
            split
            · next empty => have := mt table.mpr (not_not.mpr empty); omega
            · next full => have := table.mp full; omega
          have ordered (j : Nat) (later : i + 1 ≤ j) : calls (i + 1) ≤ calls j := by simp only [calls]; omega
          have next : calls i ≤ calls (i + 1) := by simp only [calls]; omega
          have spent' := placed.spent
          rw [cost] at spent'
          obtain ⟨h,_,new,small⟩ := placed.new
          refine post_use (ih placed.work.sound placed.work.dir (by omega) (by omega) (readable.kept placed.work.used) (fun v user low => ?_)
            fun j low => ?_) fun r m' done => ?_
          · rw [placed.views v user (by omega)]
            exact vacant v user (by omega)
          · rw [placed.pdes j,pdes j low]
            omega
          · cases r with
            | true =>
              obtain ⟨own₂,l₂,copied⟩ := done
              have end' := ordered (pages sz) (by omega)
              refine ⟨own₂,l₂,placed.work.trans copied.work,fun v user other => ?_,fun v from' to' => ?_,fun v high small => ?_,
                copied.pdes,?_⟩
              · rw [copied.views v user (by omega)]
                exact placed.views v user (by omega)
              · rcases eq_or_ne v i with rfl | later
                · refine ⟨pte h (PTE_FLAGS (entry m.mem q v) ||| PTE_P),?_,?_⟩
                  · rw [copied.views v (by omega) (by omega)]
                    exact new
                  · rw [lor_flags present,flags_pte small low]
                · obtain ⟨w,seen,flags⟩ := copied.new v (by omega) to'
                  obtain ⟨_,same,page⟩ := readable.same placed.work.used to'
                  rw [same] at seen flags
                  rw [page] at seen
                  exact ⟨w,seen,flags⟩
              · rw [copied.kernel v high small,placed.kernel v high small]
              · have all := spent'.trans copied.spent
                rwa [show calls (i + 1) - calls i + (calls (pages sz) - calls (i + 1)) = calls (pages sz) - calls i by omega] at all
            | false =>
              cases done with
              | page j from' to' work fails =>
                have := ordered j from'
                refine .page j (by omega) to' (placed.work.trans work) ?_
                have first := spent'.fails fails
                rwa [show calls (i + 1) - calls i + (calls j - calls (i + 1)) = calls j - calls i by omega] at first
              | table j g from' to' even work page state fails =>
                have := ordered j from'
                refine .table j g (by omega) to' even (placed.work.trans work) page state ?_
                have first := spent'.fails fails
                rwa [show calls (i + 1) - calls i + (calls j + 1 - calls (i + 1)) = calls j + 1 - calls i by omega] at first
    · next less =>
      rw [← lt_pages] at less
      exact stay sound dir (by omega) pdes

theorem Made.hold (made : Made k d own m own' (g :: l') m') (page : Bytes PGSIZE) :
    own g = .free ∧ Made k d (update own g .held) { m with mem := update m.mem g page } (update own' g .held) l'
      { m'.next with freelist := word m'.mem g 0, mem := update m'.mem g page } := by
  have free' : own' g = .free := (made.sound.listed g).mp List.mem_cons_self
  have apart : d ≠ g := by
    rintro rfl
    have dir := made.dir
    rw [free'] at dir
    cases dir
  have free : own g = .free := by
    by_contra used
    have owner := (made.only g used).1
    rw [free'] at owner
    exact used owner.symm
  refine ⟨free,made.sound.hold page,(update_of_ne apart ..).trans made.dir,(update_of_ne apart ..).trans made.fresh,
    fun h used => ?_,fun h here => ?_⟩
  · rcases eq_or_ne h g with rfl | other
    · refine ⟨by rw [update_self,update_self],?_,?_⟩
      · change update m'.mem h page h = update m.mem h page h
        rw [update_self,update_self]
      · simp only [Of,update_self]
        exact apart.symm
    · rw [update_of_ne other] at used
      obtain ⟨owner,page',mine⟩ := made.only h used
      refine ⟨by rw [update_of_ne other,update_of_ne other,owner],?_,by rwa [Of.congr (update_of_ne other ..)]⟩
      change update m'.mem g page h = update m.mem g page h
      rw [update_of_ne other,update_of_ne other,page']
  · have other : h ≠ g := by rintro rfl; simp at here
    rw [update_of_ne other] at here
    rw [Of.congr (update_of_ne other ..),update_of_ne other]
    exact made.back h here

/-- What `copyuvm` returns: a directory with copies of the pages, or nothing, and memory is as before but for a page that is lost
    if there was none for a page table. -/
theorem copyuvm_spec (sound : Sound k own l m) {sz : Nat} (below : sz < KERNBASE)
    (readable : Readable (fun g => own g ≠ .free) q (pages sz) m.mem) :
    post (copyuvm k q sz) (fun r m' => match r with
      | some d => ∃ own' l', Made k d own m own' l' m' ∧
          (∀ v < pages sz, ∃ w, view m'.mem d v = some (w,m.mem (PTE_ADDR (entry m.mem q v))) ∧
            PTE_FLAGS w = PTE_FLAGS (entry m.mem q v)) ∧
          (∀ v < 2 ^ 19, pages sz ≤ v → view m'.mem d v = none) ∧
          (∀ v, 2 ^ 19 ≤ v → v < 2 ^ 20 → entry m'.mem d v = kmapEntry (kmap k) v) ∧ Spent (65 + calls (pages sz)) l m l' m'
      | none => ∃ n, Fails n l m ∧ n ≤ 66 + calls (pages sz) ∧
          (((∀ c, n ≠ 66 + 1025 * c) ∧ ∃ l', Sound k own l' m' ∧ ∀ g, own g ≠ .free → m'.mem g = m.mem g) ∨
          (∃ c, n = 66 + 1025 * c ∧ 1024 * c < pages sz) ∧ ∃ g l', own g = .free ∧ Sound k (update own g .held) l' m' ∧
            ∀ h, own h ≠ .free → m'.mem h = m.mem h)) E m := by
  unfold copyuvm
  rw [post_bind]
  refine post_use (setupkvm_spec sound) fun r m₁ done => ?_
  cases r with
  | none =>
    obtain ⟨restored,n,few,fails⟩ := done
    exact ⟨n,fails,by omega,.inl ⟨by omega,restored⟩⟩
  | some d =>
    obtain ⟨own₁,l₁,made,bare,kernel,tabs,spent,_⟩ := done
    dsimp only
    rw [post_bind]
    have enough : pages sz ≤ 0 + (sz / PGSIZE + 1) := by
      simp only [pages,PGSIZE_eq]
      omega
    refine post_use (copyuvm_from_spec below _ made.sound made.dir enough (Nat.zero_le _) (readable.kept made.used)
      (fun v user _ => bare v user) fun j low => iff_of_false (mt (tabs j).mp (by omega)) (by omega)) fun r m₂ done => ?_
    cases r with
    | true =>
      obtain ⟨own₂,l₂,copied⟩ := done
      refine ⟨own₂,l₂,made.work copied.work,fun v inside => ?_,fun v user past => ?_,fun v high small => ?_,?_⟩
      · obtain ⟨w,seen,flags⟩ := copied.new v (Nat.zero_le _) inside
        obtain ⟨_,same,page⟩ := readable.same made.used inside
        rw [same] at seen flags
        rw [page] at seen
        exact ⟨w,seen,flags⟩
      · rw [copied.views v user (by omega)]
        exact bare v user
      · rw [copied.kernel v high small,kernel v high small]
      · exact spent.trans copied.spent
    | false =>
      rw [if_neg (by decide),post_bind]
      cases done with
      | @page own₂ l₂ j from' to' work fails =>
        refine post_use (freevm_spec work.sound work.dir) ?_
        rintro _ m₃ ⟨own₃,l₃,gone⟩
        obtain ⟨restored,same⟩ := made.gone (work.gone gone)
        refine ⟨_,spent.fails fails,?_,.inl ⟨fun c => ?_,l₃,restored,same⟩⟩ <;> simp only [calls] <;> omega
      | @table own₂ l₂ m₃ j g from' to' even work page state fails =>
        obtain ⟨free,held⟩ := (made.work work).hold page
        subst state
        have sound' := held.sound.next
        refine post_use (freevm_spec sound' held.dir) ?_
        rintro _ m₄ ⟨own₄,l₄,gone⟩
        obtain ⟨restored,same⟩ := held.gone ⟨gone.sound,gone.only,gone.gone⟩
        refine ⟨_,spent.fails fails,?_,.inr ⟨⟨j / 1024,?_,by omega⟩,g,l₄,free,restored,fun h used => ?_⟩⟩
        · simp only [calls]
          omega
        · simp only [calls]
          omega
        · have other : h ≠ g := by rintro rfl; exact used free
          have kept := same h (by rwa [update_of_ne other])
          exact kept.trans (update_of_ne other ..)

/-- `copyuvm` copies the address space exactly: the child has the parent's pages with their flags and bytes and no others, in pages
    that are its own, with the kernel's part as in `kmap`; nothing that was in use has changed. -/
theorem copyuvm_exact (sound : Sound k own l m) {sz : Nat} (below : sz < KERNBASE)
    (present : ∀ v < PGROUNDUP sz, has (entry m.mem q v) PTE_P = true)
    (used : own q ≠ .free ∧ ∀ v < PGROUNDUP sz,
      own (PTE_ADDR (word m.mem q (v / 1024))) ≠ .free ∧ own (PTE_ADDR (entry m.mem q v)) ≠ .free) :
    ∃ r m', copyuvm k q sz m = .ok (r,m') ∧ ∀ d, r = some d → ∃ l', FreeList m'.mem m'.freelist l' ∧
      (∀ v, v * PGSIZE < sz → ∃ w, view m'.mem d v = some (w,m.mem (PTE_ADDR (entry m.mem q v))) ∧
        PTE_FLAGS w = PTE_FLAGS (entry m.mem q v)) ∧
      (∀ v < KERNBASE / PGSIZE, sz ≤ v * PGSIZE → view m'.mem d v = none) ∧
      (∀ u v, u * PGSIZE < sz → v * PGSIZE < sz → PTE_ADDR (entry m'.mem d u) = PTE_ADDR (entry m'.mem d v) → u = v) ∧
      (∀ u v, u * PGSIZE < sz → v * PGSIZE < sz → PTE_ADDR (entry m'.mem d u) ≠ PTE_ADDR (entry m.mem q v)) ∧
      (∀ v, v * PGSIZE < sz → PTE_ADDR (entry m'.mem d v) ∉ l') ∧
      (∀ v, KERNBASE / PGSIZE ≤ v → v < 2 ^ 20 → entry m'.mem d v = kmapEntry (kmap k) v) ∧
      ∀ g, own g ≠ .free → m'.mem g = m.mem g := by
  have last := pages_user (Nat.le_of_lt below)
  rw [PGROUNDUP_eq _ (by simp only [KERNBASE] at below; omega)] at present used
  have readable : Readable (fun g => own g ≠ .free) q (pages sz) m.mem :=
    ⟨used.1,present,fun v inside => (used.2 v inside).1,fun v inside => (used.2 v inside).2⟩
  obtain ⟨r,m',ran,result⟩ := post_returns (copyuvm_spec (E := fun _ => False) sound below readable)
  refine ⟨r,m',ran,?_⟩
  rintro d rfl
  obtain ⟨own',l',made,copies,none',kernel,_⟩ := result
  have mine (v : Nat) (inside : v < pages sz) : own' (PTE_ADDR (entry m'.mem d v)) = .user d (v / 1024) (v % 1024) := by
    obtain ⟨w,seen,_⟩ := copies v inside
    exact made.sound.toGood.user_page made.dir (by omega) (view_present seen)
  refine ⟨l',made.sound.free,fun v inside => copies v (lt_pages.mpr inside),fun v user past => none' v user ?_,
    fun u v inside inside' same => ?_,fun u v inside inside' same => ?_,fun v inside member => ?_,kernel,fun g here => (made.only g here).2.1⟩
  · by_contra less
    have := lt_pages.mp (show v < pages sz by omega)
    omega
  · rw [← lt_pages] at inside inside'
    have owner := mine u inside
    rw [same,mine v inside'] at owner
    simp only [Owner.user.injEq,true_and] at owner
    omega
  · rw [← lt_pages] at inside inside'
    have owner := mine u inside
    rw [same] at owner
    exact (made.only _ (used.2 v inside').2).2.2 (of_user owner)
  · rw [← lt_pages] at inside
    have free := (made.sound.listed _).mp member
    rw [mine v inside] at free
    cases free

theorem copyuvm_none (sound : Sound k own l m) {sz : Nat} (below : sz < KERNBASE)
    (readable : Readable (fun g => own g ≠ .free) q (pages sz) m.mem) (ran : copyuvm k q sz m = .ok (none,m')) :
    ∃ n, Fails n l m ∧ n ≤ 66 + calls (pages sz) := by
  have runs := copyuvm_spec (E := fun _ => False) sound below readable
  unfold post at runs
  rw [ran] at runs
  obtain ⟨n,fails,few,_⟩ := runs
  exact ⟨n,fails,few⟩

/-- Two pages of a process, and a hundred free ones. -/
def twoPages : Laid := ⟨2,4096,100,fun v _ => UInt8.ofNat v,Laid.low_4096,by decide⟩

theorem Laid.readable {x : Laid} {sz : Nat} (all : pages sz = x.n) :
    Readable (fun g => x.own g ≠ .free) 1024 (pages sz) (x.mach k).mem := by
  have low := x.low
  have high := x.high
  rw [all]
  refine ⟨?_,fun v inside => ?_,fun v inside => ?_,fun v inside => ?_⟩
  · rw [Ne,own_free]
    omega
  · rw [entry_mach (by omega),if_pos inside]
    exact pte_present (by omega)
  · change x.own (PTE_ADDR (word (x.mem k) 1024 (v / 1024))) ≠ .free
    rw [word_dir (by omega),if_pos (.inl ⟨by omega,by omega⟩),addr_pte (by omega) (by decide),Ne,own_free]
    omega
  · rw [entry_mach (by omega),if_pos inside,addr_pte (by omega) (by decide),Ne,own_free]
    omega

theorem copyuvm_exact_twoPages : ∃ d m', copyuvm link 1024 8192 (twoPages.mach link) = .ok (some d,m') ∧
    ∃ w, view m'.mem d 1 = some (w,fun _ => 1) ∧ PTE_FLAGS w = 7 := by
  have readable : Readable (fun g => twoPages.own g ≠ .free) 1024 (pages 8192) (twoPages.mach link).mem := Laid.readable rfl
  obtain ⟨r,m',ran,exact'⟩ := copyuvm_exact (q := 1024) twoPages.sound (show 8192 < KERNBASE by decide) readable.present
    ⟨readable.root,fun v inside => ⟨readable.table v inside,readable.page v inside⟩⟩
  cases r with
  | none =>
    obtain ⟨n,fails,few⟩ := copyuvm_none twoPages.sound (show 8192 < KERNBASE by decide) readable ran
    rw [Laid.fails fails] at few
    exact absurd few (by decide)
  | some d =>
    obtain ⟨l',_,copies,_⟩ := exact' d rfl
    obtain ⟨w,seen,flags⟩ := copies 1 (by decide)
    have entry' : entry (twoPages.mach link).mem 1024 1 = pte 4097 7 := (Laid.entry_mach (by decide)).trans (if_pos (by decide))
    rw [entry',addr_pte (by decide) (by decide),show 4097 = twoPages.u + 1 from rfl,Laid.page_mach (by decide)] at seen
    rw [entry',flags_pte (by decide) (by decide)] at flags
    exact ⟨d,m',ran,w,seen,flags⟩

/-! ### `fork` -/

variable {s s' : Sys} {p : Pid}

theorem Sound.take (sound : Sound k own (g :: l) m) : Sound k (update own g .held) l { m.next with freelist := word m.mem g 0 } :=
  sound.retag sound.toGood.taken (.inl ((sound.listed g).mp List.mem_cons_self)) (.inr (.inl rfl)) fun _ _ => rfl

@[simp] theorem post_modifyProc (p : Pid) (f : Proc → Proc) {Q : Unit → Sys → Prop} :
    post (modifyProc p f) Q E s = Q () { s with tables := s.tables.setProc p (f (s.tables.proc p)) } := rfl

/-- What a `fork` that fails leaves: all pages that were free, or all but the one that has been copied for a page table
    that could not be had. -/
inductive Unforked (k : Link) (n : Nat) (own : Nat → Owner) (l : List Nat) (s s' : Sys) : Prop where
  | whole {l' : List Nat} (sound : Sound k own l' s'.vm)
    (why : (∀ q, (s.tables.proc q).state ≠ .UNUSED) ∨ ∃ i, Fails i l s.vm ∧ ∀ c, i ≠ 67 + 1025 * c) : Unforked k n own l s s'
  | lost {l' : List Nat} {g : Nat} (slot : ∃ q, (s.tables.proc q).state = .UNUSED) (c : Nat) (inside : 1024 * c < n)
    (fails : Fails (67 + 1025 * c) l s.vm) (free : own g = .free) (sound : Sound k (update own g .held) l' s'.vm) : Unforked k n own l s s'

theorem setProc_other (t : Tables) {np q : Pid} (other : q ≠ np) (x : Proc) : (t.setProc np x).proc q = t.proc q := update_of_ne other ..

theorem setProc_self (t : Tables) (np : Pid) (x : Proc) : (t.setProc np x).proc np = x := update_self ..

theorem allocproc_spec (sound : Sound k own l s.vm) :
    post allocproc (fun r s' => match r with
      | none => (∀ q, (s'.tables.proc q).state = (s.tables.proc q).state) ∧ Sound k own l s'.vm ∧
          ((∀ q, (s.tables.proc q).state ≠ .UNUSED) ∨ Fails 0 l s.vm)
      | some np => (s.tables.proc np).state = .UNUSED ∧ (∀ q, q ≠ np → s'.tables.proc q = s.tables.proc q ∧ s'.space q = s.space q) ∧
          ∃ g l', l = g :: l' ∧ (s'.space np).kstack = g ∧ Sound k (update own g .held) l' s'.vm ∧ Spent 1 l s.vm l' s'.vm ∧
            s'.vm.mem = s.vm.mem) E s := by
  unfold allocproc
  simp only [post_bind,post_get]
  cases slot : (List.finRange NPROC).find? fun p => (s.tables.proc p).state = .UNUSED with
  | none =>
    refine ⟨fun _ => rfl,sound,.inl fun q => ?_⟩
    have none' := List.find?_eq_none.mp slot q (List.mem_finRange q)
    simpa using none'
  | some np =>
    have unused : (s.tables.proc np).state = .UNUSED := by simpa using List.find?_some slot
    simp only [post_bind,post_modifyProc]
    refine post_onVm (kalloc_cases sound.toGood (fun fails => ?_) fun g l' list free spent => ?_)
    · simp only [post_bind,post_modifySpace,post_modifyProc,post_pure]
      refine ⟨fun q => ?_,sound.next,.inr fails⟩
      rcases eq_or_ne q np with rfl | other
      · rw [setProc_self,unused]
      · rw [setProc_other _ other,setProc_other _ other]
    · simp only [post_bind,post_modifySpace,post_pure]
      refine ⟨unused,fun q other => ⟨setProc_other _ other _,update_of_ne other ..⟩,g,l',list,?_,(list ▸ sound).take,spent,rfl⟩
      rw [update_self]

theorem fork_spec (sound : Sound k own l s.vm) (below : (s.space p).sz < KERNBASE)
    (readable : Readable (fun g => own g ≠ .free) (s.space p).pgdir (pages (s.space p).sz) s.vm.mem)
    (alive : (s.tables.proc p).state ≠ .UNUSED) :
    post (fork k p) (fun r s' => r = -1 ∧ (∀ q, (s'.tables.proc q).state = (s.tables.proc q).state) ∧
        Unforked k (pages (s.space p).sz) own l s s' ∨ r ≠ -1 ∧ 66 + calls (pages (s.space p).sz) ≤ l.length)
      (fun _ => 66 + calls (pages (s.space p).sz) ≤ l.length) s := by
  unfold fork
  rw [post_bind]
  refine post_use (allocproc_spec sound) fun r s₁ done => ?_
  cases r with
  | none =>
    obtain ⟨states,sound₁,why⟩ := done
    exact .inl ⟨rfl,states,.whole sound₁ (why.imp_right fun fails => ⟨0,fails,by omega⟩)⟩
  | some np =>
    obtain ⟨unused,others,g,l₁,rfl,stack,sound₁,spent,memory⟩ := done
    have free : own g = .free := (sound.listed g).mp List.mem_cons_self
    have apart : p ≠ np := by rintro rfl; exact alive unused
    obtain ⟨_,same⟩ := others p apart
    dsimp only
    rw [post_bind,post_get,post_bind,same]
    have readable₁ : Readable (fun h => update own g .held h ≠ .free) (s.space p).pgdir (pages (s.space p).sz) s₁.vm.mem := by
      refine readable.kept fun h used => ⟨?_,by rw [memory]⟩
      have other : h ≠ g := by rintro rfl; exact used free
      rwa [update_of_ne other]
    refine post_onVm (post_use (post_mono (E := fun _ => False) (copyuvm_spec sound₁ below readable₁) (fun _ _ => id) nofun) fun r m₂ done => ?_)
    have states (t : Tables) (same' : ∀ q, q ≠ np → t.proc q = s₁.tables.proc q) (x : Proc) (still : x.state = .UNUSED) (q : Pid) :
        ((t.setProc np x).proc q).state = (s.tables.proc q).state := by
      rcases eq_or_ne q np with rfl | other
      · rw [setProc_self,still,unused]
      · rw [setProc_other _ other,same' q other,(others q other).1]
    cases r with
    | none =>
      obtain ⟨n,fails,_,result⟩ := done
      dsimp only
      rw [stack,post_bind]
      rcases result with ⟨odd,l₂,sound₂,_⟩ | ⟨⟨c,rfl,inside⟩,g',l₂,free',sound₂,_⟩
      · have held : update own g .held g = .held := update_self ..
        refine post_onVm ?_
        rw [sound₂.toGood.post_kfree (by rw [held]; simp)]
        simp only [post_bind,post_modifySpace,post_modifyProc,post_pure]
        refine .inl ⟨trivial,states _ (fun _ _ => rfl) _ rfl,.whole (?_ : Sound k own (g :: l₂) _) (.inr ⟨_,spent.fails fails,?_⟩)⟩
        · have back := sound₂.release held
          rwa [update_idem,← free,update_eq_self] at back
        · intro c
          have := odd c
          omega
      · have other : g' ≠ g := by rintro rfl; simp at free'
        have held : update (update own g .held) g' .held g = .held := by rw [update_of_ne other.symm,update_self]
        refine post_onVm ?_
        rw [sound₂.toGood.post_kfree (by rw [held]; simp)]
        simp only [post_bind,post_modifySpace,post_modifyProc,post_pure]
        rw [update_of_ne other] at free'
        refine .inl ⟨trivial,states _ (fun _ _ => rfl) _ rfl,.lost ⟨np,unused⟩ c inside ?_ free' (?_ : Sound k _ (g :: l₂) _)⟩
        · have first := spent.fails fails
          rwa [show 1 + (66 + 1025 * c) = 67 + 1025 * c by omega] at first
        · have back := sound₂.release held
          rwa [update_comm other,update_idem,← free,update_eq_self] at back
    | some d =>
      obtain ⟨own₂,l₂,_,_,_,_,spent₂⟩ := done
      have enough : 66 + calls (pages (s.space p).sz) ≤ (g :: l₁).length := by
        have := spent.length
        have := spent₂.length
        omega
      dsimp only
      simp only [post_bind,post_modifySpace]
      refine post_use (Q := fun _ _ => True) ?_ fun _ s₃ _ => ?_
      · unfold post
        split
        · trivial
        · exact enough
      · simp only [post_modifyProc,post_pure]
        exact .inr ⟨by omega,enough⟩

/-- A `fork` that fails gives back every page and takes no slot of the process table, exactly if the first call of `kalloc` that
    fails is not for a page table of the child's user part, the page before which has been copied already. -/
theorem fork_gives_back (sound : Sound k own l s.vm) (below : (s.space p).sz < KERNBASE)
    (present : ∀ v < PGROUNDUP (s.space p).sz, has (entry s.vm.mem (s.space p).pgdir v) PTE_P = true)
    (used : own (s.space p).pgdir ≠ .free ∧ ∀ v < PGROUNDUP (s.space p).sz,
      own (PTE_ADDR (word s.vm.mem (s.space p).pgdir (v / 1024))) ≠ .free ∧
        own (PTE_ADDR (entry s.vm.mem (s.space p).pgdir v)) ≠ .free)
    (alive : (s.tables.proc p).state ≠ .UNUSED) (ran : fork k p s = .ok (-1,s')) :
    ((∃ l', FreeList s'.vm.mem s'.vm.freelist l' ∧ ∀ g, g ∈ l' ↔ g ∈ l) ∧
      ∀ q, (s'.tables.proc q).state ≠ .UNUSED → (s.tables.proc q).state ≠ .UNUSED) ↔
    ((∃ q, (s.tables.proc q).state = .UNUSED) → ∀ c, 1024 * c < PGROUNDUP (s.space p).sz → ¬Fails (67 + 1025 * c) l s.vm) := by
  rw [PGROUNDUP_eq _ (by simp only [KERNBASE] at below; omega)] at present used ⊢
  have runs := fork_spec sound below ⟨used.1,present,fun v inside => (used.2 v inside).1,fun v inside => (used.2 v inside).2⟩ alive
  unfold post at runs
  rw [ran] at runs
  rcases runs with ⟨_,states,result⟩ | ⟨other,_⟩
  · cases result with
    | @whole l' sound' why =>
      refine ⟨fun _ spare c _ fails => ?_,fun _ => ⟨⟨l',sound'.free,fun g => ?_⟩,fun q => by rw [states q]; exact id⟩⟩
      · obtain ⟨q,unused⟩ := spare
        rcases why with none' | ⟨i,first,odd⟩
        · exact none' q unused
        · exact odd c (first.unique fails)
      · rw [sound'.listed,sound.listed]
    | @lost l' g slot c inside fails free sound' =>
      refine ⟨fun back => ?_,fun spared => absurd fails (spared slot c inside)⟩
      obtain ⟨⟨l₂,list,same⟩,_⟩ := back
      have low {own : Nat → Owner} {l : List Nat} {m : Mach} (sound : Sound k own l m) (g : Nat) (member : g ∈ l) : g < 57344 :=
        (sound.range g (by simp [(sound.listed g).mp member])).2
      have all := list.unique sound'.free (fun g member => low sound g ((same g).mp member)) (low sound')
      have lost := (sound'.listed g).mp (all ▸ (same g).mpr ((sound.listed g).mpr free))
      simp at lost
  · exact absurd rfl other

/-- One page of a process, and so many free ones. -/
def freePages (f : Nat) (most : f ≤ 50000) : Laid := ⟨1,4096,f,fun _ _ => 7,Laid.low_4096,by omega⟩

section

variable {f : Nat} {most : f ≤ 50000}

theorem freePages_readable : Readable (fun g => (freePages f most).own g ≠ .free) 1024 (pages 4096) ((freePages f most).mach link).mem :=
  Laid.readable rfl

theorem fork_fails (few : f < 68) :
    ∃ s', fork link 0 ((freePages f most).sys link 4096) = .ok (-1,s') ∧
      Unforked link (pages 4096) (freePages f most).own (freePages f most).free ((freePages f most).sys link 4096) s' := by
  have below : 4096 < KERNBASE := by decide
  have runs := fork_spec (p := 0) (s := (freePages f most).sys link 4096) (freePages f most).sound below freePages_readable nofun
  have length : (freePages f most).free.length = f := List.length_range'
  have enough : 66 + calls (pages 4096) = 68 := by decide
  rw [length] at runs
  obtain ⟨r,s',ran,result⟩ := post_returns (post_mono runs (fun _ _ => id) fun _ more => by
    change 66 + calls (pages 4096) ≤ f at more
    omega)
  rcases result with ⟨rfl,_,result⟩ | ⟨_,more⟩
  · exact ⟨s',ran,result⟩
  · change 66 + calls (pages 4096) ≤ f at more
    omega

end

theorem fork_gives_back_ten : ∃ s' l', fork link 0 ((freePages 10 (by decide)).sys link 4096) = .ok (-1,s') ∧
    FreeList s'.vm.mem s'.vm.freelist l' ∧ ∀ g, g ∈ l' ↔ g ∈ (freePages 10 (by decide)).free := by
  obtain ⟨s',ran,_⟩ := @fork_fails 10 (by decide) (by decide)
  have readable := @freePages_readable 10 (by decide)
  have below : 4096 < KERNBASE := by decide
  have count : PGROUNDUP 4096 = pages 4096 := by decide
  obtain ⟨⟨l',list,same⟩,_⟩ := (fork_gives_back (p := 0) (s := (freePages 10 (by decide)).sys link 4096) (freePages 10 (by decide)).sound below
    (fun v inside => readable.present v (count ▸ inside))
    ⟨readable.root,fun v inside => ⟨readable.table v (count ▸ inside),readable.page v (count ▸ inside)⟩⟩ nofun ran).mpr
    fun _ c _ fails => by have : 67 + 1025 * c = 10 := Laid.fails fails; omega
  exact ⟨s',l',ran,list,same⟩

/-- With 67 free pages there is none for the page table of the child's first page, and the copy of that page is lost. -/
theorem fork_loses_page : ∃ s' l', fork link 0 ((freePages 67 (by decide)).sys link 4096) = .ok (-1,s') ∧
    FreeList s'.vm.mem s'.vm.freelist l' ∧ ∃ g ∈ (freePages 67 (by decide)).free, g ∉ l' := by
  obtain ⟨s',ran,result⟩ := @fork_fails 67 (by decide) (by decide)
  cases result with
  | whole sound why =>
    rcases why with none' | ⟨i,fails,odd⟩
    · exact absurd rfl (none' 1)
    · exact absurd (Laid.fails fails) (odd 0)
  | @lost l' g slot c inside fails free sound =>
    have before := (freePages 67 (by decide)).sound (k := link)
    refine ⟨s',l',ran,sound.free,g,(before.listed g).mpr free,fun member => ?_⟩
    have owner := (sound.listed g).mp member
    simp at owner

end Xv6.Vm
