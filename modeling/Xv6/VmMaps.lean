import Xv6.VmSpecs

/-!
Mapping pages. A page that is mapped comes from the free list, and so does the page table that may be missing; when
either cannot be had, `allocuvm` frees what it has mapped and the address space is as before.
-/
namespace Xv6.Vm
open Xv6.Lib Function

variable {k : Link} {own own' own₂ : Nat → Owner} {l l' l₂ : List Nat} {m m' m₂ : Mach} {d g t : Nat} {E : String → Prop}

/-! ### Pages that are not in a directory -/

theorem Sound.retag (sound : Sound k own l m) {o : Owner} (good : Good k (update own g o) l' m') (before : own g = .free ∨ own g = .held)
    (after : o = .free ∨ o = .held ∨ o = .dir ∧ m'.mem g = fun _ => 0) (same : ∀ h, h ≠ g → m'.mem h = m.mem h) :
    Sound k (update own g o) l' m' := by
  have notDir : ∀ e, own e = .dir → e ≠ g := by
    rintro e root rfl
    rcases before with owner | owner <;> simp [owner] at root
  have old : ∀ h, (∃ e i, update own g o h = .tab e i) ∨ (∃ e i j, update own g o h = .user e i j) → h ≠ g := by
    rintro h here rfl
    rw [update_self] at here
    rcases after with rfl | rfl | ⟨rfl,_⟩ <;> simp at here
  refine ⟨good,fun h e i owner => ?_,fun h e i j owner => ?_,fun e root => ?_⟩
  · rw [update_of_ne (old h (.inl ⟨e,i,owner⟩))] at owner
    have root := sound.tab h e i owner
    rwa [update_of_ne (notDir e root)]
  · rw [update_of_ne (old h (.inr ⟨e,i,j,owner⟩))] at owner
    have root := sound.user h e i j owner
    rwa [update_of_ne (notDir e root)]
  · rcases eq_or_ne e g with rfl | other
    · refine ⟨fun h i owner => ?_,fun h i j owner => ?_⟩
      · rw [update_of_ne (old h (.inl ⟨e,i,owner⟩))] at owner
        exact absurd rfl (notDir e (sound.tab h e i owner))
      · rw [update_of_ne (old h (.inr ⟨e,i,j,owner⟩))] at owner
        exact absurd rfl (notDir e (sound.user h e i j owner))
    · rw [update_of_ne other] at root
      have tidy := sound.tidy e root
      refine ⟨fun h i owner => ?_,fun h i j owner => ?_⟩
      · rw [update_of_ne (old h (.inl ⟨e,i,owner⟩))] at owner
        rw [word_congr (same e other)]
        exact tidy.tab h i owner
      · rw [update_of_ne (old h (.inr ⟨e,i,j,owner⟩))] at owner
        obtain ⟨low,index,present,addr⟩ := tidy.user h i j owner
        rw [sound.toGood.entry_congr root (same e other) (fun h i tab => same h ?_) (by omega)]
        · exact ⟨low,index,present,addr⟩
        · rintro rfl
          rcases before with owner | owner <;> simp [owner] at tab

theorem Sound.next (sound : Sound k own l m) : Sound k own l m.next := ⟨sound.toGood.next,sound.tab,sound.user,sound.tidy⟩

theorem Sound.hold (sound : Sound k own (g :: l) m) (page : Bytes PGSIZE) :
    Sound k (update own g .held) l { m.next with freelist := word m.mem g 0, mem := update m.mem g page } :=
  sound.retag (sound.toGood.taken.write page (by simp)) (.inl ((sound.listed g).mp List.mem_cons_self)) (.inr (.inl rfl))
    fun _ other => update_of_ne other ..

theorem Sound.release (sound : Sound k own l m) (held : own g = .held) : Sound k (update own g .free) (g :: l) (freed m g) := by
  refine sound.retag (sound.toGood.freed (by simp [held]) fun e root i inside => ?_) (.inr held) (.inl rfl) fun h other => freed_other m other
  exact (sound.dir e root i inside).reown (held ▸ Owner.plain_held) fun _ _ => rfl

theorem Spent.refill {n : Nat} (spent : Spent n l m l' m') (mem : Nat → Bytes PGSIZE) : Spent n l m l' { m' with mem := mem } :=
  ⟨spent.length,spent.faults,spent.lucky⟩

/-! ### One page -/

theorem mappages_one (d : Nat) {a : Nat} (small : a < 2 ^ 20) (pa perm : Nat) :
    mappages d (a * PGSIZE) PGSIZE pa perm = mappages_from d perm 1 a pa := by
  have last : (a * PGSIZE + PGSIZE - 1) % 2 ^ 32 / PGSIZE = a := by
    rw [PGSIZE_eq]
    omega
  have first : a * PGSIZE / PGSIZE = a := Nat.mul_div_cancel _ (by decide)
  unfold mappages
  dsimp only
  rw [last,first,show (a + 2 ^ 20 - a) % 2 ^ 20 = 0 by omega]

/-- A page of the free list has been mapped. -/
structure Placed (k : Link) (d a perm : Nat) (page : Bytes PGSIZE) (own : Nat → Owner) (l : List Nat) (m : Mach) (own' : Nat → Owner)
    (l' : List Nat) (m' : Mach) : Prop where
  work : Work k d own m own' l' m'
  kept : ∀ h, own h ≠ .free → own' h = own h
  views : ∀ v < 2 ^ 19, v ≠ a → view m'.mem d v = view m.mem d v
  new : ∃ g, own g = .free ∧ view m'.mem d a = some (pte g (perm ||| PTE_P),page) ∧ g < 2 ^ 20
  kernel : ∀ v, 2 ^ 19 ≤ v → v < 2 ^ 20 → entry m'.mem d v = entry m.mem d v
  pdes : ∀ i, word m'.mem d i ≠ 0 ↔ word m.mem d i ≠ 0 ∨ i = a / 1024
  spent : Spent (1 + if word m.mem d (a / 1024) = 0 then 1 else 0) l m l' m'

theorem Placed.keeps {a perm : Nat} {page : Bytes PGSIZE} (placed : Placed k d a perm page own l m own' l' m')
    (kept : ∀ h, own' h ≠ .free → own₂ h = own' h) (h : Nat) (used : own h ≠ .free) : own₂ h = own h := by
  have same := placed.kept h used
  exact (kept h (by rwa [same])).trans same

theorem Mapped.tables {a : Nat} {w : UInt32} (mapped : Mapped k d a w own l m own' l' m') (i : Nat) :
    word m'.mem d i ≠ 0 ↔ word m.mem d i ≠ 0 ∨ i = a / 1024 := by
  rcases eq_or_ne i (a / 1024) with rfl | other
  · simp [mapped.table]
  · rcases mapped.pdes i with same | ⟨here,_⟩
    · simp [same,other]
    · exact absurd here other

theorem Mapped.tab {a : Nat} {w : UInt32} (mapped : Mapped k d a w own l m own' l' m') (small : a < 2 ^ 20)
    (tidy : ∀ g i, own g = .tab d i → i < 1024 ∧ word m.mem d i = pte g 7) {h i : Nat} (owner : own' h = .tab d i) :
    i < 1024 ∧ word m'.mem d i = pte h 7 := by
  by_cases free : own h = .free
  · rcases mapped.taken h free with free' | ⟨owner',pde⟩
    · rw [free'] at owner; cases owner
    · obtain rfl : a / 1024 = i := by simpa [owner'] using owner
      exact ⟨by omega,pde⟩
  · have kept := mapped.kept h free
    rw [kept] at owner
    obtain ⟨inside,pde⟩ := tidy h i owner
    refine ⟨inside,?_⟩
    rcases mapped.pdes i with same | ⟨_,zero⟩
    · exact same.trans pde
    · have page := mapped.good.small (g := h) (by rw [kept,owner]; simp)
      exact absurd (pde.symm.trans zero) (pte_ne_zero (by omega))

/-- A page that has been taken and filled is mapped, or there is no page for the table. -/
theorem Sound.place (sound : Sound k own (g :: l) m) (dir : own d = .dir) {a perm : Nat} (user : a < 2 ^ 19)
    (absent : view m.mem d a = none) (low : perm < PGSIZE) (page : Bytes PGSIZE)
    (spent : Spent 1 (g :: l) m l { m.next with freelist := word m.mem g 0 }) {Q : Bool → Mach → Prop}
    (fails : Fails 1 (g :: l) m → word m.mem d (a / 1024) = 0 →
      Q false { m.next with freelist := word m.mem g 0, mem := update m.mem g page }.next)
    (placed : ∀ own' l' m', Placed k d a perm page own (g :: l) m own' l' m' → Q true m') :
    post (mappages d (a * PGSIZE) PGSIZE g perm) Q E
      { m.next with freelist := word m.mem g 0, mem := update m.mem g page } := by
  have free : own g = .free := (sound.listed g).mp List.mem_cons_self
  have notDir : d ≠ g := by rintro rfl; simp [free] at dir
  have small := sound.toGood.small (g := g) (by simp [free])
  have tidy := sound.tidy d dir
  have held := sound.hold page
  have tagged := held.toGood.retag (g := g) (o := .user d (a / 1024) (a % 1024)) (by simp [Owner.Plain]) (by simp)
  rw [update_idem] at tagged
  have rootWord (i : Nat) : word (update m.mem g page) d i = word m.mem d i := word_congr (update_of_ne notDir ..) i
  have entries (v : Nat) (inside : v < 2 ^ 20) : entry (update m.mem g page) d v = entry m.mem d v := by
    refine sound.toGood.entry_congr dir (update_of_ne notDir ..) (fun h i tab => update_of_ne ?_ ..) inside
    rintro rfl
    simp [free] at tab
  have vacant : has (entry m.mem d a) PTE_P = false := by
    rw [← isSome_view,absent]; rfl
  rw [mappages_one d (by omega)]
  refine mappages_cases tagged (by rwa [update_of_ne notDir]) (by omega)
    (.lor_P (by omega) low (by omega) (update_self ..)) (fun none' empty => ?_) (fun present => ?_) fun own' l' m' mapped => ?_
  · dsimp only at empty
    rw [rootWord] at empty
    exact fails ((spent.refill _).fails none') empty
  · dsimp only at present
    rw [entries a (by omega),vacant] at present
    cases present
  · refine placed own' l' m' ?_
    have addr : PTE_ADDR (pte g (perm ||| PTE_P)) = g := addr_pte (by omega) (lor_P_lt low)
    have kept (h : Nat) (used : own h ≠ .free) : own' h = own h := by
      have other : h ≠ g := by rintro rfl; exact used free
      have same := mapped.kept h (by rwa [update_of_ne other])
      rwa [update_of_ne other] at same
    have mine : own' g = .user d (a / 1024) (a % 1024) := by
      have same := mapped.kept g (by rw [update_self]; simp)
      rwa [update_self] at same
    have pages (h : Nat) (used : own h ≠ .free) (root : h ≠ d) (tab : ∀ i, own h ≠ .tab d i) : m'.mem h = m.mem h := by
      have other : h ≠ g := by rintro rfl; exact used free
      have same := mapped.pages h (by rwa [update_of_ne other]) root (by rwa [update_of_ne other])
      exact same.trans (update_of_ne other ..)
    have filled : m'.mem g = page := by
      have same := mapped.pages g (by rw [update_self]; simp) notDir.symm (by rw [update_self]; simp)
      exact same.trans (update_self ..)
    have taken (h : Nat) (here : own h = .free) (other : h ≠ g) : own' h = .free ∨ own' h = .tab d (a / 1024) :=
      (mapped.taken h (by rwa [update_of_ne other])).imp_right fun both => both.1
    have after (v : Nat) (inside : v < 2 ^ 20) :
        entry m'.mem d v = if v = a then pte g (perm ||| PTE_P) else entry m.mem d v := by
      rw [mapped.entries v inside,entries v inside]
    have tab' : ∀ h i, update own g (.user d (a / 1024) (a % 1024)) h = .tab d i →
        i < 1024 ∧ word (update m.mem g page) d i = pte h 7 := by
      intro h i owner
      have other : h ≠ g := by rintro rfl; simp at owner
      rw [update_of_ne other] at owner
      rw [rootWord]
      exact tidy.tab h i owner
    have tidy' : Tidy own' m'.mem d := by
      refine ⟨fun h i owner => mapped.tab (by omega) tab' owner,fun h i j owner => ?_⟩
      rcases eq_or_ne h g with rfl | other
      · obtain ⟨rfl,rfl⟩ : a / 1024 = i ∧ a % 1024 = j := by simpa [mine] using owner
        rw [show 1024 * (a / 1024) + a % 1024 = a by omega,after a (by omega),if_pos rfl]
        exact ⟨by omega,by omega,has_lor_P (by omega) low,addr⟩
      · have used : own h ≠ .free := by
          intro free'
          rcases taken h free' other with here | here <;> simp [here] at owner
        rw [kept h used] at owner
        obtain ⟨low,index,present,here⟩ := tidy.user h i j owner
        have elsewhere : 1024 * i + j ≠ a := by
          rintro rfl
          rw [vacant] at present
          cases present
        rw [after _ (by omega),if_neg elsewhere]
        exact ⟨low,index,present,here⟩
    have work : Work k d own m own' l' m' := by
      refine .of sound mapped.good ((kept d (by simp [dir])).trans dir) (fun h used other => ⟨kept h used,pages h used ?_ ?_⟩)
        (fun h here => ?_) tidy'
      · rintro rfl; exact other (of_dir dir)
      · exact fun i tab => other (of_tab tab)
      · rcases eq_or_ne h g with rfl | other
        · exact .inr (of_user mine)
        · by_cases free' : own h = .free
          · exact (taken h free' other).imp_right of_tab
          · rw [Of.congr (kept h free')]
            exact .inr (here.resolve_left free')
    refine ⟨work,kept,fun v user' other => ?_,⟨g,free,?_,by omega⟩,fun v kernel inside => ?_,fun i => ?_,?_⟩
    · have same : entry m'.mem d v = entry m.mem d v := (after v (by omega)).trans (if_neg other)
      refine view_congr same fun present => ?_
      have owner := sound.toGood.user_page dir user' present
      refine pages _ (by simp [owner]) (fun root => ?_) (by simp [owner])
      rw [root,dir] at owner
      cases owner
    · have here : entry m'.mem d a = pte g (perm ||| PTE_P) := (after a (by omega)).trans (if_pos rfl)
      rw [view,here,has_lor_P (by omega) low,addr,filled]
      rfl
    · exact (after v inside).trans (if_neg (by omega))
    · rw [mapped.tables i]
      exact or_congr_left (not_congr (by rw [rootWord]))
    · have rest := mapped.spent
      dsimp only at rest
      rw [rootWord] at rest
      exact (spent.refill _).trans rest

/-! ### `allocuvm` -/

/-- Pages of zeros have been mapped between two virtual pages. -/
structure Grown (k : Link) (d lo hi : Nat) (own : Nat → Owner) (m : Mach) (own' : Nat → Owner) (l' : List Nat) (m' : Mach) : Prop where
  work : Work k d own m own' l' m'
  kept : ∀ h, own h ≠ .free → own' h = own h
  views : ∀ v < 2 ^ 19, ¬(lo ≤ v ∧ v < hi) → view m'.mem d v = view m.mem d v
  new : ∀ v, lo ≤ v → v < hi → ∃ g, own g = .free ∧ g < 2 ^ 20 ∧ view m'.mem d v = some (pte g 7,fun _ => 0)
  kernel : ∀ v, 2 ^ 19 ≤ v → v < 2 ^ 20 → entry m'.mem d v = entry m.mem d v
  pdes : ∀ i, 512 ≤ i → (word m'.mem d i ≠ 0 ↔ word m.mem d i ≠ 0)

/-- The pages from `lo` on have been mapped, or the address space is as it was with those from `old` on unmapped. -/
def Allocated (k : Link) (d old lo hi : Nat) (own : Nat → Owner) (l : List Nat) (m : Mach) : Bool → Mach → Prop
  | true,m' => ∃ own' l', Grown k d lo hi own m own' l' m' ∧ ∃ n ≤ 2 * (hi - lo), Spent n l m l' m'
  | false,m' => (∃ own' l', Work k d own m own' l' m' ∧
      (∀ v < 2 ^ 19, view m'.mem d v = if old ≤ v ∧ v < hi then none else view m.mem d v) ∧
      ∀ v, 2 ^ 19 ≤ v → v < 2 ^ 20 → entry m'.mem d v = entry m.mem d v) ∧ ∃ n < 2 * (hi - lo), Fails n l m

theorem Work.next (sound : Sound k own l m) (dir : own d = .dir) : Work k d own m own l m.next :=
  ⟨sound.next,dir,fun _ _ _ => ⟨rfl,rfl⟩,fun _ => id⟩

theorem Good.entry_same (good : Good k own l m) (dir : own d = .dir) {mem : Nat → Bytes PGSIZE}
    (same : ∀ h, Of d own h → mem h = m.mem h) {v : Nat} (small : v < 2 ^ 20) : Vm.entry mem d v = Vm.entry m.mem d v :=
  good.entry_congr dir (same d (of_dir dir)) (fun h _ tab => same h (of_tab tab)) small

theorem Good.view_same (good : Good k own l m) (dir : own d = .dir) {mem : Nat → Bytes PGSIZE}
    (same : ∀ h, Of d own h → mem h = m.mem h) {v : Nat} (user : v < 2 ^ 19) : view mem d v = view m.mem d v :=
  view_congr (good.entry_same dir same (by omega)) fun present => same _ (of_user (good.user_page dir user present))

theorem Work.borrow (free : own g = .free) (dir : own d = .dir) (same : ∀ h, h ≠ g → m'.mem h = m.mem h)
    (work : Work k d (update own g .held) m' own₂ l₂ m₂) :
    Work k d own m (update own₂ g .free) (g :: l₂) (freed m₂ g) ∧ own₂ g = .held ∧
      (∀ v < 2 ^ 19, view (freed m₂ g).mem d v = view m₂.mem d v) ∧
      ∀ v < 2 ^ 20, entry (freed m₂ g).mem d v = entry m₂.mem d v := by
  have notDir : d ≠ g := by rintro rfl; simp [free] at dir
  have held : own₂ g = .held := by
    have kept := work.only g (by simp) (by simpa [Of] using notDir.symm)
    rw [update_self] at kept
    exact kept.1
  have other : ∀ h, Of d own₂ h → h ≠ g := by
    rintro h mine rfl
    simp only [Of,held] at mine
    exact notDir mine.symm
  have apart : ∀ h, Of d own₂ h → (freed m₂ g).mem h = m₂.mem h := fun h mine => freed_other m₂ (other h mine)
  have after := work.sound.release held
  have good₂ := work.sound.toGood
  refine ⟨⟨after,(update_of_ne notDir ..).trans work.dir,fun h used mine => ?_,fun h here => ?_⟩,held,
    fun v user => good₂.view_same work.dir apart user,fun v small => good₂.entry_same work.dir apart small⟩
  · have apart : h ≠ g := by rintro rfl; exact used free
    have kept := work.only h (by rwa [update_of_ne apart]) (by rwa [Of.congr (update_of_ne apart ..)])
    rw [update_of_ne apart] at kept
    exact ⟨(update_of_ne apart ..).trans kept.1,(freed_other m₂ apart).trans (kept.2.trans (same h apart))⟩
  · rcases eq_or_ne h g with rfl | apart
    · exact .inl (update_self ..)
    · have kept := work.back h (by rwa [Of.congr (update_of_ne apart ..),update_of_ne apart])
      rwa [Of.congr (update_of_ne apart ..),update_of_ne apart]

theorem allocuvm_from_spec {oldsz newsz : Nat} (below : newsz < KERNBASE) (fuel : Nat) :
    ∀ {a : Nat} {own : Nat → Owner} {l : List Nat} {m : Mach}, Sound k own l m → own d = .dir → pages oldsz ≤ a →
      pages newsz ≤ a + fuel → (∀ v, a ≤ v → v < pages newsz → view m.mem d v = none) →
      post (allocuvm_from k d oldsz newsz fuel a) (Allocated k d (pages oldsz) a (pages newsz) own l m) E m := by
  have last := pages_user (Nat.le_of_lt below)
  have stay {a : Nat} {own : Nat → Owner} {l : List Nat} {m : Mach} (sound : Sound k own l m) (dir : own d = .dir)
      (done : pages newsz ≤ a) : Allocated k d (pages oldsz) a (pages newsz) own l m true m :=
    ⟨own,l,⟨.refl sound dir,fun _ _ => rfl,fun _ _ _ => rfl,fun v low high => by omega,fun _ _ _ => rfl,fun _ _ => Iff.rfl⟩,
      0,Nat.zero_le _,.zero l m⟩
  induction fuel with
  | zero => exact fun sound dir _ enough _ => stay sound dir enough
  | succ fuel ih =>
    intro a own l m sound dir old enough vacant
    rw [allocuvm_from]
    split
    · next more =>
      rw [← lt_pages] at more
      rw [post_bind]
      refine kalloc_cases sound.toGood (fun none' => ?_) fun g l' list free spent => ?_
      · rw [post_bind]
        refine post_use (deallocuvm_spec sound.next dir (Nat.le_of_lt below)) fun _ m' ⟨_,own',l',cut⟩ => ?_
        exact ⟨⟨own',l',(Work.next sound dir).trans cut.work,cut.views,cut.kernel⟩,0,by omega,none'⟩
      · subst list
        rw [post_bind,post_memset,post_bind]
        refine sound.place dir (by omega) (vacant a (le_refl _) more) (by decide) (fun _ => 0) spent (fun none' _ => ?_)
          fun own' l₁ m₁ placed => ?_
        · have notDir : d ≠ g := by rintro rfl; simp [free] at dir
          have held := (sound.hold fun _ => 0).next
          rw [if_neg (by decide),post_bind]
          refine post_use (deallocuvm_spec held (by rwa [update_of_ne notDir]) (Nat.le_of_lt below)) fun _ m₂ ⟨_,own₂,l₂,cut⟩ => ?_
          obtain ⟨work,owner,views,entries⟩ := Work.borrow (m := m) free dir (fun h other => update_of_ne other ..) cut.work
          rw [post_bind,cut.work.sound.toGood.post_kfree (by simp [owner])]
          have before (v : Nat) (user : v < 2 ^ 19) : view (update m.mem g fun _ => 0) d v = view m.mem d v := by
            refine sound.toGood.view_same dir (fun h mine => update_of_ne ?_ ..) user
            rintro rfl
            simp only [Of,free] at mine
            exact notDir mine.symm
          have kernel (v : Nat) (small : v < 2 ^ 20) : entry (update m.mem g fun _ => 0) d v = entry m.mem d v := by
            refine sound.toGood.entry_same dir (fun h mine => update_of_ne ?_ ..) small
            rintro rfl
            simp only [Of,free] at mine
            exact notDir mine.symm
          refine ⟨⟨_,_,work,fun v user => ?_,fun v high small => ?_⟩,1,by omega,none'⟩
          · rw [views v user,cut.views v user]
            exact if_congr Iff.rfl rfl (before v user)
          · rw [entries v small,cut.kernel v high small]
            exact kernel v small
        · rw [if_pos rfl]
          have more' : (if word m.mem d (a / 1024) = 0 then 1 else 0) ≤ 1 := by split <;> omega
          refine post_use (ih placed.work.sound placed.work.dir (by omega) (by omega) fun v low high => ?_) fun r m' done => ?_
          · rw [placed.views v (by omega) (by omega)]
            exact vacant v (by omega) high
          · obtain ⟨h,free',new,small⟩ := placed.new
            cases r with
            | true =>
              obtain ⟨own₂,l₂,grown,n,few,spent'⟩ := done
              refine ⟨own₂,l₂,⟨placed.work.trans grown.work,placed.keeps grown.kept,fun v user other => ?_,fun v low high => ?_,
                fun v high small => ?_,fun i high => ?_⟩,_,?_,placed.spent.trans spent'⟩
              · rw [grown.views v user (by omega)]
                exact placed.views v user (by omega)
              · rcases eq_or_ne v a with rfl | later
                · refine ⟨h,free',small,?_⟩
                  rw [grown.views v (by omega) (by omega)]
                  exact new
                · obtain ⟨h',free'',small',seen⟩ := grown.new v (by omega) high
                  refine ⟨h',?_,small',seen⟩
                  by_contra used
                  exact used ((placed.kept h' used).symm.trans free'')
              · rw [grown.kernel v high small,placed.kernel v high small]
              · rw [grown.pdes i high,placed.pdes i]
                exact or_iff_left (by omega)
              · omega
            | false =>
              obtain ⟨⟨own₂,l₂,work,views,kernel⟩,n,few,none'⟩ := done
              refine ⟨⟨own₂,l₂,placed.work.trans work,fun v user => ?_,fun v high small => ?_⟩,_,?_,placed.spent.fails none'⟩
              · rw [views v user]
                split
                · rfl
                · exact placed.views v user (by omega)
              · rw [kernel v high small,placed.kernel v high small]
              · omega
    · next less =>
      rw [← lt_pages] at less
      exact stay sound dir (by omega)

theorem allocuvm_spec (sound : Sound k own l m) (dir : own d = .dir) {oldsz newsz : Nat} (below : oldsz ≤ KERNBASE)
    (vacant : ∀ v < 2 ^ 19, pages oldsz ≤ v → view m.mem d v = none) :
    post (allocuvm k d oldsz newsz) (fun r m' => KERNBASE ≤ newsz ∧ r = 0 ∧ m' = m ∨
      newsz < KERNBASE ∧ newsz < oldsz ∧ r = oldsz ∧ m' = m ∨
      newsz < KERNBASE ∧ oldsz ≤ newsz ∧ ∃ done, r = (if done then newsz else 0) ∧
        Allocated k d (pages oldsz) (pages oldsz) (pages newsz) own l m done m') E m := by
  have base : KERNBASE + 4095 < 2 ^ 32 := by decide
  unfold allocuvm
  split
  · next high => exact .inl ⟨high,rfl,rfl⟩
  · next low =>
    split
    · next less => exact .inr (.inl ⟨by omega,less,rfl,rfl⟩)
    · next more =>
      rw [post_bind,PGROUNDUP_eq _ (by omega)]
      have last := pages_user (show newsz ≤ KERNBASE by omega)
      have enough : pages newsz ≤ pages oldsz + (newsz / PGSIZE + 1 - pages oldsz) := by
        simp only [pages,PGSIZE_eq]
        omega
      refine post_use (allocuvm_from_spec (by omega) _ sound dir (le_refl _) enough fun v low high => vacant v (by omega) low)
        fun done m' result => ?_
      refine post_use (Q := fun r m'' => r = (if done then newsz else 0) ∧ m'' = m') (by cases done <;> exact ⟨rfl,rfl⟩) ?_
      rintro r m'' ⟨rfl,rfl⟩
      exact .inr (.inr ⟨by omega,by omega,done,rfl,result⟩)

/-! ### The kernel's part -/

/-- The number of pages of an entry of `kmap`. -/
def Kmap.count (e : Kmap) : Nat := (e.phys_end + 2 ^ 32 - e.phys_start) % 2 ^ 32 / PGSIZE

/-- The virtual page is one of the entry. -/
def Kmap.Covers (e : Kmap) (v : Nat) : Prop := e.virt / PGSIZE ≤ v ∧ v < e.virt / PGSIZE + e.count

instance (e : Kmap) (v : Nat) : Decidable (e.Covers v) := inferInstanceAs (Decidable (_ ∧ _))

/-- What the entry puts into the page tables for a virtual page that it covers. -/
def Kmap.pte (e : Kmap) (v : Nat) : UInt32 := Vm.pte (e.phys_start / PGSIZE + (v - e.virt / PGSIZE)) (e.perm ||| PTE_P)

/-- The page-table entry that the table has for a virtual page. -/
def kmapEntry (es : List Kmap) (v : Nat) : UInt32 := match es.find? fun e => e.Covers v with
  | some e => e.pte v
  | none => 0

/-- The entry is for whole pages of the kernel's part, which users cannot access. -/
structure Kmap.Ok (e : Kmap) : Prop where
  virt : e.virt % PGSIZE = 0
  size : (e.phys_end + 2 ^ 32 - e.phys_start) % 2 ^ 32 = e.count * PGSIZE
  some : 0 < e.count
  low : 2 ^ 19 ≤ e.virt / PGSIZE
  high : e.virt / PGSIZE + e.count ≤ 2 ^ 20
  phys : e.phys_start / PGSIZE + e.count ≤ 2 ^ 20
  perm : e.perm = 0 ∨ e.perm = PTE_W

/-- Pages of the kernel's part have been mapped, or there was no page for a table. -/
def Kernel (k : Link) (d : Nat) (new : Nat → Prop) (entries : Nat → UInt32) (own : Nat → Owner) (l : List Nat) (m : Mach) :
    Bool → Mach → Prop
  | true,m' => ∃ own' l', Work k d own m own' l' m' ∧ (∀ h, own h ≠ .free → own' h = own h) ∧
      (∀ v < 2 ^ 20, entry m'.mem d v = entries v) ∧ (∀ i, word m'.mem d i ≠ 0 ↔ word m.mem d i ≠ 0 ∨ new i) ∧
      ∃ n, Spent n l m l' m' ∧ tables m'.mem d = tables m.mem d + n
  | false,m' => ∃ own' l', Work k d own m own' l' m' ∧ (∀ i, word m'.mem d i ≠ 0 → word m.mem d i ≠ 0 ∨ new i) ∧
      ∃ n, Fails n l m ∧ tables m'.mem d = tables m.mem d + n

theorem Mapped.work {a : Nat} {w : UInt32} (mapped : Mapped k d a w own l m own' l' m') (sound : Sound k own l m) (dir : own d = .dir)
    (kernel : 2 ^ 19 ≤ a) (small : a < 2 ^ 20) : Work k d own m own' l' m' := by
  have tidy := sound.tidy d dir
  refine .of sound mapped.good ((mapped.kept d (by simp [dir])).trans dir) (fun h used other => ⟨mapped.kept h used,mapped.pages h used ?_ ?_⟩)
    (fun h here => ?_) ⟨fun h i owner => mapped.tab small tidy.tab owner,fun h i j owner => ?_⟩
  · rintro rfl; exact other (of_dir dir)
  · exact fun i tab => other (of_tab tab)
  · by_cases free : own h = .free
    · exact (mapped.taken h free).imp_right fun both => of_tab both.1
    · rw [Of.congr (mapped.kept h free)]
      exact .inr (here.resolve_left free)
  · have used : own h ≠ .free := by
      intro free
      rcases mapped.taken h free with here | ⟨here,_⟩ <;> simp [here] at owner
    rw [mapped.kept h used] at owner
    obtain ⟨low,index,present,here⟩ := tidy.user h i j owner
    rw [mapped.entries _ (by omega),if_neg (by omega)]
    exact ⟨low,index,present,here⟩

theorem Spent.tables {n : Nat} (spent : Spent n l m l' m') (sum : l'.length + tables m'.mem d = l.length + tables m.mem d) :
    Vm.tables m'.mem d = Vm.tables m.mem d + n := by
  have := spent.length
  omega

theorem mappages_from_kernel {perm : Nat} (fine : perm = 0 ∨ perm = PTE_W) (n : Nat) :
    ∀ {a pa : Nat} {own : Nat → Owner} {l : List Nat} {m : Mach}, Sound k own l m → own d = .dir → 2 ^ 19 ≤ a → a + n ≤ 2 ^ 20 →
      pa + n ≤ 2 ^ 20 → (∀ v, a ≤ v → v < a + n → has (entry m.mem d v) PTE_P = false) →
      post (mappages_from d perm n a pa) (Kernel k d (fun i => ∃ v, a ≤ v ∧ v < a + n ∧ i = v / 1024)
        (fun v => if a ≤ v ∧ v < a + n then pte (pa + (v - a)) (perm ||| PTE_P) else entry m.mem d v) own l m) E m := by
  have low : perm < PGSIZE := by rcases fine with rfl | rfl <;> decide
  have kernel : perm ||| PTE_P = 1 ∨ perm ||| PTE_P = 3 := by rcases fine with rfl | rfl <;> decide
  induction n with
  | zero =>
    intro a pa own l m sound dir _ _ _ _
    refine ⟨own,l,.refl sound dir,fun _ _ => rfl,fun v _ => ?_,fun i => ?_,0,.zero l m,(Nat.add_zero _).symm⟩
    · dsimp only
      rw [if_neg (by omega)]
    · refine (or_iff_left ?_).symm
      rintro ⟨v,from',to',_⟩
      omega
  | succ n ih =>
    intro a pa own l m sound dir first last physical vacant
    have bare : Pte own d (a / 1024) (a % 1024) (pte pa (perm ||| PTE_P)) := by
      rw [Pte,if_neg (by omega),← Bool.not_eq_true,has_U_iff,flags_pte (by omega) (lor_P_lt low)]
      rcases kernel with one | three <;> omega
    refine mappages_cases sound.toGood dir (by omega) bare (fun none' empty => ?_) (fun present => ?_) fun own₁ l₁ m₁ mapped => ?_
    · exact ⟨own,l,.next sound dir,fun i here => .inl here,0,none',(Nat.add_zero _).symm⟩
    · rw [vacant a (le_refl _) (by omega)] at present
      cases present
    · have work := mapped.work sound dir first (by omega)
      have counted : tables m₁.mem d = tables m.mem d + _ := mapped.spent.tables mapped.sum
      have new (i : Nat) : (word m.mem d i ≠ 0 ∨ i = a / 1024) ∨ (∃ v, a + 1 ≤ v ∧ v < a + 1 + n ∧ i = v / 1024) ↔
          word m.mem d i ≠ 0 ∨ ∃ v, a ≤ v ∧ v < a + (n + 1) ∧ i = v / 1024 := by
        rw [or_assoc]
        refine or_congr_right ⟨?_,?_⟩
        · rintro (here | ⟨v,from',to',index⟩)
          · exact ⟨a,le_refl _,by omega,here⟩
          · exact ⟨v,by omega,by omega,index⟩
        · rintro ⟨v,from',to',index⟩
          rcases eq_or_ne v a with rfl | other
          · exact .inl index
          · exact .inr ⟨v,by omega,by omega,index⟩
      rcases Nat.eq_zero_or_pos n with rfl | more
      · refine ⟨own₁,l₁,work,mapped.kept,fun v inside => ?_,fun i => ?_,_,mapped.spent,counted⟩
        · rw [mapped.entries v inside]
          dsimp only
          rcases eq_or_ne v a with rfl | other
          · rw [if_pos rfl,if_pos (by omega),Nat.sub_self,Nat.add_zero]
          · rw [if_neg other,if_neg (by omega)]
        · rw [mapped.tables i]
          exact (or_iff_left (by rintro ⟨v,from',to',_⟩; omega)).symm.trans (new i)
      · rw [Nat.mod_eq_of_lt (show a + 1 < 2 ^ 20 by omega)]
        refine post_use (ih work.sound work.dir (by omega) (by omega) (by omega) fun v from' to' => ?_) fun r m₂ done => ?_
        · rw [mapped.entries v (by omega),if_neg (by omega)]
          exact vacant v (by omega) (by omega)
        · cases r with
          | true =>
            obtain ⟨own₂,l₂,work₂,kept₂,entries₂,pdes₂,c,spent₂,tables₂⟩ := done
            refine ⟨own₂,l₂,work.trans work₂,fun h used => ?_,fun v inside => ?_,fun i => ?_,_,mapped.spent.trans spent₂,by omega⟩
            · have same := mapped.kept h used
              exact (kept₂ h (by rwa [same])).trans same
            · rw [entries₂ v inside]
              dsimp only
              rw [mapped.entries v inside]
              rcases eq_or_ne v a with rfl | other
              · rw [if_neg (by omega),if_pos rfl,if_pos (by omega),Nat.sub_self,Nat.add_zero]
              · rw [if_neg other]
                by_cases later : a + 1 ≤ v ∧ v < a + 1 + n
                · rw [if_pos later,if_pos (by omega),show pa + 1 + (v - (a + 1)) = pa + (v - a) by omega]
                · rw [if_neg later,if_neg (by omega)]
            · rw [pdes₂ i,mapped.tables i]
              exact new i
          | false =>
            obtain ⟨own₂,l₂,work₂,pdes₂,c,none',tables₂⟩ := done
            refine ⟨own₂,l₂,work.trans work₂,fun i here => ?_,_,mapped.spent.fails none',by omega⟩
            refine (new i).mp ?_
            rw [← mapped.tables i]
            exact pdes₂ i here

theorem Kmap.Ok.mappages {e : Kmap} (ok : e.Ok) (sound : Sound k own l m) (dir : own d = .dir)
    (vacant : ∀ v, e.Covers v → has (entry m.mem d v) PTE_P = false) :
    post (mappages d e.virt ((e.phys_end + 2 ^ 32 - e.phys_start) % 2 ^ 32) (e.phys_start / PGSIZE) e.perm)
      (Kernel k d (fun i => ∃ v, e.Covers v ∧ i = v / 1024) (fun v => if e.Covers v then e.pte v else entry m.mem d v) own l m) E m := by
  obtain ⟨virt,size,some',low,high,phys,perm⟩ := ok
  have last : (e.virt + e.count * PGSIZE - 1) % 2 ^ 32 / PGSIZE = e.virt / PGSIZE + e.count - 1 := by
    rw [PGSIZE_eq] at *
    omega
  rw [size]
  unfold Vm.mappages
  dsimp only
  rw [last,show (e.virt / PGSIZE + e.count - 1 + 2 ^ 20 - e.virt / PGSIZE) % 2 ^ 20 + 1 = e.count by omega]
  refine post_use (mappages_from_kernel perm _ sound dir low high phys fun v from' to' => vacant v ⟨from',to'⟩) fun r m' done => ?_
  have same : (fun i => ∃ v, e.virt / PGSIZE ≤ v ∧ v < e.virt / PGSIZE + e.count ∧ i = v / 1024) =
      fun i => ∃ v, e.Covers v ∧ i = v / 1024 := by
    funext i
    simp only [Kmap.Covers,and_assoc]
  rw [same] at done
  exact done

/-- What is left of a directory that could not be made. -/
def Unmade (k : Link) (d : Nat) (new : Nat → Prop) (own : Nat → Owner) (l : List Nat) (m m' : Mach) : Prop :=
  (∃ own' l', Gone k d own m own' l' m') ∧
    ∃ (n : Nat) (m₁ : Mach), Fails n l m ∧ tables m₁.mem d = tables m.mem d + n ∧ ∀ i, word m₁.mem d i ≠ 0 → word m.mem d i ≠ 0 ∨ new i

theorem setupkvm_from_spec (es : List Kmap) (ok : ∀ e ∈ es, e.Ok) (apart : es.Pairwise fun e f => ∀ v, e.Covers v → ¬f.Covers v) :
    ∀ {own : Nat → Owner} {l : List Nat} {m : Mach}, Sound k own l m → own d = .dir →
      (∀ e ∈ es, ∀ v, e.Covers v → has (entry m.mem d v) PTE_P = false) →
      post (setupkvm_from k d es) (fun r m' => match r with
        | some d' => d' = d ∧ Kernel k d (fun i => ∃ e ∈ es, ∃ v, e.Covers v ∧ i = v / 1024)
          (fun v => match es.find? fun e => e.Covers v with | some e => e.pte v | none => entry m.mem d v) own l m true m'
        | none => Unmade k d (fun i => ∃ e ∈ es, ∃ v, e.Covers v ∧ i = v / 1024) own l m m') E m := by
  induction es with
  | nil =>
    intro own l m sound dir _
    refine ⟨rfl,own,l,.refl sound dir,fun _ _ => rfl,fun _ _ => rfl,fun i => ?_,0,.zero l m,(Nat.add_zero _).symm⟩
    simp
  | cons e rest ih =>
    intro own l m sound dir vacant
    obtain ⟨first,others⟩ := List.pairwise_cons.mp apart
    rw [setupkvm_from,post_bind]
    have here := ok e List.mem_cons_self
    refine post_use (here.mappages sound dir (vacant e List.mem_cons_self)) fun r m₁ done => ?_
    cases r with
    | false =>
      obtain ⟨own₁,l₁,work,pdes,n,none',count⟩ := done
      rw [if_neg (by decide),post_bind]
      refine post_use (freevm_spec work.sound work.dir) fun _ m₂ ⟨own₂,l₂,gone⟩ => ?_
      refine ⟨⟨own₂,l₂,work.gone gone⟩,n,m₁,none',count,fun i some' => (pdes i some').imp_right ?_⟩
      exact fun covered => ⟨e,List.mem_cons_self,covered⟩
    | true =>
      obtain ⟨own₁,l₁,work,kept,entries,pdes,n,spent,count⟩ := done
      dsimp only at entries
      rw [if_pos rfl]
      have later (f : Kmap) (member : f ∈ rest) (v : Nat) (covers : f.Covers v) : v < 2 ^ 20 ∧ ¬e.Covers v := by
        have fine := ok f (List.mem_cons_of_mem _ member)
        have := fine.high
        exact ⟨by have := covers.2; omega,fun both => first f member v both covers⟩
      refine post_use (ih (fun f member => ok f (List.mem_cons_of_mem _ member)) others work.sound work.dir fun f member v covers => ?_)
        fun r m₂ done => ?_
      · obtain ⟨small,other⟩ := later f member v covers
        rw [entries v small,if_neg other]
        exact vacant f (List.mem_cons_of_mem _ member) v covers
      · have new (i : Nat) : (word m.mem d i ≠ 0 ∨ ∃ v, e.Covers v ∧ i = v / 1024) ∨ (∃ f ∈ rest, ∃ v, f.Covers v ∧ i = v / 1024) ↔
            word m.mem d i ≠ 0 ∨ ∃ f ∈ e :: rest, ∃ v, f.Covers v ∧ i = v / 1024 := by
          rw [or_assoc]
          simp only [List.mem_cons,exists_eq_or_imp]
        cases r with
        | none =>
          obtain ⟨⟨own₂,l₂,gone⟩,c,m₃,none',count',pdes'⟩ := done
          refine ⟨⟨own₂,l₂,work.gone gone⟩,_,m₃,spent.fails none',by omega,fun i some' => (new i).mp ?_⟩
          rw [← pdes i]
          exact pdes' i some'
        | some d' =>
          obtain ⟨rfl,own₂,l₂,work₂,kept₂,entries₂,pdes₂,c,spent₂,count₂⟩ := done
          refine ⟨rfl,own₂,l₂,work.trans work₂,fun h used => ?_,fun v small => ?_,fun i => ?_,_,spent.trans spent₂,by omega⟩
          · have same := kept h used
            exact (kept₂ h (by rwa [same])).trans same
          · rw [entries₂ v small]
            dsimp only
            rw [List.find?_cons,entries v small]
            by_cases covers : e.Covers v
            · have nobody : rest.find? (fun f => f.Covers v) = none := by
                rw [List.find?_eq_none]
                intro f member both
                exact first f member v covers (by simpa using both)
              rw [nobody,if_pos covers]
              simp [covers]
            · rw [if_neg covers]
              simp [covers]
          · rw [pdes₂ i,pdes i]
            exact new i

theorem Link.bounds (k : Link) : 256 < k.data ∧ k.data ≤ k.kend ∧ k.kend ≤ 1024 := ⟨k.text,k.order,k.small⟩

theorem kmap_ok (k : Link) : ∀ e ∈ kmap k, e.Ok := by
  have bounds := k.bounds
  intro e member
  simp only [kmap,List.mem_cons,List.not_mem_nil,or_false] at member
  rcases member with rfl | rfl | rfl | rfl <;>
    refine ⟨?_,?_,?_,?_,?_,?_,by simp⟩ <;>
    simp only [Kmap.count,PGSIZE_eq,KERNBASE,EXTMEM,PHYSTOP,DEVSPACE] <;> omega

theorem kmap_apart (k : Link) : (kmap k).Pairwise fun e f => ∀ v, e.Covers v → ¬f.Covers v := by
  have bounds := k.bounds
  simp only [kmap,List.pairwise_cons,List.mem_cons,List.not_mem_nil,or_false,forall_eq_or_imp,forall_eq,Kmap.Covers,Kmap.count,
    PGSIZE_eq,KERNBASE,EXTMEM,PHYSTOP,DEVSPACE]
  refine ⟨⟨?_,?_,?_⟩,⟨?_,?_⟩,?_,?_⟩
  all_goals first | (intro v one two; omega) | simp

theorem kmap_tables (k : Link) (i : Nat) :
    (∃ e ∈ kmap k, ∃ v, e.Covers v ∧ i = v / 1024) ↔ 512 ≤ i ∧ i < 568 ∨ 1016 ≤ i ∧ i < 1024 := by
  have bounds := k.bounds
  simp only [kmap,List.mem_cons,List.not_mem_nil,or_false,exists_eq_or_imp,exists_eq_left,Kmap.Covers,Kmap.count,
    PGSIZE_eq,KERNBASE,EXTMEM,PHYSTOP,DEVSPACE]
  constructor
  · rintro (⟨v,_,rfl⟩ | ⟨v,_,rfl⟩ | ⟨v,_,rfl⟩ | ⟨v,_,rfl⟩) <;> omega
  · rintro (⟨low,high⟩ | ⟨low,high⟩)
    · rcases Nat.eq_or_lt_of_le low with rfl | more
      · exact .inl ⟨2 ^ 19,by omega,by omega⟩
      · exact .inr (.inr (.inl ⟨1024 * i + 1023,by omega,by omega⟩))
    · exact .inr (.inr (.inr ⟨1024 * i,by omega,by omega⟩))

/-- A directory has been made of pages that were free. -/
structure Made (k : Link) (d : Nat) (own : Nat → Owner) (m : Mach) (own' : Nat → Owner) (l' : List Nat) (m' : Mach) : Prop where
  sound : Sound k own' l' m'
  dir : own' d = .dir
  fresh : own d = .free
  only : ∀ g, own g ≠ .free → own' g = own g ∧ m'.mem g = m.mem g ∧ ¬Of d own' g
  back : ∀ g, own g = .free → own' g = .free ∨ Of d own' g

theorem Made.work (made : Made k d own m own' l' m') (work : Work k d own' m' own₂ l₂ m₂) : Made k d own m own₂ l₂ m₂ := by
  refine ⟨work.sound,work.dir,made.fresh,fun g used => ?_,fun g free => work.back g (made.back g free)⟩
  obtain ⟨owner,page,other⟩ := made.only g used
  obtain ⟨owner',page'⟩ := work.only g (by rwa [owner]) other
  exact ⟨owner'.trans owner,page'.trans page,by rwa [Of.congr owner']⟩

theorem Made.gone (made : Made k d own m own' l' m') (gone : Gone k d own' m' own₂ l₂ m₂) :
    Sound k own l₂ m₂ ∧ ∀ g, own g ≠ .free → m₂.mem g = m.mem g := by
  have same : own₂ = own := by
    funext g
    by_cases free : own g = .free
    · rw [free]
      exact gone.gone g (made.back g free)
    · obtain ⟨owner,_,other⟩ := made.only g free
      exact (gone.only g (by rwa [owner]) other).1.trans owner
  refine ⟨same ▸ gone.sound,fun g used => ?_⟩
  obtain ⟨owner,page,other⟩ := made.only g used
  exact (gone.only g (by rwa [owner]) other).2.trans page

/-- What `setupkvm` returns: nothing, and memory is as before, or a directory with the kernel's mappings. -/
theorem setupkvm_spec (sound : Sound k own l m) :
    post (setupkvm k) (fun r m' => match r with
      | none => (∃ l', Sound k own l' m' ∧ ∀ g, own g ≠ .free → m'.mem g = m.mem g) ∧ ∃ n ≤ 65, Fails n l m
      | some d => ∃ own' l', Made k d own m own' l' m' ∧ (∀ v < 2 ^ 19, view m'.mem d v = none) ∧
          (∀ v, 2 ^ 19 ≤ v → v < 2 ^ 20 → entry m'.mem d v = kmapEntry (kmap k) v) ∧
          (∀ i, word m'.mem d i ≠ 0 ↔ 512 ≤ i ∧ i < 568 ∨ 1016 ≤ i ∧ i < 1024) ∧ Spent 65 l m l' m' ∧ l.head? = some d) E m := by
  unfold setupkvm
  rw [post_bind]
  refine kalloc_cases sound.toGood (fun none' => ?_) fun d l' list free spent => ?_
  · exact ⟨⟨l,sound.next,fun _ _ => rfl⟩,0,by omega,none'⟩
  · subst list
    rw [post_bind,post_memset]
    -- the page is a directory without entries
    have held := sound.hold (l := l') (g := d) fun _ => 0
    have spent₀ := spent.refill (update m.mem d fun _ => 0)
    change post (setupkvm_from k d (kmap k)) _ _ { m.next with freelist := word m.mem d 0, mem := update m.mem d fun _ => 0 }
    have memory : ({ m.next with freelist := word m.mem d 0, mem := update m.mem d fun _ => 0 } : Mach).mem =
      update m.mem d fun _ => 0 := rfl
    generalize ({ m.next with freelist := word m.mem d 0, mem := update m.mem d fun _ => 0 } : Mach) = m₀ at *
    have zeros : m₀.mem d = fun _ => 0 := by rw [memory,update_self]
    have new := held.retag (o := .dir) (held.toGood.newDir (update_self ..) zeros) (.inr (update_self ..))
      (.inr (.inr ⟨rfl,zeros⟩)) fun _ _ => rfl
    rw [update_idem] at new
    have bare (v : Nat) : entry m₀.mem d v = 0 := by
      rw [entry,word_zeros zeros]
      simp
    have none' : tables m₀.mem d = 0 := by
      rw [tables,Finset.card_eq_zero,Finset.filter_eq_empty_iff]
      exact fun i _ some' => some' (word_zeros zeros i)
    have made : Made k d own m (update own d .dir) l' m₀ := by
      refine ⟨new,update_self ..,free,fun g used => ?_,fun g free' => ?_⟩
      · have other : g ≠ d := by rintro rfl; exact used free
        refine ⟨update_of_ne other ..,by rw [memory,update_of_ne other],?_⟩
        rw [Of.congr (update_of_ne other ..),Of]
        split
        · next e i owner =>
          rintro rfl
          have root := sound.tab g e i owner
          rw [free] at root
          cases root
        · next e i j owner =>
          rintro rfl
          have root := sound.user g e i j owner
          rw [free] at root
          cases root
        · exact other
      · rcases eq_or_ne g d with rfl | other
        · exact .inr (of_dir (update_self ..))
        · exact .inl ((update_of_ne other ..).trans free')
    have few (mem : Nat → Bytes PGSIZE) (within : ∀ i, word mem d i ≠ 0 → 512 ≤ i ∧ i < 568 ∨ 1016 ≤ i ∧ i < 1024) :
        (Finset.range 1024).filter (fun i => word mem d i ≠ 0) ⊆ Finset.Ico 512 568 ∪ Finset.Ico 1016 1024 := by
      intro i member
      rw [Finset.mem_filter] at member
      simpa using within i member.2
    have count : (Finset.Ico 512 568 ∪ Finset.Ico 1016 1024).card = 64 := by
      rw [Finset.card_union_of_disjoint,Nat.card_Ico,Nat.card_Ico]
      rw [Finset.disjoint_left]
      intro i one two
      rw [Finset.mem_Ico] at one two
      omega
    refine post_use (setupkvm_from_spec (kmap k) (kmap_ok k) (kmap_apart k) new (update_self ..) fun e _ v _ => ?_) fun r m' done => ?_
    · rw [bare]
      simp
    · cases r with
      | none =>
        obtain ⟨⟨own₂,l₂,gone⟩,n,m₁,fails,sum,pdes⟩ := done
        refine ⟨⟨l₂,made.gone gone⟩,1 + n,?_,spent₀.fails fails⟩
        have most := Finset.card_le_card (few m₁.mem fun i some' => ?_)
        · rw [count] at most
          change tables m₁.mem d ≤ 64 at most
          omega
        · refine (kmap_tables k i).mp ((pdes i some').resolve_left ?_)
          exact not_not.mpr (word_zeros zeros i)
      | some d' =>
        obtain ⟨rfl,own₂,l₂,work,kept,entries,pdes,n,spent',sum⟩ := done
        dsimp only at entries pdes
        have tabs (i : Nat) : word m'.mem d' i ≠ 0 ↔ 512 ≤ i ∧ i < 568 ∨ 1016 ≤ i ∧ i < 1024 := by
          rw [pdes i,kmap_tables]
          exact or_iff_right (not_not.mpr (word_zeros zeros i))
        have empty (i : Nat) (low : i < 512) : word m'.mem d' i = 0 := by
          by_contra some'
          have := (tabs i).mp some'
          omega
        refine ⟨own₂,l₂,made.work work,fun v user => ?_,fun v _ small => ?_,tabs,?_,rfl⟩
        · refine view_absent ?_
          rw [entry,empty (v / 1024) (by omega)]
          simp
        · rw [entries v small,bare]
          rfl
        · have all : (Finset.range 1024).filter (fun i => word m'.mem d' i ≠ 0) = Finset.Ico 512 568 ∪ Finset.Ico 1016 1024 := by
            refine Finset.Subset.antisymm (few m'.mem fun i => (tabs i).mp) fun i member => ?_
            rw [Finset.mem_filter,tabs,Finset.mem_range]
            simp only [Finset.mem_union,Finset.mem_Ico] at member
            exact ⟨by omega,member⟩
          have total : tables m'.mem d' = 64 := by rw [tables,all,count]
          obtain rfl : n = 64 := by omega
          exact spent₀.trans spent'

end Xv6.Vm
