import Xv6.VmOwners

/-!
What the functions of `vm.c` do to one page directory. A state of memory is sound if every page that a directory owns
is found in it, and every page found in it is owned by it.
-/
namespace Xv6.Vm
open Xv6.Lib Function

variable {k : Link} {own own' own₂ : Nat → Owner} {l l' l₂ : List Nat} {m m' m₂ : Mach} {d g t : Nat} {E : String → Prop}

@[simp] theorem post_store (page i : Nat) (w : UInt32) {Q : Unit → Mach → Prop} :
    post (store page i w) Q E m = Q () { m with mem := setWord m.mem page i w } := rfl

@[simp] theorem post_memset (page : Nat) (c : UInt8) {Q : Unit → Mach → Prop} :
    post (memset page c) Q E m = Q () { m with mem := update m.mem page fun _ => c } := rfl

/-! ### Sound memory -/

/-- The page is the directory, or is in it. -/
def Of (d : Nat) (own : Nat → Owner) (g : Nat) : Prop := match own g with
  | .tab e _ | .user e _ _ => e = d
  | _ => g = d

/-- The pages that the directory owns are found in it. -/
structure Tidy (own : Nat → Owner) (mem : Nat → Bytes PGSIZE) (d : Nat) : Prop where
  tab : ∀ g i, own g = .tab d i → i < 1024 ∧ word mem d i = pte g 7
  user : ∀ g i j, own g = .user d i j → i < 512 ∧ j < 1024 ∧ has (entry mem d (1024 * i + j)) PTE_P = true ∧
    PTE_ADDR (entry mem d (1024 * i + j)) = g

/-- Every page is where its owner says, and nowhere else. -/
structure Sound (k : Link) (own : Nat → Owner) (l : List Nat) (m : Mach) : Prop extends Good k own l m where
  tab : ∀ g d i, own g = .tab d i → own d = .dir
  user : ∀ g d i j, own g = .user d i j → own d = .dir
  tidy : ∀ d, own d = .dir → Tidy own m.mem d

/-- A piece of work on a directory. -/
structure Work (k : Link) (d : Nat) (own : Nat → Owner) (m : Mach) (own' : Nat → Owner) (l' : List Nat) (m' : Mach) : Prop where
  sound : Sound k own' l' m'
  dir : own' d = .dir
  only : ∀ g, own g ≠ .free → ¬Of d own g → own' g = own g ∧ m'.mem g = m.mem g
  back : ∀ g, own g = .free ∨ Of d own g → own' g = .free ∨ Of d own' g

theorem Of.congr (same : own' g = own g) : Of d own' g ↔ Of d own g := by rw [Of,Of,same]

theorem of_dir (dir : own d = .dir) : Of d own d := by simp [Of,dir]

theorem of_tab {i : Nat} (owner : own g = .tab d i) : Of d own g := by simp [Of,owner]

theorem of_user {i j : Nat} (owner : own g = .user d i j) : Of d own g := by simp [Of,owner]

theorem Work.refl (sound : Sound k own l m) (dir : own d = .dir) : Work k d own m own l m :=
  ⟨sound,dir,fun _ _ _ => ⟨rfl,rfl⟩,fun _ => id⟩

theorem Work.trans (one : Work k d own m own' l' m') (two : Work k d own' m' own₂ l₂ m₂) : Work k d own m own₂ l₂ m₂ := by
  refine ⟨two.sound,two.dir,fun g used other => ?_,fun g here => two.back g (one.back g here)⟩
  obtain ⟨owner,page⟩ := one.only g used other
  have again := two.only g (by rwa [owner]) (by rwa [Of.congr owner])
  exact ⟨again.1.trans owner,again.2.trans page⟩

theorem Sound.other (sound : Sound k own l m) (only : ∀ g, own g ≠ .free → ¬Of d own g → own' g = own g ∧ m'.mem g = m.mem g)
    (back : ∀ g, own g = .free ∨ Of d own g → own' g = .free ∨ Of d own' g) {e : Nat} (apart : e ≠ d) :
    (∀ g, (∃ i, own' g = .tab e i) ∨ (∃ i j, own' g = .user e i j) → own e = .dir ∧ own' g = own g) ∧
      (own e = .dir → own' e = .dir ∧ Tidy own' m'.mem e) := by
  have kept : ∀ g, (∃ i, own' g = .tab e i) ∨ (∃ i j, own' g = .user e i j) → own' g = own g := by
    intro g here
    by_cases mine : own g = .free ∨ Of d own g
    · rcases back g mine with free | mine'
      · rcases here with ⟨i,owner⟩ | ⟨i,j,owner⟩ <;> rw [free] at owner <;> cases owner
      · rcases here with ⟨i,owner⟩ | ⟨i,j,owner⟩ <;> simp only [Of,owner] at mine' <;> exact absurd mine' apart
    · rw [not_or] at mine
      exact (only g mine.1 mine.2).1
  refine ⟨fun g here => ⟨?_,kept g here⟩,fun dir => ?_⟩
  · have same := kept g here
    rcases here with ⟨i,owner⟩ | ⟨i,j,owner⟩
    · exact sound.tab g e i (same ▸ owner)
    · exact sound.user g e i j (same ▸ owner)
  · have tidy := sound.tidy e dir
    obtain ⟨dir',page⟩ := only e (by simp [dir]) (by simpa [Of,dir] using apart)
    refine ⟨dir'.trans dir,fun g i owner => ?_,fun g i j owner => ?_⟩
    · rw [word_congr page]
      exact tidy.tab g i (kept g (.inl ⟨i,owner⟩) ▸ owner)
    · obtain ⟨low,index,present,addr⟩ := tidy.user g i j (kept g (.inr ⟨i,j,owner⟩) ▸ owner)
      have same := sound.toGood.entry_congr (v := 1024 * i + j) dir page (fun h i tab => (only h (by simp [tab])
        (by simpa [Of,tab] using apart)).2) (by omega)
      rw [same]
      exact ⟨low,index,present,addr⟩

theorem Work.of (sound : Sound k own l m) (good : Good k own' l' m') (dir' : own' d = .dir)
    (only : ∀ g, own g ≠ .free → ¬Of d own g → own' g = own g ∧ m'.mem g = m.mem g)
    (back : ∀ g, own g = .free ∨ Of d own g → own' g = .free ∨ Of d own' g) (tidy : Tidy own' m'.mem d) :
    Work k d own m own' l' m' := by
  refine ⟨⟨good,fun g e i owner => ?_,fun g e i j owner => ?_,fun e root => ?_⟩,dir',only,back⟩
  · rcases eq_or_ne e d with rfl | apart
    · exact dir'
    · have others := sound.other only back apart
      exact (others.2 (others.1 g (.inl ⟨i,owner⟩)).1).1
  · rcases eq_or_ne e d with rfl | apart
    · exact dir'
    · have others := sound.other only back apart
      exact (others.2 (others.1 g (.inr ⟨i,j,owner⟩)).1).1
  · rcases eq_or_ne e d with rfl | apart
    · exact tidy
    · refine ((sound.other only back apart).2 ?_).2
      by_cases mine : own e = .free ∨ Of d own e
      · rcases back e mine with free | mine'
        · simp [free] at root
        · exact absurd (by simpa [Of,root] using mine') apart
      · rw [not_or] at mine
        exact (only e mine.1 mine.2).1 ▸ root

/-! ### The view of a directory -/

/-- What a process sees of a virtual page: its entry and its contents. -/
def view (mem : Nat → Bytes PGSIZE) (d v : Nat) : Option (UInt32 × Bytes PGSIZE) :=
  if has (entry mem d v) PTE_P then some (entry mem d v,mem (PTE_ADDR (entry mem d v))) else none

theorem view_congr {mem mem' : Nat → Bytes PGSIZE} {v : Nat} (same : entry mem' d v = entry mem d v)
    (page : has (entry mem d v) PTE_P = true → mem' (PTE_ADDR (entry mem d v)) = mem (PTE_ADDR (entry mem d v))) :
    view mem' d v = view mem d v := by
  unfold view
  rw [same]
  split
  · next present => rw [page present]
  · rfl

theorem view_absent {mem : Nat → Bytes PGSIZE} {v : Nat} (absent : entry mem d v = 0) : view mem d v = none := by
  rw [view,absent]
  simp

theorem isSome_view (mem : Nat → Bytes PGSIZE) (d v : Nat) : (view mem d v).isSome = has (entry mem d v) PTE_P := by
  unfold view
  split
  · next present => exact present.symm
  · next absent => simpa using absent

theorem Good.user_page (good : Good k own l m) (dir : own d = .dir) {v : Nat} (user : v < 2 ^ 19)
    (present : has (Vm.entry m.mem d v) PTE_P = true) : own (PTE_ADDR (Vm.entry m.mem d v)) = .user d (v / 1024) (v % 1024) := by
  have entry := good.entry dir (show v < 2 ^ 20 by omega)
  rw [Pte,if_pos (by omega)] at entry
  rcases entry with zero | ⟨_,owner⟩
  · simp [zero] at present
  · exact owner

theorem Good.user_absent (good : Good k own l m) (dir : own d = .dir) {v : Nat} (user : v < 2 ^ 19)
    (absent : has (Vm.entry m.mem d v) PTE_P = false) : Vm.entry m.mem d v = 0 := by
  have entry := good.entry dir (show v < 2 ^ 20 by omega)
  rw [Pte,if_pos (by omega)] at entry
  rcases entry with zero | ⟨present,_⟩
  · exact zero
  · rw [absent] at present; cases present

theorem entry_table {mem : Nat → Bytes PGSIZE} {v : Nat} (small : t < 2 ^ 20) (pde : word mem d (v / 1024) = pte t 7) :
    entry mem d v = word mem t (v % 1024) := by
  rw [entry,pde,pte_present small,addr_pte small (by decide)]
  rfl

/-! ### Unmapping -/

/-- The number of pages of an address space. -/
def pages (sz : Nat) : Nat := (sz + 4095) / 4096

theorem lt_pages {v sz : Nat} : v < pages sz ↔ v * PGSIZE < sz := by
  rw [pages,PGSIZE_eq]
  omega

theorem PGROUNDUP_eq (sz : Nat) (small : sz + 4095 < 2 ^ 32) : PGROUNDUP sz = pages sz := by
  rw [PGROUNDUP,PGSIZE_eq,show sz + 4096 - 1 = sz + 4095 from rfl,Nat.mod_eq_of_lt small,pages]

theorem pages_user {sz : Nat} (below : sz ≤ KERNBASE) : pages sz ≤ 2 ^ 19 := by
  rw [pages]
  simp only [KERNBASE] at below
  omega

theorem freed_setWord (apart : g ≠ t) (j : Nat) (w : UInt32) :
    freed { m with mem := setWord m.mem t j w } g = { freed m g with mem := setWord (freed m g).mem t j w } := by
  have page : (freed m g).mem t = m.mem t := freed_other m apart.symm
  simp only [freed,Mach.mk.injEq,and_true]
  funext h
  by_cases here : h = g
  · subst here
    rw [setWord_page _ _ apart]
    simp only [setWord,update_self]
  · by_cases there : h = t
    · subst there
      rw [setWord_page _ _ here,update_of_ne here,setWord,setWord,update_self,update_self]
      congr 1
      exact page.symm
    · rw [setWord_page _ _ here,update_of_ne here,setWord_page _ _ there,setWord_page _ _ there,setWord_page _ _ here,
        update_of_ne here]

theorem Good.unmap (good : Good k own l m) (dir : own d = .dir) {i j : Nat} (index : j < 1024)
    (pde : word m.mem d i = pte t 7) (owner : own t = .tab d i) (user : own g = .user d i j) :
    Good k (update own g .free) (g :: l) { Vm.freed m g with mem := Vm.setWord (Vm.freed m g).mem t j 0 } := by
  have apart : g ≠ t := by rintro rfl; simp [owner] at user
  have tabSmall := good.small (g := t) (by simp [owner])
  rw [← freed_setWord apart]
  have cleared := good.setPte owner index (.zero ..)
  refine cleared.freed (by simp [user]) fun e root i' inside' => ?_
  refine (cleared.dir e root i' inside').imp_right ?_
  rintro ⟨t',here,owner',entries⟩
  have other : t' ≠ g := by rintro rfl; simp [user] at owner'
  refine ⟨t',here,by rwa [update_of_ne other],fun j' index' => ?_⟩
  have entry := entries j' index'
  unfold Pte at entry ⊢
  split_ifs with low
  · rw [if_pos low] at entry
    refine entry.imp_right fun ⟨present,owned⟩ => ⟨present,?_⟩
    rw [update_of_ne]
    · exact owned
    · intro same
      -- the only entry for the page is the one that has been cleared
      rw [same,user] at owned
      obtain ⟨rfl,rfl,rfl⟩ : d = e ∧ i = i' ∧ j = j' := by simpa using owned
      have apart' : d ≠ t := by rintro rfl; simp [owner] at dir
      have small' := good.small (g := t') (by simp [owner'])
      dsimp only at here present
      rw [word_congr (setWord_page _ _ apart' _),pde] at here
      obtain rfl := pte_inj (by omega) (by omega) here
      rw [word_setWord_self _ _ index] at present
      simp at present
  · rwa [if_neg low] at entry

/-- The pages between two virtual pages have been freed. -/
structure Cut (k : Link) (d lo hi : Nat) (own : Nat → Owner) (m : Mach) (own' : Nat → Owner) (l' : List Nat) (m' : Mach) : Prop where
  work : Work k d own m own' l' m'
  views : ∀ v < 2 ^ 19, view m'.mem d v = if lo ≤ v ∧ v < hi then none else view m.mem d v
  kernel : ∀ v, 2 ^ 19 ≤ v → v < 2 ^ 20 → entry m'.mem d v = entry m.mem d v
  root : m'.mem d = m.mem d
  free : ∀ g, own g = .free → own' g = .free

theorem Cut.nothing (sound : Sound k own l m) (dir : own d = .dir) {lo hi : Nat} (none' : ∀ v < 2 ^ 19, lo ≤ v → v < hi →
    view m.mem d v = none) : Cut k d lo hi own m own l m := by
  refine ⟨.refl sound dir,fun v user => ?_,fun _ _ _ => rfl,rfl,fun _ => id⟩
  split
  · next inside => exact none' v user inside.1 inside.2
  · rfl

theorem Cut.trans {lo mid hi : Nat} (one : Cut k d lo mid own m own' l' m') (two : Cut k d mid hi own' m' own₂ l₂ m₂)
    (low : lo ≤ mid) (high : mid ≤ hi) : Cut k d lo hi own m own₂ l₂ m₂ := by
  refine ⟨one.work.trans two.work,fun v user => ?_,fun v kernel small => (two.kernel v kernel small).trans (one.kernel v kernel small),
    two.root.trans one.root,fun g free => two.free g (one.free g free)⟩
  rw [two.views v user,one.views v user]
  split_ifs <;> first | rfl | omega

theorem Sound.unmap (sound : Sound k own l m) (dir : own d = .dir) {a : Nat} (user : a < 2 ^ 19)
    (pde : word m.mem d (a / 1024) = pte t 7) (owner : own t = .tab d (a / 1024)) (used : own g = .user d (a / 1024) (a % 1024)) :
    Cut k d a (a + 1) own m (update own g .free) (g :: l)
      { freed m g with mem := setWord (freed m g).mem t (a % 1024) 0 } := by
  have good := sound.toGood
  have index : a % 1024 < 1024 := Nat.mod_lt _ (by decide)
  have apart : g ≠ t := by rintro rfl; simp [owner] at used
  have notDir : d ≠ g := by rintro rfl; simp [used] at dir
  have notTab : d ≠ t := by rintro rfl; simp [owner] at dir
  have after := good.unmap dir index pde owner used
  have page (h : Nat) (other : h ≠ g) (other' : h ≠ t) : setWord (freed m g).mem t (a % 1024) 0 h = m.mem h :=
    (setWord_page _ _ other' _).trans (freed_other m other)
  have entries (v : Nat) (inside : v < 2 ^ 20) :
      entry (setWord (freed m g).mem t (a % 1024) 0) d v = if v = a then 0 else entry m.mem d v := by
    rw [← good.entry_setPte dir (by omega) pde owner 0 inside]
    have cleared := good.setPte owner index (.zero ..)
    rw [show setWord (freed m g).mem t (a % 1024) 0 = (freed { m with mem := setWord m.mem t (a % 1024) 0 } g).mem by
      rw [freed_setWord apart]]
    refine cleared.entry_congr dir (freed_other _ notDir) (fun h i tab => freed_other _ ?_) inside
    rintro rfl
    simp [used] at tab
  have tidy := sound.tidy d dir
  have tidy' : Tidy (update own g .free) (setWord (freed m g).mem t (a % 1024) 0) d := by
    refine ⟨fun h i owner' => ?_,fun h i j owner' => ?_⟩
    · have other : h ≠ g := by rintro rfl; simp at owner'
      rw [update_of_ne other] at owner'
      rw [word_congr (page d notDir notTab)]
      exact tidy.tab h i owner'
    · have other : h ≠ g := by rintro rfl; simp at owner'
      rw [update_of_ne other] at owner'
      obtain ⟨low,small,present,addr⟩ := tidy.user h i j owner'
      have elsewhere : 1024 * i + j ≠ a := by
        rintro rfl
        rw [show (1024 * i + j) / 1024 = i by omega,show (1024 * i + j) % 1024 = j by omega] at used
        exact other (addr.symm.trans (tidy.user g i j used).2.2.2)
      rw [entries _ (by omega),if_neg elsewhere]
      exact ⟨low,small,present,addr⟩
  refine ⟨.of sound after (by rwa [update_of_ne notDir]) (fun h firm other => ?_) (fun h here => ?_) tidy',fun v low => ?_,
    fun v kernel small => ?_,page d notDir notTab,fun h free => ?_⟩
  · have other' : h ≠ g := by rintro rfl; exact other (of_user used)
    refine ⟨update_of_ne other' ..,page h other' ?_⟩
    rintro rfl
    exact other (of_tab owner)
  · rcases eq_or_ne h g with rfl | other
    · exact .inl (update_self ..)
    · rw [Of.congr (update_of_ne other ..),update_of_ne other]
      exact here
  · rcases eq_or_ne v a with rfl | other
    · rw [if_pos ⟨le_refl _,by omega⟩]
      exact view_absent (by rw [entries v (by omega),if_pos rfl])
    · rw [if_neg (by omega)]
      have same : entry (setWord (freed m g).mem t (a % 1024) 0) d v = entry m.mem d v := by
        rw [entries v (by omega),if_neg other]
      refine view_congr same fun present => page _ ?_ ?_
      · have owner' := good.user_page dir low present
        intro here
        rw [here,used] at owner'
        simp only [Owner.user.injEq,true_and] at owner'
        omega
      · have owner' := good.user_page dir low present
        intro here
        rw [here,owner] at owner'
        cases owner'
  · have apart' : v ≠ a := by omega
    exact (entries v small).trans (if_neg apart')
  · rcases eq_or_ne h g with rfl | other
    · exact update_self ..
    · exact (update_of_ne other ..).trans free

theorem deallocuvm_from_spec (oldsz : Nat) (below : oldsz ≤ KERNBASE) (fuel : Nat) :
    ∀ {a : Nat} {own : Nat → Owner} {l : List Nat} {m : Mach}, Sound k own l m → own d = .dir → pages oldsz ≤ a + fuel →
      post (deallocuvm_from k d oldsz fuel a) (fun _ m' => ∃ own' l', Cut k d a (pages oldsz) own m own' l' m') E m := by
  have last := pages_user below
  induction fuel with
  | zero => exact fun sound dir enough => ⟨_,_,.nothing sound dir fun v _ low high => by omega⟩
  | succ fuel ih =>
    intro a own l m sound dir enough
    have good := sound.toGood
    rw [deallocuvm_from]
    split
    · next more =>
      rw [← lt_pages] at more
      have low : a / 1024 < 512 := by omega
      have index : a % 1024 < 1024 := Nat.mod_lt _ (by decide)
      rw [post_bind,post_lookup]
      by_cases present : has (word m.mem d (a / 1024)) PTE_P = true
      · rw [lookup,if_pos present]
        obtain ⟨pde,owner,entries⟩ := good.lookup dir (by omega) present
        generalize PTE_ADDR (word m.mem d (a / 1024)) = t at *
        have small := good.small (g := t) (by simp [owner])
        have here := entry_table (by omega) pde
        dsimp only
        simp only [post_bind,post_get]
        rw [← here]
        split
        · next mapped =>
          have used := good.user_page dir (by omega) mapped
          rw [if_neg (good.pos (by simp [used])),post_bind,good.post_kfree (by simp [used]),post_bind,post_store]
          have cut := sound.unmap dir (by omega) pde owner used
          refine post_use (ih cut.work.sound cut.work.dir (by omega)) ?_
          rintro _ m' ⟨own',l',rest⟩
          exact ⟨own',l',cut.trans rest (by omega) (by omega)⟩
        · next absent =>
          refine post_use (ih sound dir (by omega)) ?_
          rintro _ m' ⟨own',l',rest⟩
          refine ⟨own',l',(Cut.nothing sound dir fun v _ from' to' => ?_).trans rest (by omega) (by omega)⟩
          obtain rfl : v = a := by omega
          exact view_absent (good.user_absent dir (by omega) (by simpa using absent))
      · rw [lookup,if_neg present]
        dsimp only
        -- a missing page table stands for pages that are not there
        have skipped (v : Nat) (same : v / 1024 = a / 1024) : view m.mem d v = none :=
          view_absent (by rw [entry,same,if_neg present])
        refine post_use (ih (a := (a / 1024 + 1) * 1024) sound dir (by omega)) ?_
        rintro _ m' ⟨own',l',rest⟩
        refine ⟨own',l',rest.work,fun v user => ?_,rest.kernel,rest.root,rest.free⟩
        rw [rest.views v user]
        by_cases same : v / 1024 = a / 1024
        · rw [skipped v same]
          simp
        · split_ifs <;> first | rfl | omega
    · next less =>
      rw [← lt_pages] at less
      exact ⟨_,_,.nothing sound dir fun v _ low high => by omega⟩

theorem deallocuvm_spec (sound : Sound k own l m) (dir : own d = .dir) {oldsz newsz : Nat} (below : oldsz ≤ KERNBASE) :
    post (deallocuvm k d oldsz newsz)
      (fun r m' => r = min oldsz newsz ∧ ∃ own' l', Cut k d (pages newsz) (pages oldsz) own m own' l' m') E m := by
  have base : KERNBASE + 4095 < 2 ^ 32 := by decide
  unfold deallocuvm
  split
  · refine ⟨by omega,_,_,.nothing sound dir fun v _ low high => ?_⟩
    rw [pages] at low high
    omega
  · rw [post_bind,PGROUNDUP_eq _ (by omega)]
    have enough : pages oldsz ≤ pages newsz + (oldsz / PGSIZE + 1 - pages newsz) := by
      simp only [pages,PGSIZE_eq]
      omega
    refine post_use (deallocuvm_from_spec oldsz below _ sound dir enough) fun _ m' cut => ⟨?_,cut⟩
    omega

/-! ### `freevm` -/

/-- The pages of a directory have been freed, those of others are as before. -/
structure Gone (k : Link) (d : Nat) (own : Nat → Owner) (m : Mach) (own' : Nat → Owner) (l' : List Nat) (m' : Mach) : Prop where
  sound : Sound k own' l' m'
  only : ∀ g, own g ≠ .free → ¬Of d own g → own' g = own g ∧ m'.mem g = m.mem g
  gone : ∀ g, own g = .free ∨ Of d own g → own' g = .free

theorem Work.gone (one : Work k d own m own' l' m') (two : Gone k d own' m' own₂ l₂ m₂) :
    Gone k d own m own₂ l₂ m₂ := by
  refine ⟨two.sound,fun g used other => ?_,fun g here => two.gone g (one.back g here)⟩
  obtain ⟨owner,page⟩ := one.only g used other
  have again := two.only g (by rwa [owner]) (by rwa [Of.congr owner])
  exact ⟨again.1.trans owner,again.2.trans page⟩

/-- The page tables of a directory that is given up have been freed. -/
theorem freevm_from_spec (n : Nat) (small : n ≤ NPDENTRIES) :
    ∀ {own : Nat → Owner} {l : List Nat} {m : Mach}, Good k own l m → own d = .held →
      (∀ i, NPDENTRIES - n ≤ i → i < NPDENTRIES → word m.mem d i = 0 ∨ ∃ t, word m.mem d i = pte t 7 ∧ own t = .tab d i) →
      (∀ g i, own g = .tab d i → NPDENTRIES - n ≤ i ∧ i < NPDENTRIES ∧ word m.mem d i = pte g 7) →
      post (freevm_from k d n) (fun _ m' => ∃ own' l', Good k own' l' m' ∧
        (∀ g, own g ≠ .free → (∀ i, own g ≠ .tab d i) → own' g = own g ∧ m'.mem g = m.mem g) ∧
        (∀ g, own g = .free ∨ (∃ i, own g = .tab d i) → own' g = .free)) E m := by
  induction n with
  | zero =>
    intro own l m good _ _ tabs
    refine ⟨own,l,good,fun _ _ _ => ⟨rfl,rfl⟩,?_⟩
    rintro g (free | ⟨i,owner⟩)
    · exact free
    · have := tabs g i owner
      omega
  | succ n ih =>
    intro own l m good held pdes tabs
    rw [freevm_from]
    simp only [post_bind,post_get]
    by_cases present : has (word m.mem d (NPDENTRIES - (n + 1))) PTE_P = true
    · rw [if_pos present]
      rcases pdes (NPDENTRIES - (n + 1)) (le_refl _) (by omega) with zero | ⟨t,pde,owner⟩
      · simp [zero] at present
      · rw [pde,good.tab_pte owner,post_bind,good.post_kfree (by simp [owner])]
        have apart : d ≠ t := by rintro rfl; simp [held] at owner
        have smallTab := good.small (g := t) (by simp [owner])
        have freed' : Good k (update own t .free) (t :: l) (freed m t) := by
          refine good.freed (by simp [owner]) fun e root i inside => ?_
          have other : e ≠ d := by rintro rfl; simp [held] at root
          refine (good.dir e root i inside).congr (fun h tab => ⟨?_,rfl⟩) fun h j used => ?_
          · rw [update_of_ne]
            · exact tab
            · rintro rfl
              rw [owner] at tab
              simp only [Owner.tab.injEq] at tab
              exact other tab.1.symm
          · rw [update_of_ne]
            · exact used
            · rintro rfl; simp [owner] at used
        have pdes' : ∀ i, word (freed m t).mem d i = word m.mem d i := word_congr (freed_other m apart)
        refine post_use (ih (by omega) freed' (by rw [update_of_ne apart]; exact held) (fun i low high => ?_) fun g i tab => ?_)
          fun _ m' ⟨own',l',good',only,gone⟩ => ⟨own',l',good',fun g used other => ?_,fun g here => ?_⟩
        · rw [pdes']
          refine (pdes i (by omega) high).imp_right ?_
          rintro ⟨t',pde',owner'⟩
          refine ⟨t',pde',?_⟩
          rw [update_of_ne]
          · exact owner'
          · rintro rfl
            rw [owner] at owner'
            simp only [Owner.tab.injEq] at owner'
            omega
        · have other : g ≠ t := by rintro rfl; simp at tab
          rw [update_of_ne other] at tab
          obtain ⟨low,high,here⟩ := tabs g i tab
          have later : i ≠ NPDENTRIES - (n + 1) := by
            rintro rfl
            rw [pde] at here
            have smallPage := good.small (g := g) (by simp [tab])
            exact other (pte_inj (by omega) (by omega) here).symm
          exact ⟨by omega,high,(pdes' i).trans here⟩
        · have other' : g ≠ t := by rintro rfl; exact other _ owner
          have again := only g (by rwa [update_of_ne other']) (by rwa [update_of_ne other'])
          rw [update_of_ne other'] at again
          exact ⟨again.1,again.2.trans (freed_other m other')⟩
        · refine gone g ?_
          rcases eq_or_ne g t with rfl | other
          · exact .inl (update_self ..)
          · rwa [update_of_ne other]
    · rw [if_neg present]
      refine ih (by omega) good held (fun i low high => pdes i (by omega) high) fun g i tab => ?_
      obtain ⟨low,high,here⟩ := tabs g i tab
      have later : i ≠ NPDENTRIES - (n + 1) := by
        rintro rfl
        have smallPage := good.small (g := g) (by simp [tab])
        rw [here] at present
        exact present (pte_present (by omega))
      exact ⟨by omega,high,here⟩

theorem freevm_spec (sound : Sound k own l m) (dir : own d = .dir) :
    post (freevm k d) (fun _ m' => ∃ own' l', Gone k d own m own' l' m') E m := by
  unfold freevm
  rw [post_bind]
  refine post_use (deallocuvm_spec sound dir (le_refl _)) fun _ m₁ ⟨_,own₁,l₁,cut⟩ => ?_
  have sound₁ := cut.work.sound
  have good₁ := sound₁.toGood
  have dir₁ := cut.work.dir
  have tidy₁ := sound₁.tidy d dir₁
  have bare : ∀ g i j, own₁ g ≠ .user d i j := by
    intro g i j owner
    obtain ⟨low,index,present,_⟩ := tidy₁.user g i j owner
    have seen := cut.views (1024 * i + j) (by omega)
    rw [if_pos ⟨Nat.zero_le _,show _ < 2 ^ 19 by omega⟩] at seen
    have some' := isSome_view m₁.mem d (1024 * i + j)
    rw [seen,present] at some'
    cases some'
  have held := good₁.retag (g := d) (o := .held) (dir₁ ▸ Owner.plain_dir) (by simp)
  have tabs : ∀ g i, update own₁ d .held g = .tab d i ↔ own₁ g = .tab d i := by
    intro g i
    rcases eq_or_ne g d with rfl | other
    · simp [dir₁]
    · rw [update_of_ne other]
  rw [post_bind]
  refine post_use (freevm_from_spec NPDENTRIES (le_refl _) held (by simp) (fun i _ inside => ?_) fun g i tab => ?_)
    fun _ m₂ ⟨own₂,l₂,good₂,only₂,gone₂⟩ => ?_
  · refine (good₁.dir d dir₁ i inside).imp_right ?_
    rintro ⟨t,pde,owner,_⟩
    exact ⟨t,pde,(tabs t i).mpr owner⟩
  · obtain ⟨inside,here⟩ := tidy₁.tab g i ((tabs g i).mp tab)
    exact ⟨by simp,inside,here⟩
  · have held₂ : own₂ d = .held := by
      have kept := only₂ d (by simp) (by simp)
      rw [update_self] at kept
      exact kept.1
    rw [good₂.post_kfree (by simp [held₂])]
    have freed' : Good k (update own₂ d .free) (d :: l₂) (freed m₂ d) :=
      good₂.freed (by simp [held₂]) fun e root i inside =>
        (good₂.dir e root i inside).reown (held₂ ▸ Owner.plain_held) fun _ _ => rfl
    have only : ∀ g, own₁ g ≠ .free → ¬Of d own₁ g → update own₂ d .free g = own₁ g ∧ (freed m₂ d).mem g = m₁.mem g := by
      intro g used other
      have notDir : g ≠ d := by rintro rfl; exact other (of_dir dir₁)
      have again := only₂ g (by rwa [update_of_ne notDir]) fun i tab => other (of_tab ((tabs g i).mp tab))
      rw [update_of_ne notDir] at again
      exact ⟨(update_of_ne notDir ..).trans again.1,(freed_other m₂ notDir).trans again.2⟩
    have gone : ∀ g, own₁ g = .free ∨ Of d own₁ g → update own₂ d .free g = .free := by
      intro g here
      rcases eq_or_ne g d with rfl | notDir
      · exact update_self ..
      · rw [update_of_ne notDir]
        refine gone₂ g ?_
        rw [update_of_ne notDir]
        refine here.imp_right fun mine => ?_
        unfold Of at mine
        cases owner : own₁ g with
        | tab e i =>
          rw [owner] at mine
          exact ⟨i,by rw [show e = d from mine]⟩
        | user e i j =>
          rw [owner] at mine
          exact absurd (owner.trans (by rw [show e = d from mine])) (bare g i j)
        | _ =>
          rw [owner] at mine
          exact absurd mine notDir
    have back : ∀ g, own₁ g = .free ∨ Of d own₁ g → update own₂ d .free g = .free ∨ Of d (update own₂ d .free) g :=
      fun g here => .inl (gone g here)
    have dirs : ∀ e, update own₂ d .free e = .dir → own₁ e = .dir ∧ e ≠ d := by
      intro e root
      by_cases mine : own₁ e = .free ∨ Of d own₁ e
      · rw [gone e mine] at root; cases root
      · rw [not_or] at mine
        exact ⟨(only e mine.1 mine.2).1 ▸ root,by rintro rfl; exact mine.2 (of_dir dir₁)⟩
    refine ⟨_,_,cut.work.gone ⟨⟨freed',fun g e i owner => ?_,fun g e i j owner => ?_,fun e root => ?_⟩,only,gone⟩⟩
    · have apart : e ≠ d := by
        rintro rfl
        by_cases mine : own₁ g = .free ∨ Of e own₁ g
        · rw [gone g mine] at owner; cases owner
        · rw [not_or] at mine
          exact mine.2 (of_tab ((only g mine.1 mine.2).1 ▸ owner))
      have others := sound₁.other only back apart
      exact (others.2 (others.1 g (.inl ⟨i,owner⟩)).1).1
    · have apart : e ≠ d := by
        rintro rfl
        by_cases mine : own₁ g = .free ∨ Of e own₁ g
        · rw [gone g mine] at owner; cases owner
        · rw [not_or] at mine
          exact mine.2 (of_user ((only g mine.1 mine.2).1 ▸ owner))
      have others := sound₁.other only back apart
      exact (others.2 (others.1 g (.inr ⟨i,j,owner⟩)).1).1
    · obtain ⟨root₁,apart⟩ := dirs e root
      exact ((sound₁.other only back apart).2 root₁).2

end Xv6.Vm
