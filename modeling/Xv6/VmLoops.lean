import Xv6.VmLaid

/-!
The loops of `vm.c` as they are written, over addresses of 32 bits: `mappages` ends where its address equals that of
the last page, and `deallocuvm` jumps over the addresses of a page table that is not there.
-/
namespace Xv6.Vm
open Xv6.Lib Function

variable {k : Link} {m m' m₂ : Mach} {d g t : Nat} {l l' : List Nat} {E : String → Prop}

namespace Code

def PGROUNDDOWN (a : Nat) : Nat := a / PGSIZE * PGSIZE

/-- The loop of `mappages`, if it needs no more than `fuel` turns. -/
def mappages_from (pgdir last perm : Nat) : Nat → Nat → Nat → VM (Option Bool)
  | 0,_,_ => return none
  | fuel + 1,a,pa => do
    match ← walkpgdir pgdir (a / PGSIZE) true with
    | none => return some false
    | some (t,i) =>
      let m ← get
      if has (word m.mem t i) PTE_P then throw "remap"
      else
        store t i (UInt32.ofNat pa ||| UInt32.ofNat perm ||| UInt32.ofNat PTE_P)
        if a = last then return some true
        else mappages_from pgdir last perm fuel ((a + PGSIZE) % 2 ^ 32) ((pa + PGSIZE) % 2 ^ 32)

def mappages (fuel pgdir va size pa perm : Nat) : VM (Option Bool) :=
  mappages_from pgdir (PGROUNDDOWN ((va + size - 1) % 2 ^ 32)) perm fuel (PGROUNDDOWN va) pa

def PDX (a : Nat) : Nat := a / 2 ^ 22 % 1024
def PGADDR (d t o : Nat) : Nat := (d <<< 22 ||| t <<< 12 ||| o) % 2 ^ 32

/-- The loop of `deallocuvm`, if it needs no more than `fuel` turns. -/
def deallocuvm_from (k : Link) (pgdir oldsz : Nat) : Nat → Nat → VM (Option Unit)
  | 0,_ => return none
  | fuel + 1,a =>
    if a < oldsz then do
      match ← walkpgdir pgdir (a / PGSIZE) false with
      | none =>
        let a := (PGADDR (PDX a + 1) 0 0 + 2 ^ 32 - PGSIZE) % 2 ^ 32
        deallocuvm_from k pgdir oldsz fuel ((a + PGSIZE) % 2 ^ 32)
      | some (t,i) =>
        let m ← get
        let w := word m.mem t i
        if has w PTE_P then
          if PTE_ADDR w = 0 then throw "kfree"
          else
            kfree k (PTE_ADDR w)
            store t i 0
            deallocuvm_from k pgdir oldsz fuel ((a + PGSIZE) % 2 ^ 32)
        else deallocuvm_from k pgdir oldsz fuel ((a + PGSIZE) % 2 ^ 32)
    else return some ()

def deallocuvm (fuel : Nat) (k : Link) (pgdir oldsz newsz : Nat) : VM (Option Nat) :=
  if newsz ≥ oldsz then return some oldsz
  else do
    match ← deallocuvm_from k pgdir oldsz fuel ((newsz + PGSIZE - 1) % 2 ^ 32 / PGSIZE * PGSIZE) with
    | none => return none
    | some _ => return some newsz

def freevm (fuel : Nat) (k : Link) (pgdir : Nat) : VM (Option Unit) := do
  match ← deallocuvm fuel k pgdir KERNBASE 0 with
  | none => return none
  | some _ =>
    freevm_from k pgdir NPDENTRIES
    kfree k pgdir
    return some ()

end Code

/-! ### Page directories -/

/-- A page directory beside the free pages: it and its page tables are different pages, and none of them is free. -/
structure Tree (m : Mach) (d : Nat) (l : List Nat) : Prop where
  free : FreeList m.mem m.freelist l
  once : l.Nodup
  small : ∀ g ∈ l, g < 2 ^ 19
  root : d ∉ l
  table : ∀ i < 1024, has (word m.mem d i) PTE_P = true → PTE_ADDR (word m.mem d i) ≠ d ∧ PTE_ADDR (word m.mem d i) ∉ l
  apart : ∀ i < 1024, ∀ j < 1024, has (word m.mem d i) PTE_P = true → has (word m.mem d j) PTE_P = true →
    PTE_ADDR (word m.mem d i) = PTE_ADDR (word m.mem d j) → i = j

variable {mem mem' : Nat → Bytes PGSIZE}

theorem entry_same {v : Nat} (root : mem' d = mem d)
    (table : has (word mem d (v / 1024)) PTE_P = true → mem' (PTE_ADDR (word mem d (v / 1024))) = mem (PTE_ADDR (word mem d (v / 1024)))) :
    entry mem' d v = entry mem d v := by
  unfold entry
  rw [word_congr root]
  split
  · next present => exact word_congr (table present) _
  · rfl

theorem Tree.store (tree : Tree m d l) {v : Nat} (inside : v < 2 ^ 20) (present : has (word m.mem d (v / 1024)) PTE_P = true) (w : UInt32) :
    Tree { m with mem := setWord m.mem (PTE_ADDR (word m.mem d (v / 1024))) (v % 1024) w } d l ∧
      ∀ u < 2 ^ 20, entry (setWord m.mem (PTE_ADDR (word m.mem d (v / 1024))) (v % 1024) w) d u = if u = v then w else entry m.mem d u := by
  obtain ⟨notRoot,used⟩ := tree.table (v / 1024) (by omega) present
  generalize page : PTE_ADDR (word m.mem d (v / 1024)) = t at *
  have other {g : Nat} (other : g ≠ t) : setWord m.mem t (v % 1024) w g = m.mem g := setWord_page _ _ other _
  have root (i : Nat) : word (setWord m.mem t (v % 1024) w) d i = word m.mem d i := word_congr (other (Ne.symm notRoot)) i
  constructor
  · refine ⟨tree.free.congr fun g member => other ?_,tree.once,tree.small,tree.root,?_,?_⟩
    · rintro rfl
      exact used member
    · simp only [root]
      exact tree.table
    · simp only [root]
      exact tree.apart
  · intro u small
    by_cases same : u = v
    · subst same
      rw [if_pos rfl,entry,root,if_pos present,page,word_setWord_self _ _ (Nat.mod_lt _ (by decide))]
    · rw [if_neg same,entry,entry,root]
      split
      · next there =>
        by_cases table : u / 1024 = v / 1024
        · rw [table,page,word_setWord_index]
          intro index
          omega
        · refine word_congr (other fun clash => table ?_) _
          exact tree.apart _ (by omega) _ (by omega) there present (clash.trans page.symm)
      · rfl

/-- `walkpgdir` finds the page table, or takes a free page for it. -/
theorem Tree.walk (tree : Tree m d l) {v : Nat} (inside : v < 2 ^ 20) {Q : Option (Nat × Nat) → Mach → Prop}
    (fails : ∀ m', m'.mem = m.mem → Q none m')
    (found : ∀ l' m', Tree m' d l' → (∀ u < 2 ^ 20, entry m'.mem d u = entry m.mem d u) → has (word m'.mem d (v / 1024)) PTE_P = true →
      Q (some (PTE_ADDR (word m'.mem d (v / 1024)),v % 1024)) m') :
    post (walkpgdir d v true) Q E m := by
  rw [walkpgdir_run]
  split
  · next present => exact found l m tree (fun _ _ => rfl) present
  · next absent =>
    simp only [Bool.true_eq_false,if_false]
    rw [post_kalloc]
    have list := tree.free
    cases l with
    | nil =>
      rw [if_pos (.inl list)]
      exact fails _ rfl
    | cons g l =>
      obtain ⟨first,rest⟩ := list
      have small := tree.small g List.mem_cons_self
      obtain ⟨fresh,once⟩ := List.nodup_cons.mp tree.once
      rw [first,V2P_P2V small]
      split
      · exact fails _ rfl
      · have notRoot : g ≠ d := by
          rintro rfl
          exact tree.root List.mem_cons_self
        -- the new page is a page table without entries
        have other {h : Nat} (root : h ≠ d) (new : h ≠ g) : setWord (update m.mem g fun _ => 0) d (v / 1024) (pte g 7) h = m.mem h :=
          (setWord_page _ _ root _).trans (update_of_ne new ..)
        have made : word (setWord (update m.mem g fun _ => 0) d (v / 1024) (pte g 7)) d (v / 1024) = pte g 7 :=
          word_setWord_self _ _ (by omega) _
        have same {i : Nat} (index : i ≠ v / 1024) :
            word (setWord (update m.mem g fun _ => 0) d (v / 1024) (pte g 7)) d i = word m.mem d i := by
          rw [word_setWord_index _ _ index]
          exact word_congr (update_of_ne notRoot.symm ..) i
        have zeros : setWord (update m.mem g fun _ => 0) d (v / 1024) (pte g 7) g = fun _ => 0 :=
          (setWord_page _ _ notRoot _).trans (update_self ..)
        have addr : PTE_ADDR (pte g 7) = g := addr_pte (by omega) (by decide)
        have present : has (pte g 7) PTE_P = true := pte_present (by omega)
        change Q (some (g,v % 1024)) { m.next with
          freelist := word m.mem g 0, mem := setWord (update m.mem g fun _ => 0) d (v / 1024) (pte g 7) }
        generalize setWord (update m.mem g fun _ => 0) d (v / 1024) (pte g 7) = mem at *
        have tables (i : Nat) (small : i < 1024) (there : has (word mem d i) PTE_P = true) :
            i = v / 1024 ∨ has (word m.mem d i) PTE_P = true ∧ word mem d i = word m.mem d i ∧ PTE_ADDR (word m.mem d i) ≠ g := by
          by_cases index : i = v / 1024
          · exact .inl index
          · rw [same index] at there
            refine .inr ⟨there,same index,fun clash => ?_⟩
            exact (tree.table i small there).2 (clash ▸ List.mem_cons_self)
        have result := found l { m.next with freelist := word m.mem g 0, mem := mem } ⟨?_,once,?_,?_,?_,?_⟩ ?_ (by rw [made]; exact present)
        · dsimp only at result
          rwa [made,addr] at result
        · refine rest.congr fun h member => other ?_ ?_
          · rintro rfl
            exact tree.root (List.mem_cons_of_mem _ member)
          · rintro rfl
            exact fresh member
        · intro h member
          exact tree.small h (List.mem_cons_of_mem _ member)
        · intro member
          exact tree.root (List.mem_cons_of_mem _ member)
        · intro i small there
          rcases tables i small there with rfl | ⟨before,same,_⟩
          · rw [made,addr]
            exact ⟨notRoot,fresh⟩
          · obtain ⟨one,two⟩ := tree.table i small before
            dsimp only
            rw [same]
            exact ⟨one,fun member => two (List.mem_cons_of_mem _ member)⟩
        · intro i small j small' there there' clash
          dsimp only at clash there there'
          rcases tables i small there with rfl | ⟨before,same,new⟩ <;> rcases tables j small' there' with rfl | ⟨before',same',new'⟩
          · rfl
          · rw [made,addr,same'] at clash
            exact absurd clash.symm new'
          · rw [made,addr,same] at clash
            exact absurd clash new
          · rw [same,same'] at clash
            exact tree.apart i small j small' before before' clash
        · intro u small
          dsimp only
          rw [entry,entry]
          by_cases index : u / 1024 = v / 1024
          · rw [index,made,if_pos present,addr,if_neg absent,word_zeros zeros]
          · rw [same index]
            split
            · next there =>
              obtain ⟨one,two⟩ := tree.table _ (by omega) there
              exact word_congr (other one fun clash => two (clash ▸ List.mem_cons_self)) _
            · rfl

/-! ### `mappages` -/

/-- The entry that `mappages` stores for the `k`-th page. -/
def Code.mapped (pa perm k : Nat) : UInt32 := UInt32.ofNat (pa + k * PGSIZE) ||| UInt32.ofNat perm ||| UInt32.ofNat PTE_P

/-- The first `n` pages from `a` on are mapped, and nothing else has changed. -/
def Code.Maps (d a pa perm n : Nat) (m m' : Mach) : Prop :=
  ∀ v < 2 ^ 20, entry m'.mem d v = if a ≤ v ∧ v < a + n then Code.mapped pa perm (v - a) else entry m.mem d v

theorem Code.mappages_turn (tree : Tree m d l) {a last perm fuel pa : Nat} (inside : a < 2 ^ 20) (absent : has (entry m.mem d a) PTE_P = false)
    {Q : Option Bool → Mach → Prop} (fails : ∀ m', m'.mem = m.mem → Q (some false) m')
    (stores : ∀ l' m', Tree m' d l' → Code.Maps d a pa perm 1 m m' →
      post (if a * PGSIZE = last then return some true
        else Code.mappages_from d last perm fuel ((a * PGSIZE + PGSIZE) % 2 ^ 32) ((pa % 2 ^ 32 + PGSIZE) % 2 ^ 32)) Q E m') :
    post (Code.mappages_from d last perm (fuel + 1) (a * PGSIZE) (pa % 2 ^ 32)) Q E m := by
  have page : a * PGSIZE / PGSIZE = a := Nat.mul_div_cancel _ (by decide)
  have value : UInt32.ofNat (pa % 2 ^ 32) = UInt32.ofNat pa := by
    apply UInt32.toNat.inj
    rw [UInt32.toNat_ofNat',UInt32.toNat_ofNat',Nat.mod_mod]
  rw [Code.mappages_from,post_bind,page]
  refine tree.walk inside fails fun l' m' tree' same present => ?_
  have free : has (word m'.mem (PTE_ADDR (word m'.mem d (a / 1024))) (a % 1024)) PTE_P = false := by
    rw [← same a inside,entry,if_pos present] at absent
    exact absent
  dsimp only
  rw [post_bind,post_get,if_neg (by simp [free]),post_bind,Vm.store,post_modify]
  obtain ⟨tree₂,entries⟩ := tree'.store inside present (UInt32.ofNat (pa % 2 ^ 32) ||| UInt32.ofNat perm ||| UInt32.ofNat PTE_P)
  refine stores l' _ tree₂ fun v small => ?_
  rw [entries v small,same v small]
  by_cases here : v = a
  · subst here
    rw [if_pos rfl,if_pos (by omega),Code.mapped,Nat.sub_self,Nat.zero_mul,Nat.add_zero,value]
  · rw [if_neg here,if_neg (by omega)]

theorem Code.Maps.trans {a pa perm n : Nat} (one : Code.Maps d a pa perm 1 m m') (more : Code.Maps d (a + 1) (pa + PGSIZE) perm n m' m₂) :
    Code.Maps d a pa perm (n + 1) m m₂ := by
  intro v small
  rw [more v small,one v small]
  by_cases first : v = a
  · subst first
    rw [if_neg (by omega),if_pos (by omega),if_pos (by omega)]
  · by_cases later : a + 1 ≤ v ∧ v < a + 1 + n
    · rw [if_pos later,if_pos (by omega),Code.mapped,Code.mapped]
      have same : pa + PGSIZE + (v - (a + 1)) * PGSIZE = pa + (v - a) * PGSIZE := by
        rw [show v - a = v - (a + 1) + 1 by omega,Nat.add_mul]
        omega
      rw [same]
    · rw [if_neg later,if_neg (by omega),if_neg (by omega)]

theorem Code.mappages_from_spec {last perm : Nat} (n : Nat) : ∀ {a pa fuel : Nat} {m : Mach} {l : List Nat}, Tree m d l →
    last = (a + n) * PGSIZE → a + n < 2 ^ 20 → n < fuel → (∀ v, a ≤ v → v ≤ a + n → has (entry m.mem d v) PTE_P = false) →
    post (Code.mappages_from d last perm fuel (a * PGSIZE) (pa % 2 ^ 32)) (fun r m' => ∃ done c, r = some done ∧ c ≤ n + 1 ∧
      (done = true → c = n + 1) ∧ Code.Maps d a pa perm c m m') E m := by
  have nothing {a pa : Nat} {m m' : Mach} (same : m'.mem = m.mem) : Code.Maps d a pa perm 0 m m' := by
    intro v _
    rw [if_neg (by omega),same]
  induction n with
  | zero =>
    intro a pa fuel m l tree same below enough absent
    obtain ⟨fuel,rfl⟩ : ∃ f, fuel = f + 1 := ⟨fuel - 1,by omega⟩
    refine Code.mappages_turn tree below (absent a (le_refl _) (by omega)) (fun m' same => ?_) fun l' m' _ maps => ?_
    · exact ⟨false,0,rfl,by omega,nofun,nothing same⟩
    · rw [if_pos same.symm]
      exact ⟨true,1,rfl,le_refl _,fun _ => rfl,maps⟩
  | succ n ih =>
    intro a pa fuel m l tree same below enough absent
    obtain ⟨fuel,rfl⟩ : ∃ f, fuel = f + 1 := ⟨fuel - 1,by omega⟩
    refine Code.mappages_turn tree (by omega) (absent a (le_refl _) (by omega)) (fun m' same => ?_) fun l' m' tree' maps => ?_
    · exact ⟨false,0,rfl,by omega,nofun,nothing same⟩
    · -- the address of the next page is not beyond the top
      have next : (a * PGSIZE + PGSIZE) % 2 ^ 32 = (a + 1) * PGSIZE := by
        rw [PGSIZE_eq]
        omega
      have notLast : a * PGSIZE ≠ last := by
        rw [same,PGSIZE_eq]
        omega
      have pa' : (pa % 2 ^ 32 + PGSIZE) % 2 ^ 32 = (pa + PGSIZE) % 2 ^ 32 := by rw [Nat.mod_add_mod]
      rw [if_neg notLast,next,pa']
      refine post_use (ih tree' (by rw [same,show a + 1 + n = a + (n + 1) by omega]) (by omega) (by omega) fun v low high => ?_) fun r m₂ done => ?_
      · rw [maps v (by omega),if_neg (by omega)]
        exact absent v (by omega) (by omega)
      · obtain ⟨done,c,rfl,few,all,more⟩ := done
        refine ⟨done,c + 1,rfl,by omega,fun yes => ?_,maps.trans more⟩
        rw [all yes]

theorem Sound.tree {own : Nat → Owner} (sound : Sound k own l m) (dir : own d = .dir) : Tree m d l := by
  have good := sound.toGood
  have table (i : Nat) (inside : i < 1024) (present : has (word m.mem d i) PTE_P = true) := (good.lookup dir inside present).2.1
  refine ⟨good.free,good.once,fun g member => ?_,fun member => ?_,fun i inside present => ⟨?_,fun member => ?_⟩,?_⟩
  · have small := good.small (g := g) (by simp [(good.listed g).mp member])
    omega
  · simp [(good.listed d).mp member] at dir
  · intro clash
    have owner := table i inside present
    rw [clash,dir] at owner
    cases owner
  · have owner := table i inside present
    simp [(good.listed _).mp member] at owner
  · intro i inside j inside' present present' clash
    have owner := table i inside present
    rw [clash,table j inside' present'] at owner
    cases owner
    rfl

/-- `mappages` maps the pages of its range, or the first of them when it has run out of memory, and nothing else. -/
theorem Code.mappages_exact (tree : Tree m d l) {va size pa perm fuel : Nat} (some' : 1 ≤ size) (inside : va + size - 1 < 2 ^ 32)
    (absent : ∀ v, va / PGSIZE ≤ v → v ≤ (va + size - 1) / PGSIZE → has (entry m.mem d v) PTE_P = false) (small : pa < 2 ^ 32)
    (enough : 2 ^ 20 ≤ fuel) :
    ∃ done m', Code.mappages fuel d va size pa perm m = .ok (some done,m') ∧ ∃ c ≤ (va + size - 1) / PGSIZE + 1 - va / PGSIZE,
      (done = true → c = (va + size - 1) / PGSIZE + 1 - va / PGSIZE) ∧
      ∀ v < 2 ^ 20, entry m'.mem d v = if va / PGSIZE ≤ v ∧ v < va / PGSIZE + c
        then UInt32.ofNat (pa + (v - va / PGSIZE) * PGSIZE) ||| UInt32.ofNat perm ||| UInt32.ofNat PTE_P else entry m.mem d v := by
  have order : va / PGSIZE ≤ (va + size - 1) / PGSIZE := Nat.div_le_div_right (by omega)
  have top : (va + size - 1) / PGSIZE < 2 ^ 20 := by
    rw [PGSIZE_eq]
    omega
  obtain ⟨n,count⟩ : ∃ n, (va + size - 1) / PGSIZE = va / PGSIZE + n := ⟨_,(Nat.add_sub_of_le order).symm⟩
  have last : Code.PGROUNDDOWN ((va + size - 1) % 2 ^ 32) = (va / PGSIZE + n) * PGSIZE := by
    rw [Code.PGROUNDDOWN,Nat.mod_eq_of_lt inside,count]
  have few : n < 2 ^ 20 := lt_of_le_of_lt (Nat.le_add_left n _) (count ▸ top)
  have run : post (Code.mappages_from d _ perm fuel (va / PGSIZE * PGSIZE) (pa % 2 ^ 32)) _ (fun _ => False) m :=
    Code.mappages_from_spec n tree last (by omega) (by omega) fun v low high => absent v low (by omega)
  rw [Nat.mod_eq_of_lt small] at run
  obtain ⟨_,m',ran,done,c,rfl,few,all,maps⟩ := post_returns run
  exact ⟨done,m',ran,c,by omega,fun yes => by rw [all yes]; omega,maps⟩

/-- A process with one page. -/
def oneFrame : Laid := ⟨1,4096,10,fun _ _ => 7,Laid.low_4096,by decide⟩

theorem Code.mappages_exact_oneFrame : ∃ done m', Code.mappages (2 ^ 20) 1024 8192 5000 0 PTE_W (oneFrame.mach link) = .ok (some done,m') ∧
    ∃ c ≤ 2, (done = true → c = 2) ∧ ∀ v < 2 ^ 20, entry m'.mem 1024 v = if 2 ≤ v ∧ v < 2 + c
      then UInt32.ofNat (0 + (v - 2) * PGSIZE) ||| UInt32.ofNat PTE_W ||| UInt32.ofNat PTE_P else entry (oneFrame.mach link).mem 1024 v := by
  have tree := oneFrame.sound.tree (k := link) (d := 1024) (Laid.own_dir.mpr rfl)
  refine Code.mappages_exact tree (show 1 ≤ 5000 by decide) (show 8192 + 5000 - 1 < 2 ^ 32 by decide) (fun v low high => ?_) (by decide) (le_refl _)
  have low' : 2 ≤ v := low
  have high' : v ≤ 3 := high
  rw [oneFrame.entry_mach (by omega),if_neg (show ¬v < oneFrame.n from Nat.not_lt.mpr (by change 1 ≤ v; omega))]
  rfl

theorem Code.stored {pa perm : Nat} (flags : perm < PGSIZE) :
    UInt32.ofNat (pa * PGSIZE % 2 ^ 32) ||| UInt32.ofNat perm ||| UInt32.ofNat PTE_P = pte pa (perm ||| PTE_P) := by
  have low : perm ||| PTE_P < 2 ^ 12 := Nat.or_lt_two_pow flags (by decide)
  have whole : UInt32.ofNat (pa * PGSIZE % 2 ^ 32) = UInt32.ofNat (pa * PGSIZE) := UInt32.ofNat_mod_size
  rw [pte,whole,← UInt32.ofNat_or,← UInt32.ofNat_or,Nat.or_assoc,PGSIZE_eq,Nat.mul_comm pa,show 4096 = 2 ^ 12 from rfl,
    Nat.two_pow_add_eq_or_of_lt low]

/-- The model of `mappages` that counts the pages is this one. -/
theorem Code.mappages_eq {va size pa perm fuel : Nat} (small : va < 2 ^ 32) (flags : perm < PGSIZE) (enough : 2 ^ 20 ≤ fuel) :
    Code.mappages fuel d va size (pa * PGSIZE % 2 ^ 32) perm = some <$> Vm.mappages d va size pa perm := by
  have loop {last : Nat} (n : Nat) : ∀ a pa fuel : Nat, a < 2 ^ 20 → n < 2 ^ 20 → n < fuel → (a + n) % 2 ^ 20 * PGSIZE = last →
      Code.mappages_from d last perm fuel (a * PGSIZE) (pa * PGSIZE % 2 ^ 32) = some <$> Vm.mappages_from d perm (n + 1) a pa := by
    induction n with
    | zero =>
      intro a pa fuel small _ more ends
      obtain ⟨fuel,rfl⟩ := Nat.exists_eq_succ_of_ne_zero (Nat.ne_of_gt more)
      have here : a * PGSIZE = last := by rw [← ends,Nat.add_zero,Nat.mod_eq_of_lt small]
      rw [Code.mappages_from,Vm.mappages_from]
      simp only [Nat.mul_div_cancel a (show 0 < PGSIZE by decide),map_bind,if_pos here,Code.stored flags]
      refine bind_congr fun found => ?_
      cases found with
      | none => rfl
      | some place =>
        simp only [map_bind]
        refine bind_congr fun m => ?_
        split <;> rfl
    | succ n ih =>
      intro a pa fuel small few more ends
      obtain ⟨fuel,rfl⟩ := Nat.exists_eq_succ_of_ne_zero (Nat.ne_of_gt (Nat.zero_lt_of_lt more))
      have here : a * PGSIZE ≠ last := by
        rw [← ends,PGSIZE_eq]
        omega
      have next := ih ((a + 1) % 2 ^ 20) (pa + 1) fuel (by omega) (by omega) (by omega)
        (by rw [← ends,Nat.mod_add_mod,show a + 1 + n = a + (n + 1) by omega])
      rw [show (a + 1) % 2 ^ 20 * PGSIZE = (a * PGSIZE + PGSIZE) % 2 ^ 32 by rw [PGSIZE_eq]; omega,
        show (pa + 1) * PGSIZE % 2 ^ 32 = (pa * PGSIZE % 2 ^ 32 + PGSIZE) % 2 ^ 32 by rw [PGSIZE_eq]; omega] at next
      rw [Code.mappages_from,Vm.mappages_from]
      simp only [Nat.mul_div_cancel a (show 0 < PGSIZE by decide),map_bind,if_neg here,Code.stored flags,next]
      refine bind_congr fun found => ?_
      cases found with
      | none => rfl
      | some place =>
        simp only [map_bind]
        refine bind_congr fun m => ?_
        split
        · rfl
        · rw [map_bind]
  rw [Code.mappages,Vm.mappages]
  refine loop _ _ _ _ (by rw [PGSIZE_eq]; omega) (by omega) (by omega) ?_
  rw [Code.PGROUNDDOWN]
  congr 1
  rw [PGSIZE_eq]
  omega

/-! ### `deallocuvm` -/

/-- A page that `kfree` accepts. -/
def Usable (k : Link) (g : Nat) : Prop := k.kend ≤ g ∧ g < PHYSTOP / PGSIZE

/-- The pages of the user part are pages of their own as well. -/
structure Proper (k : Link) (m : Mach) (d : Nat) (l : List Nat) : Prop extends Tree m d l where
  usable : ∀ v < 2 ^ 19, has (entry m.mem d v) PTE_P = true → Usable k (PTE_ADDR (entry m.mem d v))
  frame : ∀ v < 2 ^ 19, has (entry m.mem d v) PTE_P = true → PTE_ADDR (entry m.mem d v) ≠ d ∧ PTE_ADDR (entry m.mem d v) ∉ l ∧
    ∀ i < 1024, has (word m.mem d i) PTE_P = true → PTE_ADDR (entry m.mem d v) ≠ PTE_ADDR (word m.mem d i)
  distinct : ∀ u < 2 ^ 19, ∀ v < 2 ^ 19, has (entry m.mem d u) PTE_P = true → has (entry m.mem d v) PTE_P = true →
    PTE_ADDR (entry m.mem d u) = PTE_ADDR (entry m.mem d v) → u = v

theorem Sound.proper {own : Nat → Owner} (sound : Sound k own l m) (dir : own d = .dir) : Proper k m d l ∧ Usable k d ∧
    ∀ i < 1024, has (word m.mem d i) PTE_P = true → Usable k (PTE_ADDR (word m.mem d i)) := by
  have good := sound.toGood
  have used {g : Nat} (owner : own g ≠ .none) : Usable k g := by
    have range := good.range g owner
    exact ⟨range.1,by rw [top_eq]; exact range.2⟩
  have table (i : Nat) (inside : i < 1024) (present : has (word m.mem d i) PTE_P = true) := (good.lookup dir inside present).2.1
  have user (v : Nat) (inside : v < 2 ^ 19) (present : has (entry m.mem d v) PTE_P = true) := good.user_page dir inside present
  refine ⟨⟨sound.tree dir,?_,?_,?_⟩,used (by simp [dir]),fun i inside present => used (by simp [table i inside present])⟩
  · intro v inside present
    exact used (by simp [user v inside present])
  · intro v inside present
    have owner := user v inside present
    refine ⟨fun clash => ?_,fun member => ?_,fun i small there clash => ?_⟩
    · rw [clash,dir] at owner
      cases owner
    · simp [(good.listed _).mp member] at owner
    · rw [clash,table i small there] at owner
      cases owner
  · intro u inside v inside' present present' clash
    have owner := user u inside present
    rw [clash,user v inside' present'] at owner
    simp only [Owner.user.injEq,true_and] at owner
    omega

theorem Usable.small (usable : Usable k g) : g < 2 ^ 19 ∧ g ≠ 0 := by
  have bounds := k.bounds
  have low := usable.1
  have high := usable.2
  rw [top_eq] at high
  omega

theorem Usable.post_kfree (usable : Usable k g) {Q : Unit → Mach → Prop} : post (kfree k g) Q E m = Q () (freed m g) := by
  rw [Vm.post_kfree,if_neg]
  have low := usable.1
  have high := usable.2
  omega

theorem freeList_freed (free : FreeList m.mem m.freelist l) (other : g ∉ l) : FreeList (freed m g).mem (freed m g).freelist (g :: l) := by
  refine ⟨rfl,?_⟩
  have link : word (freed m g).mem g 0 = m.freelist := word_setWord_self _ _ (by decide) _
  rw [link]
  refine free.congr fun h member => freed_other m ?_
  rintro rfl
  exact other member

theorem Tree.freed (tree : Tree m d l) (small : g < 2 ^ 19) (root : g ≠ d) (other : g ∉ l)
    (tables : ∀ i < 1024, has (word m.mem d i) PTE_P = true → g ≠ PTE_ADDR (word m.mem d i)) :
    Tree (freed m g) d (g :: l) ∧ ∀ u < 2 ^ 20, entry (freed m g).mem d u = entry m.mem d u := by
  have same (i : Nat) : word (Vm.freed m g).mem d i = word m.mem d i := word_congr (freed_other m root.symm) i
  constructor
  · refine ⟨freeList_freed tree.free other,List.nodup_cons.mpr ⟨other,tree.once⟩,?_,?_,?_,?_⟩
    · intro h member
      rcases List.mem_cons.mp member with rfl | member
      · exact small
      · exact tree.small h member
    · simpa using ⟨root.symm,tree.root⟩
    · intro i inside present
      rw [same] at present ⊢
      obtain ⟨one,two⟩ := tree.table i inside present
      exact ⟨one,by simpa using ⟨(tables i inside present).symm,two⟩⟩
    · simp only [same]
      exact tree.apart
  · intro u inside
    exact entry_same (freed_other m root.symm) fun present => freed_other m (tables _ (by omega) present).symm

theorem Proper.release (proper : Proper k m d l) {v : Nat} (inside : v < 2 ^ 19) (present : has (entry m.mem d v) PTE_P = true)
    {α : Type} {next : VM α} {Q : α → Mach → Prop}
    (rest : ∀ m', Proper k m' d (PTE_ADDR (entry m.mem d v) :: l) → m'.mem d = m.mem d →
      (∀ u < 2 ^ 20, entry m'.mem d u = if u = v then 0 else entry m.mem d u) → post next Q E m') :
    post (do
      kfree k (PTE_ADDR (entry m.mem d v))
      store (PTE_ADDR (word m.mem d (v / 1024))) (v % 1024) 0
      next) Q E m := by
  have usable := proper.usable v inside present
  obtain ⟨root,unlisted,tables⟩ := proper.frame v inside present
  have table : has (word m.mem d (v / 1024)) PTE_P = true := by
    by_contra absent
    rw [entry,if_neg absent] at present
    simp at present
  obtain ⟨tree,same⟩ := proper.toTree.freed usable.small.1 root unlisted tables
  have dir (i : Nat) : word (freed m (PTE_ADDR (entry m.mem d v))).mem d i = word m.mem d i := word_congr (freed_other m root.symm) i
  obtain ⟨tree',entries⟩ := tree.store (v := v) (by omega) (by rw [dir]; exact table) 0
  have page := (proper.table (v / 1024) (by omega) table).1
  rw [post_bind,usable.post_kfree,post_bind,Vm.store,post_modify]
  rw [dir] at tree' entries
  have others (u : Nat) (small : u < 2 ^ 20) :
      entry (setWord (freed m (PTE_ADDR (entry m.mem d v))).mem (PTE_ADDR (word m.mem d (v / 1024))) (v % 1024) 0) d u =
        if u = v then 0 else entry m.mem d u := by
    rw [entries u small,same u small]
  have dir' (i : Nat) : word (setWord (freed m (PTE_ADDR (entry m.mem d v))).mem (PTE_ADDR (word m.mem d (v / 1024))) (v % 1024) 0) d i =
      word m.mem d i := (word_congr (setWord_page _ _ page.symm _) i).trans (dir i)
  have still {u : Nat} (small : u < 2 ^ 20)
      (there : has (entry (setWord (freed m (PTE_ADDR (entry m.mem d v))).mem (PTE_ADDR (word m.mem d (v / 1024))) (v % 1024) 0) d u) PTE_P = true) :
      u ≠ v ∧ has (entry m.mem d u) PTE_P = true := by
    rw [others u small] at there
    by_cases here : u = v
    · simp [here] at there
    · rw [if_neg here] at there
      exact ⟨here,there⟩
  refine rest _ ⟨tree',?_,?_,?_⟩ ((setWord_page _ _ page.symm _).trans (freed_other m root.symm)) others
  · intro u small there
    obtain ⟨here,there⟩ := still (by omega) there
    dsimp only
    rw [others u (by omega),if_neg here]
    exact proper.usable u small there
  · intro u small there
    obtain ⟨here,there⟩ := still (by omega) there
    obtain ⟨one,two,three⟩ := proper.frame u small there
    dsimp only
    simp only [dir']
    rw [others u (by omega),if_neg here]
    refine ⟨one,?_,three⟩
    rw [List.mem_cons,not_or]
    exact ⟨fun clash => here (proper.distinct u small v inside there present clash),two⟩
  · intro u small w small' there there' clash
    obtain ⟨here,there⟩ := still (by omega) there
    obtain ⟨here',there'⟩ := still (by omega) there'
    dsimp only at clash
    rw [others u (by omega),others w (by omega),if_neg here,if_neg here'] at clash
    exact proper.distinct u small w small' there there' clash

/-- The pages that are present between two virtual pages. -/
def frames (mem : Nat → Bytes PGSIZE) (d lo hi : Nat) : List Nat :=
  ((List.range' lo (hi - lo)).filter fun v => has (entry mem d v) PTE_P).map fun v => PTE_ADDR (entry mem d v)

variable {mem : Nat → Bytes PGSIZE} {lo hi : Nat}

theorem frames_nil (none' : hi ≤ lo) : frames mem d lo hi = [] := by
  rw [frames,Nat.sub_eq_zero_of_le none']
  rfl

theorem frames_cons (some' : lo < hi) :
    frames mem d lo hi = (if has (entry mem d lo) PTE_P then [PTE_ADDR (entry mem d lo)] else []) ++ frames mem d (lo + 1) hi := by
  rw [frames,frames,show hi - lo = hi - (lo + 1) + 1 by omega,List.range'_succ,List.filter_cons]
  split <;> rfl

theorem frames_congr (same : ∀ v, lo ≤ v → v < hi → entry mem' d v = entry mem d v) :
    frames mem' d lo hi = frames mem d lo hi := by
  have all (v : Nat) (member : v ∈ List.range' lo (hi - lo)) : entry mem' d v = entry mem d v := by
    obtain ⟨low,high⟩ := List.mem_range'_1.mp member
    exact same v low (by omega)
  rw [frames,frames,List.filter_congr fun v member => by rw [all v member]]
  exact List.map_congr_left fun v member => by rw [all v (List.mem_of_mem_filter member)]

theorem frames_skip (n : Nat)
    (absent : ∀ v, lo ≤ v → v < lo + n → has (entry mem d v) PTE_P = false) : frames mem d lo hi = frames mem d (lo + n) hi := by
  induction n with
  | zero => rfl
  | succ n ih =>
    rw [ih fun v low high => absent v low (by omega)]
    by_cases more : lo + n < hi
    · rw [frames_cons more,absent (lo + n) (by omega) (by omega)]
      rfl
    · rw [frames_nil (by omega),frames_nil (by omega)]

/-- The pages between two virtual pages have been freed, each once, and their entries cleared; nothing else has changed. -/
structure Cleared (k : Link) (d lo hi : Nat) (l : List Nat) (m m' : Mach) : Prop where
  proper : Proper k m' d ((frames m.mem d lo hi).reverse ++ l)
  root : m'.mem d = m.mem d
  entries : ∀ u < 2 ^ 20, entry m'.mem d u = if lo ≤ u ∧ u < hi ∧ has (entry m.mem d u) PTE_P = true then 0 else entry m.mem d u

theorem Cleared.done (proper : Proper k m d l) (none' : hi ≤ lo) : Cleared k d lo hi l m m := by
  refine ⟨?_,rfl,fun u _ => ?_⟩
  · rw [frames_nil none']
    exact proper
  · rw [if_neg (by omega)]

theorem Cleared.skip {lo hi n : Nat} (cleared : Cleared k d (lo + n) hi l m m')
    (absent : ∀ v, lo ≤ v → v < lo + n → has (entry m.mem d v) PTE_P = false) : Cleared k d lo hi l m m' := by
  refine ⟨?_,cleared.root,fun u small => ?_⟩
  · rw [frames_skip n absent]
    exact cleared.proper
  · rw [cleared.entries u small]
    by_cases early : lo ≤ u ∧ u < lo + n
    · rw [if_neg (by omega),if_neg]
      simp [absent u early.1 early.2]
    · refine if_congr ?_ rfl rfl
      constructor <;> rintro ⟨low,high,present⟩ <;> exact ⟨by omega,high,present⟩

theorem Cleared.cons {a hi : Nat} (more : a < hi) (small : hi ≤ 2 ^ 19) (present : has (entry m.mem d a) PTE_P = true) (root : m'.mem d = m.mem d)
    (entries : ∀ u < 2 ^ 20, entry m'.mem d u = if u = a then 0 else entry m.mem d u)
    (cleared : Cleared k d (a + 1) hi (PTE_ADDR (entry m.mem d a) :: l) m' m₂) : Cleared k d a hi l m m₂ := by
  have same : frames m'.mem d (a + 1) hi = frames m.mem d (a + 1) hi := by
    refine frames_congr fun v low high => ?_
    rw [entries v (by omega),if_neg (by omega)]
  refine ⟨?_,cleared.root.trans root,fun u inside => ?_⟩
  · have proper := cleared.proper
    rw [same] at proper
    rw [frames_cons more,if_pos present,List.reverse_append,List.append_assoc]
    exact proper
  · rw [cleared.entries u inside,entries u inside]
    by_cases here : u = a
    · subst here
      simp [more,present]
    · rw [if_neg here]
      refine if_congr ?_ rfl rfl
      constructor <;> rintro ⟨low,high,there⟩ <;> exact ⟨by omega,high,there⟩

theorem Code.jump {a : Nat} (user : a < 2 ^ 19) :
    ((Code.PGADDR (Code.PDX (a * PGSIZE) + 1) 0 0 + 2 ^ 32 - PGSIZE) % 2 ^ 32 + PGSIZE) % 2 ^ 32 = (a / 1024 + 1) * 1024 * PGSIZE := by
  have index : Code.PDX (a * PGSIZE) = a / 1024 := by
    rw [Code.PDX,PGSIZE_eq]
    omega
  rw [Code.PGADDR,index]
  simp only [Nat.shiftLeft_eq,Nat.zero_mul,Nat.or_zero,PGSIZE_eq]
  omega

theorem Code.deallocuvm_from_spec {oldsz : Nat} (below : oldsz ≤ KERNBASE) (fuel : Nat) : ∀ {a : Nat} {m : Mach} {l : List Nat},
    Proper k m d l → a ≤ 2 ^ 19 → 0 < fuel → pages oldsz < a + fuel →
    post (Code.deallocuvm_from k d oldsz fuel (a * PGSIZE)) (fun r m' => r = some () ∧ Cleared k d a (pages oldsz) l m m') E m := by
  have last := pages_user below
  induction fuel with
  | zero =>
    intro a m l _ _ none'
    exact absurd none' (by omega)
  | succ fuel ih =>
    intro a m l proper user _ enough
    rw [Code.deallocuvm_from]
    by_cases more : a * PGSIZE < oldsz
    · have more' := lt_pages.mpr more
      have page : a * PGSIZE / PGSIZE = a := Nat.mul_div_cancel _ (by decide)
      have next : (a * PGSIZE + PGSIZE) % 2 ^ 32 = (a + 1) * PGSIZE := by
        rw [PGSIZE_eq]
        omega
      rw [if_pos more,post_bind,page,post_lookup,lookup]
      by_cases table : has (word m.mem d (a / 1024)) PTE_P = true
      · have here : word m.mem (PTE_ADDR (word m.mem d (a / 1024))) (a % 1024) = entry m.mem d a := by rw [entry,if_pos table]
        rw [if_pos table]
        dsimp only
        rw [post_bind,post_get,here,next]
        by_cases present : has (entry m.mem d a) PTE_P = true
        · have usable := proper.usable a (by omega) present
          rw [if_pos present,if_neg usable.small.2]
          refine proper.release (by omega) present fun m' proper' root entries => ?_
          refine post_use (ih proper' (by omega) (by omega) (by omega)) fun r m₂ done => ?_
          exact ⟨done.1,.cons more' last present root entries done.2⟩
        · rw [if_neg present]
          refine post_use (ih proper (by omega) (by omega) (by omega)) fun r m₂ done => ⟨done.1,done.2.skip fun v low high => ?_⟩
          obtain rfl : v = a := by omega
          simpa using present
      · rw [if_neg table]
        dsimp only
        rw [Code.jump (by omega)]
        refine post_use (ih proper (by omega) (by omega) (by omega)) fun r m₂ done => ⟨done.1,?_⟩
        obtain ⟨n,jump⟩ : ∃ n, (a / 1024 + 1) * 1024 = a + n := ⟨(a / 1024 + 1) * 1024 - a,by omega⟩
        rw [jump] at done
        refine done.2.skip fun v low high => ?_
        have same : v / 1024 = a / 1024 := by omega
        rw [entry,same,if_neg table]
        simp
    · rw [if_neg more]
      rw [← lt_pages] at more
      exact ⟨rfl,.done proper (by omega)⟩

theorem Code.deallocuvm_spec (proper : Proper k m d l) {oldsz newsz fuel : Nat} (below : oldsz ≤ KERNBASE) (enough : 2 ^ 19 < fuel) :
    post (Code.deallocuvm fuel k d oldsz newsz) (fun r m' => r = some (min newsz oldsz) ∧ Cleared k d (pages newsz) (pages oldsz) l m m') E m := by
  have last := pages_user below
  unfold Code.deallocuvm
  by_cases less : newsz ≥ oldsz
  · have order : pages oldsz ≤ pages newsz := Nat.div_le_div_right (by omega)
    rw [if_pos less]
    exact ⟨by rw [min_eq_right less],.done proper order⟩
  · have small : newsz < KERNBASE := by omega
    have first := pages_user (Nat.le_of_lt small)
    have round : (newsz + PGSIZE - 1) % 2 ^ 32 / PGSIZE = pages newsz := PGROUNDUP_eq newsz (by simp only [KERNBASE] at small; omega)
    rw [if_neg less,post_bind,round]
    refine post_use (Code.deallocuvm_from_spec below fuel proper first (by omega) (by omega)) fun r m' done => ?_
    obtain ⟨rfl,cleared⟩ := done
    exact ⟨by rw [min_eq_left (by omega)],cleared⟩

/-! ### `freevm` -/

/-- The page tables of a directory, from an index on. -/
def tabs (mem : Nat → Bytes PGSIZE) (d i : Nat) : List Nat :=
  ((List.range' i (1024 - i)).filter fun i => has (word mem d i) PTE_P).map fun i => PTE_ADDR (word mem d i)

theorem tabs_cons {i : Nat} (some' : i < 1024) :
    tabs mem d i = (if has (word mem d i) PTE_P then [PTE_ADDR (word mem d i)] else []) ++ tabs mem d (i + 1) := by
  rw [tabs,tabs,show 1024 - i = 1024 - (i + 1) + 1 by omega,List.range'_succ,List.filter_cons]
  split <;> rfl

theorem tabs_congr (same : mem' d = mem d) (i : Nat) : tabs mem' d i = tabs mem d i := by
  simp only [tabs,word_congr same]

/-- The page tables from an index on are pages of their own. -/
structure Tables (k : Link) (m : Mach) (d i : Nat) (l : List Nat) : Prop where
  free : FreeList m.mem m.freelist l
  once : l.Nodup
  root : d ∉ l
  usable : ∀ j, i ≤ j → j < 1024 → has (word m.mem d j) PTE_P = true → Usable k (PTE_ADDR (word m.mem d j))
  table : ∀ j, i ≤ j → j < 1024 → has (word m.mem d j) PTE_P = true → PTE_ADDR (word m.mem d j) ≠ d ∧ PTE_ADDR (word m.mem d j) ∉ l
  apart : ∀ j < 1024, ∀ j' < 1024, has (word m.mem d j) PTE_P = true → has (word m.mem d j') PTE_P = true →
    PTE_ADDR (word m.mem d j) = PTE_ADDR (word m.mem d j') → j = j'

theorem freevm_from_frees (n : Nat) : ∀ {i : Nat} {m : Mach} {l : List Nat}, i + n = 1024 → Tables k m d i l →
    post (freevm_from k d n) (fun _ m' => FreeList m'.mem m'.freelist ((tabs m.mem d i).reverse ++ l) ∧
      ((tabs m.mem d i).reverse ++ l).Nodup ∧ d ∉ (tabs m.mem d i).reverse ++ l) E m := by
  induction n with
  | zero =>
    intro i m l last tables
    obtain rfl : i = 1024 := by omega
    exact ⟨tables.free,tables.once,tables.root⟩
  | succ n ih =>
    intro i m l last tables
    have index : NPDENTRIES - (n + 1) = i := by
      rw [show NPDENTRIES = 1024 from rfl]
      omega
    rw [freevm_from,post_bind,post_get,index,tabs_cons (by omega)]
    by_cases present : has (word m.mem d i) PTE_P = true
    · obtain ⟨root,unlisted⟩ := tables.table i (le_refl _) (by omega) present
      have usable := tables.usable i (le_refl _) (by omega) present
      have same : (freed m (PTE_ADDR (word m.mem d i))).mem d = m.mem d := freed_other m root.symm
      rw [if_pos present,if_pos present,post_bind,usable.post_kfree,List.reverse_append,List.append_assoc]
      have rest := ih (i := i + 1) (m := freed m (PTE_ADDR (word m.mem d i))) (l := PTE_ADDR (word m.mem d i) :: l) (by omega)
        ⟨freeList_freed tables.free unlisted,List.nodup_cons.mpr ⟨unlisted,tables.once⟩,by simpa using ⟨root.symm,tables.root⟩,?_,?_,?_⟩
      · rw [tabs_congr same] at rest
        exact rest
      · intro j later inside there
        rw [word_congr same] at there ⊢
        exact tables.usable j (by omega) inside there
      · intro j later inside there
        rw [word_congr same] at there ⊢
        obtain ⟨one,two⟩ := tables.table j (by omega) inside there
        refine ⟨one,?_⟩
        rw [List.mem_cons,not_or]
        refine ⟨fun clash => ?_,two⟩
        have := tables.apart j inside i (by omega) there present clash
        omega
      · intro j inside j' inside' there there' clash
        simp only [word_congr same] at there there' clash
        exact tables.apart j inside j' inside' there there' clash
    · rw [if_neg present,if_neg present]
      exact ih (by omega) ⟨tables.free,tables.once,tables.root,fun j later => tables.usable j (by omega),
        fun j later => tables.table j (by omega),tables.apart⟩

/-- `deallocuvm` frees the pages of its range, each once, and clears their entries and no others; so `freevm` frees the pages of the
    user part, the page tables and the directory, each once. -/
theorem Code.deallocuvm_exact (proper : Proper k m d l) {oldsz newsz fuel : Nat} (below : oldsz ≤ KERNBASE) (enough : 2 ^ 19 < fuel) :
    (∃ m', Code.deallocuvm fuel k d oldsz newsz m = .ok (some (min newsz oldsz),m') ∧ Cleared k d (pages newsz) (pages oldsz) l m m') ∧
      (Usable k d → (∀ i < 1024, has (word m.mem d i) PTE_P = true → Usable k (PTE_ADDR (word m.mem d i))) →
        ∃ m' l', Code.freevm fuel k d m = .ok (some (),m') ∧ FreeList m'.mem m'.freelist l' ∧ l'.Nodup ∧
          l' = d :: ((tabs m.mem d 0).reverse ++ ((frames m.mem d 0 (2 ^ 19)).reverse ++ l))) := by
  constructor
  · obtain ⟨_,m',ran,rfl,cleared⟩ := post_returns (Code.deallocuvm_spec proper below enough)
    exact ⟨m',ran,cleared⟩
  · intro dir tables
    have run : post (Code.freevm fuel k d) (fun r m' => r = some () ∧ ∃ l', FreeList m'.mem m'.freelist l' ∧ l'.Nodup ∧
        l' = d :: ((tabs m.mem d 0).reverse ++ ((frames m.mem d 0 (2 ^ 19)).reverse ++ l))) (fun _ => False) m := by
      unfold Code.freevm
      rw [post_bind]
      refine post_use (Code.deallocuvm_spec proper (le_refl KERNBASE) enough) fun r m₁ done => ?_
      obtain ⟨rfl,cleared⟩ := done
      have tree := cleared.proper.toTree
      have same := cleared.root
      have zero : pages 0 = 0 := rfl
      have all : pages KERNBASE = 2 ^ 19 := rfl
      rw [zero,all] at tree
      dsimp only
      rw [post_bind]
      refine post_use (freevm_from_frees 1024 rfl ⟨tree.free,tree.once,tree.root,?_,?_,tree.apart⟩) fun _ m₂ done => ?_
      · intro i _ inside present
        rw [word_congr same] at present ⊢
        exact tables i inside present
      · intro i _ inside present
        exact tree.table i inside present
      · obtain ⟨free,once,root⟩ := done
        rw [tabs_congr same] at free once root
        rw [post_bind,dir.post_kfree]
        exact ⟨rfl,_,freeList_freed free root,List.nodup_cons.mpr ⟨root,once⟩,rfl⟩
    obtain ⟨_,m',ran,rfl,l',free,once,list⟩ := post_returns run
    exact ⟨m',l',ran,free,once,list⟩

theorem Code.deallocuvm_exact_oneFrame :
    (∃ m', Code.deallocuvm (2 ^ 20) link 1024 4096 0 (oneFrame.mach link) = .ok (some 0,m') ∧
      Cleared link 1024 0 1 oneFrame.free (oneFrame.mach link) m') ∧
    ∃ m' l', Code.freevm (2 ^ 20) link 1024 (oneFrame.mach link) = .ok (some (),m') ∧ FreeList m'.mem m'.freelist l' ∧ l'.Nodup := by
  obtain ⟨proper,dir,tables⟩ := oneFrame.sound.proper (k := link) (d := 1024) (Laid.own_dir.mpr rfl)
  obtain ⟨cleared,freed⟩ := @Code.deallocuvm_exact _ _ _ _ proper 4096 0 (2 ^ 20) (by decide) (by decide)
  obtain ⟨m',l',ran,free,once,_⟩ := freed dir tables
  exact ⟨cleared,m',l',ran,free,once⟩

/-- The model of `deallocuvm` whose addresses do not wrap around is this one. -/
theorem Code.deallocuvm_eq {oldsz newsz fuel : Nat} (below : oldsz ≤ KERNBASE) (enough : 2 ^ 19 + 1 < fuel) :
    Code.deallocuvm fuel k d oldsz newsz = some <$> Vm.deallocuvm k d oldsz newsz := by
  have base : KERNBASE = 2147483648 := rfl
  have loop (n : Nat) : ∀ a fuel : Nat, oldsz ≤ (a + n) * PGSIZE → n < fuel →
      Code.deallocuvm_from k d oldsz fuel (a * PGSIZE) = some <$> Vm.deallocuvm_from k d oldsz n a := by
    induction n with
    | zero =>
      intro a fuel ends more
      obtain ⟨fuel,rfl⟩ := Nat.exists_eq_succ_of_ne_zero (Nat.ne_of_gt more)
      rw [Nat.add_zero] at ends
      rw [Code.deallocuvm_from,if_neg (Nat.not_lt.mpr ends)]
      rfl
    | succ n ih =>
      intro a fuel ends more
      obtain ⟨fuel,rfl⟩ := Nat.exists_eq_succ_of_ne_zero (Nat.ne_of_gt (Nat.zero_lt_of_lt more))
      rw [Code.deallocuvm_from,Vm.deallocuvm_from,Nat.mul_div_cancel a (show 0 < PGSIZE by decide)]
      split
      · next inside =>
        have user : a < 2 ^ 19 := by
          rw [PGSIZE_eq] at inside
          omega
        have next : (a * PGSIZE + PGSIZE) % 2 ^ 32 = (a + 1) * PGSIZE := by
          rw [PGSIZE_eq]
          omega
        have step := ih (a + 1) fuel (by rwa [Nat.add_right_comm]) (by omega)
        have skip := ih ((a / 1024 + 1) * 1024) fuel
          (Nat.le_trans ends (Nat.mul_le_mul_right _ (by omega))) (by omega)
        simp only [map_bind,Code.jump user,next,step,skip]
        refine bind_congr fun found => ?_
        cases found with
        | none => rfl
        | some place =>
          simp only [map_bind]
          refine bind_congr fun m => ?_
          split
          · split
            · rfl
            · simp only [map_bind]
          · rfl
      · rfl
  rw [Code.deallocuvm,Vm.deallocuvm]
  split
  · rfl
  · next less =>
    rw [PGROUNDUP,loop (oldsz / PGSIZE + 1 - (newsz + PGSIZE - 1) % 2 ^ 32 / PGSIZE)]
    · simp
    · rw [PGSIZE_eq]
      omega
    · rw [PGSIZE_eq]
      omega

theorem Code.freevm_eq {fuel : Nat} (enough : 2 ^ 19 + 1 < fuel) : Code.freevm fuel k d = some <$> Vm.freevm k d := by
  rw [Code.freevm,Vm.freevm,Code.deallocuvm_eq (le_refl _) enough]
  simp

end Xv6.Vm
