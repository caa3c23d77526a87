import Xv6.Vm

/-!
Who owns a page. Every page that the allocator has is given one owner: the free list, a page directory, an entry of a
directory, an entry of a page table, or a holder that `vm.c` knows nothing of.
-/
namespace Xv6.Vm
open Xv6.Lib Function

/-! ### Words and addresses -/

theorem PGSIZE_eq : PGSIZE = 4096 := rfl
theorem top_eq : PHYSTOP / PGSIZE = 57344 := rfl

variable {page flags : Nat}

theorem pte_toNat (small : page < 2 ^ 20) (low : flags < PGSIZE) :
    (pte page flags).toNat = page * PGSIZE + flags := by
  rw [pte,UInt32.toNat_ofNat']
  apply Nat.mod_eq_of_lt
  rw [PGSIZE_eq] at *
  omega

theorem addr_pte (small : page < 2 ^ 20) (low : flags < PGSIZE) : PTE_ADDR (pte page flags) = page := by
  rw [PTE_ADDR,pte_toNat small low]
  rw [PGSIZE_eq] at *
  omega

theorem flags_pte (small : page < 2 ^ 20) (low : flags < PGSIZE) : PTE_FLAGS (pte page flags) = flags := by
  rw [PTE_FLAGS,pte_toNat small low]
  rw [PGSIZE_eq] at *
  omega

theorem has_P_iff (w : UInt32) : has w PTE_P = true ↔ PTE_FLAGS w % 2 = 1 := by
  simp only [has,PTE_P,PTE_FLAGS,PGSIZE_eq,beq_iff_eq,Nat.div_one]
  omega

theorem has_U_iff (w : UInt32) : has w PTE_U = true ↔ PTE_FLAGS w / 4 % 2 = 1 := by
  simp only [has,PTE_U,PTE_FLAGS,PGSIZE_eq,beq_iff_eq]
  omega

@[simp] theorem has_zero (flag : Nat) : has 0 flag = false := by simp [has]

theorem addr_zero : PTE_ADDR 0 = 0 := rfl

variable {i : Nat}

theorem word_setWord_self (mem : Nat → Bytes PGSIZE) (page : Nat) (inside : i < 1024) (w : UInt32) :
    word (setWord mem page i w) page i = w := by
  rw [word,setWord,update_self]
  exact get32_put32 _ (by rw [PGSIZE_eq]; omega) w

theorem word_setWord_index (mem : Nat → Bytes PGSIZE) (page : Nat) {i j : Nat} (other : j ≠ i) (w : UInt32) :
    word (setWord mem page i w) page j = word mem page j := by
  rw [word,setWord,update_self]
  exact get32_put32_apart _ (by omega)

theorem setWord_page (mem : Nat → Bytes PGSIZE) {page g : Nat} (i : Nat) (other : g ≠ page) (w : UInt32) :
    setWord mem page i w g = mem g := update_of_ne other ..

variable {mem mem' : Nat → Bytes PGSIZE} {page : Nat}

theorem word_congr (same : mem' page = mem page) (i : Nat) :
    word mem' page i = word mem page i := by rw [word,word,same]

variable {mem : Nat → Bytes PGSIZE}

theorem word_zeros (zeros : mem page = fun _ => 0) (i : Nat) :
    word mem page i = 0 := by
  have bytes : ∀ k, byteAt (n := PGSIZE) (fun _ => 0) k = 0 := by
    intro k
    unfold byteAt
    split <;> rfl
  rw [word,zeros,get32,getLE]
  simp [leNat,bytes]

theorem P2V_toNat (small : page < 2 ^ 19) : (P2V page).toNat = KERNBASE + page * PGSIZE := by
  rw [P2V,UInt32.toNat_ofNat']
  apply Nat.mod_eq_of_lt
  simp only [KERNBASE,PGSIZE_eq]
  omega

theorem V2P_P2V (small : page < 2 ^ 19) : V2P (P2V page) = page := by
  rw [V2P,P2V_toNat small,Nat.add_sub_cancel_left,Nat.mul_div_cancel _ (by decide)]

theorem P2V_ne_zero (small : page < 2 ^ 19) : P2V page ≠ 0 := by
  intro zero
  have value := P2V_toNat small
  rw [zero] at value
  simp only [KERNBASE,UInt32.toNat_zero] at value
  omega

/-! ### Owners -/

inductive Owner where
  /-- a page that the allocator never had -/
  | none
  | free
  /-- allocated, and known to nobody else -/
  | held
  | kstack (p : Nat)
  | pipe
  /-- a page directory -/
  | dir
  /-- the page table in an entry of a directory -/
  | tab (d i : Nat)
  /-- the page in an entry of the user part -/
  | user (d i j : Nat)
  deriving DecidableEq

/-- The list that the links of free pages make. -/
def FreeList (mem : Nat → Bytes PGSIZE) : UInt32 → List Nat → Prop
  | v,[] => v = 0
  | v,g :: l => v = P2V g ∧ FreeList mem (word mem g 0) l

/-- An entry of a page table: in the user part, of a page that it owns. -/
def Pte (own : Nat → Owner) (d i j : Nat) (w : UInt32) : Prop :=
  if i < 512 then w = 0 ∨ has w PTE_P = true ∧ own (PTE_ADDR w) = .user d i j else has w PTE_U = false

/-- An entry of a directory, with the page table in it. -/
def Pde (own : Nat → Owner) (mem : Nat → Bytes PGSIZE) (d i : Nat) (w : UInt32) : Prop :=
  w = 0 ∨ ∃ t, w = pte t 7 ∧ own t = .tab d i ∧ ∀ j < 1024, Pte own d i j (word mem t j)

/-- The pages are those of their owners; the free list is `l`. -/
structure Good (k : Link) (own : Nat → Owner) (l : List Nat) (m : Mach) : Prop where
  range : ∀ g, own g ≠ .none → k.kend ≤ g ∧ g < 57344
  free : FreeList m.mem m.freelist l
  once : l.Nodup
  listed : ∀ g, g ∈ l ↔ own g = .free
  dir : ∀ d, own d = .dir → ∀ i < 1024, Pde own m.mem d i (word m.mem d i)

variable {k : Link} {own own' : Nat → Owner} {l : List Nat} {m m' : Mach} {d g t : Nat}

theorem FreeList.congr : ∀ {v : UInt32} {l : List Nat}, FreeList mem v l →
    (∀ g ∈ l, mem' g = mem g) → FreeList mem' v l
  | _,[],list,_ => list
  | _,g :: l,list,same => by
    refine ⟨list.1,?_⟩
    rw [word_congr (same g List.mem_cons_self)]
    exact list.2.congr fun h member => same h (List.mem_cons_of_mem _ member)

theorem FreeList.unique : ∀ {v : UInt32} {l l' : List Nat}, FreeList mem v l → FreeList mem v l' → (∀ g ∈ l, g < 57344) →
    (∀ g ∈ l', g < 57344) → l = l'
  | _,[],[],_,_,_,_ => rfl
  | _,[],g :: _,one,two,_,low => absurd (two.1.symm.trans one) (P2V_ne_zero (by have := low g List.mem_cons_self; omega))
  | _,g :: _,[],one,two,low,_ => absurd (one.1.symm.trans two) (P2V_ne_zero (by have := low g List.mem_cons_self; omega))
  | _,g :: l,g' :: l',one,two,low,low' => by
    have small := low g List.mem_cons_self
    have small' := low' g' List.mem_cons_self
    have same : g = g' := by rw [← V2P_P2V (show g < 2 ^ 19 by omega),← one.1,two.1,V2P_P2V (by omega)]
    subst same
    rw [one.2.unique two.2 (fun h member => low h (List.mem_cons_of_mem _ member)) fun h member => low' h (List.mem_cons_of_mem _ member)]

theorem Pte.zero (own : Nat → Owner) (d i j : Nat) : Pte own d i j 0 := by
  unfold Pte
  split_ifs
  · exact .inl rfl
  · simp

variable {w : UInt32}

theorem Pte.congr {i j : Nat} (entry : Pte own d i j w)
    (same : ∀ g, own g = .user d i j → own' g = .user d i j) : Pte own' d i j w := by
  unfold Pte at entry ⊢
  split_ifs with user
  · rw [if_pos user] at entry
    exact entry.imp_right fun ⟨here,owner⟩ => ⟨here,same _ owner⟩
  · rwa [if_neg user] at entry

theorem Pde.congr (entry : Pde own mem d i w)
    (tabs : ∀ g, own g = .tab d i → own' g = .tab d i ∧ mem' g = mem g)
    (users : ∀ g j, own g = .user d i j → own' g = .user d i j) : Pde own' mem' d i w := by
  refine entry.imp_right ?_
  rintro ⟨t,rfl,owner,entries⟩
  refine ⟨t,rfl,(tabs t owner).1,fun j inside => ?_⟩
  rw [word_congr (tabs t owner).2]
  exact (entries j inside).congr fun g => users g j

theorem Good.small (good : Good k own l m) (used : own g ≠ .none) : g < 57344 := (good.range g used).2

theorem Good.tab_pte (good : Good k own l m) (owner : own t = .tab d i) : PTE_ADDR (pte t 7) = t := by
  have small := good.small (g := t) (by simp [owner])
  exact addr_pte (by omega) (by decide)

theorem pte_present {t : Nat} (small : t < 2 ^ 20) : has (pte t 7) PTE_P = true := by
  rw [has_P_iff,flags_pte small (by decide)]

theorem pte_inj {t t' : Nat} (small : t < 2 ^ 20) (small' : t' < 2 ^ 20) (same : pte t 7 = pte t' 7) : t = t' := by
  rw [← addr_pte small (show 7 < PGSIZE by decide),same,addr_pte small' (by decide)]

theorem Good.congr (good : Good k own l m) (freelist : m'.freelist = m.freelist)
    (same : ∀ g, own g = .free ∨ own g = .dir ∨ (∃ d i, own g = .tab d i) → m'.mem g = m.mem g) : Good k own l m' where
  range := good.range
  free := by
    rw [freelist]
    exact good.free.congr fun g member => same g (.inl ((good.listed g).mp member))
  once := good.once
  listed := good.listed
  dir d owner i inside := by
    rw [word_congr (same d (.inr (.inl owner)))]
    exact (good.dir d owner i inside).congr (fun g tab => ⟨tab,same g (.inr (.inr ⟨d,i,tab⟩))⟩) fun _ _ => id

theorem Good.write (good : Good k own l m) (page : Bytes PGSIZE)
    (other : own g ≠ .free ∧ own g ≠ .dir ∧ ∀ d i, own g ≠ .tab d i) :
    Good k own l { m with mem := update m.mem g page } := by
  refine good.congr rfl fun h kind => update_of_ne ?_ _ _
  rintro rfl
  rcases kind with free | dir | ⟨d,i,tab⟩
  · exact other.1 free
  · exact other.2.1 dir
  · exact other.2.2 d i tab

/-- Nothing in the page tables refers to a page with such an owner; a directory is one. -/
def Owner.Plain (o : Owner) : Prop := o ≠ .none ∧ o ≠ .free ∧ (∀ d i, o ≠ .tab d i) ∧ ∀ d i j, o ≠ .user d i j

theorem Owner.plain_dir : Owner.dir.Plain := by simp [Owner.Plain]

theorem Pde.reown {o : Owner} (entry : Pde own mem d i w)
    (plain : (own g).Plain) (same : ∀ h, own h = .tab d i → mem' h = mem h) : Pde (update own g o) mem' d i w := by
  refine entry.congr (fun h tab => ⟨?_,same h tab⟩) fun h j user => ?_
  · rw [update_of_ne]
    · exact tab
    · rintro rfl; exact plain.2.2.1 d i tab
  · rw [update_of_ne]
    · exact user
    · rintro rfl; exact plain.2.2.2 d i j user

theorem Good.reown (good : Good k own l m) {o : Owner} (before : own g ≠ .none ∧ own g ≠ .free)
    (after : o ≠ .none ∧ o ≠ .free) (same : ∀ h, own h = .free → mem h = m.mem h)
    (dir : ∀ e, update own g o e = .dir → ∀ i < 1024, Pde (update own g o) mem e i (word mem e i)) :
    Good k (update own g o) l { m with mem := mem } := by
  refine ⟨fun h some' => ?_,?_,good.once,fun h => ?_,dir⟩
  · by_cases here : h = g
    · subst here; exact good.range h before.1
    · rw [update_of_ne here] at some'
      exact good.range h some'
  · exact good.free.congr fun h member => same h ((good.listed h).mp member)
  · by_cases here : h = g
    · subst here
      rw [update_self,good.listed]
      exact iff_of_false before.2 after.2
    · rw [update_of_ne here]
      exact good.listed h

theorem Good.retag (good : Good k own l m) (before : (own g).Plain) {o : Owner} (after : o ≠ .none ∧ o ≠ .free ∧ o ≠ .dir) :
    Good k (update own g o) l m := by
  refine good.reown ⟨before.1,before.2.1⟩ ⟨after.1,after.2.1⟩ (fun _ _ => rfl) fun e owner i inside => ?_
  have other : e ≠ g := by
    rintro rfl
    rw [update_self] at owner
    exact after.2.2 owner
  rw [update_of_ne other] at owner
  exact (good.dir e owner i inside).reown before fun _ _ => rfl

theorem Owner.plain_held : Owner.held.Plain := by simp [Owner.Plain]

section
variable (good : Good k own l m)
include good

theorem Good.newDir (held : own g = .held) (zeros : m.mem g = fun _ => 0) :
    Good k (update own g .dir) l m := by
  refine good.reown (by simp [held]) (by simp) (fun _ _ => rfl) fun e owner i inside => ?_
  by_cases same : e = g
  · subst same; exact .inl (word_zeros zeros i)
  · rw [update_of_ne same] at owner
    exact (good.dir e owner i inside).reown (held ▸ Owner.plain_held) fun _ _ => rfl

theorem Good.setWord (used : own t ≠ .free) (j : Nat) (w : UInt32)
    (dir : ∀ e, own e = .dir → ∀ i < 1024,
      Pde own (setWord m.mem t j w) e i (word (setWord m.mem t j w) e i)) :
    Good k own l { m with mem := Vm.setWord m.mem t j w } where
  range := good.range
  free := good.free.congr fun h member => setWord_page _ _ (by rintro rfl; exact used ((good.listed h).mp member)) _
  once := good.once
  listed := good.listed
  dir := dir

theorem Good.setPde (dir : own d = .dir) (inside : i < 1024) (owner : own g = .tab d i)
    (zeros : m.mem g = fun _ => 0) : Good k own l { m with mem := Vm.setWord m.mem d i (pte g 7) } := by
  have page (h : Nat) (kind : own h ≠ .dir) : Vm.setWord m.mem d i (pte g 7) h = m.mem h :=
    setWord_page _ _ (by rintro rfl; exact kind dir) _
  refine good.setWord (by simp [dir]) i _ fun e root i' inside' => ?_
  by_cases here : e = d ∧ i' = i
  · obtain ⟨rfl,rfl⟩ := here
    refine .inr ⟨g,word_setWord_self _ _ inside' _,owner,fun j _ => ?_⟩
    rw [word_congr (page g (by simp [owner])),word_zeros zeros]
    exact .zero ..
  · have same : word (Vm.setWord m.mem d i (pte g 7)) e i' = word m.mem e i' := by
      by_cases dirs : e = d
      · subst dirs; exact word_setWord_index _ _ (fun index => here ⟨rfl,index⟩) _
      · exact word_congr (setWord_page _ _ dirs _) _
    rw [same]
    exact (good.dir e root i' inside').congr (fun h tab => ⟨tab,page h (by simp [tab])⟩) fun _ _ => id

theorem Good.lookup (dir : own d = .dir) (inside : i < 1024)
    (present : has (word m.mem d i) PTE_P = true) :
    word m.mem d i = pte (PTE_ADDR (word m.mem d i)) 7 ∧ own (PTE_ADDR (word m.mem d i)) = .tab d i ∧
      ∀ j < 1024, Pte own d i j (word m.mem (PTE_ADDR (word m.mem d i)) j) := by
  rcases good.dir d dir i inside with zero | ⟨t,here,owner,entries⟩
  · simp [zero] at present
  · rw [here,good.tab_pte owner]
    exact ⟨rfl,owner,entries⟩

theorem Good.absent (dir : own d = .dir) (inside : i < 1024)
    (absent : has (word m.mem d i) PTE_P = false) : word m.mem d i = 0 := by
  rcases good.dir d dir i inside with zero | ⟨t,here,owner,_⟩
  · exact zero
  · have small := good.small (g := t) (by simp [owner])
    rw [here,pte_present (by omega)] at absent
    cases absent

theorem Good.setPte {i j : Nat} (owner : own t = .tab d i) (index : j < 1024)
    (entry : Pte own d i j w) : Good k own l { m with mem := Vm.setWord m.mem t j w } := by
  refine good.setWord (by simp [owner]) j w fun e root i' inside => ?_
  have other : e ≠ t := by rintro rfl; simp [owner] at root
  rw [word_congr (setWord_page _ _ other _)]
  refine (good.dir e root i' inside).imp_right ?_
  rintro ⟨t',here,owner',entries⟩
  refine ⟨t',here,owner',fun j' inside' => ?_⟩
  by_cases same : t' = t
  · subst same
    obtain ⟨rfl,rfl⟩ : d = e ∧ i = i' := by simpa [owner] using owner'
    by_cases here : j' = j
    · subst here
      rwa [word_setWord_self _ _ index]
    · rw [word_setWord_index _ _ here]
      exact entries j' inside'
  · rw [word_congr (setWord_page _ _ same _)]
    exact entries j' inside'

end

/-! ### `kalloc` and `kfree` -/

/-- Memory after `kfree`. -/
def freed (m : Mach) (g : Nat) : Mach :=
  { m with mem := Vm.setWord (update m.mem g fun _ => 1) g 0 m.freelist, freelist := P2V g }

theorem freed_other (m : Mach) {g h : Nat} (other : h ≠ g) : (freed m g).mem h = m.mem h :=
  (setWord_page _ _ other _).trans (update_of_ne other ..)

variable {E : String → Prop}

theorem post_kfree {Q : Unit → Mach → Prop} :
    post (kfree k g) Q E m = if g < k.kend ∨ g ≥ PHYSTOP / PGSIZE then E "kfree" else Q () (freed m g) := by
  unfold kfree
  split
  · rfl
  · rfl

theorem Good.post_kfree (good : Good k own l m) (used : own g ≠ .none) {Q : Unit → Mach → Prop} :
    post (kfree k g) Q E m = Q () (freed m g) := by
  obtain ⟨low,high⟩ := good.range g used
  rw [Vm.post_kfree,top_eq,if_neg (by omega)]

theorem Good.pos (good : Good k own l m) (used : own g ≠ .none) : g ≠ 0 := by
  obtain ⟨low,_⟩ := good.range g used
  have text := k.text
  have order := k.order
  simp only [EXTMEM,PGSIZE_eq] at text
  omega

theorem Good.freed (good : Good k own l m) (used : own g ≠ .none ∧ own g ≠ .free ∧ own g ≠ .dir)
    (dir : ∀ e, own e = .dir → ∀ i < 1024, Pde (update own g .free) m.mem e i (word m.mem e i)) :
    Good k (update own g .free) (g :: l) (Vm.freed m g) := by
  have fresh : g ∉ l := fun member => used.2.1 ((good.listed g).mp member)
  refine ⟨fun h some' => ?_,⟨rfl,?_⟩,List.nodup_cons.mpr ⟨fresh,good.once⟩,fun h => ?_,fun e root i inside => ?_⟩
  · by_cases here : h = g
    · subst here; exact good.range h used.1
    · rw [update_of_ne here] at some'
      exact good.range h some'
  · have link : word (Vm.freed m g).mem g 0 = m.freelist := word_setWord_self _ _ (by decide) _
    rw [link]
    refine good.free.congr fun h member => freed_other m ?_
    rintro rfl
    exact fresh member
  · by_cases here : h = g
    · subst here; simp
    · rw [update_of_ne here,List.mem_cons,good.listed]
      simp [here]
  · have other : e ≠ g := by rintro rfl; simp at root
    rw [update_of_ne other] at root
    rw [word_congr (freed_other m other)]
    refine (dir e root i inside).congr (fun h tab => ⟨tab,freed_other m ?_⟩) fun _ _ => id
    rintro rfl
    simp at tab

/-- Memory after a call of `kalloc` that fails. -/
def Mach.next (m : Mach) : Mach := { m with faults := fun n => m.faults (n + 1) }

/-- As many calls of `kalloc` have taken pages from the list. -/
structure Spent (n : Nat) (l : List Nat) (m : Mach) (l' : List Nat) (m' : Mach) : Prop where
  length : l'.length + n = l.length
  faults : ∀ i, m'.faults i = m.faults (n + i)
  lucky : ∀ i < n, m.faults i = false

/-- The first call of `kalloc` that fails. -/
structure Fails (n : Nat) (l : List Nat) (m : Mach) : Prop where
  before : ∀ i < n, i < l.length ∧ m.faults i = false
  here : l.length ≤ n ∨ m.faults n = true

theorem Spent.zero (l : List Nat) (m : Mach) : Spent 0 l m l m := ⟨rfl,by simp,fun i none' => absurd none' (Nat.not_lt_zero i)⟩

theorem Spent.trans {n n' : Nat} {l l' l₂ : List Nat} {m m' m₂ : Mach} (one : Spent n l m l' m') (two : Spent n' l' m' l₂ m₂) :
    Spent (n + n') l m l₂ m₂ := by
  refine ⟨by have := one.length; have := two.length; omega,fun i => ?_,fun i inside => ?_⟩
  · rw [two.faults,one.faults,Nat.add_assoc]
  · rcases Nat.lt_or_ge i n with early | late
    · exact one.lucky i early
    · have same := two.lucky (i - n) (by omega)
      rwa [one.faults,show n + (i - n) = i by omega] at same

theorem Spent.fails {n n' : Nat} {l l' : List Nat} {m m' : Mach} (one : Spent n l m l' m') (two : Fails n' l' m') :
    Fails (n + n') l m := by
  have length := one.length
  refine ⟨fun i inside => ?_,two.here.imp (by omega) fun fault => by rwa [one.faults] at fault⟩
  rcases Nat.lt_or_ge i n with early | late
  · exact ⟨by omega,one.lucky i early⟩
  · have same := two.before (i - n) (by omega)
    rw [one.faults,show n + (i - n) = i by omega] at same
    exact ⟨by omega,same.2⟩

theorem Fails.unique {n n' : Nat} {l : List Nat} {m : Mach} (one : Fails n l m) (two : Fails n' l m) : n = n' := by
  have not_lt {n n' : Nat} (one : Fails n l m) (two : Fails n' l m) : ¬n < n' := by
    intro less
    obtain ⟨inside,lucky⟩ := two.before n less
    rcases one.here with past | fault
    · omega
    · rw [lucky] at fault; cases fault
  have := not_lt one two
  have := not_lt two one
  omega

theorem post_kalloc {Q : Option Nat → Mach → Prop} :
    post kalloc Q E m = if m.freelist = 0 ∨ m.faults 0 = true then Q none m.next
      else Q (some (V2P m.freelist)) { m.next with freelist := word m.mem (V2P m.freelist) 0 } := by
  unfold kalloc
  simp only [post_bind,post_get]
  split <;> rfl

theorem kalloc_cases (good : Good k own l m) {Q : Option Nat → Mach → Prop}
    (fails : Fails 0 l m → Q none m.next)
    (takes : ∀ g l', l = g :: l' → own g = .free → Spent 1 l m l' { m.next with freelist := word m.mem g 0 } →
      Q (some g) { m.next with freelist := word m.mem g 0 }) : post kalloc Q E m := by
  rw [post_kalloc]
  have list := good.free
  have first' : ∀ i < 0, i < l.length ∧ m.faults i = false := fun i none' => absurd none' (Nat.not_lt_zero i)
  cases l with
  | nil =>
    rw [if_pos (.inl list)]
    exact fails ⟨first',.inl (Nat.le_refl _)⟩
  | cons g l' =>
    obtain ⟨first,_⟩ := list
    have owner : own g = .free := (good.listed g).mp List.mem_cons_self
    have small := good.small (g := g) (by simp [owner])
    rw [first,V2P_P2V (by omega)]
    have some' : P2V g ≠ 0 := P2V_ne_zero (by omega)
    by_cases fault : m.faults 0 = true
    · rw [if_pos (.inr fault)]
      exact fails ⟨first',.inr fault⟩
    · rw [if_neg (by simp [some',fault])]
      refine takes g l' rfl owner ⟨rfl,fun i => congrArg m.faults (Nat.add_comm i 1),fun i inside => ?_⟩
      · obtain rfl : i = 0 := by omega
        simpa using fault

theorem Good.taken (good : Good k own (g :: l) m) :
    Good k (update own g .held) l { m.next with freelist := word m.mem g 0 } := by
  have owner : own g = .free := (good.listed g).mp List.mem_cons_self
  obtain ⟨fresh,once⟩ := List.nodup_cons.mp good.once
  refine ⟨fun h some' => ?_,good.free.2,once,fun h => ?_,fun e root i inside => ?_⟩
  · by_cases here : h = g
    · subst here; exact good.range h (by simp [owner])
    · rw [update_of_ne here] at some'
      exact good.range h some'
  · by_cases here : h = g
    · subst here
      rw [update_self]
      exact iff_of_false fresh (by simp)
    · rw [update_of_ne here,← good.listed,List.mem_cons]
      simp [here]
  · have other : e ≠ g := by rintro rfl; simp at root
    rw [update_of_ne other] at root
    refine (good.dir e root i inside).congr (fun h tab => ⟨?_,rfl⟩) fun h j user => ?_
    · rw [update_of_ne]
      · exact tab
      · rintro rfl; simp [owner] at tab
    · rw [update_of_ne]
      · exact user
      · rintro rfl; simp [owner] at user

theorem Good.next (good : Good k own l m) : Good k own l m.next := ⟨good.range,good.free,good.once,good.listed,good.dir⟩

/-! ### Page directories -/

/-- The entry for a virtual page; 0 where there is no page table. -/
def entry (mem : Nat → Bytes PGSIZE) (d v : Nat) : UInt32 :=
  if has (word mem d (v / 1024)) PTE_P then word mem (PTE_ADDR (word mem d (v / 1024))) (v % 1024) else 0

/-- The number of page tables. -/
def tables (mem : Nat → Bytes PGSIZE) (d : Nat) : Nat := ((Finset.range 1024).filter fun i => word mem d i ≠ 0).card

theorem tables_congr (same : ∀ i < 1024, (word mem' d i ≠ 0 ↔ word mem d i ≠ 0)) :
    tables mem' d = tables mem d :=
  congrArg Finset.card (Finset.filter_congr fun i inside => same i (Finset.mem_range.mp inside))

theorem tables_insert {d i : Nat} (inside : i < 1024) (empty : word mem d i = 0)
    (full : word mem' d i ≠ 0) (same : ∀ i', i' ≠ i → word mem' d i' = word mem d i') :
    tables mem' d = tables mem d + 1 := by
  have cells : (Finset.range 1024).filter (fun i => word mem' d i ≠ 0) =
      insert i ((Finset.range 1024).filter fun i => word mem d i ≠ 0) := by
    ext i'
    simp only [Finset.mem_filter,Finset.mem_range,Finset.mem_insert]
    by_cases here : i' = i
    · subst here; simp [inside,full]
    · simp [here,same i' here]
  rw [tables,tables,cells,Finset.card_insert_of_notMem (by simp [empty])]

theorem Good.entry (good : Good k own l m) (dir : own d = .dir) {v : Nat} (small : v < 2 ^ 20) :
    Pte own d (v / 1024) (v % 1024) (entry m.mem d v) := by
  unfold Vm.entry
  split
  · next present => exact (good.lookup dir (by omega) present).2.2 _ (Nat.mod_lt _ (by decide))
  · exact .zero ..

theorem Good.entry_congr (good : Good k own l m) (dir : own d = .dir) (same : mem d = m.mem d)
    (tabs : ∀ h i, own h = .tab d i → mem h = m.mem h) {v : Nat} (small : v < 2 ^ 20) :
    Vm.entry mem d v = Vm.entry m.mem d v := by
  unfold Vm.entry
  rw [word_congr same]
  split
  · next present => exact word_congr (tabs _ _ (good.lookup dir (by omega) present).2.1) _
  · rfl

theorem Good.entry_setPte (good : Good k own l m) (dir : own d = .dir) {a : Nat} (small : a < 2 ^ 20)
    (pde : word m.mem d (a / 1024) = pte t 7) (owner : own t = .tab d (a / 1024)) (w : UInt32) {v : Nat} (inside : v < 2 ^ 20) :
    Vm.entry (Vm.setWord m.mem t (a % 1024) w) d v = if v = a then w else Vm.entry m.mem d v := by
  have apart : d ≠ t := by rintro rfl; simp [owner] at dir
  have tabSmall := good.small (g := t) (by simp [owner])
  have pdes (i : Nat) : word (Vm.setWord m.mem t (a % 1024) w) d i = word m.mem d i := word_congr (setWord_page _ _ apart _) _
  unfold Vm.entry
  simp only [pdes]
  by_cases table : v / 1024 = a / 1024
  · rw [table,pde,pte_present (by omega),addr_pte (by omega) (by decide)]
    simp only [if_true]
    by_cases same : v = a
    · subst same
      rw [if_pos rfl,word_setWord_self _ _ (Nat.mod_lt _ (by decide))]
    · rw [if_neg same,word_setWord_index _ _ (by omega)]
  · have other : v ≠ a := by rintro rfl; exact table rfl
    simp only [if_neg other]
    split
    · next present =>
      obtain ⟨_,owner',_⟩ := good.lookup dir (by omega) present
      refine word_congr (setWord_page _ _ ?_ _) _
      intro same
      rw [same,owner] at owner'
      simp only [Owner.tab.injEq,true_and] at owner'
      exact table owner'.symm
    · rfl

/-- What a walk has found, or made. -/
structure Walked (k : Link) (d i t : Nat) (own : Nat → Owner) (l : List Nat) (m : Mach) (own' : Nat → Owner) (l' : List Nat)
    (m' : Mach) : Prop where
  good : Good k own' l' m'
  owner : own' t = .tab d i
  pde : word m'.mem d i = pte t 7
  kept : ∀ g, own g ≠ .free → own' g = own g ∧ (g ≠ d → m'.mem g = m.mem g)
  taken : ∀ g, own g = .free → own' g = .free ∨ own' g = .tab d i ∧ g = t
  entries : ∀ v < 2 ^ 20, entry m'.mem d v = entry m.mem d v
  pdes : ∀ i', word m'.mem d i' = word m.mem d i' ∨ i' = i ∧ word m.mem d i' = 0
  sum : l'.length + tables m'.mem d = l.length + tables m.mem d
  spent : Spent (if word m.mem d i = 0 then 1 else 0) l m l' m'

theorem pte_ne_zero {t : Nat} (small : t < 2 ^ 20) : pte t 7 ≠ 0 := by
  intro zero
  have present := pte_present small
  simp [zero] at present

theorem Walked.found (good : Good k own l m) (dir : own d = .dir) (inside : i < 1024)
    (present : has (word m.mem d i) PTE_P = true) : Walked k d i (PTE_ADDR (word m.mem d i)) own l m own l m := by
  obtain ⟨pde,owner,_⟩ := good.lookup dir inside present
  refine ⟨good,owner,pde,fun _ _ => ⟨rfl,fun _ => rfl⟩,fun _ free => .inl free,fun _ _ => rfl,fun _ => .inl rfl,rfl,?_⟩
  rw [if_neg]
  · exact .zero l m
  · intro zero
    simp [zero] at present

theorem Walked.made (good : Good k own (g :: l) m) (dir : own d = .dir) (inside : i < 1024)
    (empty : word m.mem d i = 0) (spent : Spent 1 (g :: l) m l { m.next with freelist := word m.mem g 0 }) :
    Walked k d i g own (g :: l) m (update own g (.tab d i)) l
      { m.next with
        freelist := word m.mem g 0
        mem := setWord (update m.mem g fun _ => 0) d i (pte g 7) } := by
  have free : own g = .free := (good.listed g).mp List.mem_cons_self
  have apart : d ≠ g := by rintro rfl; simp [free] at dir
  have small := good.small (g := g) (by simp [free])
  have held := good.taken.write (fun _ => 0) (g := g) (by simp)
  have tagged := held.retag (g := g) (o := .tab d i) (by simp [Owner.Plain]) (by simp)
  rw [update_idem] at tagged
  have made := tagged.setPde (d := d) (by simp [apart,dir]) inside (g := g) (by simp) (by simp)
  have page (h : Nat) (other : h ≠ g) (other' : h ≠ d) :
      setWord (update m.mem g fun _ => 0) d i (pte g 7) h = m.mem h := by
    rw [setWord_page _ _ other',update_of_ne other]
  have new : setWord (update m.mem g fun _ => 0) d i (pte g 7) g = fun _ => 0 := by
    rw [setWord_page _ _ apart.symm,update_self]
  have here : word (setWord (update m.mem g fun _ => 0) d i (pte g 7)) d i = pte g 7 := word_setWord_self _ _ inside _
  have there (i' : Nat) (other : i' ≠ i) :
      word (setWord (update m.mem g fun _ => 0) d i (pte g 7)) d i' = word m.mem d i' := by
    rw [word_setWord_index _ _ other]
    exact word_congr (update_of_ne apart ..) _
  refine ⟨made,by simp,here,fun h used => ?_,fun h free' => ?_,fun v inside' => ?_,fun i' => ?_,?_,?_⟩
  · have other : h ≠ g := by rintro rfl; exact used free
    exact ⟨update_of_ne other ..,page h other⟩
  · rcases eq_or_ne h g with rfl | other
    · exact .inr ⟨update_self ..,rfl⟩
    · exact .inl ((update_of_ne other ..).trans free')
  · dsimp only
    unfold entry
    by_cases index : v / 1024 = i
    · rw [index,here,empty,pte_present (by omega),addr_pte (by omega) (by decide),word_zeros new]
      simp
    · rw [there _ index]
      split
      · next present =>
        obtain ⟨_,owner,_⟩ := good.lookup dir (by omega) present
        refine word_congr (page _ ?_ ?_) _
        · intro same; rw [same,free] at owner; cases owner
        · intro same; rw [same,dir] at owner; cases owner
      · rfl
  · rcases eq_or_ne i' i with rfl | other
    · exact .inr ⟨rfl,empty⟩
    · exact .inl (there i' other)
  · have more : tables _ d = tables m.mem d + 1 :=
      tables_insert inside empty (by rw [here]; exact pte_ne_zero (by omega)) there
    dsimp only
    rw [more,List.length_cons]
    omega
  · rw [if_pos empty]
    exact ⟨spent.length,spent.faults,spent.lucky⟩

variable {Q : Option (Nat × Nat) → Mach → Prop}

theorem walkpgdir_run (d va : Nat) (alloc : Bool) :
    post (walkpgdir d va alloc) Q E m =
      if has (word m.mem d (va / 1024)) PTE_P then Q (some (PTE_ADDR (word m.mem d (va / 1024)),va % 1024)) m
      else if alloc = false then Q none m
      else post kalloc (fun r m' => match r with
        | none => Q none m'
        | some g => Q (some (g,va % 1024))
          { m' with mem := setWord (update m'.mem g fun _ => 0) d (va / 1024) (pte g 7) }) E m := by
  unfold walkpgdir
  simp only [post_bind,post_get]
  split
  · rfl
  · split
    · rfl
    · rw [post_bind]
      congr 1
      funext r m'
      cases r <;> rfl

/-- The entry that is there, without making a page table. -/
def lookup (mem : Nat → Bytes PGSIZE) (d va : Nat) : Option (Nat × Nat) :=
  if has (word mem d (va / 1024)) PTE_P then some (PTE_ADDR (word mem d (va / 1024)),va % 1024) else none

theorem post_lookup (d va : Nat) :
    post (walkpgdir d va false) Q E m = Q (lookup m.mem d va) m := by
  rw [walkpgdir_run,lookup]
  split <;> rfl

theorem walkpgdir_cases (good : Good k own l m) (dir : own d = .dir) {va : Nat} (small : va < 2 ^ 20)

    (fails : Fails 0 l m → word m.mem d (va / 1024) = 0 → Q none m.next)
    (found : ∀ t own' l' m', Walked k d (va / 1024) t own l m own' l' m' → Q (some (t,va % 1024)) m') :
    post (walkpgdir d va true) Q E m := by
  have inside : va / 1024 < 1024 := by omega
  rw [walkpgdir_run]
  split
  · next present => exact found _ own l m (.found good dir inside present)
  · next absent =>
    have empty := good.absent dir inside (by simpa using absent)
    simp only [Bool.true_eq_false,if_false]
    refine kalloc_cases good (fun none' => fails none' empty) fun g l' list _ spent => ?_
    subst list
    exact found g _ _ _ (.made good dir inside empty spent)

/-- What `mappages` has done for one page. -/
structure Mapped (k : Link) (d a : Nat) (w : UInt32) (own : Nat → Owner) (l : List Nat) (m : Mach) (own' : Nat → Owner)
    (l' : List Nat) (m' : Mach) : Prop where
  good : Good k own' l' m'
  kept : ∀ g, own g ≠ .free → own' g = own g
  pages : ∀ g, own g ≠ .free → g ≠ d → (∀ i, own g ≠ .tab d i) → m'.mem g = m.mem g
  taken : ∀ g, own g = .free → own' g = .free ∨ own' g = .tab d (a / 1024) ∧ word m'.mem d (a / 1024) = pte g 7
  entries : ∀ v < 2 ^ 20, entry m'.mem d v = if v = a then w else entry m.mem d v
  pdes : ∀ i, word m'.mem d i = word m.mem d i ∨ i = a / 1024 ∧ word m.mem d i = 0
  table : word m'.mem d (a / 1024) ≠ 0
  sum : l'.length + tables m'.mem d = l.length + tables m.mem d
  spent : Spent (if word m.mem d (a / 1024) = 0 then 1 else 0) l m l' m'

theorem Walked.store {a : Nat} (walked : Walked k d (a / 1024) t own l m own' l' m') (dir : own d = .dir) (small : a < 2 ^ 20)
    (sound : Pte own' d (a / 1024) (a % 1024) w) :
    Mapped k d a w own l m own' l' { m' with mem := setWord m'.mem t (a % 1024) w } := by
  have dir' : own' d = .dir := (walked.kept d (by simp [dir])).1.trans dir
  have apart : d ≠ t := by rintro rfl; simp [walked.owner] at dir'
  have tabSmall := walked.good.small (g := t) (by simp [walked.owner])
  have pde (i : Nat) : word (setWord m'.mem t (a % 1024) w) d i = word m'.mem d i := word_congr (setWord_page _ _ apart _) _
  refine ⟨walked.good.setPte walked.owner (Nat.mod_lt _ (by decide)) sound,fun g used => (walked.kept g used).1,
    fun g used notDir notTab => ?_,fun g free => ?_,fun v inside => ?_,fun i => ?_,?_,?_,?_⟩
  · obtain ⟨owner,page⟩ := walked.kept g used
    refine (setWord_page _ _ ?_ _).trans (page notDir)
    rintro rfl
    rw [walked.owner] at owner
    exact notTab _ owner.symm
  · refine (walked.taken g free).imp_right ?_
    rintro ⟨owner,rfl⟩
    exact ⟨owner,(pde _).trans walked.pde⟩
  · rw [← walked.entries v inside]
    exact walked.good.entry_setPte dir' small walked.pde walked.owner w inside
  · exact (walked.pdes i).imp_left (pde i).trans
  · dsimp only
    rw [pde,walked.pde]
    exact pte_ne_zero (by omega)
  · have same : tables (setWord m'.mem t (a % 1024) w) d = tables m'.mem d :=
      tables_congr fun i _ => not_congr (by rw [pde])
    dsimp only
    rw [same]
    exact walked.sum
  · exact ⟨walked.spent.length,walked.spent.faults,walked.spent.lucky⟩
theorem lor_P_lt {perm : Nat} (low : perm < PGSIZE) : perm ||| PTE_P < PGSIZE :=
  Nat.or_lt_two_pow (n := 12) low (by decide)

theorem has_lor_P {page perm : Nat} (small : page < 2 ^ 20) (low : perm < PGSIZE) : has (pte page (perm ||| PTE_P)) PTE_P = true := by
  rw [has_P_iff,flags_pte small (lor_P_lt low)]
  simp [PTE_P,Nat.or_mod_two_eq_one]

theorem Pte.lor_P {i j page perm : Nat} (small : page < 2 ^ 20) (low : perm < PGSIZE) (user : i < 512)
    (owner : own page = .user d i j) : Pte own d i j (pte page (perm ||| PTE_P)) := by
  rw [Pte,if_pos user]
  exact .inr ⟨has_lor_P small low,by rwa [addr_pte small (lor_P_lt low)]⟩

theorem mappages_cases (good : Good k own l m) (dir : own d = .dir) {a pa perm n : Nat} (small : a < 2 ^ 20)
    (sound : Pte own d (a / 1024) (a % 1024) (pte pa (perm ||| PTE_P)))
    {Q : Bool → Mach → Prop}
    (fails : Fails 0 l m → word m.mem d (a / 1024) = 0 → Q false m.next)
    (remap : has (entry m.mem d a) PTE_P = true → E "remap")
    (maps : ∀ own' l' m', Mapped k d a (pte pa (perm ||| PTE_P)) own l m own' l' m' →
      post (mappages_from d perm n ((a + 1) % 2 ^ 20) (pa + 1)) Q E m') :
    post (mappages_from d perm (n + 1) a pa) Q E m := by
  rw [mappages_from,post_bind]
  refine walkpgdir_cases good dir small fails fun t own' l' m' walked => ?_
  simp only [post_bind,post_get]
  have dir' : own' d = .dir := (walked.kept d (by simp [dir])).1.trans dir
  have tabSmall := walked.good.small (g := t) (by simp [walked.owner])
  have here : word m'.mem t (a % 1024) = entry m.mem d a := by
    rw [← walked.entries a small,entry,walked.pde,pte_present (by omega),addr_pte (by omega) (by decide)]
    rfl
  split
  · next present => exact remap (here ▸ present)
  · rw [post_bind]
    refine maps own' l' _ (walked.store dir small ?_)
    refine sound.congr fun g owner => (walked.kept g ?_).1.trans owner
    simp [owner]

end Xv6.Vm
