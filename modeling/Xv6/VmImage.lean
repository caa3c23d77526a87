import Xv6.VmGrow
import Xv6.Exec

/-!
The image of a new program. It is built in a directory of its own: pages are added and written
to, and the guard page is made inaccessible; what belongs to others is left alone all the time.
-/
namespace Xv6.Vm
open Xv6 Xv6.Lib Function

variable {k : Link} {own own' own₂ : Nat → Owner} {l l' l₂ : List Nat} {m m' m₂ : Mach} {d g t : Nat} {E : String → Prop}

/-! ### Bytes of user memory -/

/-- The byte at a virtual address. -/
def peek (mem : Nat → Bytes PGSIZE) (d a : Nat) : UInt8 := byteAt (mem (PTE_ADDR (entry mem d (a / PGSIZE)))) (a % PGSIZE)

/-- Memory with bytes of a page replaced. -/
def Mach.poke (m : Mach) (page off n : Nat) (src : Nat → UInt8) : Mach :=
  { m with mem := update m.mem page (splice (m.mem page) off n src) }

/-- Bytes have been written to pages of the user part that are there. -/
structure Poked (k : Link) (d lo n : Nat) (src : Nat → UInt8) (own : Nat → Owner) (l : List Nat) (m m' : Mach) : Prop where
  work : Work k d own m own l m'
  entries : ∀ v < 2 ^ 20, entry m'.mem d v = entry m.mem d v
  bytes : ∀ a < KERNBASE, peek m'.mem d a = if lo ≤ a ∧ a < lo + n then src (a - lo) else peek m.mem d a

theorem Poked.nothing (sound : Sound k own l m) (dir : own d = .dir) {lo : Nat} {src : Nat → UInt8} : Poked k d lo 0 src own l m m :=
  ⟨.refl sound dir,fun _ _ => rfl,fun a _ => (if_neg (by omega)).symm⟩

theorem Poked.trans {lo n n' : Nat} {src : Nat → UInt8} (one : Poked k d lo n src own l m m')
    (two : Poked k d (lo + n) n' (fun i => src (n + i)) own l m' m₂) : Poked k d lo (n + n') src own l m m₂ := by
  refine ⟨one.work.trans two.work,fun v small => (two.entries v small).trans (one.entries v small),fun a user => ?_⟩
  rw [two.bytes a user,one.bytes a user]
  split_ifs <;> first | rfl | omega | skip
  congr 1
  omega

theorem Mach.poke_zero (m : Mach) (page off : Nat) (src : Nat → UInt8) : m.poke page off 0 src = m := by
  have same : splice (m.mem page) off 0 src = m.mem page := funext fun i => if_neg (by omega)
  rw [Mach.poke,same,update_eq_self]

theorem Sound.poke (sound : Sound k own l m) (dir : own d = .dir) {v off n : Nat} (user : v < 2 ^ 19)
    (present : has (entry m.mem d v) PTE_P = true) (fits : off + n ≤ PGSIZE) (src : Nat → UInt8) :
    Poked k d (v * PGSIZE + off) n src own l m (m.poke (PTE_ADDR (entry m.mem d v)) off n src) := by
  rcases Nat.eq_zero_or_pos n with rfl | some'
  · rw [Mach.poke_zero]
    exact .nothing sound dir
  have good := sound.toGood
  have owner := good.user_page dir user present
  generalize page : PTE_ADDR (entry m.mem d v) = g at *
  have written := good.write (g := g) (splice (m.mem g) off n src) (by simp [owner])
  have others (h : Nat) (other : h ≠ g) : update m.mem g (splice (m.mem g) off n src) h = m.mem h := update_of_ne other ..
  have entries (e u : Nat) (root : own e = .dir) (small : u < 2 ^ 20) :
      entry (update m.mem g (splice (m.mem g) off n src)) e u = entry m.mem e u := by
    refine good.entry_congr root (others e ?_) (fun h i tab => others h ?_) small
    · rintro rfl; simp [owner] at root
    · rintro rfl; simp [owner] at tab
  have tidy := sound.tidy d dir
  have notDir : d ≠ g := by rintro rfl; simp [owner] at dir
  unfold Mach.poke
  refine ⟨.of sound written dir (fun h _ other => ⟨rfl,others h ?_⟩) (fun _ => id) ⟨fun h i tab => ?_,fun h i j used => ?_⟩,
    fun u small => entries d u dir small,fun a below => ?_⟩
  · rintro rfl; exact other (of_user owner)
  · rw [word_congr (others d notDir)]
    exact tidy.tab h i tab
  · obtain ⟨low,index,here,addr⟩ := tidy.user h i j used
    rw [entries d _ dir (by omega)]
    exact ⟨low,index,here,addr⟩
  · have small : a / PGSIZE < 2 ^ 19 := by
      simp only [KERNBASE] at below
      rw [PGSIZE_eq]
      omega
    have split' : a = a / PGSIZE * PGSIZE + a % PGSIZE := (Nat.div_add_mod' a PGSIZE).symm
    have rest : a % PGSIZE < PGSIZE := Nat.mod_lt _ (by decide)
    unfold peek
    dsimp only
    rw [entries d _ dir (by omega)]
    by_cases here : a / PGSIZE = v
    · rw [here,page,update_self,byteAt_splice]
      rw [here] at split'
      congr 1
      · simp only [eq_iff_iff]
        constructor <;> intro both <;> omega
      · congr 1
        omega
    · -- another virtual page is another page
      rw [others,if_neg]
      · intro both
        apply here
        rw [PGSIZE_eq] at *
        omega
      · intro same
        by_cases there : has (entry m.mem d (a / PGSIZE)) PTE_P = true
        · have owner' := good.user_page dir small there
          rw [same,owner] at owner'
          simp only [Owner.user.injEq,true_and] at owner'
          omega
        · rw [good.user_absent dir small (by simpa using there),addr_zero] at same
          exact good.pos (g := g) (by simp [owner]) same.symm

/-! ### Adding pages -/

/-- A directory that has been made, with the pages below a size. -/
structure Built (k : Link) (d sz : Nat) (own : Nat → Owner) (m : Mach) (own' : Nat → Owner) (l' : List Nat) (m' : Mach) : Prop where
  made : Made k d own m own' l' m'
  size : sz ≤ KERNBASE
  user : ∀ v < pages sz, ∃ g < 2 ^ 20, entry m'.mem d v = pte g 7
  past : ∀ v < 2 ^ 19, pages sz ≤ v → view m'.mem d v = none

theorem Built.poked {sz lo n : Nat} {src : Nat → UInt8} (built : Built k d sz own m own' l' m')
    (poked : Poked k d lo n src own' l' m' m₂) : Built k d sz own m own' l' m₂ := by
  have last := pages_user built.size
  refine ⟨built.made.work poked.work,built.size,fun v inside => ?_,fun v user high => ?_⟩
  · rw [poked.entries v (by omega)]
    exact built.user v inside
  · have absent := built.past v user high
    rw [view] at absent ⊢
    rw [poked.entries v (by omega)]
    split at absent
    · cases absent
    · next none' => rw [if_neg none']

theorem peek_view {mem mem' : Nat → Bytes PGSIZE} {a : Nat} (present : has (entry mem d (a / PGSIZE)) PTE_P = true)
    (same : view mem' d (a / PGSIZE) = view mem d (a / PGSIZE)) : peek mem' d a = peek mem d a := by
  have present' : has (entry mem' d (a / PGSIZE)) PTE_P = true := by rwa [has_view same]
  rw [view,view,if_pos present,if_pos present',Option.some.injEq,Prod.mk.injEq] at same
  rw [peek,peek,same.2]

theorem entry_of_view {mem : Nat → Bytes PGSIZE} {v : Nat} {w : UInt32} {page : Bytes PGSIZE} (seen : view mem d v = some (w,page)) :
    entry mem d v = w := by
  rw [view] at seen
  split at seen
  · simp only [Option.some.injEq,Prod.mk.injEq] at seen
    exact seen.1
  · cases seen

theorem Built.present {sz v : Nat} (built : Built k d sz own m own' l' m') (inside : v < pages sz) :
    has (entry m'.mem d v) PTE_P = true := by
  obtain ⟨g,small,here⟩ := built.user v inside
  rw [here]
  exact pte_present small

/-- `allocuvm` adds pages to an image, or the image is given up. -/
theorem Built.allocuvm {sz newsz : Nat} (built : Built k d sz own m own' l' m') :
    post (allocuvm k d sz newsz) (fun r m₂ => (∃ own₂ l₂, Made k d own m own₂ l₂ m₂) ∧
      (r ≠ 0 → r = max sz newsz ∧ newsz < KERNBASE ∧ ∃ own₂ l₂, Built k d r own m own₂ l₂ m₂ ∧
        ∀ a < sz, peek m₂.mem d a = peek m'.mem d a) ∧
      (r = 0 → 0 < newsz → newsz < KERNBASE → ∃ i < 2 * (pages newsz - pages sz), Fails i l' m')) E m' := by
  have made := built.made
  have last := pages_user built.size
  refine post_use (allocuvm_spec made.sound made.dir built.size built.past) fun r m₂ done => ?_
  rcases done with ⟨high,rfl,rfl⟩ | ⟨below,less,rfl,rfl⟩ | ⟨below,more,done,rfl,result⟩
  · exact ⟨⟨_,_,made⟩,fun no => absurd rfl no,fun _ _ low => by omega⟩
  · exact ⟨⟨_,_,made⟩,fun _ => ⟨by omega,below,_,_,built,fun _ _ => rfl⟩,fun _ _ _ => by omega⟩
  · cases done with
    | false =>
      obtain ⟨⟨own₂,l₂,work,_⟩,fails⟩ := result
      exact ⟨⟨own₂,l₂,made.work work⟩,fun no => absurd rfl no,fun _ _ _ => fails⟩
    | true =>
      obtain ⟨own₂,l₂,grown,_⟩ := result
      have top := pages_user (Nat.le_of_lt below)
      have order : pages sz ≤ pages newsz := by
        simp only [pages]
        omega
      refine ⟨⟨own₂,l₂,made.work grown.work⟩,fun _ => ⟨(max_eq_right more).symm,below,own₂,l₂,?_,fun a inside => ?_⟩,
        fun none' some' => absurd none' (Nat.ne_of_gt some')⟩
      · refine ⟨made.work grown.work,Nat.le_of_lt below,fun v inside => ?_,fun v user high => ?_⟩
        · change v < pages newsz at inside
          by_cases new : pages sz ≤ v
          · obtain ⟨g,_,small,seen⟩ := grown.new v new inside
            exact ⟨g,small,entry_of_view seen⟩
          · obtain ⟨g,small,here⟩ := built.user v (by omega)
            have seen := grown.views v (by omega) (by omega)
            rw [view,view,if_pos (built.present (by omega)),if_pos] at seen
            · simp only [Option.some.injEq,Prod.mk.injEq] at seen
              exact ⟨g,small,seen.1.trans here⟩
            · rw [has_view (grown.views v (by omega) (by omega))]
              exact built.present (by omega)
        · change pages newsz ≤ v at high
          rw [grown.views v user (by omega)]
          exact built.past v user (by omega)
      · have page : a / PGSIZE < pages sz := by
          rw [lt_pages]
          have := Nat.div_mul_le_self a PGSIZE
          omega
        exact peek_view (built.present page) (grown.views _ (by omega) (by omega))

theorem setupkvm_built (sound : Sound k own l m) :
    post (setupkvm k) (fun r m' => match r with
      | none => ∃ l', Sound k own l' m' ∧ ∀ g, own g ≠ .free → m'.mem g = m.mem g
      | some d => ∃ own' l', Built k d 0 own m own' l' m') E m := by
  refine post_use (setupkvm_spec sound) fun r m' done => ?_
  cases r with
  | none => exact done.1
  | some d =>
    obtain ⟨own',l',made,bare,_⟩ := done
    exact ⟨own',l',made,Nat.zero_le _,fun v inside => absurd inside (Nat.not_lt_zero v),fun v user _ => bare v user⟩

/-! ### The guard page -/

theorem lookup_entry {mem : Nat → Bytes PGSIZE} {v : Nat} (some' : entry mem d v ≠ 0) :
    ∃ t i, lookup mem d v = some (t,i) ∧ word mem t i = entry mem d v := by
  unfold entry at some' ⊢
  unfold lookup
  split
  · exact ⟨_,_,rfl,rfl⟩
  · next absent =>
    rw [if_neg absent] at some'
    exact absurd rfl some'

theorem Sound.clear (sound : Sound k own l m) (dir : own d = .dir) {v : Nat} (user : v < 2 ^ 19) (small : g < 2 ^ 20)
    (here : entry m.mem d v = pte g 7) {Q : Unit → Mach → Prop}
    (next : ∀ m', (∀ a < KERNBASE, a / PGSIZE ≠ v → has (entry m.mem d (a / PGSIZE)) PTE_P = true →
      peek m'.mem d a = peek m.mem d a) → Q () m') : post (clearpteu d v) Q E m := by
  have good := sound.toGood
  have present : has (word m.mem d (v / 1024)) PTE_P = true := by
    by_contra absent
    rw [entry,if_neg absent] at here
    exact pte_ne_zero small here.symm
  obtain ⟨pde,owner,_⟩ := good.lookup dir (show v / 1024 < 1024 by omega) present
  unfold clearpteu
  rw [post_bind,post_lookup,lookup,if_pos present]
  generalize PTE_ADDR (word m.mem d (v / 1024)) = t at *
  dsimp only
  simp only [post_bind,post_get,post_store]
  refine next _ fun a below other there => ?_
  have low : a / PGSIZE < 2 ^ 19 := by
    simp only [KERNBASE] at below
    rw [PGSIZE_eq]
    omega
  have page := good.user_page dir low there
  unfold peek
  dsimp only
  rw [good.entry_setPte dir (by omega) pde owner _ (by omega),if_neg other,setWord_page]
  rintro same
  rw [same,owner] at page
  cases page

/-- `exec` gets its stack and the guard page before it, or the image is given up. -/
theorem Built.guard {sz : Nat} (built : Built k d sz own m own' l' m') :
    post (exec_guard k d sz) (fun r m₂ => match r with
      | none => ∃ own₂ l₂, Made k d own m own₂ l₂ m₂
      | some size => size = (pages sz + 2) * PGSIZE ∧ size < KERNBASE ∧ ∀ a < sz, peek m₂.mem d a = peek m'.mem d a) E m' := by
  have base : KERNBASE = 2147483648 := rfl
  have size := built.size
  have round : PGROUNDUP sz * PGSIZE = pages sz * PGSIZE := by rw [PGROUNDUP_eq _ (by omega)]
  have count : pages (pages sz * PGSIZE) = pages sz := by
    rw [PGSIZE_eq]
    simp only [pages]
    omega
  -- the size is rounded up, with the same pages
  have rounded : Built k d (pages sz * PGSIZE) own m own' l' m' := by
    refine ⟨built.made,?_,by rw [count]; exact built.user,by rw [count]; exact built.past⟩
    rw [PGSIZE_eq]
    simp only [pages]
    omega
  have small : (pages sz * PGSIZE + 2 * PGSIZE) % 2 ^ 32 = (pages sz + 2) * PGSIZE := by
    rw [PGSIZE_eq] at *
    simp only [pages]
    omega
  unfold exec_guard
  rw [round]
  dsimp only
  rw [small,post_bind]
  refine post_use rounded.allocuvm ?_
  rintro r m₂ ⟨made,more⟩
  split
  · exact made
  · next some' =>
    obtain ⟨rfl,below,own₂,l₂,built₂,bytes⟩ := more.1 some'
    have larger : max (pages sz * PGSIZE) ((pages sz + 2) * PGSIZE) = (pages sz + 2) * PGSIZE := by
      rw [PGSIZE_eq]
      omega
    rw [larger] at built₂ ⊢
    have all : pages ((pages sz + 2) * PGSIZE) = pages sz + 2 := by
      rw [PGSIZE_eq]
      simp only [pages]
      omega
    have guard : ((pages sz + 2) * PGSIZE - 2 * PGSIZE) / PGSIZE = pages sz := by
      rw [PGSIZE_eq]
      omega
    obtain ⟨g,smallPage,here⟩ := built₂.user (pages sz) (by omega)
    rw [guard,post_bind]
    have user : pages sz < 2 ^ 19 := by
      rw [PGSIZE_eq] at below
      omega
    refine built₂.made.sound.clear built₂.made.dir user smallPage here fun m₃ kept => ?_
    refine ⟨rfl,below,fun a inside => ?_⟩
    have page : a / PGSIZE < pages sz := by
      rw [lt_pages]
      have := Nat.div_mul_le_self a PGSIZE
      omega
    rw [kept a (by omega) (by omega) (built₂.present (by omega)),
      bytes a (by rw [PGSIZE_eq]; simp only [pages]; omega)]

end Xv6.Vm
