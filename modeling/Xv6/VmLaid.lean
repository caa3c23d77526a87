import Xv6.VmMaps
import Xv6.VmProcs

/-!
A machine with one address space: the kernel's mappings and some pages from address 0 on, with any contents, and a
free list.
-/
namespace Xv6.Vm
open Xv6.Lib Function

/-- A page of words. -/
def paged (f : Nat → UInt32) : Bytes PGSIZE := fun i => leByte (f (i.val / 4)).toNat (i.val % 4)

theorem word_paged {mem : Nat → Bytes PGSIZE} {page : Nat} {f : Nat → UInt32} (here : mem page = paged f) {i : Nat}
    (inside : i < 1024) : word mem page i = f i := by
  have bytes : ∀ j < 4, byteAt (paged f) (4 * i + j) = leByte (f i).toNat j := by
    intro j small
    rw [byteAt,dif_pos (show 4 * i + j < PGSIZE by rw [PGSIZE_eq]; omega),paged]
    dsimp only
    rw [show (4 * i + j) / 4 = i by omega,show (4 * i + j) % 4 = j by omega]
  have value : getLE (paged f) (4 * i) 4 = (f i).toNat := by
    rw [getLE,leNat_congr bytes,leNat_leByte]
    exact Nat.mod_eq_of_lt (f i).toNat_lt
  rw [word,here,get32,value,UInt32.ofNat_toNat]

theorem kmapEntry_user (k : Link) (v : Nat) : has (kmapEntry (kmap k) v) PTE_U = false := by
  unfold kmapEntry
  split
  · next e found =>
    have ok := kmap_ok k e (List.mem_of_find?_eq_some found)
    have covers : e.Covers v := by simpa using List.find?_some found
    have flags : e.perm ||| PTE_P = 1 ∨ e.perm ||| PTE_P = 3 := by
      rcases ok.perm with perm | perm <;> rw [perm] <;> decide
    have high := ok.phys
    have last := covers.2
    have first := covers.1
    rw [Kmap.pte,← Bool.not_eq_true,has_U_iff]
    rcases flags with flags | flags <;> rw [flags,flags_pte (by omega) (by decide)] <;> decide
  · simp

/-- The machine: `n` pages of a process from page `u` on, then `f` free pages. -/
structure Laid where
  n : Nat
  u : Nat
  f : Nat
  body : Nat → Bytes PGSIZE
  low : 2050 ≤ u
  high : u + n + f ≤ 57344

namespace Laid
theorem low_4096 : 2050 ≤ 4096 := by decide

variable (x : Laid) (k : Link)

/-- The directory has a page table for these addresses. -/
def HasTable (i : Nat) : Prop := i < 512 ∧ 1024 * i < x.n ∨ 512 ≤ i ∧ i < 568 ∨ 1016 ≤ i ∧ i < 1024

instance (i : Nat) : Decidable (x.HasTable i) := inferInstanceAs (Decidable (_ ∨ _))

/-- The entry for a virtual page. -/
def entryOf (v : Nat) : UInt32 := if v < 2 ^ 19 then if v < x.n then pte (x.u + v) 7 else 0 else kmapEntry (kmap k) v

/-- The page directory is page 1024, the page tables follow it. -/
def mem (page : Nat) : Bytes PGSIZE :=
  if page = 1024 then paged fun i => if x.HasTable i then pte (1025 + i) 7 else 0
  else if page < 2049 then paged fun j => x.entryOf k (1024 * (page - 1025) + j)
  else if page < x.u + x.n then x.body (page - x.u)
  else paged fun _ => if page + 1 < x.u + x.n + x.f then P2V (page + 1) else 0

def mach : Mach := ⟨x.mem k,if x.f = 0 then 0 else P2V (x.u + x.n),fun _ => false⟩

/-- The page before those of the process is its kernel stack. -/
def own (g : Nat) : Owner :=
  if g = 1024 then .dir
  else if g < 2049 then if 1025 ≤ g ∧ x.HasTable (g - 1025) then .tab 1024 (g - 1025) else .none
  else if g + 1 = x.u then .kstack 0
  else if g < x.u then .none
  else if g < x.u + x.n then .user 1024 ((g - x.u) / 1024) ((g - x.u) % 1024)
  else if g < x.u + x.n + x.f then .free
  else .none

/-- The free pages. -/
def free : List Nat := List.range' (x.u + x.n) x.f

variable {x k} {g i j v : Nat}

theorem own_dir : x.own g = .dir ↔ g = 1024 := by
  unfold own
  split_ifs <;> simp_all

theorem own_tab {d : Nat} : x.own g = .tab d i ↔ d = 1024 ∧ g = 1025 + i ∧ x.HasTable i := by
  have last : x.HasTable i → i < 1024 := by unfold HasTable; omega
  unfold own
  split_ifs with root table used
  all_goals simp only [false_iff,Owner.tab.injEq]
  · rintro ⟨rfl,rfl,_⟩; omega
  · constructor
    · rintro ⟨rfl,rfl⟩; exact ⟨rfl,by omega,used.2⟩
    · rintro ⟨rfl,rfl,_⟩; exact ⟨rfl,by omega⟩
  · rintro ⟨rfl,rfl,here⟩
    exact used ⟨by omega,by rwa [Nat.add_sub_cancel_left]⟩
  all_goals
    rintro ⟨rfl,rfl,here⟩
    have := last here
    omega

theorem own_user {d : Nat} : x.own g = .user d i j ↔ d = 1024 ∧ g = x.u + (1024 * i + j) ∧ 1024 * i + j < x.n ∧ j < 1024 := by
  have low := x.low
  unfold own
  split_ifs
  all_goals simp only [false_iff,Owner.user.injEq]
  all_goals first | (rintro ⟨rfl,rfl,inside,_⟩; omega) | skip
  constructor
  · rintro ⟨rfl,rfl,rfl⟩; exact ⟨rfl,by omega,by omega,by omega⟩
  · rintro ⟨rfl,rfl,inside,small⟩; exact ⟨rfl,by omega,by omega⟩

theorem own_free : x.own g = .free ↔ x.u + x.n ≤ g ∧ g < x.u + x.n + x.f := by
  have low := x.low
  unfold own
  split_ifs
  all_goals simp only [false_iff,true_iff]
  all_goals omega

theorem own_used (used : x.own g ≠ .none) : 1024 ≤ g ∧ g < 57344 := by
  have low := x.low
  have high := x.high
  unfold own at used
  split_ifs at used <;> first | omega | exact absurd rfl used

theorem word_dir (inside : i < 1024) : word (x.mem k) 1024 i = if x.HasTable i then pte (1025 + i) 7 else 0 :=
  @word_paged (x.mem k) _ _ (if_pos rfl) _ inside

theorem word_tab (inside : i < 1024) (index : j < 1024) : word (x.mem k) (1025 + i) j = x.entryOf k (1024 * i + j) := by
  rw [word_paged (f := fun j => x.entryOf k (1024 * i + j)) _ index]
  rw [mem,if_neg (by omega),if_pos (by omega),Nat.add_sub_cancel_left]

theorem freeList (n : Nat) : ∀ {g : Nat}, x.u + x.n ≤ g → g + n = x.u + x.n + x.f →
    FreeList (x.mem k) (if n = 0 then 0 else P2V g) (List.range' g n) := by
  have low := x.low
  induction n with
  | zero => exact fun _ _ => rfl
  | succ n ih =>
    intro g first last
    refine ⟨if_neg (by omega),?_⟩
    have next : word (x.mem k) g 0 = if n = 0 then 0 else P2V (g + 1) := by
      rw [word_paged (f := fun _ => if g + 1 < x.u + x.n + x.f then P2V (g + 1) else 0) _ (by decide)]
      · split_ifs <;> first | rfl | omega
      · rw [mem,if_neg (by omega),if_neg (by omega),if_neg (by omega)]
    rw [next]
    exact ih (by omega) (by omega)

theorem good : Good k x.own x.free (x.mach k) := by
  have low := x.low
  have high := x.high
  have bounds := k.bounds
  refine ⟨fun g used => ?_,freeList x.f (le_refl _) rfl,List.nodup_range',fun g => ?_,fun d root i inside => ?_⟩
  · have := own_used used
    omega
  · rw [own_free,free,List.mem_range'_1]
  · obtain rfl := own_dir.mp root
    change Pde x.own (x.mem k) 1024 i (word (x.mem k) 1024 i)
    rw [word_dir inside]
    split
    · next here =>
      refine .inr ⟨_,rfl,own_tab.mpr ⟨rfl,rfl,here⟩,fun j index => ?_⟩
      rw [word_tab inside index,Pte,entryOf]
      split_ifs with first user some'
      · refine .inr ⟨pte_present (by omega),?_⟩
        rw [addr_pte (by omega) (by decide)]
        exact own_user.mpr ⟨rfl,rfl,some',index⟩
      · exact .inl rfl
      · omega
      · omega
      · omega
      · exact kmapEntry_user k _
    · exact .inl rfl

theorem entry_mach (user : v < 2 ^ 19) : entry (x.mach k).mem 1024 v = if v < x.n then pte (x.u + v) 7 else 0 := by
  have high := x.high
  change entry (x.mem k) 1024 v = _
  rw [entry,word_dir (by omega)]
  by_cases here : x.HasTable (v / 1024)
  · rw [if_pos here,pte_present (by omega),addr_pte (by omega) (by decide),if_pos rfl,word_tab (by omega) (Nat.mod_lt _ (by decide)),
      show 1024 * (v / 1024) + v % 1024 = v by omega,entryOf,if_pos user]
  · rw [if_neg here,if_neg]
    · unfold HasTable at here
      rw [if_neg (by omega)]
    · simp

theorem page_mach (inside : v < x.n) : (x.mach k).mem (x.u + v) = x.body v := by
  have low := x.low
  change x.mem k (x.u + v) = _
  rw [mem,if_neg (by omega),if_neg (by omega),if_pos (by omega),Nat.add_sub_cancel_left]

theorem view_mach (user : v < 2 ^ 19) :
    view (x.mach k).mem 1024 v = if v < x.n then some (pte (x.u + v) 7,x.body v) else none := by
  have high := x.high
  rw [view,entry_mach user]
  split
  · next some' =>
    rw [pte_present (by omega),addr_pte (by omega) (by decide),if_pos rfl,page_mach some']
  · simp

theorem sound : Sound k x.own x.free (x.mach k) := by
  have high := x.high
  refine ⟨good,fun g d i owner => ?_,fun g d i j owner => ?_,fun d root => ?_⟩
  · obtain ⟨rfl,_,_⟩ := own_tab.mp owner
    exact own_dir.mpr rfl
  · obtain ⟨rfl,_,_⟩ := own_user.mp owner
    exact own_dir.mpr rfl
  · obtain rfl := own_dir.mp root
    refine ⟨fun g i owner => ?_,fun g i j owner => ?_⟩
    · obtain ⟨_,rfl,here⟩ := own_tab.mp owner
      have small : i < 1024 := by unfold HasTable at here; omega
      refine ⟨small,?_⟩
      change word (x.mem k) 1024 i = _
      rw [word_dir small,if_pos here]
    · obtain ⟨_,rfl,inside,small⟩ := own_user.mp owner
      rw [entry_mach (by omega),if_pos inside]
      exact ⟨by omega,small,pte_present (by omega),addr_pte (by omega) (by decide)⟩

theorem exactly {sz : Nat} (all : pages sz = x.n) (small : sz + 4095 < 2 ^ 32) :
    ∀ v < KERNBASE / PGSIZE, has (entry (x.mach k).mem 1024 v) PTE_P = true ↔ v < PGROUNDUP sz := by
  have high := x.high
  intro v user
  have user' : v < 2 ^ 19 := user
  rw [PGROUNDUP_eq _ small,all,entry_mach user']
  split
  · next some' => exact iff_of_true (pte_present (by omega)) some'
  · next none' => exact iff_of_false (by simp) none'

end Laid

/-- A kernel that ends in its second megabyte. -/
def link : Link := ⟨264,300,by decide,by decide,by decide⟩

theorem Laid.fails {x : Laid} {n : Nat} (fails : Fails n x.free (x.mach k)) : n = x.f := by
  have length : x.free.length = x.f := List.length_range'
  have all : Fails x.f x.free (x.mach k) := ⟨fun i inside => ⟨by rwa [length],rfl⟩,.inl (by rw [length])⟩
  exact fails.unique all

/-- The system with one process in that memory. -/
def Laid.sys (x : Laid) (k : Link) (sz : Nat) : Sys where
  vm := x.mach k
  tables := ⟨fun _ => ⟨.FD_NONE,0,false,false,0,0,0⟩,fun p => ⟨if p = 0 then .RUNNABLE else .UNUSED,none,fun _ => none,none⟩,0,fun _ => none⟩
  space p := if p = 0 then ⟨x.u - 1,1024,sz⟩ else ⟨0,0,0⟩
  kpgdir := 0

end Xv6.Vm
