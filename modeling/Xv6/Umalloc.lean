import Xv6.Lib.Bytes
import Xv6.Lib.Round
import Xv6.Lib.Tiling

/-!
`umalloc.c`: the allocator of user programs. The free blocks are in a circular list that starts at `base` and is
ordered by address; every block, free or not, begins with a header of eight bytes.
-/
namespace Xv6.Umalloc
open Xv6.Lib Function

/-- Store a number of 32 bits. -/
def store (m : Mem) (a v : Nat) : Mem := fun x => if a ≤ x ∧ x < a + 4 then leByte v (x - a) else m x

/-- `sizeof(Header)` -/
def headerSize : Nat := 8

/-- `p->s.ptr` -/
def ptr (m : Mem) (p : Nat) : Nat := load m p 4

/-- `p->s.size` -/
def size (m : Mem) (p : Nat) : Nat := load m (p + 4) 4

def setPtr (m : Mem) (p v : Nat) : Mem := store m p v

def setSize (m : Mem) (p v : Nat) : Mem := store m (p + 4) v

/-- `p + n` for a pointer to headers -/
def advance (p n : Nat) : Nat := (p + n * headerSize) % 2 ^ 32

/-- `(char*)-1` -/
def minusOne : Nat := 2 ^ 32 - 1

variable {σ : Type}

/-- The memory of the process, `freep`, the kernel, and the calls of `sbrk` with their answers, the last one first. -/
structure Heap (σ : Type) where
  mem : Mem
  freep : Nat
  kernel : σ
  calls : List (Nat × Nat)

/-- What the kernel does for `sbrk`, which can change the memory of the process. -/
abbrev Sbrk (σ : Type) := Nat → σ → Mem → Nat × σ × Mem

/-- The loop of `free`. -/
def free_from (m : Mem) (bp : Nat) : Nat → Nat → Option Nat
  | 0,_ => none
  | fuel + 1,p =>
    if bp > p ∧ bp < ptr m p then some p
    else if p ≥ ptr m p ∧ (bp > p ∨ bp < ptr m p) then some p
    else free_from m bp fuel (ptr m p)

/-- Join the block with the free block behind it, or link it to that. -/
def join_upper (m : Mem) (bp p : Nat) : Mem :=
  if advance bp (size m bp) = ptr m p then
    let m := setSize m bp (size m bp + size m (ptr m p))
    setPtr m bp (ptr m (ptr m p))
  else setPtr m bp (ptr m p)

/-- Join the block with the free block before it, or link that to it. -/
def join_lower (m : Mem) (bp p : Nat) : Mem :=
  if advance p (size m p) = bp then
    let m := setSize m p (size m p + size m bp)
    setPtr m p (ptr m bp)
  else setPtr m p bp

def free (fuel ap : Nat) (h : Heap σ) : Option (Heap σ) := do
  let bp := (ap + 2 ^ 32 - headerSize) % 2 ^ 32
  let p ← free_from h.mem bp fuel h.freep
  return { h with mem := join_lower (join_upper h.mem bp p) bp p, freep := p }

/-- Ask the kernel for memory and free it. -/
def morecore (sbrk : Sbrk σ) (fuel nu : Nat) (h : Heap σ) : Option (Nat × Heap σ) :=
  let nu := if nu < 4096 then 4096 else nu
  let arg := nu * headerSize % 2 ^ 32
  let answer := sbrk arg h.kernel h.mem
  let p := answer.1
  let h := { h with kernel := answer.2.1, mem := answer.2.2, calls := (arg,p) :: h.calls }
  if p = minusOne then some (0,h)
  else (free fuel (advance p 1) { h with mem := setSize h.mem p nu }).map fun h => (h.freep,h)

/-- The number of headers that make a block of `nbytes`. -/
def nunits (nbytes : Nat) : Nat := (nbytes + headerSize - 1) % 2 ^ 32 / headerSize + 1

/-- Take `n` units from the free block `p`, which is linked from `prevp`. -/
def take (n prevp p : Nat) (h : Heap σ) : Nat × Heap σ :=
  if size h.mem p = n then (advance p 1,{ h with mem := setPtr h.mem prevp (ptr h.mem p), freep := prevp })
  else
    let m := setSize h.mem p (size h.mem p - n)
    let p := advance p (size m p)
    (advance p 1,{ h with mem := setSize m p n, freep := prevp })

/-- The loop of `malloc`. -/
def malloc_from (sbrk : Sbrk σ) (n : Nat) : Nat → Nat → Nat → Heap σ → Option (Nat × Heap σ)
  | 0,_,_,_ => none
  | fuel + 1,prevp,p,h =>
    if size h.mem p ≥ n then some (take n prevp p h)
    else if p = h.freep then
      (morecore sbrk fuel n h).bind fun more =>
        if more.1 = 0 then some (0,more.2) else malloc_from sbrk n fuel more.1 (ptr more.2.mem more.1) more.2
    else malloc_from sbrk n fuel p (ptr h.mem p) h

/-- `base` is an empty block, linked to itself, when `malloc` is called for the first time. -/
def start (base : Nat) (h : Heap σ) : Heap σ :=
  if h.freep = 0 then { h with mem := setSize (setPtr h.mem base base) base 0, freep := base } else h

def malloc (base : Nat) (sbrk : Sbrk σ) (fuel nbytes : Nat) (h : Heap σ) : Option (Nat × Heap σ) :=
  let h := start base h
  malloc_from sbrk (nunits nbytes) fuel h.freep (ptr h.mem h.freep) h

/-! ### Headers in memory -/

variable {m : Mem} {a b p q v : Nat}

theorem load_lt : load m a 4 < 2 ^ 32 := leNat_lt _ 4

theorem ptr_lt : ptr m p < 2 ^ 32 := load_lt

theorem load_congr {m' : Mem} (same : ∀ i < 4, m' (a + i) = m (a + i)) : load m' a 4 = load m a 4 := leNat_congr same

theorem load_store (small : v < 2 ^ 32) : load (store m a v) a 4 = v := by
  have bytes : ∀ i < 4, store m a v (a + i) = leByte v i := fun i inside => by
    rw [store,if_pos ⟨by omega,by omega⟩,Nat.add_sub_cancel_left]
  rw [load,leNat_congr bytes,leNat_leByte]
  exact Nat.mod_eq_of_lt small

theorem load_store_apart (apart : a + 4 ≤ b ∨ b + 4 ≤ a) : load (store m a v) b 4 = load m b 4 := by
  refine load_congr fun i inside => ?_
  rw [store,if_neg (by omega)]

/-- Two headers do not overlap. -/
def Far (p q : Nat) : Prop := p + 8 ≤ q ∨ q + 8 ≤ p

theorem Far.symm (far : Far p q) : Far q p := Or.symm far

@[simp] theorem ptr_setPtr (small : v < 2 ^ 32) : ptr (setPtr m p v) p = v := load_store small

@[simp] theorem size_setSize (small : v < 2 ^ 32) : size (setSize m p v) p = v := load_store small

@[simp] theorem size_setPtr : size (setPtr m p v) p = size m p := load_store_apart (.inl (le_refl _))

@[simp] theorem ptr_setSize : ptr (setSize m p v) p = ptr m p := load_store_apart (.inr (le_refl _))

theorem ptr_setPtr_far (far : Far p q) : ptr (setPtr m p v) q = ptr m q := by
  unfold Far at far
  exact load_store_apart (by omega)

theorem size_setPtr_far (far : Far p q) : size (setPtr m p v) q = size m q := by
  unfold Far at far
  exact load_store_apart (by omega)

theorem ptr_setSize_far (far : Far p q) : ptr (setSize m p v) q = ptr m q := by
  unfold Far at far
  exact load_store_apart (by omega)

theorem size_setSize_far (far : Far p q) : size (setSize m p v) q = size m q := by
  unfold Far at far
  exact load_store_apart (by omega)

/-- The headers of all blocks but one are as they were. -/
structure Same (m m' : Mem) (q : Nat) : Prop where
  ptr : ptr m' q = ptr m q
  size : size m' q = size m q

theorem same_of_bytes {m' : Mem} (same : ∀ x, q ≤ x → x < q + 8 → m' x = m x) : Same m m' q :=
  ⟨load_congr fun i inside => same (q + i) (by omega) (by omega),load_congr fun i inside => same (q + 4 + i) (by omega) (by omega)⟩

theorem join_upper_far (far : Far q p) {x : Nat} : Same m (join_upper m q x) p := by
  unfold join_upper
  split <;> constructor <;> simp only [ptr_setPtr_far far,size_setPtr_far far,ptr_setSize_far far,size_setSize_far far]

theorem advance_eq {n : Nat} (top : Nat) (inside : p + 8 * n ≤ top) (high : top < 2 ^ 32) : advance p n = p + 8 * n := by
  rw [advance,headerSize,Nat.mul_comm n 8]
  exact Nat.mod_eq_of_lt (by omega)

/-! ### The invariant -/

variable {base top : Nat} {before after live regions : List Span} {s t : Span}

/-- The free blocks, in the order of their addresses, are the list at `base`; no two of them are adjacent. Together with the
    blocks in use they are the memory that has been obtained. -/
structure Ready (base top : Nat) (m : Mem) (blocks live regions : List Span) : Prop where
  round : Leads (ptr m) base (blocks.map Span.start) base
  empty : size m base = 0
  sizes : ∀ s ∈ blocks ++ live, 8 * size m s.start = s.len
  tiles : Tiles (blocks ++ live) regions
  inside : ∀ s ∈ blocks ++ live, base + 8 ≤ s.start ∧ s.stop ≤ top
  order : blocks.Pairwise fun s t => s.stop < t.start
  low : 0 < base
  room : base + 8 ≤ top
  high : top < 2 ^ 32

theorem far_of_apart (apart : s.Apart t) (some' : 8 ≤ s.len) (some'' : 8 ≤ t.len) : Far s.start t.start := by
  simp only [Span.Apart,Span.stop] at apart
  unfold Far
  omega

theorem len_of_size {n : Nat} (some' : 0 < s.len) (units : 8 * n = s.len) : 8 ≤ s.len := by omega

theorem sorted_starts (order : before.Pairwise fun s t => s.stop < t.start) : (before.map Span.start).Pairwise (· < ·) :=
  List.pairwise_map.mpr (order.imp fun {s t} less => by
    simp only [Span.stop] at less
    omega)

theorem divide (x : Nat) {blocks : List Span} (order : blocks.Pairwise fun s t => s.stop < t.start) :
    ∃ before after, blocks = before ++ after ∧ (∀ s ∈ before, s.start < x) ∧ ∀ s ∈ after, x ≤ s.start := by
  induction blocks with
  | nil => exact ⟨[],[],rfl,by simp,by simp⟩
  | cons s blocks ih =>
    have order' := List.pairwise_cons.mp order
    by_cases here : s.start < x
    · obtain ⟨before,after,rfl,low,high⟩ := ih order'.2
      refine ⟨s :: before,after,rfl,fun t member => ?_,high⟩
      rcases List.mem_cons.mp member with rfl | later
      · exact here
      · exact low t later
    · refine ⟨[],s :: blocks,rfl,by simp,fun t member => ?_⟩
      rcases List.mem_cons.mp member with rfl | later
      · omega
      · have above := order'.1 t later
        simp only [Span.stop] at above
        omega

/-- The loop of `free` stops here. -/
def Stops (m : Mem) (bp p : Nat) : Prop := (bp > p ∧ bp < ptr m p) ∨ (p ≥ ptr m p ∧ (bp > p ∨ bp < ptr m p))

theorem free_from_stops {bp l z} (leads : Leads (ptr m) q l z) (member : p ∈ q :: l) (stops : ∀ x ∈ q :: l, Stops m bp x ↔ x = p)
    {fuel : Nat} (enough : l.length < fuel) : free_from m bp fuel q = some p := by
  induction l generalizing q fuel with
  | nil =>
    obtain rfl := List.mem_singleton.mp member
    obtain ⟨fuel,rfl⟩ : ∃ f, fuel = f + 1 := ⟨fuel - 1,by omega⟩
    have here := (stops p (by simp)).mpr rfl
    rw [free_from]
    split
    · rfl
    · rw [if_pos (here.resolve_left ‹_›)]
  | cons b l ih =>
    obtain ⟨fuel,rfl⟩ : ∃ f, fuel = f + 1 := ⟨fuel - 1,by omega⟩
    by_cases same : q = p
    · have here := (stops q (by simp)).mpr same
      rw [free_from]
      split
      · rw [same]
      · rw [if_pos (here.resolve_left ‹_›),same]
    · have goes := fun no => same ((stops q (by simp)).mp no)
      rw [free_from,if_neg fun yes => goes (.inl yes),if_neg fun yes => goes (.inr yes),leads.1]
      exact ih leads.2 ((List.mem_cons.mp member).resolve_left fun clash => same clash.symm)
        (fun x later => stops x (List.mem_cons_of_mem _ later)) (by simpa using enough)

/-- The loop of `free` stops at the free block before the address, or at `base`. -/
theorem stops_iff {x : Nat} (leads : Leads (ptr m) base ((before ++ after).map Span.start) base)
    (order : (base :: (before ++ after).map Span.start).Pairwise (· < ·)) (above : base < x)
    (low : ∀ s ∈ before, s.start < x) (high : ∀ s ∈ after, x < s.start) (member : p ∈ base :: (before ++ after).map Span.start) :
    Stops m x p ↔ p = (before.map Span.start).getLastD base := by
  rw [List.map_append] at leads order member
  obtain ⟨lower,upper⟩ := leads_split.mp leads
  generalize last : (before.map Span.start).getLastD base = e at *
  have lows : ∀ y ∈ base :: before.map Span.start, y < x := fun y here => by
    rcases List.mem_cons.mp here with rfl | here
    · exact above
    · obtain ⟨s,within,rfl⟩ := List.mem_map.mp here
      exact low s within
  have highs : ∀ y ∈ after.map Span.start, x < y := fun y here => by
    obtain ⟨s,within,rfl⟩ := List.mem_map.mp here
    exact high s within
  have mem : e ∈ base :: before.map Span.start := last ▸ getLastD_mem
  have order' := List.pairwise_append.mp (show (base :: before.map Span.start ++ after.map Span.start).Pairwise (· < ·) from order)
  have least : ∀ y ∈ base :: before.map Span.start, base ≤ y := fun y here => by
    rcases List.mem_cons.mp here with rfl | here
    · exact le_refl _
    · exact Nat.le_of_lt ((List.pairwise_cons.mp order'.1).1 y here)
  have below := lows e mem
  have upper' : ∀ y ∈ e :: after.map Span.start, _ := fun y here =>
    upper.upwards (List.pairwise_cons.mpr ⟨fun y here => order'.2.2 e mem y here,order'.2.1⟩) here
  unfold Stops
  constructor
  · intro stop
    by_contra other
    rcases List.mem_append.mp (show p ∈ base :: before.map Span.start ++ after.map Span.start from member) with here | here
    · rcases lower.upwards order'.1 here with found | found
      · exact other (found.1.trans last)
      · have small := lows _ (List.mem_cons_of_mem _ found.2)
        omega
    · have big := highs p here
      rcases upper' p (List.mem_cons_of_mem _ here) with found | found
      · omega
      · omega
  · rintro rfl
    rcases upper' p (List.mem_cons_self ..) with found | found
    · have low' := least p mem
      omega
    · have big := highs _ found.2
      omega

/-- A block `s` that is linked to the free blocks behind it; those before it are not yet linked to it. -/
structure Joined (base top : Nat) (m : Mem) (s : Span) (before after live regions : List Span) : Prop where
  lower : ∃ z, Leads (ptr m) base (before.map Span.start) z
  upper : Leads (ptr m) s.start (after.map Span.start) base
  empty : size m base = 0
  sizes : ∀ t ∈ s :: (before ++ (after ++ live)), 8 * size m t.start = t.len
  tiles : Tiles (s :: (before ++ (after ++ live))) regions
  inside : ∀ t ∈ s :: (before ++ (after ++ live)), base + 8 ≤ t.start ∧ t.stop ≤ top
  order : (before ++ after).Pairwise fun s t => s.stop < t.start
  less : ∀ t ∈ before, t.start < s.start
  more : ∀ t ∈ after, s.stop < t.start
  low : 0 < base
  room : base + 8 ≤ top
  high : top < 2 ^ 32

theorem Tiles.far {spans : List Span} (tiles : Tiles (s :: spans) regions) (sizes : ∀ t ∈ s :: spans, 8 * size m t.start = t.len)
    (member : t ∈ spans) : Far s.start t.start :=
  far_of_apart ((List.pairwise_cons.mp tiles.apart).1 t member) (len_of_size (tiles.filled s (by simp)) (sizes s (by simp)))
    (len_of_size (tiles.filled t (by simp [member])) (sizes t (by simp [member])))

/-- The block that is freed, joined with the one behind it if they are adjacent. -/
theorem Ready.join_upper (ready : Ready base top m (before ++ after) (s :: live) regions) (less : ∀ t ∈ before, t.start < s.start)
    (more : ∀ t ∈ after, s.start < t.start) : ∃ s' after', s'.start = s.start ∧ s.len ≤ s'.len ∧ after'.length ≤ after.length ∧
      Joined base top (join_upper m s.start ((before.map Span.start).getLastD base)) s' before after' live regions := by
  have moved : (before ++ after ++ s :: live).Perm (s :: (before ++ (after ++ live))) := by
    rw [← List.append_assoc before]
    exact List.perm_middle
  have tiles := ready.tiles.perm moved
  have sizes : ∀ t ∈ s :: (before ++ (after ++ live)), 8 * size m t.start = t.len :=
    fun t member => ready.sizes t (moved.mem_iff.mpr member)
  have inside : ∀ t ∈ s :: (before ++ (after ++ live)), base + 8 ≤ t.start ∧ t.stop ≤ top :=
    fun t member => ready.inside t (moved.mem_iff.mpr member)
  have high := ready.high
  have here := inside s (by simp)
  have own := sizes s (by simp)
  have far : ∀ t ∈ before ++ (after ++ live), Far s.start t.start := fun t member => Tiles.far tiles sizes member
  have root : Far s.start base := .inr here.1
  have stops : advance s.start (size m s.start) = s.stop := by
    rw [advance_eq top (by rw [own]; exact here.2) high,own]
    rfl
  have leads := ready.round
  rw [List.map_append] at leads
  obtain ⟨lower,upper⟩ := leads_split.mp leads
  have last : Far s.start ((before.map Span.start).getLastD base) := by
    rcases List.mem_cons.mp (getLastD_mem (a := base) (l := before.map Span.start)) with same | member
    · rw [same]
      exact root
    · obtain ⟨t,within,same⟩ := List.mem_map.mp member
      rw [← same]
      exact far t (by simp [within])
  generalize (before.map Span.start).getLastD base = p at lower upper last
  have empty {x : Nat} : size (Umalloc.join_upper m s.start x) base = 0 := (join_upper_far root).size.trans ready.empty
  have lower' {x : Nat} : Leads (ptr (Umalloc.join_upper m s.start x)) base (before.map Span.start) (ptr m p) := by
    refine lower.congr (join_upper_far root).ptr fun y member => ?_
    obtain ⟨t,within,rfl⟩ := List.mem_map.mp member
    exact (join_upper_far (far t (by simp [within]))).ptr
  have kept {x : Nat} : ∀ t ∈ before ++ (after ++ live), 8 * size (Umalloc.join_upper m s.start x) t.start = t.len :=
    fun t member => (congrArg (8 * ·) (join_upper_far (far t member)).size).trans (sizes t (by simp [member]))
  have linked {x : Nat} : ∀ y ∈ after.map Span.start, ptr (Umalloc.join_upper m s.start x) y = ptr m y := fun y member => by
    obtain ⟨t,within,rfl⟩ := List.mem_map.mp member
    exact (join_upper_far (far t (by simp [within]))).ptr
  -- Where the blocks are not adjacent, the block is linked to what follows.
  have plain (other : s.stop ≠ ptr m p) (less' : ∀ t ∈ after, s.stop < t.start) :
      Joined base top (Umalloc.join_upper m s.start p) s before after live regions := by
    have eq : Umalloc.join_upper m s.start p = setPtr m s.start (ptr m p) := by
      rw [Umalloc.join_upper,if_neg (by rw [stops]; exact other)]
    refine ⟨⟨_,lower'⟩,upper.congr ?_ linked,empty,fun t member => ?_,tiles,inside,ready.order,less,less',ready.low,ready.room,high⟩
    · rw [eq,ptr_setPtr ptr_lt]
    · rcases List.mem_cons.mp member with rfl | later
      · rw [eq,size_setPtr,own]
      · exact kept t later
  cases after with
  | nil =>
    refine ⟨s,[],rfl,le_refl _,le_refl _,plain ?_ (by simp)⟩
    rw [show ptr m p = base from upper]
    have len : s.stop = s.start + s.len := rfl
    omega
  | cons t after =>
    have next : ptr m p = t.start := upper.1
    have above := more t (by simp)
    have apart := (List.pairwise_cons.mp tiles.apart).1 t (by simp)
    by_cases adjacent : s.stop = t.start
    · have moved' : (s :: (before ++ (t :: after ++ live))).Perm (s :: t :: (before ++ (after ++ live))) :=
        List.Perm.cons s List.perm_middle
      have joined := (tiles.perm moved').join adjacent
      have within : ∀ u ∈ before ++ (after ++ live), u ∈ before ++ (t :: after ++ live) := fun u member =>
        (List.Sublist.append_left (List.sublist_cons_self ..) before).subset member
      have size' := sizes t (by simp)
      have inside' := inside t (by simp)
      have eq : Umalloc.join_upper m s.start p = setPtr (setSize m s.start (size m s.start + size m t.start)) s.start (ptr m t.start) := by
        rw [Umalloc.join_upper,if_pos (by rw [stops,next]; exact adjacent),next]
        dsimp only
        rw [ptr_setSize_far last,next,ptr_setSize_far (far t (by simp))]
      have stop' : t.stop = t.start + t.len := rfl
      have len : s.stop = s.start + s.len := rfl
      refine ⟨⟨s.start,s.len + t.len⟩,after,rfl,Nat.le_add_right _ _,by simp,⟨_,lower'⟩,upper.2.congr ?_ fun y member => ?_,empty,
        fun u member => ?_,joined,fun u member => ?_,?_,less,fun u member => ?_,ready.low,ready.room,high⟩
      · rw [eq,ptr_setPtr ptr_lt]
      · exact linked y (by simp [member])
      · rcases List.mem_cons.mp member with rfl | later
        · rw [eq]
          change 8 * size _ s.start = _
          rw [size_setPtr,size_setSize (by omega)]
          change _ = s.len + t.len
          omega
        · exact kept u (within u later)
      · rcases List.mem_cons.mp member with rfl | later
        · simp only [Span.stop]
          omega
        · exact inside u (List.mem_cons_of_mem _ (within u later))
      · exact ready.order.sublist (List.Sublist.append_left (List.sublist_cons_self ..) _)
      · have order := (List.pairwise_append.mp ready.order).2.1
        have behind := (List.pairwise_cons.mp order).1 u member
        simp only [Span.stop] at behind adjacent ⊢
        omega
    · refine ⟨s,t :: after,rfl,le_refl _,le_refl _,plain (by rw [next]; exact adjacent) fun u member => ?_⟩
      have first : s.stop < t.start := by
        simp only [Span.Apart,Span.stop] at apart adjacent ⊢
        omega
      rcases List.mem_cons.mp member with rfl | later
      · exact first
      · have order := (List.pairwise_append.mp ready.order).2.1
        have behind := (List.pairwise_cons.mp order).1 u later
        simp only [Span.stop] at behind first ⊢
        omega

section
variable (joined : Joined base top m s before after live regions)
include joined

theorem Joined.far (member : p ∈ base :: before.map Span.start) :
    (∀ t ∈ s :: (after ++ live), Far p t.start) ∧ ∀ q ∈ base :: before.map Span.start, q ≠ p → Far p q := by
  have long : ∀ t ∈ s :: (before ++ (after ++ live)), 8 ≤ t.len := fun t inner =>
    len_of_size (joined.tiles.filled t inner) (joined.sizes t inner)
  have moved : (s :: (before ++ (after ++ live))).Perm (before ++ s :: (after ++ live)) := List.perm_middle.symm
  have apart := List.pairwise_append.mp (joined.tiles.perm moved).apart
  have root : ∀ t ∈ s :: (before ++ (after ++ live)), Far base t.start := fun t inner => .inl (joined.inside t inner).1
  rcases List.mem_cons.mp member with rfl | member
  · refine ⟨fun t inner => root t (moved.mem_iff.mpr (List.mem_append_right _ inner)),fun q inner differs => ?_⟩
    obtain ⟨t,within,rfl⟩ := List.mem_map.mp ((List.mem_cons.mp inner).resolve_left differs)
    exact root t (by simp [within])
  · obtain ⟨d,within,rfl⟩ := List.mem_map.mp member
    have long' := long d (by simp [within])
    refine ⟨fun t inner => far_of_apart (apart.2.2 d within t inner) long' (long t (moved.mem_iff.mpr (List.mem_append_right _ inner))),
      fun q inner differs => ?_⟩
    rcases List.mem_cons.mp inner with rfl | inner
    · exact (root d (by simp [within])).symm
    · obtain ⟨t,within',rfl⟩ := List.mem_map.mp inner
      exact far_of_apart (joined.tiles.of_ne (by simp [within]) (by simp [within']) fun clash => differs (congrArg Span.start clash.symm))
        long' (long t (by simp [within']))

theorem Joined.firsts : (base :: before.map Span.start).Nodup := by
  have starts := sorted_starts joined.order
  rw [List.map_append] at starts
  refine List.nodup_cons.mpr ⟨fun member => ?_,(List.pairwise_append.mp starts).1.imp Nat.ne_of_lt⟩
  obtain ⟨t,within,same⟩ := List.mem_map.mp member
  have bounds := joined.inside t (by simp [within])
  omega

theorem Joined.link (less : ∀ t ∈ before, t.stop < s.start) (small : s.start < 2 ^ 32) :
    Ready base top (setPtr m ((before.map Span.start).getLastD base) s.start) (before ++ s :: after) live regions := by
  obtain ⟨z,lower⟩ := joined.lower
  have once := joined.firsts
  obtain ⟨far,far'⟩ := joined.far getLastD_mem
  generalize last : (before.map Span.start).getLastD base = e at far far'
  have moved : (s :: (before ++ (after ++ live))).Perm (before ++ s :: after ++ live) := by
    rw [List.append_assoc,List.cons_append]
    exact List.perm_middle.symm
  have sizes (x : Nat) (known : x ∈ base :: before.map Span.start) : size (setPtr m e s.start) x = size m x := by
    by_cases same : x = e
    · rw [same,size_setPtr]
    · exact size_setPtr_far (far' x known same)
  refine ⟨?_,(sizes base (by simp)).trans joined.empty,fun t member => ?_,joined.tiles.perm moved,
    fun t member => joined.inside t (moved.mem_iff.mpr member),?_,joined.low,joined.room,joined.high⟩
  · rw [List.map_append,List.map_cons]
    refine leads_append.mpr ⟨lower.redirect once (by rw [last]; exact ptr_setPtr small) fun x member differs =>
      ptr_setPtr_far (far' x member (by rwa [last] at differs)),joined.upper.congr (ptr_setPtr_far (far s (by simp))) fun x member => ?_⟩
    obtain ⟨t,inner,rfl⟩ := List.mem_map.mp member
    exact ptr_setPtr_far (far t (by simp [inner]))
  · have known := joined.sizes t (moved.mem_iff.mpr member)
    rw [List.append_assoc,List.cons_append] at member
    rcases List.mem_append.mp member with inner | inner
    · rw [sizes t.start (List.mem_cons_of_mem _ (List.mem_map_of_mem inner)),known]
    · rw [size_setPtr_far (far t inner),known]
  · have halves := List.pairwise_append.mp joined.order
    refine List.pairwise_append.mpr ⟨halves.1,List.pairwise_cons.mpr ⟨joined.more,halves.2.1⟩,fun t member u inner => ?_⟩
    rcases List.mem_cons.mp inner with rfl | inner
    · exact less t member
    · exact halves.2.2 t member u inner

end

/-- The block is adjacent to the free block before it and becomes a part of that. -/
theorem Joined.absorb (joined : Joined base top m s (before ++ [t]) after live regions) (adjacent : t.stop = s.start) :
    Ready base top (setPtr (setSize m t.start (size m t.start + size m s.start)) t.start (ptr m s.start))
      (before ++ ⟨t.start,t.len + s.len⟩ :: after) live regions := by
  obtain ⟨z,lower⟩ := joined.lower
  have once := joined.firsts
  have high := joined.high
  obtain ⟨far,far'⟩ := joined.far (p := t.start) (by simp)
  have own := joined.sizes s (by simp)
  have other := joined.sizes t (by simp)
  have inside := joined.inside s (by simp)
  have inside' := joined.inside t (by simp)
  have stop : s.stop = s.start + s.len := rfl
  have stop' : t.stop = t.start + t.len := rfl
  have moved : (s :: (before ++ [t] ++ (after ++ live))).Perm (t :: s :: (before ++ (after ++ live))) := by
    rw [List.append_assoc,List.cons_append,List.nil_append]
    exact (List.Perm.cons s List.perm_middle).trans (List.Perm.swap t s _)
  have tiles := (joined.tiles.perm moved).join adjacent
  have moved' : (⟨t.start,t.len + s.len⟩ :: (before ++ (after ++ live))).Perm (before ++ ⟨t.start,t.len + s.len⟩ :: after ++ live) := by
    rw [List.append_assoc,List.cons_append]
    exact List.perm_middle.symm
  have kept (u : Span) (member : u ∈ before ++ (after ++ live)) :
      Far t.start u.start ∧ u ∈ s :: (before ++ [t] ++ (after ++ live)) := by
    rcases List.mem_append.mp member with inner | inner
    · refine ⟨far' u.start (List.mem_cons_of_mem _ (List.mem_map_of_mem (by simp [inner]))) fun clash => ?_,by simp [inner]⟩
      have later := (List.pairwise_append.mp (List.pairwise_append.mp joined.order).1).2.2 u inner t (by simp)
      simp only [Span.stop] at later
      omega
    · exact ⟨far u (by simp at inner ⊢; tauto),by simp at inner ⊢; tauto⟩
  have root : Far t.start base := .inr inside'.1
  have lower' : Leads (ptr (setPtr (setSize m t.start (size m t.start + size m s.start)) t.start (ptr m s.start))) base
      ((before ++ [t]).map Span.start) (ptr m s.start) := lower.redirect once (by simp [ptr_setPtr ptr_lt]) fun x member differs => by
      have far'' := far' x member (by simpa using differs)
      rw [ptr_setPtr_far far'',ptr_setSize_far far'']
  rw [List.map_append,List.map_cons,List.map_nil] at lower'
  refine ⟨?_,?_,fun u member => ?_,tiles.perm moved',fun u member => ?_,?_,joined.low,joined.room,high⟩
  · rw [List.map_append,List.map_cons]
    refine leads_append.mpr ⟨(leads_append.mp lower').1,joined.upper.congr (ptr_setPtr ptr_lt) fun x member => ?_⟩
    obtain ⟨u,inner,rfl⟩ := List.mem_map.mp member
    have far'' := (kept u (by simp [inner])).1
    rw [ptr_setPtr_far far'',ptr_setSize_far far'']
  · rw [size_setPtr_far root,size_setSize_far root,joined.empty]
  · rcases List.mem_cons.mp (moved'.mem_iff.mpr member) with rfl | inner
    · change 8 * size _ t.start = t.len + s.len
      rw [size_setPtr,size_setSize (by omega)]
      omega
    · obtain ⟨far'',known⟩ := kept u inner
      rw [size_setPtr_far far'',size_setSize_far far'']
      exact joined.sizes u known
  · rcases List.mem_cons.mp (moved'.mem_iff.mpr member) with rfl | inner
    · simp only [Span.stop]
      omega
    · exact joined.inside u (kept u inner).2
  · have halves := List.pairwise_append.mp joined.order
    have halves' := List.pairwise_append.mp halves.1
    refine List.pairwise_append.mpr ⟨halves'.1,List.pairwise_cons.mpr ⟨fun u member => ?_,halves.2.1⟩,fun u member v inner => ?_⟩
    · have behind := joined.more u member
      simp only [Span.stop] at behind adjacent ⊢
      omega
    · rcases List.mem_cons.mp inner with rfl | inner
      · exact halves'.2.2 u member t (by simp)
      · exact halves.2.2 u (by simp [member]) v inner

/-- The block, joined with the free block before it if they are adjacent, and the list that it is in. -/
theorem Joined.join_lower (joined : Joined base top m s before after live regions) :
    ∃ blocks, Ready base top (join_lower m s.start ((before.map Span.start).getLastD base)) blocks live regions ∧
      (before.map Span.start).getLastD base ∈ base :: blocks.map Span.start ∧ (∃ t ∈ blocks, s.len ≤ t.len) ∧
      blocks.length ≤ before.length + after.length + 1 := by
  have high := joined.high
  have here := joined.inside s (by simp)
  have own := joined.sizes s (by simp)
  have stop : s.stop = s.start + s.len := rfl
  cases before using List.reverseRecOn with
  | nil =>
    have apart : advance base (size m base) ≠ s.start := by
      rw [joined.empty,advance_eq (n := 0) top (by omega) high]
      omega
    refine ⟨s :: after,?_,by simp,⟨s,by simp,le_refl _⟩,by simp⟩
    change Ready base top (Umalloc.join_lower m s.start base) (s :: after) live regions
    rw [Umalloc.join_lower,if_neg apart]
    exact joined.link (by simp) (by omega)
  | append_singleton before t =>
    have last : ((before ++ [t]).map Span.start).getLastD base = t.start := by simp
    have inside := joined.inside t (by simp)
    have size' := joined.sizes t (by simp)
    have stop' : t.stop = t.start + t.len := rfl
    have stops : advance t.start (size m t.start) = t.stop := by
      rw [advance_eq top (by omega) high]
      omega
    have below := joined.less t (by simp)
    have apart := (List.pairwise_cons.mp joined.tiles.apart).1 t (by simp)
    rw [last,Umalloc.join_lower,stops]
    by_cases adjacent : t.stop = s.start
    · refine ⟨before ++ ⟨t.start,t.len + s.len⟩ :: after,?_,List.mem_cons_of_mem _ (List.mem_map.mpr ⟨⟨t.start,t.len + s.len⟩,by simp,rfl⟩),
        ⟨⟨t.start,t.len + s.len⟩,by simp,Nat.le_add_left _ _⟩,by simp; omega⟩
      have far := ((joined.far (p := t.start) (by simp)).1 s (by simp))
      rw [if_pos adjacent]
      dsimp only
      rw [ptr_setSize_far far]
      exact joined.absorb adjacent
    · refine ⟨before ++ [t] ++ s :: after,?_,by simp,⟨s,by simp,le_refl _⟩,by simp; omega⟩
      rw [if_neg adjacent]
      have linked := joined.link (fun u member => ?_) (by omega)
      · rwa [last] at linked
      · have near : t.stop < s.start := by
          simp only [Span.Apart,Span.stop] at apart adjacent ⊢
          omega
        rcases List.mem_append.mp member with inner | inner
        · have later := (List.pairwise_append.mp (List.pairwise_append.mp joined.order).1).2.2 u inner t (by simp)
          omega
        · obtain rfl := List.mem_singleton.mp inner
          exact near

theorem back (small : p < 2 ^ 32) : (p + 8 + 2 ^ 32 - headerSize) % 2 ^ 32 = p := by
  rw [headerSize]
  omega

theorem free_spec {blocks : List Span} {h : Heap σ} (ready : Ready base top h.mem blocks (s :: live) regions)
    (here : h.freep ∈ base :: blocks.map Span.start) :
    ∃ h' blocks', (∀ fuel, blocks.length < fuel → free fuel (s.start + 8) h = some h') ∧ h'.kernel = h.kernel ∧ h'.calls = h.calls ∧
      Ready base top h'.mem blocks' live regions ∧ h'.freep ∈ base :: blocks'.map Span.start ∧ (∃ t ∈ blocks', s.len ≤ t.len) ∧
      blocks'.length ≤ blocks.length + 1 := by
  have inside := ready.inside s (by simp)
  have high := ready.high
  have starts : (base :: blocks.map Span.start).Pairwise (· < ·) := by
    refine List.pairwise_cons.mpr ⟨fun x member => ?_,sorted_starts ready.order⟩
    obtain ⟨t,within,rfl⟩ := List.mem_map.mp member
    have bounds := ready.inside t (by simp [within])
    omega
  have round : Round (ptr h.mem) base (blocks.map Span.start) := ⟨ready.round,starts.imp Nat.ne_of_lt⟩
  obtain ⟨rest,leads,all⟩ := round.around here
  obtain ⟨before,after,rfl,less,more⟩ := divide s.start ready.order
  have more' : ∀ t ∈ after, s.start < t.start := fun t member => by
    have differs := (List.pairwise_append.mp ready.tiles.apart).2.2 t (by simp [member]) s (by simp)
    have filled := ready.tiles.filled t (by simp [member])
    have filled' := ready.tiles.filled s (by simp)
    have least := more t member
    simp only [Span.Apart,Span.stop] at differs
    omega
  obtain ⟨s',after',same,long,few,joined⟩ := ready.join_upper less more'
  obtain ⟨blocks',ready',last,big,count⟩ := joined.join_lower
  rw [same] at ready'
  generalize e : (before.map Span.start).getLastD base = p at ready' last
  refine ⟨⟨join_lower (join_upper h.mem s.start p) s.start p,p,h.kernel,h.calls⟩,blocks',fun fuel enough => ?_,rfl,rfl,?_,last,?_,?_⟩
  · have bp := back (p := s.start) (by simp only [Span.stop] at inside; omega)
    have member : p ∈ base :: (before ++ after).map Span.start := by
      have first : p ∈ base :: before.map Span.start := e ▸ getLastD_mem
      rw [List.map_append,← List.cons_append]
      exact List.mem_append_left _ first
    have found := free_from_stops leads (all.mem_iff.mpr member)
      (fun x inner => e ▸ stops_iff ready.round starts (by omega) less more' (all.mem_iff.mp inner)) (show _ < fuel by
        have length := all.length_eq
        simp only [List.length_cons,List.length_map] at length
        omega)
    rw [free,bp,found]
    rfl
  · dsimp only
    exact ready'
  · obtain ⟨t,member,wide⟩ := big
    exact ⟨t,member,by omega⟩
  · rw [List.length_append]
    omega

end Xv6.Umalloc
