import Xv6.Umalloc
import Xv6.VmGrow

/-!
Runs of a program that uses the allocator. `malloc` takes the first free block that is large enough, or asks the
kernel for memory, frees that and looks again; it then finds a block.
-/
namespace Xv6.Umalloc
open Xv6.Lib Function

variable {σ : Type} {sbrk : Sbrk σ} {top : σ → Nat} {base limit n p q : Nat} {m : Mem} {h : Heap σ}
  {blocks live regions : List Span} {s t : Span}

/-! ### Taking a block -/

section
variable (ready : Ready base limit m blocks live regions)
include ready

theorem Ready.once : (base :: (blocks ++ live).map Span.start).Nodup := by
  refine List.nodup_cons.mpr ⟨fun member => ?_,ready.tiles.nodup⟩
  obtain ⟨s,within,same⟩ := List.mem_map.mp member
  have bounds := ready.inside s within
  omega

theorem Ready.long (member : s ∈ blocks ++ live) : 8 ≤ s.len :=
  len_of_size (ready.tiles.filled s member) (ready.sizes s member)

theorem Ready.far (member : p ∈ base :: (blocks ++ live).map Span.start)
    (member' : q ∈ base :: (blocks ++ live).map Span.start) (other : p ≠ q) : Far p q := by
  have root {x : Nat} (inner : x ∈ (blocks ++ live).map Span.start) : Far base x := by
    obtain ⟨s,within,rfl⟩ := List.mem_map.mp inner
    exact .inl (ready.inside s within).1
  rcases List.mem_cons.mp member with rfl | inner
  · exact root ((List.mem_cons.mp member').resolve_left fun clash => other clash.symm)
  · rcases List.mem_cons.mp member' with rfl | inner'
    · exact (root inner).symm
    · obtain ⟨s,within,rfl⟩ := List.mem_map.mp inner
      obtain ⟨t,within',rfl⟩ := List.mem_map.mp inner'
      exact far_of_apart (ready.tiles.of_ne within within' fun clash => other (congrArg Span.start clash)) (ready.long within)
        (ready.long within')

theorem Ready.congr {m' : Mem} {limit' : Nat} (same : ∀ x ∈ base :: (blocks ++ live).map Span.start, Same m m' x)
    (more : limit ≤ limit') (high : limit' < 2 ^ 32) :
    Ready base limit' m' blocks live regions := by
  have here : ∀ s ∈ blocks ++ live, Same m m' s.start := fun s member => same s.start (List.mem_cons_of_mem _ (List.mem_map_of_mem member))
  refine ⟨ready.round.congr (same base (by simp)).ptr fun x member => ?_,(same base (by simp)).size.trans ready.empty,
    fun s member => ?_,ready.tiles,fun s member => ?_,ready.order,ready.low,by have := ready.room; omega,high⟩
  · obtain ⟨s,within,rfl⟩ := List.mem_map.mp member
    exact (here s (by simp [within])).ptr
  · rw [(here s member).size]
    exact ready.sizes s member
  · have bounds := ready.inside s member
    omega

theorem Ready.found (here : p ∈ base :: blocks.map Span.start)
    (some' : 0 < n) (fit : n ≤ size m (ptr m p)) :
    ∃ l c r, blocks = l ++ c :: r ∧ ptr m p = c.start ∧ p = (l.map Span.start).getLastD base := by
  have member := ready.round.mem here
  rcases List.mem_append.mp member with inner | root
  · obtain ⟨c,within,same⟩ := List.mem_map.mp inner
    obtain ⟨l,r,rfl⟩ := List.append_of_mem within
    have once := List.nodup_cons.mp ready.once
    rw [List.map_append] at once
    refine ⟨l,c,r,rfl,same.symm,?_⟩
    have round := ready.round
    rw [List.map_append,List.map_cons] at round
    refine round.before ?_ (by rwa [List.map_append,List.map_cons] at here) same.symm
    rw [← List.map_cons,← List.map_append]
    exact List.nodup_append.mpr ⟨(List.nodup_append.mp once.2).1,by simp,fun x inside y root clash => once.1 (by
      rw [← List.mem_singleton.mp root,← clash]
      exact List.mem_append_left _ inside)⟩
  · rw [List.mem_singleton.mp root,ready.empty] at fit
    omega

end

theorem Ready.unlink {l r : List Span} (ready : Ready base limit m (l ++ s :: r) live regions) :
    Ready base limit (setPtr m ((l.map Span.start).getLastD base) (ptr m s.start)) (l ++ r) (s :: live) regions ∧
      (l.map Span.start).getLastD base ∈ base :: (l ++ r).map Span.start := by
  have first := getLastD_mem (a := base) (l := l.map Span.start)
  generalize last : (l.map Span.start).getLastD base = p at first
  have moved : (l ++ s :: r ++ live).Perm (l ++ r ++ s :: live) := by
    rw [List.append_assoc,List.append_assoc]
    exact List.Perm.append_left l (show (r ++ s :: live).Perm (s :: (r ++ live)) from List.perm_middle).symm
  have once := ready.once
  have left : ∀ x ∈ base :: l.map Span.start, x ∈ base :: (l ++ s :: r ++ live).map Span.start :=
    List.cons_subset_cons _ (List.map_subset _ fun t member => by simp [member])
  have right : ∀ x ∈ r.map Span.start, x ∈ base :: (l ++ s :: r ++ live).map Span.start := fun x member =>
    List.mem_cons_of_mem _ (List.map_subset _ (fun t member => by simp [member]) member)
  have far : ∀ x ∈ base :: (l ++ s :: r ++ live).map Span.start, x ≠ p → Far p x := fun x member other =>
    ready.far (left p first) member other.symm
  have sizes : ∀ x ∈ base :: (l ++ s :: r ++ live).map Span.start, size (setPtr m p (ptr m s.start)) x = size m x := fun x member => by
    by_cases same : x = p
    · rw [same,size_setPtr]
    · exact size_setPtr_far (far x member same)
  have round := ready.round
  rw [List.map_append,List.map_cons] at round
  obtain ⟨lower,upper⟩ := leads_append.mp round
  have once' : (base :: l.map Span.start).Nodup ∧ ∀ x ∈ r.map Span.start, x ≠ p := by
    rw [List.append_assoc,List.map_append,← List.cons_append,List.nodup_append] at once
    refine ⟨once.1,fun x member clash => once.2.2 p first x ?_ clash.symm⟩
    obtain ⟨t,within,rfl⟩ := List.mem_map.mp member
    exact List.mem_map_of_mem (by simp [within])
  refine ⟨⟨?_,(sizes base (by simp)).trans ready.empty,fun t member => ?_,ready.tiles.perm moved,
    fun t member => ready.inside t (moved.mem_iff.mpr member),?_,ready.low,ready.room,ready.high⟩,?_⟩
  · rw [List.map_append]
    refine leads_split.mpr ⟨lower.redirect once'.1 rfl fun x member differs => ?_,?_⟩
    · rw [last] at differs
      exact ptr_setPtr_far (far x (left x member) differs)
    · rw [last]
      exact upper.congr (ptr_setPtr ptr_lt) fun x member => ptr_setPtr_far (far x (right x member) (once'.2 x member))
  · rw [sizes t.start (List.mem_cons_of_mem _ (List.mem_map_of_mem (moved.mem_iff.mpr member)))]
    exact ready.sizes t (moved.mem_iff.mpr member)
  · exact ready.order.sublist (List.Sublist.append_left (List.sublist_cons_self ..) _)
  · rw [List.map_append,← List.cons_append]
    exact List.mem_append_left _ first

/-- The end of the block is cut off; the rest of it stays in the list. -/
theorem Ready.cut {l r : List Span} (ready : Ready base limit m (l ++ s :: r) live regions) (some' : 0 < n) (fit : n < size m s.start) :
    Ready base limit (setSize (setSize m s.start (size m s.start - n)) (s.start + 8 * (size m s.start - n)) n)
      (l ++ ⟨s.start,8 * (size m s.start - n)⟩ :: r) (⟨s.start + 8 * (size m s.start - n),8 * n⟩ :: live) regions := by
  have high := ready.high
  have units := ready.sizes s (by simp)
  have bounds := ready.inside s (by simp)
  have stop : s.stop = s.start + s.len := rfl
  obtain ⟨k,rest⟩ : ∃ k, size m s.start = k + n := ⟨_,(Nat.sub_add_cancel (Nat.le_of_lt fit)).symm⟩
  rw [rest,Nat.add_sub_cancel]
  have moved : (l ++ s :: r ++ live).Perm (s :: (l ++ (r ++ live))) := by
    rw [List.append_assoc,List.cons_append]
    exact List.perm_middle
  have moved' : (⟨s.start,8 * k⟩ :: ⟨s.start + 8 * k,8 * n⟩ :: (l ++ (r ++ live))).Perm
      (l ++ ⟨s.start,8 * k⟩ :: r ++ ⟨s.start + 8 * k,8 * n⟩ :: live) := by
    rw [List.append_assoc,List.cons_append]
    refine List.Perm.trans ?_ List.perm_middle.symm
    refine List.Perm.cons _ ?_
    rw [← List.append_assoc,← List.append_assoc]
    exact List.perm_middle.symm
  have tiles := ready.tiles.perm moved
  have whole : s = ⟨s.start,8 * k + 8 * n⟩ := by
    rw [show 8 * k + 8 * n = s.len by omega]
  have sizes : ∀ t ∈ l ++ (r ++ live), 8 * size m t.start = t.len :=
    fun t member => ready.sizes t (moved.mem_iff.mpr (List.mem_cons_of_mem _ member))
  have apart := (List.pairwise_cons.mp tiles.apart).1
  have between : Far (s.start + 8 * k) s.start := .inr (by omega)
  have same : ∀ x ∈ base :: (l ++ (r ++ live)).map Span.start,
      Same m (setSize (setSize m s.start k) (s.start + 8 * k) n) x := fun x member => by
    have far : Far s.start x ∧ Far (s.start + 8 * k) x := by
      rcases List.mem_cons.mp member with rfl | inner
      · exact ⟨.inr bounds.1,.inr (by omega)⟩
      · obtain ⟨t,within,rfl⟩ := List.mem_map.mp inner
        have clear := apart t within
        have long := len_of_size (tiles.filled t (List.mem_cons_of_mem _ within)) (sizes t within)
        simp only [Span.Apart,Span.stop] at clear
        unfold Far
        omega
    constructor
    · rw [ptr_setSize_far far.2,ptr_setSize_far far.1]
    · rw [size_setSize_far far.2,size_setSize_far far.1]
  have same' : ∀ t ∈ l ++ (r ++ live), Same m (setSize (setSize m s.start k) (s.start + 8 * k) n) t.start := fun t member =>
    same t.start (List.mem_cons_of_mem _ (List.mem_map_of_mem member))
  have round := ready.round
  rw [List.map_append,List.map_cons] at round
  obtain ⟨lower,upper⟩ := leads_append.mp round
  refine ⟨?_,(same base (by simp)).size.trans ready.empty,fun t member => ?_,?_,fun t member => ?_,?_,ready.low,ready.room,high⟩
  · rw [List.map_append,List.map_cons]
    refine leads_append.mpr ⟨lower.congr (same base (by simp)).ptr fun x member => ?_,upper.congr ?_ fun x member => ?_⟩
    · obtain ⟨t,within,rfl⟩ := List.mem_map.mp member
      exact (same' t (by simp [within])).ptr
    · change ptr _ s.start = _
      rw [ptr_setSize_far between,ptr_setSize]
    · obtain ⟨t,within,rfl⟩ := List.mem_map.mp member
      exact (same' t (by simp [within])).ptr
  · rcases List.mem_cons.mp (moved'.mem_iff.mpr member) with rfl | inner
    · change 8 * size _ s.start = 8 * k
      rw [size_setSize_far between,size_setSize (by omega)]
    · rcases List.mem_cons.mp inner with rfl | inner
      · change 8 * size _ (s.start + 8 * k) = 8 * n
        rw [size_setSize (by omega)]
      · rw [(same' t inner).size]
        exact sizes t inner
  · rw [whole] at tiles
    exact (tiles.cut (by omega) (by omega)).perm moved'
  · rcases List.mem_cons.mp (moved'.mem_iff.mpr member) with rfl | inner
    · simp only [Span.stop]
      omega
    · rcases List.mem_cons.mp inner with rfl | inner
      · simp only [Span.stop]
        omega
      · exact ready.inside t (moved.mem_iff.mpr (List.mem_cons_of_mem _ inner))
  · have halves := List.pairwise_append.mp ready.order
    have halves' := List.pairwise_cons.mp halves.2.1
    refine List.pairwise_append.mpr ⟨halves.1,List.pairwise_cons.mpr ⟨fun t member => ?_,halves'.2⟩,fun t member u inner => ?_⟩
    · have behind := halves'.1 t member
      simp only [Span.stop] at behind ⊢
      omega
    · rcases List.mem_cons.mp inner with rfl | inner
      · exact halves.2.2 t member s (by simp)
      · exact halves.2.2 t member u (by simp [inner])

theorem take_spec (ready : Ready base limit h.mem blocks live regions) (here : p ∈ base :: blocks.map Span.start)
    (some' : 0 < n) (fit : n ≤ size h.mem (ptr h.mem p)) :
    ∃ t blocks', (take n p (ptr h.mem p) h).1 = t.start + 8 ∧ t.len = 8 * n ∧
      Ready base limit (take n p (ptr h.mem p) h).2.mem blocks' (t :: live) regions ∧
      (take n p (ptr h.mem p) h).2.freep ∈ base :: blocks'.map Span.start ∧
      (take n p (ptr h.mem p) h).2.kernel = h.kernel ∧ (take n p (ptr h.mem p) h).2.calls = h.calls := by
  obtain ⟨l,c,r,rfl,next,rfl⟩ := ready.found here some' fit
  have high := ready.high
  have units := ready.sizes c (by simp)
  have bounds := ready.inside c (by simp)
  have stop : c.stop = c.start + c.len := rfl
  rw [next] at fit ⊢
  unfold take
  by_cases exact' : size h.mem c.start = n
  · obtain ⟨ready',member⟩ := ready.unlink
    rw [if_pos exact']
    refine ⟨c,l ++ r,?_,by rw [← exact',units],?_,member,rfl,rfl⟩
    · dsimp only
      rw [advance_eq limit (by omega) high]
    · dsimp only
      exact ready'
  · have ready' := ready.cut some' (by omega : n < size h.mem c.start)
    have at' : advance c.start (size (setSize h.mem c.start (size h.mem c.start - n)) c.start) = c.start + 8 * (size h.mem c.start - n) := by
      rw [size_setSize (by omega),advance_eq limit (by omega) high]
    rw [if_neg exact']
    dsimp only
    rw [at']
    refine ⟨_,_,?_,rfl,ready',?_,rfl,rfl⟩
    · rw [advance_eq limit (by omega) high]
    · rw [List.map_append,List.map_cons]
      rwa [List.map_append,List.map_cons] at here

/-! ### Looking for a block -/

variable (sbrk) in
/-- The loop of `malloc` finds a block, or comes back to `freep` and asks for memory. -/
theorem malloc_from_scan {l : List Nat} (leads : Leads (ptr h.mem) q l h.freep) (other : h.freep ∉ l) :
    (∃ p ∈ q :: l, n ≤ size h.mem (ptr h.mem p) ∧ ∀ fuel, l.length < fuel →
      malloc_from sbrk n fuel q (ptr h.mem q) h = some (take n p (ptr h.mem p) h)) ∨
    ((∀ x ∈ l ++ [h.freep], size h.mem x < n) ∧ ∀ fuel, malloc_from sbrk n (fuel + l.length + 1) q (ptr h.mem q) h =
      (morecore sbrk fuel n h).bind fun more =>
        if more.1 = 0 then some (0,more.2) else malloc_from sbrk n fuel more.1 (ptr more.2.mem more.1) more.2) := by
  induction l generalizing q with
  | nil =>
    have next : ptr h.mem q = h.freep := leads
    by_cases fit : n ≤ size h.mem (ptr h.mem q)
    · refine .inl ⟨q,by simp,fit,fun fuel enough => ?_⟩
      obtain ⟨fuel,rfl⟩ : ∃ f, fuel = f + 1 := ⟨fuel - 1,by omega⟩
      rw [malloc_from,if_pos fit]
    · refine .inr ⟨fun x member => ?_,fun fuel => ?_⟩
      · rw [List.mem_singleton.mp member,← next]
        omega
      · rw [List.length_nil,malloc_from,if_neg fit,if_pos next]
  | cons b l ih =>
    by_cases fit : n ≤ size h.mem (ptr h.mem q)
    · refine .inl ⟨q,by simp,fit,fun fuel enough => ?_⟩
      obtain ⟨fuel,rfl⟩ : ∃ f, fuel = f + 1 := ⟨fuel - 1,by omega⟩
      rw [malloc_from,if_pos fit]
    · have differs : ptr h.mem q ≠ h.freep := fun clash => other (by rw [← clash,leads.1]; simp)
      have turn (fuel : Nat) : malloc_from sbrk n (fuel + 1) q (ptr h.mem q) h = malloc_from sbrk n fuel b (ptr h.mem b) h := by
        rw [malloc_from,if_neg fit,if_neg differs,leads.1]
      rcases ih leads.2 fun member => other (List.mem_cons_of_mem _ member) with ⟨p,member,fit',runs⟩ | ⟨small,runs⟩
      · refine .inl ⟨p,List.mem_cons_of_mem _ member,fit',fun fuel enough => ?_⟩
        obtain ⟨fuel,rfl⟩ : ∃ f, fuel = f + 1 := ⟨fuel - 1,by omega⟩
        rw [turn,runs fuel (by simpa using enough)]
      · refine .inr ⟨fun x member => ?_,fun fuel => ?_⟩
        · rcases List.mem_cons.mp member with rfl | later
          · rw [← leads.1]
            omega
          · exact small x later
        · rw [List.length_cons,← Nat.add_assoc,turn,runs]

/-- `sbrk` of a positive number fails, or gives so many bytes above all that the process had; what was in memory stays. -/
structure Fresh (sbrk : Sbrk σ) (top : σ → Nat) : Prop where
  answer : ∀ k e m, 0 < k → k < 2 ^ 31 → (sbrk k e m).1 = minusOne ∨
    (top e ≤ (sbrk k e m).1 ∧ (sbrk k e m).1 + k ≤ top (sbrk k e m).2.1)
  grows : ∀ k e m, 0 < k → k < 2 ^ 31 → top e ≤ top (sbrk k e m).2.1
  keeps : ∀ k e m, 0 < k → k < 2 ^ 31 → ∀ x < top e, (sbrk k e m).2.2 x = m x
  high : ∀ e, top e < 2 ^ 32

/-- The memory that the calls of `sbrk` have given. -/
def obtained (calls : List (Nat × Nat)) : List Span :=
  calls.filterMap fun call => if call.2 = minusOne then none else some ⟨call.2,call.1⟩

/-- The blocks of the heap, and those in use. -/
def Kept (base : Nat) (top : σ → Nat) (h : Heap σ) (blocks live : List Span) : Prop :=
  Ready base (top h.kernel) h.mem blocks live (obtained h.calls) ∧ h.freep ∈ base :: blocks.map Span.start

/-- The units that `morecore` asks for. -/
def units (n : Nat) : Nat := if n < 4096 then 4096 else n

theorem Ready.extend {m' : Mem} {limit' : Nat} (ready : Ready base limit m blocks live regions)
    (same : ∀ x < limit, m' x = m x) (more : limit ≤ limit') (high : limit' < 2 ^ 32) : Ready base limit' m' blocks live regions := by
  refine ready.congr (fun x member => same_of_bytes fun y low below => same y ?_) more high
  have room := ready.room
  rcases List.mem_cons.mp member with rfl | inner
  · omega
  · obtain ⟨s,within,rfl⟩ := List.mem_map.mp inner
    have long := ready.long within
    have bounds := (ready.inside s within).2
    simp only [Span.stop] at bounds
    omega

theorem Ready.add {limit' : Nat} (ready : Ready base limit m blocks live regions) (some' : 0 < n) (above : limit ≤ p)
    (fits : p + 8 * n ≤ limit') (high : limit' < 2 ^ 32) :
    Ready base limit' (setSize m p n) blocks (⟨p,8 * n⟩ :: live) (⟨p,8 * n⟩ :: regions) := by
  have grown : Ready base limit' (setSize m p n) blocks live regions :=
    ready.extend (fun x below => if_neg (by omega)) (by omega) high
  have moved : (⟨p,8 * n⟩ :: (blocks ++ live)).Perm (blocks ++ ⟨p,8 * n⟩ :: live) := List.perm_middle.symm
  refine ⟨grown.round,grown.empty,fun t member => ?_,?_,fun t member => ?_,ready.order,ready.low,grown.room,high⟩
  · rcases List.mem_cons.mp (moved.mem_iff.mpr member) with rfl | inner
    · change 8 * size _ p = 8 * n
      rw [size_setSize (by omega)]
    · exact grown.sizes t inner
  · refine (ready.tiles.fresh ?_ fun t member => ?_).perm moved
    · change 0 < 8 * n
      omega
    · have bounds := (ready.inside t member).2
      exact Nat.le_trans bounds above
  · rcases List.mem_cons.mp (moved.mem_iff.mpr member) with rfl | inner
    · have room := ready.room
      simp only [Span.stop]
      omega
    · exact grown.inside t inner

/-- `morecore` fails and changes nothing, or there is a free block of so many units. -/
theorem morecore_spec (fresh : Fresh sbrk top) (kept : Kept base top h blocks live) (small : n < 2 ^ 28) :
    ∃ p h' blocks', (∀ fuel, blocks.length < fuel → morecore sbrk fuel n h = some (p,h')) ∧ Kept base top h' blocks' live ∧
      (∃ a, h'.calls = (8 * units n,a) :: h.calls) ∧ blocks'.length ≤ blocks.length + 1 ∧
      (p = 0 ∨ (p = h'.freep ∧ p ≠ 0 ∧ ∃ t ∈ blocks', 8 * n ≤ t.len)) := by
  obtain ⟨ready,here⟩ := kept
  have bound : 4096 ≤ units n ∧ n ≤ units n ∧ units n < 2 ^ 28 := by
    unfold units
    split <;> omega
  have arg : units n * headerSize % 2 ^ 32 = 8 * units n := by
    rw [headerSize,Nat.mul_comm]
    exact Nat.mod_eq_of_lt (by omega)
  have positive : 0 < 8 * units n ∧ 8 * units n < 2 ^ 31 := by omega
  have answers := fresh.answer (8 * units n) h.kernel h.mem positive.1 positive.2
  have grows := fresh.grows (8 * units n) h.kernel h.mem positive.1 positive.2
  have keeps := fresh.keeps (8 * units n) h.kernel h.mem positive.1 positive.2
  have unfolded (fuel : Nat) : morecore sbrk fuel n h = if (sbrk (8 * units n) h.kernel h.mem).1 = minusOne
      then some (0,⟨(sbrk (8 * units n) h.kernel h.mem).2.2,h.freep,(sbrk (8 * units n) h.kernel h.mem).2.1,
        (8 * units n,(sbrk (8 * units n) h.kernel h.mem).1) :: h.calls⟩)
      else (free fuel (advance (sbrk (8 * units n) h.kernel h.mem).1 1)
        ⟨setSize (sbrk (8 * units n) h.kernel h.mem).2.2 (sbrk (8 * units n) h.kernel h.mem).1 (units n),h.freep,
          (sbrk (8 * units n) h.kernel h.mem).2.1,(8 * units n,(sbrk (8 * units n) h.kernel h.mem).1) :: h.calls⟩).map
        fun h => (h.freep,h) := by
    rw [← arg]
    rfl
  generalize sbrk (8 * units n) h.kernel h.mem = answer at answers grows keeps unfolded
  obtain ⟨a,kernel,mem⟩ := answer
  dsimp only at answers grows keeps unfolded
  have limit := fresh.high kernel
  have extended := ready.extend keeps grows limit
  by_cases failed : a = minusOne
  · refine ⟨0,⟨mem,h.freep,kernel,(8 * units n,a) :: h.calls⟩,blocks,fun fuel _ => by rw [unfolded,if_pos failed],⟨?_,here⟩,⟨a,rfl⟩,
      by omega,.inl rfl⟩
    have none : obtained ((8 * units n,a) :: h.calls) = obtained h.calls := by simp [obtained,failed]
    dsimp only
    rw [none]
    exact extended
  · obtain ⟨above,fits⟩ := answers.resolve_left failed
    have added := (ready.extend keeps (le_refl _) (by omega)).add (n := units n) (by omega) above fits limit
    obtain ⟨h',blocks',runs,kernel',calls,ready',here',⟨t,member,wide⟩,few⟩ := free_spec (σ := σ)
      (h := ⟨setSize mem a (units n),h.freep,kernel,(8 * units n,a) :: h.calls⟩) added here
    have more : obtained h'.calls = ⟨a,8 * units n⟩ :: obtained h.calls := by
      rw [calls]
      simp [obtained,failed]
    refine ⟨h'.freep,h',blocks',fun fuel enough => ?_,⟨by rw [more,kernel']; exact ready',here'⟩,⟨a,calls⟩,few,.inr ⟨rfl,?_,t,member,?_⟩⟩
    · have first : advance a 1 = a + 8 := advance_eq (n := 1) (top kernel) (by omega) limit
      rw [unfolded,if_neg failed,first,runs fuel enough]
      rfl
    · rcases List.mem_cons.mp here' with root | inner
      · have low := ready.low
        omega
      · obtain ⟨u,within,same⟩ := List.mem_map.mp inner
        have bounds := ready'.inside u (by simp [within])
        omega
    · change 8 * units n ≤ t.len at wide
      omega

theorem Kept.walk (kept : Kept base top h blocks live) : ∃ rest, Leads (ptr h.mem) h.freep rest h.freep ∧ h.freep ∉ rest ∧
    (∀ x, x ∈ h.freep :: rest ↔ x ∈ base :: blocks.map Span.start) ∧ rest.length = blocks.length := by
  obtain ⟨ready,here⟩ := kept
  have once : (base :: blocks.map Span.start).Nodup := by
    have all := ready.once
    rw [List.map_append,← List.cons_append] at all
    exact (List.nodup_append.mp all).1
  have round : Round (ptr h.mem) base (blocks.map Span.start) := ⟨ready.round,once⟩
  obtain ⟨rest,leads,all⟩ := round.around here
  refine ⟨rest,leads,(List.nodup_cons.mp (all.nodup_iff.mpr once)).1,fun x => all.mem_iff,?_⟩
  have length := all.length_eq
  simpa using length

variable (sbrk) in
theorem malloc_from_finds (kept : Kept base top h blocks live) (some' : 0 < n) (big : ∃ t ∈ blocks, 8 * n ≤ t.len) :
    ∃ t h' blocks', (∀ fuel, blocks.length < fuel → malloc_from sbrk n fuel h.freep (ptr h.mem h.freep) h = some (t.start + 8,h')) ∧
      h'.calls = h.calls ∧ t.len = 8 * n ∧ Kept base top h' blocks' (t :: live) := by
  obtain ⟨rest,leads,fresh,all,length⟩ := kept.walk
  rcases malloc_from_scan sbrk (n := n) leads fresh with ⟨p,member,fit,runs⟩ | ⟨small,_⟩
  · obtain ⟨t,blocks',result,exact',ready,here,kernel,calls⟩ := take_spec kept.1 ((all p).mp member) some' fit
    refine ⟨t,_,blocks',fun fuel enough => ?_,calls,exact',?_,here⟩
    · rw [runs fuel (by omega),← result]
    · rw [kernel,calls]
      exact ready
  · obtain ⟨t,member,wide⟩ := big
    have inner : t.start ∈ h.freep :: rest := (all t.start).mpr (List.mem_cons_of_mem _ (List.mem_map_of_mem member))
    have less := small t.start (by simp at inner ⊢; tauto)
    have same := kept.1.sizes t (by simp [member])
    omega

theorem malloc_from_spec (fresh : Fresh sbrk top) (kept : Kept base top h blocks live) (some' : 0 < n) (small : n < 2 ^ 28) :
    ∃ r h' blocks', (∀ fuel, 2 * blocks.length + 4 ≤ fuel → malloc_from sbrk n fuel h.freep (ptr h.mem h.freep) h = some (r,h')) ∧
      (h'.calls = h.calls ∨ ∃ a, h'.calls = (8 * units n,a) :: h.calls) ∧
      ((r = 0 ∧ Kept base top h' blocks' live) ∨
        ∃ t, r = t.start + 8 ∧ t.len = 8 * n ∧ Kept base top h' blocks' (t :: live)) := by
  by_cases big : ∃ t ∈ blocks, 8 * n ≤ t.len
  · obtain ⟨t,h',blocks',found,calls,exact',kept'⟩ := malloc_from_finds sbrk kept some' big
    exact ⟨t.start + 8,h',blocks',fun fuel enough => found fuel (by omega),.inl calls,.inr ⟨t,rfl,exact',kept'⟩⟩
  obtain ⟨rest,leads,other,all,length⟩ := kept.walk
  rcases malloc_from_scan sbrk (n := n) leads other with ⟨p,member,fit,_⟩ | ⟨_,runs⟩
  · obtain ⟨l,c,r,rfl,next,_⟩ := kept.1.found ((all p).mp member) some' fit
    have same := kept.1.sizes c (by simp)
    rw [next] at fit
    exact absurd ⟨c,by simp,by omega⟩ big
  · obtain ⟨p,h₁,blocks₁,more,kept₁,calls,few,zero | ⟨rfl,positive,big⟩⟩ := morecore_spec fresh kept small
    · refine ⟨0,h₁,blocks₁,fun fuel enough => ?_,.inr calls,.inl ⟨rfl,kept₁⟩⟩
      obtain ⟨fuel,rfl⟩ : ∃ f, fuel = f + rest.length + 1 := ⟨fuel - rest.length - 1,by omega⟩
      rw [runs,more fuel (by omega),Option.bind_some,if_pos zero]
    · obtain ⟨t,h₂,blocks₂,found,calls₂,exact',kept₂⟩ := malloc_from_finds sbrk kept₁ some' big
      refine ⟨t.start + 8,h₂,blocks₂,fun fuel enough => ?_,.inr ?_,.inr ⟨t,rfl,exact',kept₂⟩⟩
      · obtain ⟨fuel,rfl⟩ : ∃ f, fuel = f + rest.length + 1 := ⟨fuel - rest.length - 1,by omega⟩
        rw [runs,more fuel (by omega),Option.bind_some,if_neg positive,found fuel (by omega)]
      · rw [calls₂]
        exact calls

/-- A heap that has not been used yet, or one that is in order. -/
def Fit (base : Nat) (top : σ → Nat) (h : Heap σ) (live : List Span) : Prop :=
  (h.freep = 0 ∧ h.calls = [] ∧ live = [] ∧ 0 < base ∧ base + 8 ≤ top h.kernel) ∨ ∃ blocks, Kept base top h blocks live

theorem Fit.start (fresh : Fresh sbrk top) (fit : Fit base top h live) :
    (start base h).calls = h.calls ∧ ∃ blocks, Kept base top (start base h) blocks live := by
  have high := fresh.high h.kernel
  unfold Umalloc.start
  rcases fit with ⟨new,none,rfl,low,room⟩ | ⟨blocks,kept⟩
  · rw [if_pos new]
    refine ⟨rfl,[],⟨?_,?_,by simp,?_,by simp,List.Pairwise.nil,low,room,high⟩,by simp⟩
    · change ptr (setSize (setPtr h.mem base base) base 0) base = base
      rw [ptr_setSize,ptr_setPtr (by omega)]
    · change size (setSize (setPtr h.mem base base) base 0) base = 0
      rw [size_setSize (by omega)]
    · dsimp only
      rw [none]
      exact ⟨by simp,List.Pairwise.nil,by simp [obtained]⟩
  · have used : h.freep ≠ 0 := by
      have low := kept.1.low
      rcases List.mem_cons.mp kept.2 with root | inner
      · omega
      · obtain ⟨s,within,same⟩ := List.mem_map.mp inner
        have bounds := kept.1.inside s (by simp [within])
        omega
    rw [if_neg used]
    exact ⟨rfl,blocks,kept⟩

theorem nunits_bounds {nbytes : Nat} (small : nbytes ≤ 2 ^ 31 - 16) :
    0 < nunits nbytes ∧ nunits nbytes < 2 ^ 28 ∧ nbytes + 8 ≤ 8 * nunits nbytes := by
  simp only [nunits,headerSize]
  omega

theorem malloc_spec (fresh : Fresh sbrk top) (fit : Fit base top h live) {nbytes : Nat} (small : nbytes ≤ 2 ^ 31 - 16) :
    ∃ r h' enough, (∀ fuel, enough ≤ fuel → malloc base sbrk fuel nbytes h = some (r,h')) ∧
      (h'.calls = h.calls ∨ ∃ a, h'.calls = (8 * units (nunits nbytes),a) :: h.calls) ∧
      ((r = 0 ∧ Fit base top h' live) ∨
        ∃ t, r = t.start + 8 ∧ t.len = 8 * nunits nbytes ∧ ∃ blocks, Kept base top h' blocks (t :: live)) := by
  obtain ⟨same,blocks,kept⟩ := fit.start fresh
  have bounds := nunits_bounds small
  obtain ⟨r,h',blocks',runs,calls,result⟩ := malloc_from_spec fresh kept bounds.1 bounds.2.1
  rw [same] at calls
  refine ⟨r,h',_,runs,calls,?_⟩
  rcases result with ⟨zero,kept'⟩ | ⟨t,here,exact',kept'⟩
  · exact .inl ⟨zero,.inr ⟨blocks',kept'⟩⟩
  · exact .inr ⟨t,here,exact',blocks',kept'⟩

/-! ### Runs -/

/-- A program with its heap, and the pointers that it has got and not given back, each with the number of bytes asked for. -/
structure World (σ : Type) where
  heap : Heap σ
  live : List (Nat × Nat)

/-- The block of a pointer. -/
def blockOf (x : Nat × Nat) : Span := ⟨x.1 - 8,8 * nunits x.2⟩

/-- A byte that the program may change: one that it has asked for, or one that the allocator has nothing to do with. -/
def World.Own (base : Nat) (w : World σ) (x : Nat) : Prop :=
  (∃ y ∈ w.live, y.1 ≤ x ∧ x < y.1 + y.2) ∨ ((x < base ∨ base + 8 ≤ x) ∧ ∀ s ∈ obtained w.heap.calls, ¬s.Has x)

inductive Step (base : Nat) (sbrk : Sbrk σ) (top : σ → Nat) (w : World σ) : World σ → Prop where
  | malloc {n fuel r : Nat} {h : Heap σ} (small : n < 2 ^ 30) (ran : malloc base sbrk fuel n w.heap = some (r,h)) :
      Step base sbrk top w ⟨h,if r = 0 then w.live else (r,n) :: w.live⟩
  | free {x : Nat × Nat} {fuel : Nat} {h : Heap σ} (member : x ∈ w.live) (ran : free fuel x.1 w.heap = some h) :
      Step base sbrk top w ⟨h,w.live.erase x⟩
  | write {mem : Mem} (own : ∀ x, mem x ≠ w.heap.mem x → w.Own base x) :
      Step base sbrk top w ⟨{ w.heap with mem := mem },w.live⟩
  -- The program calls `sbrk` itself.
  | more {kernel : σ} (more : top w.heap.kernel ≤ top kernel) : Step base sbrk top w ⟨{ w.heap with kernel := kernel },w.live⟩

/-- The heap is in order, and its blocks in use are those of the pointers. -/
structure World.Ordered (base : Nat) (top : σ → Nat) (w : World σ) : Prop where
  fit : Fit base top w.heap (w.live.map blockOf)
  small : ∀ x ∈ w.live, x.2 < 2 ^ 30

variable {w w' : World σ} {x : Nat × Nat}

theorem Fit.pointer {y : List (Nat × Nat)} (fit : Fit base top h (y.map blockOf)) (member : x ∈ y) :
    (blockOf x).start + 8 = x.1 ∧ ∃ blocks, Kept base top h blocks (y.map blockOf) := by
  rcases fit with ⟨_,_,none,_⟩ | ⟨blocks,kept⟩
  · rw [List.map_eq_nil_iff.mp none] at member
    cases member
  · have bounds := (kept.1.inside (blockOf x) (by simp [List.mem_map_of_mem member])).1
    refine ⟨?_,blocks,kept⟩
    simp only [blockOf] at bounds ⊢
    omega

theorem Kept.perm {live' : List Span} (kept : Kept base top h blocks live) (same : live.Perm live') : Kept base top h blocks live' := by
  have all : (blocks ++ live).Perm (blocks ++ live') := List.Perm.append_left _ same
  have ready := kept.1
  exact ⟨⟨ready.round,ready.empty,fun s member => ready.sizes s (all.mem_iff.mpr member),ready.tiles.perm all,
    fun s member => ready.inside s (all.mem_iff.mpr member),ready.order,ready.low,ready.room,ready.high⟩,kept.2⟩

theorem World.Ordered.free (ordered : w.Ordered base top) (member : x ∈ w.live) :
    ∃ h enough, (∀ fuel, enough ≤ fuel → Umalloc.free fuel x.1 w.heap = some h) ∧ World.Ordered base top ⟨h,w.live.erase x⟩ := by
  obtain ⟨pointer,blocks,kept⟩ := ordered.fit.pointer member
  have moved : (w.live.map blockOf).Perm (blockOf x :: (w.live.erase x).map blockOf) := (List.perm_cons_erase member).map blockOf
  obtain ⟨ready,here⟩ := kept.perm moved
  obtain ⟨h',blocks',runs,kernel,calls,ready',here',_⟩ := free_spec ready here
  rw [pointer] at runs
  refine ⟨h',blocks.length + 1,fun fuel enough => runs fuel (by omega),.inr ⟨blocks',?_,here'⟩,
    fun y later => ordered.small y (List.mem_of_mem_erase later)⟩
  rw [kernel,calls]
  exact ready'

theorem World.Ordered.malloc (fresh : Fresh sbrk top) (ordered : w.Ordered base top) (small : n < 2 ^ 30) :
    ∃ r h enough, (∀ fuel, enough ≤ fuel → Umalloc.malloc base sbrk fuel n w.heap = some (r,h)) ∧
      World.Ordered base top ⟨h,if r = 0 then w.live else (r,n) :: w.live⟩ := by
  obtain ⟨r,h,enough,runs,_,result⟩ := malloc_spec fresh ordered.fit (show n ≤ 2 ^ 31 - 16 by omega)
  refine ⟨r,h,enough,runs,?_⟩
  rcases result with ⟨rfl,fit⟩ | ⟨t,rfl,exact',blocks,kept⟩
  · exact ⟨fit,ordered.small⟩
  · rw [if_neg (by omega)]
    refine ⟨.inr ⟨blocks,?_⟩,fun x member => ?_⟩
    · have same : blockOf (t.start + 8,n) = t := by
        rw [blockOf,← exact']
        rfl
      rw [List.map_cons,same]
      exact kept
    · rcases List.mem_cons.mp member with rfl | later
      · exact small
      · exact ordered.small x later

theorem Kept.header_safe (kept : Kept base top w.heap blocks (w.live.map blockOf)) (small : ∀ y ∈ w.live, y.2 < 2 ^ 30) {a : Nat}
    (header : q ∈ base :: (blocks ++ w.live.map blockOf).map Span.start) (low : q ≤ a) (high : a < q + 8) : ¬w.Own base a := by
  have ready := kept.1
  rintro (⟨y,member,low',high'⟩ | ⟨apart,outside⟩)
  · have inner : blockOf y ∈ blocks ++ w.live.map blockOf := by simp [List.mem_map_of_mem member]
    have pointer := (Fit.pointer (.inr ⟨blocks,kept⟩) member).1
    have bytes := (nunits_bounds (show y.2 ≤ 2 ^ 31 - 16 by have := small y member; omega)).2.2
    have above := (ready.inside _ inner).1
    have len : (blockOf y).len = 8 * nunits y.2 := rfl
    rcases List.mem_cons.mp header with rfl | header
    · omega
    · obtain ⟨s,within,rfl⟩ := List.mem_map.mp header
      by_cases same : s = blockOf y
      · rw [same] at high
        omega
      · have clear := ready.tiles.of_ne within inner same
        have long := ready.long within
        simp only [Span.Apart,Span.stop] at clear
        omega
  · rcases List.mem_cons.mp header with rfl | header
    · omega
    · obtain ⟨s,within,rfl⟩ := List.mem_map.mp header
      have long := ready.long within
      obtain ⟨r,member,has⟩ := (ready.tiles.cover a).mp ⟨s,within,low,by simp only [Span.stop]; omega⟩
      exact outside r member has

/-! More turns do not change a result. -/

theorem free_from_mono {bp fuel fuel' r : Nat} (ran : free_from m bp fuel p = some r) (more : fuel ≤ fuel') :
    free_from m bp fuel' p = some r := by
  induction fuel generalizing p fuel' with
  | zero => cases ran
  | succ fuel ih =>
    obtain ⟨fuel',rfl⟩ : ∃ f, fuel' = f + 1 := ⟨fuel' - 1,by omega⟩
    rw [free_from] at ran ⊢
    split at ran
    · rw [if_pos ‹_›,ran]
    · rw [if_neg ‹_›]
      split at ran
      · rw [if_pos ‹_›,ran]
      · rw [if_neg ‹_›]
        exact ih ran (by omega)

theorem free_mono {fuel fuel' ap : Nat} {h' : Heap σ} (ran : free fuel ap h = some h') (more : fuel ≤ fuel') :
    free fuel' ap h = some h' := by
  obtain ⟨p,found,rest⟩ := Option.bind_eq_some_iff.mp ran
  exact Option.bind_eq_some_iff.mpr ⟨p,free_from_mono found more,rest⟩

theorem morecore_mono {fuel fuel' : Nat} {r : Nat × Heap σ} (ran : morecore sbrk fuel n h = some r) (more : fuel ≤ fuel') :
    morecore sbrk fuel' n h = some r := by
  unfold morecore at ran ⊢
  generalize (if n < 4096 then 4096 else n) = nu at ran ⊢
  dsimp only at ran ⊢
  split at ran
  · rw [if_pos ‹_›,ran]
  · rw [if_neg ‹_›]
    obtain ⟨h',freed,rest⟩ := Option.map_eq_some_iff.mp ran
    exact Option.map_eq_some_iff.mpr ⟨h',free_mono freed more,rest⟩

theorem malloc_from_mono {fuel fuel' : Nat} {r : Nat × Heap σ} (ran : malloc_from sbrk n fuel q p h = some r) (more : fuel ≤ fuel') :
    malloc_from sbrk n fuel' q p h = some r := by
  induction fuel generalizing q p h fuel' with
  | zero => cases ran
  | succ fuel ih =>
    obtain ⟨fuel',rfl⟩ : ∃ f, fuel' = f + 1 := ⟨fuel' - 1,by omega⟩
    rw [malloc_from] at ran ⊢
    split at ran
    · rw [if_pos ‹_›,ran]
    · rw [if_neg ‹_›]
      split at ran
      · rw [if_pos ‹_›]
        obtain ⟨got,grown,rest⟩ := Option.bind_eq_some_iff.mp ran
        refine Option.bind_eq_some_iff.mpr ⟨got,morecore_mono grown (by omega),?_⟩
        split at rest
        · rw [if_pos ‹_›,rest]
        · rw [if_neg ‹_›]
          exact ih rest (by omega)
      · rw [if_neg ‹_›]
        exact ih ran (by omega)

theorem World.Ordered.step (fresh : Fresh sbrk top) (ordered : w.Ordered base top) (step : Step base sbrk top w w') :
    w'.Ordered base top := by
  cases step with
  | @malloc n fuel r h small ran =>
    obtain ⟨r',h',enough,runs,ordered'⟩ := ordered.malloc fresh small
    have same := (malloc_from_mono ran (Nat.le_max_left fuel enough)).symm.trans (runs _ (Nat.le_max_right fuel enough))
    simp only [Option.some.injEq,Prod.mk.injEq] at same
    obtain ⟨rfl,rfl⟩ := same
    exact ordered'
  | @free x fuel h member ran =>
    obtain ⟨h',enough,runs,ordered'⟩ := ordered.free member
    have same := (free_mono ran (Nat.le_max_left fuel enough)).symm.trans (runs _ (Nat.le_max_right fuel enough))
    simp only [Option.some.injEq] at same
    obtain rfl := same
    exact ordered'
  | @write mem own =>
    refine ⟨?_,ordered.small⟩
    rcases ordered.fit with new | ⟨blocks,kept⟩
    · exact .inl new
    · refine .inr ⟨blocks,kept.1.congr (fun q header => same_of_bytes fun a low high => ?_) (le_refl _) kept.1.high,kept.2⟩
      by_contra changed
      exact kept.header_safe ordered.small header low high (own a changed)
  | @more kernel more =>
    refine ⟨?_,ordered.small⟩
    rcases ordered.fit with ⟨new,calls,none,low,room⟩ | ⟨blocks,kept⟩
    · exact .inl ⟨new,calls,none,low,Nat.le_trans room more⟩
    · exact .inr ⟨blocks,kept.1.extend (fun x _ => rfl) more (fresh.high kernel),kept.2⟩

theorem World.Ordered.run (fresh : Fresh sbrk top) (ordered : w.Ordered base top)
    (run : Relation.ReflTransGen (Step base sbrk top) w w') : w'.Ordered base top := by
  induction run with
  | refl => exact ordered
  | tail _ step ih => exact ih.step fresh step

/-- Whatever a program does with its blocks, the heap stays in order: the free blocks are in one circular list, in the order of
    their addresses and coalesced, and with the blocks in use they are the memory that has been obtained. A block in use has room
    for the bytes asked for and its header says so. The next call of `malloc` or `free` returns. -/
theorem heap_ordered (fresh : Fresh sbrk top) (low : 0 < base) (new : w.heap.freep = 0 ∧ w.heap.calls = [] ∧ w.live = [])
    (room : base + headerSize ≤ top w.heap.kernel) (run : Relation.ReflTransGen (Step base sbrk top) w w') :
    ((w'.heap.freep = 0 ∧ w'.heap.calls = [] ∧ w'.live = []) ∨ ∃ blocks, Kept base top w'.heap blocks (w'.live.map blockOf)) ∧
      (∀ x ∈ w'.live, x.2 + headerSize ≤ nunits x.2 * headerSize ∧ size w'.heap.mem (x.1 - headerSize) = nunits x.2) ∧
      (∀ n < 2 ^ 30, ∃ r h enough, ∀ fuel, enough ≤ fuel → malloc base sbrk fuel n w'.heap = some (r,h)) ∧
      ∀ x ∈ w'.live, ∃ h enough, ∀ fuel, enough ≤ fuel → free fuel x.1 w'.heap = some h := by
  have start : w.Ordered base top := ⟨.inl ⟨new.1,new.2.1,by rw [new.2.2]; rfl,low,room⟩,by rw [new.2.2]; simp⟩
  have ordered := start.run fresh run
  refine ⟨?_,fun x member => ?_,fun n small => ?_,fun x member => ?_⟩
  · rcases ordered.fit with ⟨fresh,calls,none,_⟩ | kept
    · exact .inl ⟨fresh,calls,List.map_eq_nil_iff.mp none⟩
    · exact .inr kept
  · obtain ⟨_,blocks,kept⟩ := ordered.fit.pointer member
    have bytes := (nunits_bounds (show x.2 ≤ 2 ^ 31 - 16 by have := ordered.small x member; omega)).2.2
    have header : 8 * size w'.heap.mem (x.1 - 8) = 8 * nunits x.2 :=
      kept.1.sizes (blockOf x) (by simp [List.mem_map_of_mem member])
    rw [headerSize]
    omega
  · obtain ⟨r,h,enough,runs,_⟩ := ordered.malloc fresh small
    exact ⟨r,h,enough,runs⟩
  · obtain ⟨h,enough,runs,_⟩ := ordered.free member
    exact ⟨h,enough,runs⟩

/-! ### The kernel -/

/-- `sys_sbrk` and the sizes of `growproc` in a process of `sz` bytes below `KERNBASE`, where memory does not run out. -/
def sys_sbrk : Sbrk (Fin (2 ^ 31)) := fun arg sz mem =>
  let n : Int := if arg < 2 ^ 31 then arg else (arg : Int) - 2 ^ 32
  if n > 0 then
    if h : sz.val + arg < 2 ^ 31 then (sz,⟨sz.val + arg,h⟩,mem) else (minusOne,sz,mem)
  else if n < 0 then
    -- `deallocuvm` returns the smaller size, and a result of 0 is a failure.
    let newsz := min sz.val ((sz.val + n) % 2 ^ 32).toNat
    if newsz = 0 then (minusOne,sz,mem) else (sz,⟨newsz,by omega⟩,mem)
  else (sz,sz,mem)

theorem sys_sbrk_fresh : Fresh sys_sbrk Fin.val := by
  have positive (k : Nat) (e : Fin (2 ^ 31)) (m : Mem) (some' : 0 < k) (small : k < 2 ^ 31) :
      sys_sbrk k e m = if h : e.val + k < 2 ^ 31 then (e.val,⟨e.val + k,h⟩,m) else (minusOne,e,m) := by
    simp only [sys_sbrk,if_pos small]
    rw [if_pos (by omega)]
  refine ⟨fun k e m some' small => ?_,fun k e m some' small => ?_,fun k e m some' small x _ => ?_,fun e => by omega⟩
  all_goals rw [positive k e m some' small]; split
  · exact .inr ⟨le_refl _,le_refl _⟩
  · exact .inl rfl
  · exact Nat.le_add_right _ _
  · exact le_refl _
  · rfl
  · rfl

section
open Xv6.Vm

/-- In the kernel `growproc` answers as `sys_sbrk` does, unless the pages it takes run out. -/
theorem growproc_sbrk {k : Link} {own : Nat → Owner} {l : List Nat} {s : Sys} {p : Pid} (sound : Sound k own l s.vm)
    (dir : own (s.space p).pgdir = .dir) (below : (s.space p).sz < 2 ^ 31)
    (exactly : ∀ v < KERNBASE / PGSIZE, has (entry s.vm.mem (s.space p).pgdir v) PTE_P = true ↔ v < PGROUNDUP (s.space p).sz)
    {n : Int} (int : -2 ^ 31 ≤ n ∧ n < 2 ^ 31) (mem : Mem) :
    ∃ r s', growproc k p n s = .ok (r,s') ∧
      ((if r = 0 then (s.space p).sz else minusOne,(s'.space p).sz,mem) =
          (sys_sbrk (n % 2 ^ 32).toNat ⟨_,below⟩ mem).map id (Prod.map Fin.val id) ∨
        r = -1 ∧ (s'.space p).sz = (s.space p).sz ∧ ∃ i, Fails i l s.vm) := by
  have vacant := vacant_of below exactly
  have signed : (if (n % 2 ^ 32).toNat < 2 ^ 31 then ((n % 2 ^ 32).toNat : Int) else ((n % 2 ^ 32).toNat : Int) - 2 ^ 32) = n := by
    split <;> omega
  have base : KERNBASE = 2147483648 := rfl
  refine post_returns ?_
  unfold growproc sys_sbrk
  simp only [post_bind,post_get,signed]
  generalize sizes : (s.space p).sz = sz at *
  by_cases more : n > 0
  · have size : ((sz + n) % 2 ^ 32).toNat = sz + (n % 2 ^ 32).toNat := by omega
    rw [if_pos more,if_pos more,post_bind,size]
    refine post_onVm (post_use (allocuvm_spec sound dir (Nat.le_of_lt below) vacant) fun r m' result => ?_)
    rcases result with ⟨high,rfl,rfl⟩ | ⟨low,less,rfl,rfl⟩ | ⟨low,_,done,size,result⟩
    · rw [if_pos rfl,post_pure,dif_neg (by omega)]
      exact .inl (by simp [sizes])
    · omega
    · cases done with
      | true =>
        rw [if_pos rfl] at size
        rw [if_neg (by omega),dif_pos (by omega)]
        exact .inl (by simp [size])
      | false =>
        rw [if_neg (by decide)] at size
        rw [if_pos size,post_pure]
        obtain ⟨_,i,_,fails⟩ := result
        exact .inr ⟨rfl,sizes,i,fails⟩
  · rw [if_neg more,if_neg more]
    split
    · rw [post_bind]
      refine post_onVm (post_use (deallocuvm_spec sound dir (Nat.le_of_lt below)) fun r m' ⟨size,_⟩ => ?_)
      subst size
      split
      · exact .inl (by simp [sizes])
      · exact .inl (by simp)
    · exact .inl (by simp [sizes])
end

/-- A process of four pages that has not called `malloc` yet. -/
def unused : Heap (Fin (2 ^ 31)) := ⟨fun _ => 0,0,16384,[]⟩

theorem heap_ordered_hundred : ∃ h, malloc 4096 sys_sbrk 10 100 unused = some (49048,h) ∧
    (∃ blocks, Kept 4096 Fin.val h blocks [⟨49040,112⟩]) ∧ size h.mem 49040 = 14 := by
  have result : (malloc 4096 sys_sbrk 10 100 unused).map Prod.fst = some 49048 := by decide +kernel
  obtain ⟨⟨r,h⟩,ran,rfl⟩ := Option.map_eq_some_iff.mp result
  have step : Step 4096 sys_sbrk Fin.val ⟨unused,[]⟩ ⟨h,[(49048,100)]⟩ := Step.malloc (w := ⟨unused,[]⟩) (by decide) ran
  obtain ⟨kept,headers,_⟩ := heap_ordered (w := ⟨unused,[]⟩) sys_sbrk_fresh (show 0 < 4096 by decide) ⟨rfl,rfl,rfl⟩ (by decide) (.single step)
  exact ⟨h,ran,kept.resolve_left (fun new => by simp at new),(headers (49048,100) (by simp)).2⟩

/-- What `malloc` returns has room for the bytes asked for and is memory of the process, and `sbrk` is asked for a positive number. -/
theorem malloc_honest (fresh : Fresh sbrk top) (fit : Fit base top h live) {nbytes : Nat} (small : nbytes ≤ 2 ^ 31 - 16) :
    ∃ r h' enough, (∀ fuel, enough ≤ fuel → malloc base sbrk fuel nbytes h = some (r,h')) ∧
      (r = 0 ∨ (nbytes + headerSize ≤ size h'.mem (r - 8) * headerSize ∧ ∀ x, r - 8 ≤ x → x < r - 8 + size h'.mem (r - 8) * headerSize →
        x < top h'.kernel ∧ ∃ s ∈ obtained h'.calls, s.Has x)) ∧
      (h'.calls = h.calls ∨ ∃ a, h'.calls = (units (nunits nbytes) * headerSize,a) :: h.calls ∧
        0 < units (nunits nbytes) * headerSize ∧ units (nunits nbytes) * headerSize < 2 ^ 31) := by
  obtain ⟨r,h',enough,runs,calls,result⟩ := malloc_spec fresh fit small
  have bounds := nunits_bounds small
  refine ⟨r,h',enough,runs,?_,?_⟩
  · rcases result with ⟨zero,_⟩ | ⟨t,rfl,exact',blocks,kept⟩
    · exact .inl zero
    · have units := kept.1.sizes t (by simp)
      rw [Nat.add_sub_cancel,headerSize,Nat.mul_comm,units,exact']
      refine .inr ⟨bounds.2.2,fun x low high => ⟨?_,?_⟩⟩
      · have inside := (kept.1.inside t (by simp)).2
        simp only [Span.stop] at inside
        omega
      · exact (kept.1.tiles.cover x).mp ⟨t,by simp,low,by simp only [Span.stop]; omega⟩
  · rcases calls with same | ⟨a,more⟩
    · exact .inl same
    · refine .inr ⟨a,by rw [more,headerSize,Nat.mul_comm],?_⟩
      simp only [units,headerSize]
      split <;> omega

theorem malloc_honest_hundred : ∃ r h' enough, (∀ fuel, enough ≤ fuel → malloc 4096 sys_sbrk fuel 100 unused = some (r,h')) ∧
    (r = 0 ∨ 100 + headerSize ≤ size h'.mem (r - 8) * headerSize) := by
  obtain ⟨r,h',enough,runs,result,_⟩ := malloc_honest sys_sbrk_fresh
    (show Fit 4096 Fin.val unused [] from .inl ⟨rfl,rfl,rfl,by decide,by decide⟩) (show 100 ≤ 2 ^ 31 - 16 by decide)
  exact ⟨r,h',enough,runs,result.imp id And.left⟩

/-- A request of `2 ^ 32 - 1` bytes gets a block of one header. For `2 ^ 32 - 8` bytes `sbrk` is asked for 0 bytes: it
    succeeds, and the block begins where the memory of the process ends, here inside of its last page. -/
theorem malloc_lies :
    ((malloc 4096 sys_sbrk 10 (2 ^ 32 - 1) unused).map fun x => (x.1,size x.2.mem (x.1 - 8))) = some (16384 + 32768,1) ∧
    ((malloc 4096 sys_sbrk 10 (2 ^ 32 - 8) { unused with kernel := 16000 }).map fun x =>
      (x.1,size x.2.mem (x.1 - 8),x.2.kernel.val,x.2.calls)) = some (16000 + 8,2 ^ 29,16000,[(0,16000)]) := by
  decide +kernel

end Xv6.Umalloc
