import Xv6.Space

/-!
`readi` and `writei`. The contents of an inode are bytes at offsets; `readi`
gives them, and `writei` replaces a range of them and leaves the contents of the
other inodes alone, since no block has two uses.
-/
namespace Xv6
open Xv6.Lib Function

variable {s : State} {v : Nat → Dinode} {ip : Slot} {i : Nat}

/-! ### `readi` -/

/-- The bytes of a file from an offset on. -/
def slice (file : Nat → UInt8) (off n : Nat) : List UInt8 := (List.range n).map fun k => file (off + k)

theorem slice_append (file : Nat → UInt8) (off m n : Nat) :
    slice file off m ++ slice file (off + m) n = slice file off (m + n) := by
  simp only [slice,List.range_add,List.map_append,List.map_map]
  congr 1
  exact List.map_congr_left fun k _ => by simp [Nat.add_assoc]

theorem slice_congr (file : Nat → UInt8) {file' : Nat → UInt8} {off n : Nat} (same : ∀ k < n, file (off + k) = file' (off + k)) :
    slice file off n = slice file' off n :=
  List.map_congr_left fun k member => same k (List.mem_range.mp member)

theorem slice_length (file : Nat → UInt8) (off n : Nat) : (slice file off n).length = n := by simp [slice]

theorem offset_block (off k : Nat) (inside : off % BSIZE + k < BSIZE) :
    (off + k) / BSIZE = off / BSIZE ∧ (off + k) % BSIZE = off % BSIZE + k := by
  rw [BSIZE_eq] at *
  omega

theorem bytesIn_eq_slice {disk : Disk} {d : Dinode} {off m : Nat} (some' : blk disk d (off / BSIZE) ≠ 0)
    (fits : off % BSIZE + m ≤ BSIZE) :
    bytesIn (disk (blk disk d (off / BSIZE))) (off % BSIZE) m = slice (content disk d) off m := by
  refine List.map_congr_left fun k member => ?_
  have inside := List.mem_range.mp member
  obtain ⟨block,offset⟩ := offset_block off k (by omega)
  rw [content,block,offset,if_neg some']

theorem readi_from_spec (holds : Holds s v ip i) (fuel off n : Nat) (enough : n ≤ fuel)
    (small : off + n ≤ MAXFILE * BSIZE) :
    post (readi_from ip fuel off n) (fun bytes s' => ∃ disk d, s' = s.put disk ip d ∧ Grown s v i disk d ∧
      bytes = slice (content s.disk (v i)) off n ∧ Mapped s v i disk d (way off n) ∧
      ((∀ bn, Touches off n bn → blk s.disk (v i) bn ≠ 0) → disk = s.disk ∧ d = v i))
      (fun why => Full why ∧ Short s v i (way off n)) s := by
  have nothing {s : State} {v : Nat → Dinode} (holds : Holds s v ip i) (off : Nat) :
      ∃ disk d, s = s.put disk ip d ∧ Grown s v i disk d ∧ [] = slice (content s.disk (v i)) off 0 ∧
        Mapped s v i disk d (way off 0) ∧ ((∀ bn, Touches off 0 bn → blk s.disk (v i) bn ≠ 0) → disk = s.disk ∧ d = v i) :=
    ⟨s.disk,v i,(put_self holds.node).symm,.refl holds.core,rfl,way_zero off ▸ .none s v i,fun _ => ⟨rfl,rfl⟩⟩
  induction fuel generalizing s v off n with
  | zero =>
    obtain rfl : n = 0 := by omega
    exact nothing holds off
  | succ fuel ih =>
    unfold readi_from
    split
    · next none' =>
      subst none'
      exact nothing holds off
    · next some' =>
      have bsize := BSIZE_eq
      have rem := Nat.mod_lt off (show 0 < BSIZE by decide)
      generalize part : min n (BSIZE - off % BSIZE) = m
      have high : m ≤ n := by omega
      have fits : off % BSIZE + m ≤ BSIZE := by omega
      have bn : off / BSIZE < MAXFILE := Nat.div_lt_of_lt_mul (by rw [Nat.mul_comm]; omega)
      have later : ∀ k ∈ way (off + m) (n - m), k < NPTR := fun k => way_lt (by omega)
      rw [way_step (Nat.pos_of_ne_zero some') part small,post_bind]
      refine post_mono (bmap_spec holds bn) (fun b s₁ ⟨disk,d,same,grown,here,nonzero,mapped,old⟩ => ?_)
        fun _ ⟨full,short⟩ => ⟨full,short.mono Finset.subset_union_left⟩
      subst same
      have holds₁ := holds.put grown.core grown.attr
      rw [post_bind,post_bread,post_bind]
      refine post_mono (ih holds₁ (off + m) (n - m) (by omega) (by omega))
        (fun rest s₂ ⟨disk₂,d₂,same₂,grown₂,bytes,mapped₂,old₂⟩ => ?_) fun _ ⟨full,short⟩ => ⟨full,short.later mapped later⟩
      rw [update_self] at bytes old₂
      have contents := grown.mine
      rw [post_pure]
      refine ⟨disk₂,d₂,?_,grown.trans grown₂,?_,mapped.trans mapped₂ later,fun all => ?_⟩
      · rw [same₂]
        simp [State.put]
      · have first : bytesIn ((s.put disk ip d).disk b) (off % BSIZE) m = slice (content disk d) off m := by
          rw [← here]
          exact bytesIn_eq_slice (by rwa [here]) fits
        rw [first,bytes,slice_congr _ (fun k inside => contents (off + k) (by omega)),
          slice_congr (content (s.put disk ip d).disk d) (fun k inside => contents (off + m + k) (by omega)),
          slice_append,Nat.add_sub_cancel' high]
      · obtain ⟨rfl,rfl⟩ := old (all _ (Touches.first (by omega)))
        obtain ⟨rfl,rfl⟩ := old₂ fun k later => all k (later.rest high)
        exact ⟨rfl,rfl⟩

/-! ### `writei` -/

/-- The contents with the bytes `src` written at an offset. -/
def overlay (file : Nat → UInt8) (off : Nat) (src : List UInt8) (o : Nat) : UInt8 :=
  if off ≤ o ∧ o < off + src.length then src.getD (o - off) 0 else file o

theorem own_write {sb : Superblock} {disk : Disk} (core : Core sb disk v) (key : Nat × Nat) (leaf : key.2 ≠ NDIRECT)
    (bp : Block) (l : Nat × Nat) :
    own sb (update disk (own sb disk v key) bp) v l = own sb disk v l := by
  obtain ⟨j,k⟩ := l
  by_cases allocated : j < sb.ninodes ∧ (v j).type ≠ 0 ∧ k < NPTR
  · rw [own_of_allocated allocated.1 allocated.2.1 allocated.2.2,own_of_allocated allocated.1 allocated.2.1 allocated.2.2]
    refine ptr_same allocated.1 allocated.2.1 (fun there => ?_) k
    have apart : own sb disk v (j,NDIRECT) ≠ own sb disk v key := by
      intro same
      have here := core.partition.once _ _ there same
      exact leaf (by rw [← here])
    rw [update_of_ne apart]
  · rw [own_eq_zero allocated,own_eq_zero allocated]

theorem Written.block (holds : Holds s v ip i) {bn : Nat} (small : bn < MAXFILE) (some' : blk s.disk (v i) bn ≠ 0)
    (bp : Block) : Written s v i (update s.disk (blk s.disk (v i) bn) bp) (v i)
      fun o => if o / BSIZE = bn then byteAt bp (o % BSIZE) else content s.disk (v i) o := by
  have core := holds.core
  have mine : blk s.disk (v i) bn = own s.sb s.disk v (i,position bn) := blk_eq_own holds.inside holds.type small
  rw [mine] at some'
  have owns := own_write core (i,position bn) (position_ne_last bn) bp
  have range := core.partition.range _ some'
  have start := core.layout.datastart_low
  have low := core.layout.bmapstart_low
  rw [← mine] at owns range
  generalize blk s.disk (v i) bn = b at owns range mine
  have blocks (j : Nat) (inside : j < s.sb.ninodes) (type : (v j).type ≠ 0) (k : Nat) (high : k < NPTR) :
      ptr (update s.disk b bp) (v j) k = ptr s.disk (v j) k := by
    have := owns (j,k)
    rwa [own_of_allocated inside type high,own_of_allocated inside type high] at this
  have bits {c : Nat} (high : c < s.sb.size) : bitAt s.sb (update s.disk b bp) c = bitAt s.sb s.disk c :=
    bitAt_data core.layout range.1 high bp
  have contents (j : Nat) (inside : j < s.sb.ninodes) (type : (v j).type ≠ 0) (off : Nat) (high : off < MAXFILE * BSIZE) :
      content (update s.disk b bp) (v j) off = if j = i ∧ off / BSIZE = bn then byteAt bp (off % BSIZE)
        else content s.disk (v j) off := by
    have index : off / BSIZE < MAXFILE := Nat.div_lt_of_lt_mul (by rwa [Nat.mul_comm])
    have here : blk s.disk (v j) (off / BSIZE) = own s.sb s.disk v (j,position (off / BSIZE)) :=
      blk_eq_own inside type index
    have same : blk (update s.disk b bp) (v j) (off / BSIZE) = blk s.disk (v j) (off / BSIZE) :=
      blocks j inside type _ (position_lt index)
    rw [content,same]
    split
    · next zero =>
      rw [if_neg,content,if_pos zero]
      rintro ⟨rfl,rfl⟩
      rw [zero] at here
      exact some' here.symm
    · next nonzero =>
      by_cases this : j = i ∧ off / BSIZE = bn
      · obtain ⟨rfl,rfl⟩ := this
        rw [if_pos ⟨rfl,rfl⟩,here,mine,update_self]
      · have apart : blk s.disk (v j) (off / BSIZE) ≠ b := by
          intro equal
          rw [here,mine] at equal
          have key := core.partition.once _ _ (by rwa [← here]) equal
          exact this ⟨(Prod.ext_iff.mp key).1,position_inj (Prod.ext_iff.mp key).2⟩
        rw [if_neg this,update_of_ne apart,content,if_neg nonzero]
  refine ⟨?_,rfl,fun off high => ?_,fun j inside other type off high => ?_,fun j inside _ type => blocks j inside type,
    fun c below => update_of_ne (by omega) _ _,fun k high _ => blocks i holds.inside holds.type k high⟩
  · rw [update_eq_self]
    refine ⟨core.layout,?_,fun c below => ?_,core.partition.congr (fun c _ high => bits high) owns⟩
    · rw [update_of_ne (by omega)]
      exact core.super
    · have := core.layout.data
      rw [bits (by omega)]
      exact core.reserved c below
  · simpa using contents i holds.inside holds.type off high
  · rw [contents j inside type off high,if_neg fun both => other both.1]

theorem overlay_nil (file : Nat → UInt8) (off : Nat) : overlay file off [] = file :=
  funext fun o => if_neg (by simp only [List.length_nil]; omega)

theorem overlay_append (file : Nat → UInt8) (off : Nat) (src : List UInt8) {m : Nat} (small : m ≤ src.length) :
    overlay (overlay file off (src.take m)) (off + m) (src.drop m) = overlay file off src := by
  funext o
  unfold overlay
  rw [List.length_drop,List.length_take,Nat.min_eq_left small]
  by_cases later : off + m ≤ o ∧ o < off + m + (src.length - m)
  · rw [if_pos later,if_pos (by omega),List.getD_eq_getElem?_getD,List.getD_eq_getElem?_getD,List.getElem?_drop]
    congr 2
    omega
  · rw [if_neg later]
    by_cases first : off ≤ o ∧ o < off + m
    · rw [if_pos first,if_pos (by omega),List.getD_eq_getElem?_getD,List.getD_eq_getElem?_getD,
        List.getElem?_take_of_lt (by omega)]
    · rw [if_neg first,if_neg (by omega)]

theorem overlay_congr {file file' : Nat → UInt8} (off : Nat) (src : List UInt8) {o : Nat} (same : file o = file' o) :
    overlay file off src o = overlay file' off src o := by rw [overlay,overlay,same]

theorem splice_eq_overlay (file : Nat → UInt8) (off : Nat) (src : List UInt8) {m : Nat} (small : m ≤ src.length)
    (fits : off % BSIZE + m ≤ BSIZE) (bp : Block)
    (read : ∀ o, o / BSIZE = off / BSIZE → byteAt bp (o % BSIZE) = file o) (o : Nat) :
    (if o / BSIZE = off / BSIZE then byteAt (splice bp (off % BSIZE) m fun k => src.getD k 0) (o % BSIZE) else file o) =
      overlay file off (src.take m) o := by
  have bsize := BSIZE_eq
  unfold overlay
  rw [List.length_take,Nat.min_eq_left small]
  by_cases block : o / BSIZE = off / BSIZE
  · rw [if_pos block,byteAt_splice]
    have rem := Nat.mod_lt o (show 0 < BSIZE by decide)
    have offset : o % BSIZE + off = off % BSIZE + o := by rw [bsize] at *; omega
    by_cases inside : off ≤ o ∧ o < off + m
    · rw [if_pos (by omega),if_pos inside,List.getD_eq_getElem?_getD,List.getD_eq_getElem?_getD,
        List.getElem?_take_of_lt (by omega)]
      congr 2
      omega
    · rw [if_neg (by omega),if_neg inside,read o block]
  · rw [if_neg block,if_neg]
    rintro ⟨low,high⟩
    apply block
    obtain ⟨k,rfl⟩ := Nat.exists_eq_add_of_le low
    exact (offset_block off k (by omega)).1

theorem Mapped.block {disk : Disk} {d : Dinode} {W : Finset Nat} (mapped : Mapped s v i disk d W) (core : Core s.sb disk (update v i d)) (inside : i < s.sb.ninodes)
    (type : d.type ≠ 0) {bn : Nat} (small : bn < MAXFILE) (some' : blk disk d bn ≠ 0) (bp : Block) :
    Mapped s v i (update disk (blk disk d bn) bp) d W := by
  have type' : (update v i d i).type ≠ 0 := by rwa [update_self]
  have mine : blk disk d bn = own s.sb disk (update v i d) (i,position bn) := by
    rw [← blk_eq_own inside type' small,update_self]
  have range := core.partition.range (i,position bn) (by rwa [← mine])
  refine ⟨fun k low => ?_,?_⟩
  · have same := own_write core (i,position bn) (position_ne_last bn) bp (i,k)
    rw [own_of_allocated inside type' low,own_of_allocated inside type' low,update_self,← mine] at same
    rw [same]
    exact mapped.ptrs k low
  · rw [← mapped.count,mine,freeBlocks_congr fun b high => bitAt_data core.layout range.1 high bp]

theorem writei_from_spec (holds : Holds s v ip i) (fuel off : Nat) (src : List UInt8) (enough : src.length ≤ fuel)
    (small : off + src.length ≤ MAXFILE * BSIZE) :
    post (writei_from ip fuel off src) (fun _ s' => ∃ disk d, s' = s.put disk ip d ∧
      Written s v i disk d (overlay (content s.disk (v i)) off src) ∧ Mapped s v i disk d (way off src.length) ∧
      ((∀ bn, Touches off src.length bn → blk s.disk (v i) bn ≠ 0) → d = v i))
      (fun why => Full why ∧ Short s v i (way off src.length)) s := by
  have nothing {s : State} {v : Nat → Dinode} (holds : Holds s v ip i) (off : Nat) {src : List UInt8} (none' : src = []) :
      ∃ disk d, s = s.put disk ip d ∧ Written s v i disk d (overlay (content s.disk (v i)) off src) ∧
        Mapped s v i disk d (way off src.length) ∧
        ((∀ bn, Touches off src.length bn → blk s.disk (v i) bn ≠ 0) → d = v i) := by
    subst none'
    rw [overlay_nil]
    exact ⟨s.disk,v i,(put_self holds.node).symm,Grown.refl holds.core,way_zero off ▸ .none s v i,fun _ => rfl⟩
  induction fuel generalizing s v off src with
  | zero => exact nothing holds off (List.length_eq_zero_iff.mp (by omega))
  | succ fuel ih =>
    unfold writei_from
    split
    · next none' => exact nothing holds off (List.length_eq_zero_iff.mp none')
    · next some' =>
      have bsize := BSIZE_eq
      have rem := Nat.mod_lt off (show 0 < BSIZE by decide)
      generalize part : min src.length (BSIZE - off % BSIZE) = m
      have high : m ≤ src.length := by omega
      have fits : off % BSIZE + m ≤ BSIZE := by omega
      have bn : off / BSIZE < MAXFILE := Nat.div_lt_of_lt_mul (by rw [Nat.mul_comm]; omega)
      have later : ∀ k ∈ way (off + m) (src.length - m), k < NPTR := fun k => way_lt (by omega)
      rw [way_step (Nat.pos_of_ne_zero some') part small,post_bind]
      refine post_mono (bmap_spec holds bn) (fun b s₁ ⟨disk,d,same,grown,here,nonzero,mapped,old⟩ => ?_)
        fun _ ⟨full,short⟩ => ⟨full,short.mono Finset.subset_union_left⟩
      subst same
      have holds₁ := holds.put grown.core grown.attr
      have there : blk disk d (off / BSIZE) ≠ 0 := here.trans_ne nonzero
      rw [post_bind,post_bread,post_bind,post_log_write]
      -- the block is written in the state that `bmap` leaves
      have block := Written.block holds₁ bn (by rwa [update_self])
        (splice (disk b) (off % BSIZE) m fun k => src.getD k 0)
      rw [update_self,show (s.put disk ip d).disk = disk from rfl,here] at block
      have one := (Written.trans grown block).congr fun o small =>
        (splice_eq_overlay (content disk d) off src high fits (disk b)
          (fun o same => by rw [content,same,if_neg there,here]) o).trans (overlay_congr _ _ (grown.mine o small))
      have mapped₁ := mapped.block grown.core holds.inside (by rw [grown.attr]; exact holds.type) bn there
        (splice (disk b) (off % BSIZE) m fun k => src.getD k 0)
      rw [here] at mapped₁
      generalize writing : update disk b (splice (disk b) (off % BSIZE) m fun k => src.getD k 0) = disk₁ at one mapped₁
      have state : ({ s.put disk ip d with disk := disk₁ } : State) = s.put disk₁ ip d := rfl
      rw [show (s.put disk ip d).disk = disk from rfl,writing,state]
      have length : (src.drop m).length = src.length - m := List.length_drop
      have rest := ih (holds.put one.core one.attr) (off + m) (src.drop m) (by omega) (by omega)
      rw [length] at rest
      refine post_mono rest (fun _ s₂ ⟨disk₂,d₂,same₂,written,mapped₂,old₂⟩ => ?_)
        fun _ ⟨full,short⟩ => ⟨full,short.later mapped₁ later⟩
      rw [update_self] at written old₂
      refine ⟨disk₂,d₂,?_,?_,mapped₁.trans mapped₂ later,fun all => ?_⟩
      · rw [same₂]
        simp [State.put]
      · refine (Written.trans one written).congr fun o small => ?_
        rw [← overlay_append (content s.disk (v i)) off src high]
        exact overlay_congr _ _ (one.mine o small)
      · obtain ⟨-,same⟩ := old (all _ (Touches.first (by omega)))
        subst same
        refine old₂ fun k later => ?_
        have touches := later.rest high
        have inside : k < MAXFILE := touches.lt small
        exact (one.kept _ (position_lt inside) (all k touches)).trans_ne (all k touches)

end Xv6
