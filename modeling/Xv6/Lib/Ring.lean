import Mathlib.Tactic
import Mathlib.Logic.Function.Basic

/-!
A circular doubly linked list with a head cell, as C programs build it by hand. The cells are those of a type `α` and
the head, which is `none`.
-/
namespace Xv6.Lib
open Function

/-- The fields `next` and `prev` of the cells. -/
structure Links (α : Type) where
  next : Option α → Option α
  prev : Option α → Option α

namespace Links
variable {α : Type} [DecidableEq α]

/-- The head, linked to itself. -/
def empty : Links α := ⟨fun _ => none,fun _ => none⟩

/-- `b->next = head.next; b->prev = &head; head.next->prev = b; head.next = b` -/
def insert (r : Links α) (b : α) : Links α :=
  let r := { r with next := update r.next (some b) (r.next none) }
  let r := { r with prev := update r.prev (some b) none }
  let r := { r with prev := update r.prev (r.next none) (some b) }
  { r with next := update r.next none (some b) }

/-- `b->next->prev = b->prev; b->prev->next = b->next` -/
def unlink (r : Links α) (b : α) : Links α :=
  let r := { r with prev := update r.prev (r.next (some b)) (r.prev (some b)) }
  { r with next := update r.next (r.prev (some b)) (r.next (some b)) }

/-- Walk from cell `c` until a cell passes the test or the head is reached. The walk has
    no result when `fuel` steps do not suffice. -/
def scan (step : Option α → Option α) (test : α → Bool) : Nat → Option α → Option (Option α)
  | 0, _ => none
  | _ + 1, none => some none
  | fuel + 1, some b => if test b then some (some b) else scan step test fuel (step (some b))

/-- The cells `l` stand between `a` and `z`. -/
def Seg (r : Links α) : Option α → List α → Option α → Prop
  | a, [], z => r.next a = z ∧ r.prev z = a
  | a, b :: l, z => r.next a = some b ∧ r.prev (some b) = a ∧ Seg r (some b) l z

/-- From the head on, the ring consists of the cells `l`, each once. -/
structure Lists (r : Links α) (l : List α) : Prop where
  seg : Seg r none l none
  nodup : l.Nodup

variable {r : Links α}

section
omit [DecidableEq α]

theorem seg_append : ∀ {a : Option α} {l : List α} {b : α} {m : List α} {z : Option α},
    Seg r a (l ++ b :: m) z ↔ Seg r a l (some b) ∧ Seg r (some b) m z
  | _, [], _, _, _ => and_assoc.symm
  | _, c :: l, _, _, _ => by
    simp only [List.cons_append,Seg,seg_append (l := l),and_assoc]

/-- A segment only depends on the links of its cells. -/
theorem Seg.congr {r r' : Links α} : ∀ {a : Option α} {l : List α} {z : Option α}, Seg r a l z →
    (∀ c, c = a ∨ c ∈ l.map some → r'.next c = r.next c) → (∀ c, c = z ∨ c ∈ l.map some → r'.prev c = r.prev c) →
      Seg r' a l z
  | _, [], _, seg, next, prev => ⟨(next _ (.inl rfl)).trans seg.1,(prev _ (.inl rfl)).trans seg.2⟩
  | a, b :: l, z, seg, next, prev => by
    have here : some b ∈ (b :: l).map some := List.mem_cons_self
    refine ⟨(next _ (.inl rfl)).trans seg.1,(prev _ (.inr here)).trans seg.2.1,seg.2.2.congr ?_ ?_⟩
    · rintro c (rfl | member)
      · exact next _ (.inr here)
      · exact next _ (.inr (List.mem_cons_of_mem _ member))
    · rintro c (rfl | member)
      · exact prev _ (.inl rfl)
      · exact prev _ (.inr (List.mem_cons_of_mem _ member))

theorem Lists.empty : Lists (Links.empty : Links α) [] := ⟨⟨rfl,rfl⟩,List.nodup_nil⟩
end

theorem Lists.insert {l : List α} {b : α} (lists : Lists r l) (fresh : b ∉ l) :
    Lists (r.insert b) (b :: l) := by
  have other : ∀ c ∈ l.map some, c ≠ some b := by
    intro c member same
    subst same
    exact fresh (by simpa using member)
  refine ⟨?_,List.nodup_cons.mpr ⟨fresh,lists.nodup⟩⟩
  obtain ⟨seg,nodup⟩ := lists
  cases l with
  | nil => simp [Seg,Links.insert,seg.1]
  | cons c l =>
    obtain ⟨first,back,rest⟩ := seg
    have apart : (some c : Option α) ≠ some b := other _ List.mem_cons_self
    refine ⟨by simp [Links.insert],by simp [Links.insert,first,apart.symm],?_,?_,rest.congr ?_ ?_⟩
    · simp [Links.insert,first]
    · simp [Links.insert,first]
    · intro d member
      have differs : d ≠ some b := by
        rcases member with rfl | member
        · exact apart
        · exact other _ (List.mem_cons_of_mem _ member)
      have cell : d ≠ none := by
        rcases member with rfl | member
        · simp
        · intro head
          simp [head] at member
      simp [Links.insert,update_of_ne differs,update_of_ne cell]
    · intro d member
      have differs : d ≠ some b := by
        rcases member with rfl | member
        · simp
        · exact other _ (List.mem_cons_of_mem _ member)
      have later : d ≠ some c := by
        rcases member with rfl | member
        · simp
        · rintro rfl
          exact (List.nodup_cons.mp nodup).1 (by simpa using member)
      simp [Links.insert,first,update_of_ne differs,update_of_ne later]

section
omit [DecidableEq α]

private theorem Seg.last : ∀ {a : Option α} {l : List α} {z : Option α}, Seg r a l z →
    r.prev z = a ∨ r.prev z ∈ l.map some
  | _, [], _, seg => .inl seg.2
  | _, b :: l, _, seg => .inr <| by
    rcases seg.2.2.last with same | member
    · rw [same]; exact List.mem_cons_self
    · exact List.mem_cons_of_mem _ member

private theorem Seg.first : ∀ {a : Option α} {l : List α} {z : Option α}, Seg r a l z →
    r.next a = z ∨ r.next a ∈ l.map some
  | _, [], _, seg => .inl seg.1
  | _, b :: l, _, seg => .inr (by rw [seg.1]; exact List.mem_cons_self)
end

theorem Seg.unlink {b : α} {m : List α} (after : Seg r (some b) m none) (nodup : (b :: m).Nodup) :
    ∀ {a : Option α} {l : List α}, Seg r a l (some b) → (∀ c ∈ (l ++ b :: m).map some, c ≠ a) → l.Nodup →
      (∀ c ∈ l, c ∉ b :: m) → Seg (r.unlink b) a (l ++ m) none := by
  have out : ∀ c ∈ m.map some, c ≠ some b := by
    rintro c member rfl
    exact (List.nodup_cons.mp nodup).1 (by simpa using member)
  have self : r.next (some b) ≠ some b := by
    rcases after.first with same | member
    · simp [same]
    · exact out _ member
  intro a l
  induction l generalizing a with
  | nil =>
    intro before start _ _
    obtain ⟨next,prev⟩ := before
    cases m with
    | nil =>
      obtain ⟨right,left⟩ := after
      simp [Seg,Links.unlink,prev,right]
    | cons c m =>
      obtain ⟨right,left,rest⟩ := after
      have apart : (some c : Option α) ≠ some b := out _ List.mem_cons_self
      refine ⟨?_,?_,rest.congr ?_ ?_⟩
      · simp [Links.unlink,prev,right,update_of_ne apart.symm]
      · simp [Links.unlink,prev,right]
      · intro d member
        have differs : d ≠ a := by
          refine start d ?_
          rcases member with rfl | member
          · simp
          · exact List.mem_cons_of_mem _ (List.mem_cons_of_mem _ member)
        simp [Links.unlink,prev,right,update_of_ne apart.symm,update_of_ne differs]
      · intro d member
        have differs : d ≠ some c := by
          rcases member with rfl | member
          · simp
          · rintro rfl
            exact (List.nodup_cons.mp (List.nodup_cons.mp nodup).2).1 (by simpa using member)
        simp [Links.unlink,right,update_of_ne differs]
  | cons c l ih =>
    intro before start distinct apart
    obtain ⟨next,prev,rest⟩ := before
    have last : r.prev (some b) ∈ (c :: l).map some := by
      rcases rest.last with same | member
      · rw [same]; exact List.mem_cons_self
      · exact List.mem_cons_of_mem _ member
    have follows : r.next (some b) ≠ some c := by
      rcases after.first with same | member
      · simp [same]
      · intro same
        rw [same] at member
        exact apart c List.mem_cons_self (List.mem_cons_of_mem _ (by simpa using member))
    refine ⟨?_,?_,ih rest ?_ (List.nodup_cons.mp distinct).2 fun d member => apart d (List.mem_cons_of_mem _ member)⟩
    · have differs : a ≠ r.prev (some b) := by
        refine (start _ ?_).symm
        rw [List.map_append]
        exact List.mem_append_left _ last
      simp [Links.unlink,update_of_ne self.symm,update_of_ne differs,next]
    · simp [Links.unlink,update_of_ne follows.symm,prev]
    · rintro d member rfl
      have inside : c ∈ l ++ b :: m := by simpa using member
      rcases List.mem_append.mp inside with here | there
      · exact (List.nodup_cons.mp distinct).1 here
      · exact apart c List.mem_cons_self there

theorem Lists.unlink {l m : List α} {b : α} (lists : Lists r (l ++ b :: m)) :
    Lists (r.unlink b) (l ++ m) := by
  obtain ⟨before,after⟩ := seg_append.mp lists.seg
  have split := List.nodup_append.mp lists.nodup
  refine ⟨after.unlink split.2.1 before ?_ split.1 ?_,?_⟩
  · intro c member head
    simp [head] at member
  · intro c left right
    exact split.2.2 c left c right rfl
  · exact lists.nodup.sublist ((List.sublist_cons_self b m).append_left l)

theorem Lists.moveFront {l : List α} {b : α} (lists : Lists r l) (member : b ∈ l) :
    ∃ l', Lists ((r.unlink b).insert b) l' ∧ l'.Perm l := by
  obtain ⟨before,after,rfl⟩ := List.append_of_mem member
  have fresh : b ∉ before ++ after := by
    have perm : (before ++ b :: after).Perm (b :: (before ++ after)) := List.perm_middle
    exact (List.nodup_cons.mp (perm.nodup_iff.mp lists.nodup)).1
  exact ⟨_,lists.unlink.insert fresh,List.perm_middle.symm⟩

omit [DecidableEq α] in
theorem Seg.scan_next (test : α → Bool) : ∀ {a : Option α} {l : List α}, Seg r a l none →
    ∀ {fuel}, l.length < fuel → scan r.next test fuel (r.next a) = some (l.find? test)
  | _, [], seg, fuel + 1, _ => by rw [seg.1]; rfl
  | _, b :: l, seg, fuel + 1, enough => by
    rw [seg.1,scan,List.find?_cons]
    cases test b with
    | true => rfl
    | false => exact seg.2.2.scan_next test (by simpa using enough)

/-- The links read the other way round. -/
def swap (r : Links α) : Links α := ⟨r.prev,r.next⟩

section
omit [DecidableEq α]

theorem Seg.reverse : ∀ {a : Option α} {l : List α} {z : Option α}, Seg r a l z → Seg r.swap z l.reverse a
  | _, [], _, seg => ⟨seg.2,seg.1⟩
  | _, b :: l, _, seg => by
    rw [List.reverse_cons]
    exact seg_append.mpr ⟨seg.2.2.reverse,seg.2.1,seg.1⟩

/-- Walking along `next` from the head finds the first cell of the list that passes the test. -/
theorem Lists.scan_next {l : List α} (lists : Lists r l) (test : α → Bool) {fuel : Nat}
    (enough : l.length < fuel) : scan r.next test fuel (r.next none) = some (l.find? test) :=
  lists.seg.scan_next test enough

/-- Walking along `prev` from the head finds the last one. -/
theorem Lists.scan_prev {l : List α} (lists : Lists r l) (test : α → Bool) {fuel : Nat}
    (enough : l.length < fuel) : scan r.prev test fuel (r.prev none) = some (l.reverse.find? test) :=
  lists.seg.reverse.scan_next test (by simpa using enough)
end

end Links
end Xv6.Lib
