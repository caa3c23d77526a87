import Mathlib.Computability.Language
import Mathlib.Tactic

/-!
`grep.c`. A C string is the list of its bytes, without the terminator. The matcher decides the language that its
pattern denotes.
-/
namespace Xv6.Grep
open scoped Computability

/-! ### The matcher -/

/-- `'^'` -/
def caret : UInt8 := 94
/-- `'$'` -/
def dollar : UInt8 := 36
/-- `'.'` -/
def dot : UInt8 := 46
/-- `'*'` -/
def star : UInt8 := 42
/-- `'\n'` -/
def newline : UInt8 := 10

/-- Search for `c*re` at the beginning of the text, where `here` is `matchhere(re, _)`. -/
def matchstar (c : UInt8) (here : List UInt8 → Bool) : List UInt8 → Bool
  | [] => here []
  | x :: text => here (x :: text) || (x == c || c == dot) && matchstar c here text

/-- `*text!='\0' && (c=='.' || c==*text)`, and then the rest of the pattern from the next character on. -/
def matchnext (c : UInt8) (here : List UInt8 → Bool) : List UInt8 → Bool
  | [] => false
  | x :: text => (c == dot || c == x) && here text

/-- Search for `re` at the beginning of the text. -/
def matchhere : List UInt8 → List UInt8 → Bool
  | [],_ => true
  | [c],text => if c = dollar then text.isEmpty else matchnext c (matchhere []) text
  | c :: d :: re,text => if d = star then matchstar c (matchhere re) text else matchnext c (matchhere (d :: re)) text

/-- The loop of `match`: search at every position, the end included. -/
def match_from (re : List UInt8) : List UInt8 → Bool
  | [] => matchhere re []
  | x :: text => matchhere re (x :: text) || match_from re text

/-- Search for `re` anywhere in the text. -/
def «match» (re text : List UInt8) : Bool :=
  match re with
  | [] => match_from re text
  | c :: re' => if c = caret then matchhere re' text else match_from re text

/-! ### What a pattern denotes -/

/-- The elements of a pattern. -/
inductive Elem where
  /-- one character -/
  | one (c : UInt8)
  /-- any number of characters -/
  | many (c : UInt8)

/-- The characters that a character of the pattern stands for. -/
def Fits (c x : UInt8) : Prop := c = dot ∨ c = x

/-- The words of one such character. -/
def Chars (c : UInt8) : Language UInt8 := {w | ∃ x, w = [x] ∧ Fits c x}

def Elem.lang : Elem → Language UInt8
  | .one c => Chars c
  | .many c => (Chars c)∗

/-- A pattern: whether it is for the beginning of the text, its elements, and whether it is for the end. -/
structure Pattern where
  first : Bool
  elems : List Elem
  last : Bool

/-- The elements are read from left to right. -/
def elements : List UInt8 → List Elem × Bool
  | [] => ([],false)
  | [c] => if c = dollar then ([],true) else ([.one c],false)
  | c :: d :: re =>
    if d = star then ((Elem.many c) :: (elements re).1,(elements re).2)
    else ((Elem.one c) :: (elements (d :: re)).1,(elements (d :: re)).2)

/-- A leading `'^'` is always the anchor. -/
def pattern : List UInt8 → Pattern
  | [] => ⟨false,[],false⟩
  | c :: re => if c = caret then ⟨true,(elements re).1,(elements re).2⟩ else ⟨false,(elements (c :: re)).1,(elements (c :: re)).2⟩

/-- The words of the elements, one after the other. -/
def Denotes (elems : List Elem) : Language UInt8 := (elems.map Elem.lang).prod

theorem mem_many (c : UInt8) (w : List UInt8) : w ∈ (Elem.many c).lang ↔ ∀ x ∈ w, Fits c x := by
  rw [Elem.lang,Language.mem_kstar]
  constructor
  · rintro ⟨words,rfl,all⟩ x member
    obtain ⟨word,inside,here⟩ := List.mem_flatten.mp member
    obtain ⟨y,rfl,fits⟩ := all word inside
    simp only [List.mem_singleton] at here
    exact here ▸ fits
  · intro all
    refine ⟨w.map fun x => [x],?_,?_⟩
    · induction w with
      | nil => rfl
      | cons x w ih => simpa using ih fun y member => all y (List.mem_cons_of_mem x member)
    · intro word member
      obtain ⟨x,inside,rfl⟩ := List.mem_map.mp member
      exact ⟨x,rfl,all x inside⟩

theorem mem_denotes_cons (e : Elem) (elems : List Elem) (w : List UInt8) :
    w ∈ Denotes (e :: elems) ↔ ∃ a ∈ e.lang, ∃ b ∈ Denotes elems, a ++ b = w := by
  simp only [Denotes,List.map_cons,List.prod_cons,Language.mem_mul]

theorem mem_denotes_nil (w : List UInt8) : w ∈ Denotes [] ↔ w = [] := Iff.rfl

/-- A word of the elements begins the text, and is all of it if the pattern is for the end. -/
def Begins (elems : List Elem × Bool) (text : List UInt8) : Prop :=
  ∃ w ∈ Denotes elems.1, ∃ rest, text = w ++ rest ∧ (elems.2 = true → rest = [])

theorem begins_one {c : UInt8} {elems : List Elem} {last : Bool} {text : List UInt8} :
    Begins (.one c :: elems,last) text ↔ ∃ x tail, text = x :: tail ∧ Fits c x ∧ Begins (elems,last) tail := by
  constructor
  · rintro ⟨w,inside,rest,rfl,ends⟩
    obtain ⟨_,⟨x,rfl,fits⟩,b,member,rfl⟩ := (mem_denotes_cons _ _ _).mp inside
    exact ⟨x,b ++ rest,by simp,fits,b,member,rest,rfl,ends⟩
  · rintro ⟨x,_,rfl,fits,w,inside,rest,rfl,ends⟩
    refine ⟨x :: w,(mem_denotes_cons _ _ _).mpr ?_,rest,by simp,ends⟩
    exact ⟨[x],⟨x,rfl,fits⟩,w,inside,rfl⟩

theorem begins_many {c : UInt8} {elems : List Elem} {last : Bool} {text : List UInt8} :
    Begins (.many c :: elems,last) text ↔ ∃ a tail, text = a ++ tail ∧ (∀ x ∈ a, Fits c x) ∧ Begins (elems,last) tail := by
  constructor
  · rintro ⟨w,inside,rest,rfl,ends⟩
    obtain ⟨a,all,b,member,rfl⟩ := (mem_denotes_cons _ _ _).mp inside
    exact ⟨a,b ++ rest,by simp,(mem_many c a).mp all,b,member,rest,rfl,ends⟩
  · rintro ⟨a,_,rfl,all,w,inside,rest,rfl,ends⟩
    refine ⟨a ++ w,(mem_denotes_cons _ _ _).mpr ?_,rest,by simp,ends⟩
    exact ⟨a,(mem_many c a).mpr all,w,inside,rfl⟩

theorem matchstar_iff (c : UInt8) (here : List UInt8 → Bool) (text : List UInt8) :
    matchstar c here text = true ↔ ∃ a tail, text = a ++ tail ∧ (∀ x ∈ a, Fits c x) ∧ here tail = true := by
  induction text with
  | nil =>
    constructor
    · intro found
      exact ⟨[],[],rfl,by simp,found⟩
    · rintro ⟨a,tail,split,_,found⟩
      obtain ⟨rfl,rfl⟩ := List.append_eq_nil_iff.mp split.symm
      exact found
  | cons x text ih =>
    have same : (x == c || c == dot) = true ↔ Fits c x := by
      simp only [Fits,Bool.or_eq_true,beq_iff_eq]
      rw [or_comm,eq_comm (a := x)]
    simp only [matchstar,Bool.or_eq_true (here _),Bool.and_eq_true,same,ih]
    constructor
    · rintro (found | ⟨fits,a,tail,rfl,all,found⟩)
      · exact ⟨[],x :: text,rfl,by simp,found⟩
      · exact ⟨x :: a,tail,rfl,by simpa using ⟨fits,all⟩,found⟩
    · rintro ⟨a,tail,split,all,found⟩
      cases a with
      | nil => exact .inl (by rwa [split])
      | cons y a =>
        obtain ⟨rfl,rfl⟩ := List.cons.inj split
        exact .inr ⟨all x (by simp),a,tail,rfl,fun y member => all y (by simp [member]),found⟩

theorem matchnext_iff (c : UInt8) (here : List UInt8 → Bool) (text : List UInt8) :
    matchnext c here text = true ↔ ∃ x tail, text = x :: tail ∧ Fits c x ∧ here tail = true := by
  cases text with
  | nil => simp [matchnext]
  | cons x text =>
    simp only [matchnext,Bool.and_eq_true,Bool.or_eq_true,beq_iff_eq]
    constructor
    · rintro ⟨fits,found⟩
      exact ⟨x,text,rfl,fits,found⟩
    · rintro ⟨_,_,same,fits,found⟩
      cases same
      exact ⟨fits,found⟩

theorem matchhere_iff (re : List UInt8) : ∀ text, matchhere re text = true ↔ Begins (elements re) text := by
  -- by the recursion of the matcher, one or two characters of the pattern at a time
  induction re using elements.induct with
  | case1 =>
    intro text
    simp only [matchhere,true_iff]
    exact ⟨[],rfl,text,rfl,by simp [elements]⟩
  | case2 =>
    intro text
    simp [matchhere,elements,Begins,mem_denotes_nil]
  | case3 c other =>
    intro text
    rw [elements,if_neg other,begins_one,matchhere,if_neg other,matchnext_iff]
    have any (tail : List UInt8) : Begins ([],false) tail := ⟨[],rfl,tail,rfl,nofun⟩
    simp only [matchhere,any]
  | case4 c re ih =>
    intro text
    rw [elements,if_pos rfl,begins_many,matchhere,if_pos rfl,matchstar_iff]
    simp only [ih]
  | case5 c d re other ih =>
    intro text
    rw [elements,if_neg other,begins_one,matchhere,if_neg other,matchnext_iff]
    simp only [ih]

theorem match_from_iff (re text : List UInt8) :
    match_from re text = true ↔ ∃ a tail, text = a ++ tail ∧ matchhere re tail = true := by
  induction text with
  | nil => simp [match_from]
  | cons x text ih =>
    simp only [match_from,Bool.or_eq_true,ih]
    constructor
    · rintro (found | ⟨a,tail,rfl,found⟩)
      · exact ⟨[],x :: text,rfl,found⟩
      · exact ⟨x :: a,tail,rfl,found⟩
    · rintro ⟨a,tail,split,found⟩
      cases a with
      | nil => exact .inl (by rwa [split])
      | cons y a =>
        obtain ⟨rfl,rfl⟩ := List.cons.inj split
        exact .inr ⟨a,tail,rfl,found⟩

/-- The matcher decides the language of its pattern: some part of the text is a word of it, at the beginning and at the end
    where the pattern says so. -/
theorem match_iff (re text : List UInt8) :
    «match» re text = true ↔ ∃ a w b, text = a ++ w ++ b ∧ w ∈ Denotes (pattern re).elems ∧
      ((pattern re).first = true → a = []) ∧ ((pattern re).last = true → b = []) := by
  have anywhere (re : List UInt8) : match_from re text = true ↔
      ∃ a w b, text = a ++ w ++ b ∧ w ∈ Denotes (elements re).1 ∧ ((elements re).2 = true → b = []) := by
    rw [match_from_iff]
    simp only [matchhere_iff]
    constructor
    · rintro ⟨a,_,rfl,w,inside,b,rfl,ends⟩
      exact ⟨a,w,b,by simp,inside,ends⟩
    · rintro ⟨a,w,b,rfl,inside,ends⟩
      exact ⟨a,w ++ b,by simp,w,inside,b,rfl,ends⟩
  cases re with
  | nil =>
    rw [«match»,anywhere]
    simp [pattern,elements]
  | cons c re =>
    rw [«match»,pattern]
    by_cases anchor : c = caret
    · rw [if_pos anchor,if_pos anchor,matchhere_iff]
      constructor
      · rintro ⟨w,inside,b,rfl,ends⟩
        exact ⟨[],w,b,rfl,inside,fun _ => rfl,ends⟩
      · rintro ⟨a,w,b,rfl,inside,begins,ends⟩
        obtain rfl := begins rfl
        exact ⟨w,inside,b,rfl,ends⟩
    · rw [if_neg anchor,if_neg anchor]
      dsimp only
      rw [anywhere]
      simp

/-- `"$*"` is any number of dollars, and `"^*a"` a star and an `a` at the beginning. -/
example : «match» [36,42] [] = true ∧ «match» [94,42,97] [42,97] = true ∧ «match» [94,42,97] [97] = false := by decide

/-! ### The loop over the input -/

/-- `strchr`: what stands before the first such character of a C string, and what follows it in memory. -/
def strchr (c : UInt8) : List UInt8 → Option (List UInt8 × List UInt8)
  | [] => none
  | x :: s =>
    if x = 0 then none
    else if x = c then some ([],s)
    else (strchr c s).map fun found => (x :: found.1,found.2)

/-- The loop over the lines of the buffer from `p` on, in `fuel` turns: the output, and what is left of the buffer. -/
def grep_lines (re : List UInt8) : Nat → List UInt8 → List UInt8 × List UInt8
  | 0,p => ([],p)
  | fuel + 1,p =>
    match strchr newline p with
    | none => ([],p)
    | some (line,next) =>
      let rest := grep_lines re fuel next
      ((if «match» re line then line ++ [newline] else []) ++ rest.1,rest.2)

/-- `sizeof(buf)` -/
def bufSize : Nat := 1024

/-- `buf` after a call of `read` that has returned a piece: the output, and what is kept in `buf`. -/
def grep_read (re buf piece : List UInt8) : List UInt8 × List UInt8 :=
  let data := buf ++ piece
  let done := grep_lines re data.length data
  -- `p == buf`: no line has been found, and `m` becomes 0
  (done.1,if done.2.length = data.length then [] else done.2)

/-- The output of the loop, for what the calls of `read` return. -/
def grep_from (re : List UInt8) : List UInt8 → List (List UInt8) → List UInt8
  | _,[] => []
  | buf,piece :: reads => (grep_read re buf piece).1 ++ grep_from re (grep_read re buf piece).2 reads

def grep (re : List UInt8) (reads : List (List UInt8)) : List UInt8 := grep_from re [] reads

/-- What `grep` keeps in `buf`, whatever the pattern is. -/
def kept (buf piece : List UInt8) : List UInt8 := (grep_read [] buf piece).2

/-- No call returns nothing before the end of the stream, or more than there is room for in the buffer. -/
def Served : List UInt8 → List (List UInt8) → Prop
  | _,[] => True
  | buf,piece :: reads => piece ≠ [] ∧ piece.length ≤ bufSize - buf.length - 1 ∧ Served (kept buf piece) reads

/-- After every call there is a newline in the buffer. -/
def Whole : List UInt8 → List (List UInt8) → Prop
  | _,[] => True
  | buf,piece :: reads => newline ∈ buf ++ piece ∧ Whole (kept buf piece) reads

instance decidableServed : ∀ buf reads, Decidable (Served buf reads)
  | _,[] => .isTrue trivial
  | buf,piece :: reads =>
    have := decidableServed (kept buf piece) reads
    inferInstanceAs (Decidable (piece ≠ [] ∧ piece.length ≤ bufSize - buf.length - 1 ∧ Served (kept buf piece) reads))

instance decidableWhole : ∀ buf reads, Decidable (Whole buf reads)
  | _,[] => .isTrue trivial
  | buf,piece :: reads =>
    have := decidableWhole (kept buf piece) reads
    inferInstanceAs (Decidable (newline ∈ buf ++ piece ∧ Whole (kept buf piece) reads))

theorem grep_read_kept (re buf piece : List UInt8) : (grep_read re buf piece).2 = kept buf piece := by
  have lines (fuel : Nat) (p : List UInt8) : (grep_lines re fuel p).2 = (grep_lines [] fuel p).2 := by
    induction fuel generalizing p with
    | zero => rfl
    | succ fuel ih =>
      unfold grep_lines
      split
      · rfl
      · exact ih _
  simp only [kept,grep_read,lines]

/-- The stream of lines with their newlines. -/
def stream (lines : List (List UInt8)) : List UInt8 := lines.flatMap (· ++ [newline])

/-- The bytes of a line: no newline and no NUL. -/
def Plain (line : List UInt8) : Prop := newline ∉ line ∧ 0 ∉ line

instance (line : List UInt8) : Decidable (Plain line) := inferInstanceAs (Decidable (_ ∧ _))

theorem stream_cons (line : List UInt8) (lines : List (List UInt8)) : stream (line :: lines) = line ++ newline :: stream lines := by
  simp [stream]

theorem length_stream (lines : List (List UInt8)) : lines.length ≤ (stream lines).length := by
  induction lines with
  | nil => exact Nat.zero_le _
  | cons line lines ih =>
    rw [stream_cons,List.length_append,List.length_cons,List.length_cons]
    omega

theorem strchr_line {line : List UInt8} (plain : Plain line) (next : List UInt8) :
    strchr newline (line ++ newline :: next) = some (line,next) := by
  induction line with
  | nil => rfl
  | cons x line ih =>
    obtain ⟨nl,nul⟩ := plain
    simp only [List.mem_cons,not_or] at nl nul
    have rest := ih ⟨nl.2,nul.2⟩
    simp [strchr,Ne.symm nul.1,Ne.symm nl.1,rest]

theorem strchr_none {tail : List UInt8} (none' : newline ∉ tail) : strchr newline tail = none := by
  induction tail with
  | nil => rfl
  | cons x tail ih =>
    simp only [List.mem_cons,not_or] at none'
    simp [strchr,Ne.symm none'.1,ih none'.2]

theorem grep_lines_stream (re : List UInt8) {tail : List UInt8} (none' : newline ∉ tail) (lines : List (List UInt8)) :
    ∀ fuel, lines.length ≤ fuel → (∀ line ∈ lines, Plain line) →
      grep_lines re fuel (stream lines ++ tail) = (stream (lines.filter («match» re)),tail) := by
  induction lines with
  | nil =>
    intro fuel _ _
    cases fuel with
    | zero => rfl
    | succ fuel => simp [grep_lines,stream,strchr_none none']
  | cons line lines ih =>
    intro fuel enough plain
    cases fuel with
    | zero => cases enough
    | succ fuel =>
      have rest := ih fuel (by simpa using enough) fun other member => plain other (List.mem_cons_of_mem _ member)
      have found := strchr_line (plain line List.mem_cons_self) (stream lines ++ tail)
      rw [stream_cons,List.append_assoc,List.cons_append,grep_lines,found]
      simp only [rest,List.filter_cons]
      split
      · simp [stream_cons]
      · rfl

theorem stream_cut (lines : List (List UInt8)) : ∀ {data rest : List UInt8}, (∀ line ∈ lines, Plain line) → data ++ rest = stream lines →
    ∃ done todo tail, lines = done ++ todo ∧ data = stream done ++ tail ∧ newline ∉ tail ∧ tail ++ rest = stream todo := by
  induction lines with
  | nil =>
    intro data rest _ all
    obtain ⟨rfl,rfl⟩ := List.append_eq_nil_iff.mp all
    exact ⟨[],[],[],rfl,rfl,by simp,rfl⟩
  | cons line lines ih =>
    intro data rest plain all
    have here := (plain line List.mem_cons_self).1
    -- the cut may be in the first line
    have first (none' : newline ∉ data) : ∃ done todo tail, line :: lines = done ++ todo ∧ data = stream done ++ tail ∧
        newline ∉ tail ∧ tail ++ rest = stream todo := ⟨[],line :: lines,data,rfl,rfl,none',all⟩
    rw [stream_cons] at all
    rcases List.append_eq_append_iff.mp all with ⟨more,rfl,_⟩ | ⟨more,rfl,after⟩
    · exact first fun member => here (List.mem_append_left _ member)
    · cases more with
      | nil => exact first (by simpa using here)
      | cons x more =>
        obtain ⟨rfl,later⟩ := List.cons.inj after
        obtain ⟨done,todo,tail,rfl,rfl,none',next⟩ := ih (fun other member => plain other (List.mem_cons_of_mem _ member)) later.symm
        exact ⟨line :: done,todo,tail,rfl,by simp [stream_cons],none',next⟩

theorem grep_from_stream (re : List UInt8) (reads : List (List UInt8)) : ∀ {buf : List UInt8} {lines : List (List UInt8)},
    (∀ line ∈ lines, Plain line) → buf ++ reads.flatten = stream lines → newline ∉ buf → Whole buf reads →
      grep_from re buf reads = stream (lines.filter («match» re)) := by
  induction reads with
  | nil =>
    intro buf lines plain all none' _
    cases lines with
    | nil => rfl
    | cons line lines =>
      rw [stream_cons,List.flatten_nil,List.append_nil] at all
      exact absurd (by simp [all]) none'
  | cons piece reads ih =>
    intro buf lines plain all none' whole
    obtain ⟨some',whole⟩ := whole
    rw [List.flatten_cons,← List.append_assoc] at all
    obtain ⟨done,todo,tail,rfl,cut,none',next⟩ := stream_cut lines plain all
    have step := grep_lines_stream re none' done (stream done ++ tail).length
      (by rw [List.length_append]; exact (length_stream done).trans (Nat.le_add_right _ _))
      fun line member => plain line (List.mem_append_left _ member)
    have read : grep_read re buf piece = (stream (done.filter («match» re)),tail) := by
      rw [grep_read,cut,step]
      dsimp only
      rw [if_neg]
      intro same
      rw [List.length_append,Nat.right_eq_add,List.length_eq_zero_iff] at same
      rw [cut,same,List.nil_append] at some'
      exact none' some'
    rw [← grep_read_kept re,read] at whole
    rw [grep_from,read,ih (fun line member => plain line (List.mem_append_right _ member)) next none' whole]
    simp [stream]

theorem strchr_length {c : UInt8} {s line next : List UInt8} (found : strchr c s = some (line,next)) :
    line.length + 1 + next.length = s.length := by
  induction s generalizing line next with
  | nil => cases found
  | cons x s ih =>
    unfold strchr at found
    split_ifs at found
    · obtain ⟨rfl,rfl⟩ := Prod.mk.inj (Option.some.inj found)
      simp [Nat.add_comm]
    · obtain ⟨_,there,same⟩ := Option.map_eq_some_iff.mp found
      cases same
      have rest := ih there
      simp only [List.length_cons]
      omega

/-- No byte is written twice. -/
theorem grep_read_length (re buf piece : List UInt8) :
    (grep_read re buf piece).1.length + (grep_read re buf piece).2.length ≤ buf.length + piece.length := by
  have lines (fuel : Nat) (p : List UInt8) : (grep_lines re fuel p).1.length + (grep_lines re fuel p).2.length ≤ p.length := by
    induction fuel generalizing p with
    | zero => exact (Nat.zero_add _).le
    | succ fuel ih =>
      unfold grep_lines
      split
      · exact (Nat.zero_add _).le
      · next line next found =>
        have rest := ih next
        have here := strchr_length found
        dsimp only
        split <;> simp only [List.length_append,List.length_singleton,List.length_nil] <;> omega
  have all := lines (buf ++ piece).length (buf ++ piece)
  unfold grep_read
  dsimp only
  split <;> simp only [List.length_append,List.length_nil] at all ⊢ <;> omega

theorem grep_from_length (re : List UInt8) (reads : List (List UInt8)) : ∀ buf : List UInt8,
    (grep_from re buf reads).length ≤ buf.length + reads.flatten.length := by
  induction reads with
  | nil => exact fun buf => Nat.zero_le _
  | cons piece reads ih =>
    intro buf
    have first := grep_read_length re buf piece
    have rest := ih (grep_read re buf piece).2
    rw [grep_from,List.length_append,List.flatten_cons,List.length_append]
    omega

/-- A call that leaves no newline in the buffer loses what is there, so the output is not the whole stream. -/
theorem grep_from_whole (re : List UInt8) (reads : List (List UInt8)) : ∀ {buf : List UInt8}, Served buf reads →
    (grep_from re buf reads).length = buf.length + reads.flatten.length → Whole buf reads := by
  induction reads with
  | nil => exact fun _ _ => trivial
  | cons piece reads ih =>
    intro buf ⟨nonempty,_,served⟩ all
    have first := grep_read_length re buf piece
    have rest := grep_from_length re reads (grep_read re buf piece).2
    rw [grep_from,List.length_append,List.flatten_cons,List.length_append] at all
    refine ⟨?_,ih served (by rw [← grep_read_kept re]; omega)⟩
    by_contra none'
    have lost : grep_read re buf piece = ([],[]) := by
      have nothing (fuel : Nat) : grep_lines re fuel (buf ++ piece) = ([],buf ++ piece) := by
        cases fuel with
        | zero => rfl
        | succ fuel => rw [grep_lines,strchr_none none']
      simp [grep_read,nothing]
    have some' := List.length_pos_iff.mpr nonempty
    rw [lost,List.length_nil] at all rest
    omega

/-- However the stream is split, the output is the lines that match for every pattern exactly if every call of `read` leaves
    a newline in the buffer. -/
theorem grep_matches (lines reads : List (List UInt8)) (plain : ∀ line ∈ lines, Plain line)
    (all : reads.flatten = stream lines) (served : Served [] reads) :
    (∀ re, grep re reads = stream (lines.filter («match» re))) ↔ Whole [] reads := by
  refine ⟨fun same => grep_from_whole [] reads served ?_,fun whole re => grep_from_stream re reads plain all (by simp) whole⟩
  -- the empty pattern is in every line
  have every (line : List UInt8) : «match» [] line = true := by cases line <;> rfl
  have output := same []
  rw [List.filter_eq_self.mpr fun line _ => every line] at output
  rw [← grep,output,all,List.length_nil,Nat.zero_add]

theorem grep_matches_pieces : grep [97] [[97,98,10,99],[97,10]] = [97,98,10,99,97,10] :=
  (grep_matches [[97,98],[99,97]] [[97,98,10,99],[97,10]] (by decide) rfl (by decide)).mpr (by decide) [97]

/-- A line that comes in two pieces is lost: `"ab\n"`, as a whole and after `"a"`. -/
theorem grep_loses_line : Plain [97,98] ∧ Served [] [[97,98,10]] ∧ Served [] [[97],[98,10]] ∧
    [[97,98,10]].flatten = stream [[97,98]] ∧ [[97],[98,10]].flatten = stream [[97,98]] ∧
    grep [97] [[97,98,10]] = [97,98,10] ∧ grep [97] [[97],[98,10]] = [] := by decide

end Xv6.Grep
