import Xv6.Sh

/-!
The tokens of a line, and the grammar of commands. A line consists of words and symbols with whitespace between them:
`Lexes` says where they are, `Renders` what they look like.
-/
namespace Xv6.Sh
open Xv6.Lib

/-! ### Tokens and the grammar -/

inductive Sym where
  | bar | amp | semi | lparen | rparen | lt | gt | gtgt
deriving DecidableEq

/-- The first character of a symbol. -/
def Sym.char : Sym → UInt8
  | bar => 124 | amp => 38 | semi => 59 | lparen => 40 | rparen => 41 | lt => 60 | gt => 62 | gtgt => 62

def Sym.spelling : Sym → List UInt8
  | gtgt => [62,62]
  | x => [x.char]

inductive Token (α : Type) where
  | sym (x : Sym)
  | word (w : α)
deriving DecidableEq

variable {α β : Type}

def Token.map (f : α → β) : Token α → Token β
  | sym x => sym x
  | word w => word (f w)

def Cmd.map (f : α → β) : Cmd α → Cmd β
  | .exec argv => .exec (argv.map f)
  | .redir cmd file mode fd => .redir (cmd.map f) (f file) mode fd
  | .pipe left right => .pipe (left.map f) (right.map f)
  | .list left right => .list (left.map f) (right.map f)
  | .back cmd => .back (cmd.map f)

/-- A redirection: the file, the mode in which it is opened, the descriptor. -/
structure Redirection (α : Type) where
  file : α
  mode : Nat
  fd : Nat

/-- A command in redirections, the last one outermost. -/
def nest (cmd : Cmd α) (rs : List (Redirection α)) : Cmd α := rs.foldl (fun cmd r => .redir cmd r.file r.mode r.fd) cmd

/-- The redirection that a symbol stands for. -/
inductive Redirects : Sym → α → Redirection α → Prop where
  | lt (w : α) : Redirects .lt w ⟨w,O_RDONLY,0⟩
  | gt (w : α) : Redirects .gt w ⟨w,O_WRONLY ||| O_CREATE,1⟩
  | gtgt (w : α) : Redirects .gtgt w ⟨w,O_WRONLY ||| O_CREATE,1⟩

/-- `redir*` -/
inductive Redirs : List (Token α) → List (Redirection α) → Prop where
  | nil : Redirs [] []
  | cons {x w r ts rs} (redir : Redirects x w r) (rest : Redirs ts rs) : Redirs (.sym x :: .word w :: ts) (r :: rs)

/-- `(word redir*)*` -/
inductive Args : List (Token α) → List α → List (Redirection α) → Prop where
  | nil : Args [] [] []
  | cons {w ts rs us ws rs'} (redirs : Redirs ts rs) (rest : Args us ws rs') :
      Args (.word w :: (ts ++ us)) (w :: ws) (rs ++ rs')

inductive Nonterm where
  | line | pipe | item

/-- The grammar: `line ::= pipe '&'* [';' line]`, `pipe ::= item ['|' pipe]`,
    `item ::= '(' line ')' redir* | redir* (word redir*)*` with fewer than `MAXARGS` words. -/
inductive Derives : Nonterm → List (Token α) → Cmd α → Prop where
  | line {ts c} (k : Nat) (pipe : Derives .pipe ts c) : Derives .line (ts ++ List.replicate k (.sym .amp)) (Cmd.back^[k] c)
  | list {ts c us d} (k : Nat) (pipe : Derives .pipe ts c) (rest : Derives .line us d) :
      Derives .line (ts ++ (List.replicate k (.sym .amp) ++ .sym .semi :: us)) (.list (Cmd.back^[k] c) d)
  | one {ts c} (item : Derives .item ts c) : Derives .pipe ts c
  | pipe {ts c us d} (item : Derives .item ts c) (rest : Derives .pipe us d) : Derives .pipe (ts ++ .sym .bar :: us) (.pipe c d)
  | block {ts c us rs} (line : Derives .line ts c) (redirs : Redirs us rs) :
      Derives .item (.sym .lparen :: (ts ++ .sym .rparen :: us)) (nest c rs)
  | exec {ts rs us ws rs'} (redirs : Redirs ts rs) (args : Args us ws rs') (few : ws.length < MAXARGS) :
      Derives .item (ts ++ us) (nest (.exec ws) (rs ++ rs'))

theorem nest_append (c : Cmd α) (rs rs' : List (Redirection α)) : nest c (rs ++ rs') = nest (nest c rs) rs' := List.foldl_append

theorem setArg_nest (ws : List α) (rs : List (Redirection α)) (w : α) :
    (nest (.exec ws) rs).setArg w = nest (.exec (ws ++ [w])) rs := by
  induction rs using List.reverseRecOn with
  | nil => rfl
  | append_singleton rs r ih =>
    rw [nest_append,nest_append]
    simp only [nest,List.foldl_cons,List.foldl_nil,Cmd.setArg] at ih ⊢
    rw [ih]

/-! ### Tokens in a line -/

/-- The character at a position; a NUL behind the line. -/
def at' (line : List UInt8) (i : Nat) : UInt8 := line.getD i 0

/-- A symbol stands at a position: `>` only where it is not the first half of `>>`. -/
def Stands (line : List UInt8) (x : Sym) (q : Nat) : Prop :=
  at' line q = x.char ∧ (x = .gt → at' line (q + 1) ≠ 62) ∧ (x = .gtgt → at' line (q + 1) = 62)

/-- The tokens of the line from a position on, words with their places. -/
inductive Lexes (line : List UInt8) : Nat → List (Token Span) → Prop where
  | blank {s} (inside : s ≤ line.length) (gap : ∀ i, s ≤ i → i < line.length → white (at' line i) = true) : Lexes line s []
  | sym {s q x ts} (order : s ≤ q) (gap : ∀ i, s ≤ i → i < q → white (at' line i) = true) (here : Stands line x q)
      (rest : Lexes line (q + x.spelling.length) ts) : Lexes line s (.sym x :: ts)
  | word {s q e ts} (order : s ≤ q) (gap : ∀ i, s ≤ i → i < q → white (at' line i) = true) (some' : q < e)
      (body : ∀ i, q ≤ i → i < e → plain (at' line i) = true) (ends : plain (at' line e) = false ∨ e = line.length)
      (rest : Lexes line e ts) : Lexes line s (.word (q,e) :: ts)

variable {line : List UInt8} {s q : Nat} {ts us : List (Token Span)} {x : Sym} {t : Token Span}

theorem at_end {i : Nat} (beyond : line.length ≤ i) : at' line i = 0 := by simp [at',List.getD_eq_getElem?_getD,List.getElem?_eq_none beyond]

theorem lt_of_at (nonzero : at' line q ≠ 0) : q < line.length := by
  by_contra beyond
  exact nonzero (at_end (by omega))

theorem at_ne_zero (nul : (0 : UInt8) ∉ line) (inside : q < line.length) : at' line q ≠ 0 := by
  have here : at' line q = line.get ⟨q,inside⟩ := by simp [at',List.getD_eq_getElem?_getD,List.getElem?_eq_getElem inside]
  rw [here]
  exact fun zero => nul (zero ▸ List.get_mem line ⟨q,inside⟩)

theorem Lexes.inside (lexes : Lexes line s ts) : s ≤ line.length := by
  induction lexes with
  | blank inside => exact inside
  | sym order _ _ _ ih => omega
  | word order _ some' _ _ _ ih => omega

theorem charAt_eq (inside : s ≤ line.length) : charAt line s = .ok (at' line s) := by
  unfold charAt
  by_cases less : s < line.length
  · rw [if_pos less]
    rfl
  · rw [if_neg less,if_pos (by omega),at_end (by omega)]

theorem skip_eq {test : UInt8 → Bool} {e : Nat} (order : s ≤ e) (inside : e ≤ line.length)
    (body : ∀ i, s ≤ i → i < e → test (at' line i) = true) (ends : test (at' line e) = false ∨ e = line.length) :
    skip line test s = .ok e := by
  unfold skip
  obtain ⟨n,count⟩ : ∃ n, line.length - s = n := ⟨_,rfl⟩
  rw [count]
  induction n generalizing s with
  | zero =>
    obtain rfl : s = e := by omega
    rfl
  | succ n ih =>
    rw [skip_from,charAt_eq (by omega)]
    by_cases done : s = e
    · subst done
      have stop : test (at' line s) = false := ends.resolve_right (by omega)
      change (if test (at' line s) = true then _ else _) = _
      rw [stop]
      rfl
    · change (if test (at' line s) = true then skip_from line test n (s + 1) else _) = _
      rw [if_pos (body s (le_refl _) (by omega))]
      exact ih (by omega) (fun i low high => body i (by omega) high) (by omega)

theorem exists_run (test : UInt8 → Bool) (inside : s ≤ line.length) : ∃ q, s ≤ q ∧ q ≤ line.length ∧
    (∀ i, s ≤ i → i < q → test (at' line i) = true) ∧ (test (at' line q) = false ∨ q = line.length) := by
  obtain ⟨n,count⟩ : ∃ n, line.length - s = n := ⟨_,rfl⟩
  induction n generalizing s with
  | zero => exact ⟨s,le_refl _,inside,fun i low high => by omega,.inr (by omega)⟩
  | succ n ih =>
    by_cases here : test (at' line s) = true
    · obtain ⟨q,order,within,gap,ends⟩ := ih (s := s + 1) (by omega) (by omega)
      refine ⟨q,by omega,within,fun i low high => ?_,ends⟩
      by_cases first : i = s
      · rw [first]
        exact here
      · exact gap i (by omega) high
    · exact ⟨s,le_refl _,inside,fun i low high => by omega,.inl (by simpa using here)⟩

/-! ### `peek` and `gettoken` -/

/-- The next token is a symbol that begins with one of these characters. -/
def heads (toks : List UInt8) : List (Token α) → Bool
  | .sym x :: _ => toks.contains x.char
  | _ => false

/-- What `gettoken` returns for a symbol. -/
def Sym.kind : Sym → UInt8
  | gtgt => 43
  | x => x.char

def Token.kind : Token α → UInt8
  | .sym x => x.kind
  | .word _ => 97

theorem plain_not_symbol {c : UInt8} (letter : plain c = true) : c ∉ symbols ∧ white c = false := by
  simp only [plain,Bool.and_eq_true,Bool.not_eq_true'] at letter
  exact ⟨by simpa using letter.2,letter.1⟩

theorem Sym.not_white (x : Sym) : white x.char = false := by cases x <;> rfl

theorem Sym.char_ne_zero (x : Sym) : x.char ≠ 0 := by cases x <;> decide

theorem Lexes.next (lexes : Lexes line s ts) : ∃ q, skip line white s = .ok q ∧ q ≤ line.length ∧ Lexes line q ts ∧
    match ts with
    | [] => q = line.length
    | .sym x :: us => Stands line x q ∧ Lexes line (q + x.spelling.length) us
    | .word w :: us => q = w.1 ∧ q < w.2 ∧ (∀ i, q ≤ i → i < w.2 → plain (at' line i) = true) ∧
        (plain (at' line w.2) = false ∨ w.2 = line.length) ∧ Lexes line w.2 us := by
  have inside := lexes.inside
  cases lexes with
  | blank inside gap => exact ⟨line.length,skip_eq inside (le_refl _) gap (.inr rfl),le_refl _,.blank (le_refl _) fun i low high => by omega,rfl⟩
  | @sym _ q x us order gap here rest =>
    have within : q < line.length := lt_of_at (by rw [here.1]; exact x.char_ne_zero)
    refine ⟨q,skip_eq order (by omega) gap (.inl (by rw [here.1]; exact x.not_white)),by omega,?_,here,rest⟩
    exact .sym (le_refl _) (fun i low high => by omega) here rest
  | @word _ q e us order gap some' body ends rest =>
    have within := rest.inside
    refine ⟨q,skip_eq order (by omega) gap (.inl (plain_not_symbol (body q (le_refl _) some')).2),by omega,?_,rfl,some',body,ends,rest⟩
    exact .word (le_refl _) (fun i low high => by omega) some' body ends rest

theorem peek_eq (toks : List UInt8) (skipped : skip line white s = .ok q) (inside : q ≤ line.length) :
    peek line toks s = .ok ((at' line q ≠ 0 && toks.contains (at' line q) : Bool),q) := by
  unfold peek
  rw [skipped]
  change (charAt line q >>= fun c => pure (c ≠ 0 && toks.contains c,q)) = _
  rw [charAt_eq inside]
  rfl

theorem peek_spec {toks : List UInt8} {E : Stop → Prop} (lexes : Lexes line s ts) (known : toks ⊆ symbols) :
    post (peek line toks) (fun b s' => b = heads toks ts ∧ Lexes line s' ts) E s := by
  obtain ⟨q,skipped,inside,rest,here⟩ := lexes.next
  refine post_of_run (peek_eq toks skipped inside) ⟨?_,rest⟩
  match ts with
  | [] =>
    rw [show q = line.length from here,at_end (le_refl _)]
    rfl
  | .sym x :: us =>
    rw [here.1.1]
    simp [heads,x.char_ne_zero]
  | .word w :: us =>
    have letter := (plain_not_symbol (here.2.2.1 q (le_refl _) (by omega))).1
    have absent : toks.contains (at' line q) = false := by
      simpa using fun member => letter (known member)
    rw [absent,Bool.and_false]
    rfl

theorem gettoken_eq {c : UInt8} {r : UInt8 × Nat} {e : Nat} (skipped : skip line white s = .ok q) (inside : q ≤ line.length)
    (char : at' line q = c) (token : gettoken_from line q c = .ok r) (after : skip line white r.2 = .ok e) :
    gettoken line s = .ok ((r.1,q,r.2),e) := by
  unfold gettoken
  rw [skipped]
  change (charAt line q >>= _) = _
  rw [charAt_eq inside,char]
  change (gettoken_from line q c >>= _) = _
  rw [token]
  change (skip line white r.2 >>= _) = _
  rw [after]
  rfl

theorem gettoken_spec {E : Stop → Prop} (nul : (0 : UInt8) ∉ line) (lexes : Lexes line s (t :: ts)) :
    post (gettoken line) (fun r s' => r.1 = t.kind ∧ (∀ w, t = .word w → r.2 = w) ∧ Lexes line s' ts) E s := by
  obtain ⟨q,skipped,inside,_,here⟩ := lexes.next
  cases t with
  | sym x =>
    obtain ⟨e,after,_,rest,_⟩ := here.2.next
    have within : q < line.length := lt_of_at (by rw [here.1.1]; exact x.char_ne_zero)
    have token : gettoken_from line q x.char = .ok ((Token.sym x : Token Span).kind,q + x.spelling.length) := by
      have next : charAt line (q + 1) = .ok (at' line (q + 1)) := charAt_eq (by omega)
      cases x <;> try rfl
      · change (charAt line (q + 1) >>= _) = _
        rw [next]
        exact if_neg (here.1.2.1 rfl)
      · change (charAt line (q + 1) >>= _) = _
        rw [next]
        exact if_pos (here.1.2.2 rfl)
    exact post_of_run (gettoken_eq skipped inside here.1.1 token after) ⟨rfl,nofun,rest⟩
  | word w =>
    obtain ⟨rfl,some',body,ends,later⟩ := here
    obtain ⟨e,after,_,rest,_⟩ := later.next
    have bound := later.inside
    have letter := body w.1 (le_refl _) some'
    have token : gettoken_from line w.1 (at' line w.1) = .ok (97,w.2) := by
      have zero := at_ne_zero nul (show w.1 < line.length by omega)
      have other := (plain_not_symbol letter).1
      have walked : skip line plain w.1 = .ok w.2 := skip_eq (by omega) bound body ends
      simp only [symbols,List.mem_cons,List.not_mem_nil,or_false,not_or] at other
      unfold gettoken_from
      rw [if_neg zero,if_neg (by tauto),if_neg (by tauto),walked]
      rfl
    refine post_of_run (gettoken_eq skipped inside rfl token after) ⟨rfl,fun v same => ?_,rest⟩
    cases same
    rfl

theorem gettoken_end {E : Stop → Prop} (lexes : Lexes line s []) :
    post (gettoken line) (fun r s' => r.1 = 0 ∧ Lexes line s' []) E s := by
  obtain ⟨q,skipped,inside,rest,rfl⟩ := lexes.next
  obtain ⟨e,after,_,rest',rfl⟩ := rest.next
  exact post_of_run (gettoken_eq skipped inside (at_end (le_refl _)) rfl after) ⟨rfl,rest'⟩

theorem exists_lexes (inside : s ≤ line.length) : ∃ ts, Lexes line s ts := by
  obtain ⟨n,count⟩ : ∃ n, line.length - s ≤ n := ⟨_,le_refl _⟩
  induction n generalizing s with
  | zero => exact ⟨[],.blank inside fun i low high => by omega⟩
  | succ n ih =>
    obtain ⟨q,order,within,gap,ends⟩ := exists_run white inside
    by_cases last : q = line.length
    · subst last
      exact ⟨[],.blank inside gap⟩
    · have sym (x : Sym) (here : Stands line x q) : ∃ ts, Lexes line s ts := by
        have short : q + x.spelling.length ≤ line.length := by
          have first : q < line.length := by omega
          have second : x = .gtgt → q + 1 < line.length := fun same => lt_of_at (by rw [here.2.2 same]; decide)
          cases x <;> simp only [Sym.spelling,List.length_cons,List.length_nil] <;> first | omega | exact second rfl
        have long : 1 ≤ x.spelling.length := by cases x <;> decide
        obtain ⟨ts,rest⟩ := ih short (by omega)
        exact ⟨_,.sym order gap here rest⟩
      by_cases letter : plain (at' line q) = true
      · obtain ⟨e,order',within',body,ends'⟩ := exists_run plain within
        have some' : q < e := by
          rcases ends' with stop | stop
          · by_contra empty
            rw [show e = q by omega,letter] at stop
            cases stop
          · omega
        obtain ⟨ts,rest⟩ := ih within' (by omega)
        exact ⟨_,.word order gap some' body ends' rest⟩
      · have member : at' line q ∈ symbols := by
          have other : at' line q ∉ whitespace := by simpa [white] using ends.resolve_right last
          have known : at' line q ∉ whitespace → at' line q ∈ symbols := by simpa [plain] using letter
          exact known other
        by_cases angle : at' line q = 62
        · by_cases double : at' line (q + 1) = 62
          · exact sym .gtgt ⟨angle,nofun,fun _ => double⟩
          · exact sym .gt ⟨angle,fun _ => double,nofun⟩
        · simp only [symbols,List.mem_cons,List.not_mem_nil,or_false,angle,false_or] at member
          rcases member with here | here | here | here | here | here
          · exact sym .lt ⟨here,nofun,nofun⟩
          · exact sym .bar ⟨here,nofun,nofun⟩
          · exact sym .amp ⟨here,nofun,nofun⟩
          · exact sym .semi ⟨here,nofun,nofun⟩
          · exact sym .lparen ⟨here,nofun,nofun⟩
          · exact sym .rparen ⟨here,nofun,nofun⟩

theorem Sym.kind_ne (x : Sym) : x.kind ≠ 0 ∧ x.kind ≠ 97 := by cases x <;> decide

theorem Sym.kind_inj {x y : Sym} (same : x.kind = y.kind) : x = y := by
  revert same
  cases x <;> cases y <;> decide

theorem Token.kind_ne_zero (t : Token α) : t.kind ≠ 0 := by
  rcases t with x | w
  · exact x.kind_ne.1
  · exact (by decide : (97 : UInt8) ≠ 0)

theorem Lexes.unique (nul : (0 : UInt8) ∉ line) (lexes : Lexes line s ts) (lexes' : Lexes line s us) : ts = us := by
  induction ts generalizing s us with
  | nil =>
    obtain ⟨r,s',ran,zero,_⟩ := post_returns (gettoken_end lexes)
    cases us with
    | nil => rfl
    | cons t us =>
      have kind := (post_ok (gettoken_spec (E := fun _ => False) nul lexes') ran).1
      exact absurd (kind.symm.trans zero) t.kind_ne_zero
  | cons t ts ih =>
    obtain ⟨r,s',ran,kind,word,rest⟩ := post_returns (gettoken_spec nul lexes)
    cases us with
    | nil =>
      have zero := (post_ok (gettoken_end (E := fun _ => False) lexes') ran).1
      exact absurd (kind.symm.trans zero) t.kind_ne_zero
    | cons u us =>
      obtain ⟨kind',word',rest'⟩ := post_ok (gettoken_spec (E := fun _ => False) nul lexes') ran
      have kinds := kind.symm.trans kind'
      have same : t = u := by
        rcases t with x | w <;> rcases u with y | v
        · rw [Sym.kind_inj kinds]
        · exact absurd kinds x.kind_ne.2
        · exact absurd kinds.symm y.kind_ne.2
        · rw [← word w rfl,word' v rfl]
      rw [same,ih rest rest']

/-! ### What tokens look like -/

/-- The characters of a word. -/
def slice (line : List UInt8) (w : Span) : List UInt8 := (line.drop w.1).take (w.2 - w.1)

/-- A text with these tokens: whitespace may stand before each of them and at the end, and must stand where a word or `>` would
    otherwise go on. -/
inductive Renders : List (Token (List UInt8)) → List UInt8 → Prop where
  | nil {gap} (blank : ∀ c ∈ gap, c ∈ whitespace) : Renders [] gap
  | sym {gap x ts text} (blank : ∀ c ∈ gap, c ∈ whitespace) (next : x = .gt → text.head? ≠ some 62) (rest : Renders ts text) :
      Renders (.sym x :: ts) (gap ++ (x.spelling ++ text))
  | word {gap w ts text} (blank : ∀ c ∈ gap, c ∈ whitespace) (some' : w ≠ [])
      (letters : ∀ c ∈ w, c ∉ whitespace ∧ c ∉ symbols) (next : ∀ c, text.head? = some c → c ∈ whitespace ∨ c ∈ symbols)
      (rest : Renders ts text) : Renders (.word w :: ts) (gap ++ (w ++ text))

variable {pre text : List UInt8} {i : Nat}

theorem at_append : at' (pre ++ text) (pre.length + i) = at' text i := by
  rw [at',at',List.getD_eq_getElem?_getD,List.getD_eq_getElem?_getD,List.getElem?_append_right (Nat.le_add_right _ _),
    Nat.add_sub_cancel_left]

theorem at_append_left (inside : i < pre.length) : at' (pre ++ text) i = at' pre i := by
  simp [at',List.getD_eq_getElem?_getD,List.getElem?_append_left inside]

theorem at_mem (inside : i < text.length) : at' text i ∈ text := by
  rw [at',List.getD_eq_getElem?_getD,List.getElem?_eq_getElem inside]
  exact List.getElem_mem inside

theorem head_of_at {c : UInt8} (head : at' text 0 = c) (nonzero : c ≠ 0) : text.head? = some c := by
  cases text with
  | nil => exact absurd head.symm nonzero
  | cons d text => exact congrArg some head

theorem white_gap {gap : List UInt8} (blank : ∀ c ∈ gap, c ∈ whitespace) :
    ∀ i, pre.length ≤ i → i < pre.length + gap.length → white (at' (pre ++ (gap ++ text)) i) = true := by
  intro i low high
  obtain ⟨j,rfl⟩ : ∃ j, i = pre.length + j := ⟨i - pre.length,by omega⟩
  rw [at_append,at_append_left (by omega)]
  simpa [white] using blank _ (at_mem (by omega))

theorem Renders.lexes {ts : List (Token (List UInt8))} (renders : Renders ts text) :
    ∀ pre, ∃ us, Lexes (pre ++ text) pre.length us ∧ us.map (Token.map (slice (pre ++ text))) = ts := by
  induction renders with
  | @nil gap blank =>
    intro pre
    have gaps := @white_gap pre [] gap blank
    rw [List.append_nil] at gaps
    exact ⟨[],.blank (by simp) fun i low high => gaps i low (by simpa using high),rfl⟩
  | @sym gap x ts text blank next rest ih =>
    intro pre
    obtain ⟨us,lexes,same⟩ := ih (pre ++ gap ++ x.spelling)
    simp only [List.append_assoc] at lexes same
    have char (i : Nat) : at' (pre ++ (gap ++ (x.spelling ++ text))) (pre.length + gap.length + i) = at' (x.spelling ++ text) i := by
      rw [Nat.add_assoc,at_append,at_append]
    refine ⟨.sym x :: us,.sym (Nat.le_add_right _ gap.length) (white_gap blank) ⟨?_,fun single => ?_,fun double => ?_⟩ ?_,?_⟩
    · have first := char 0
      rw [Nat.add_zero] at first
      rw [first]
      cases x <;> rfl
    · rw [char 1,single]
      exact fun clash => next single (head_of_at clash (by decide))
    · rw [char 1,double]
      rfl
    · rw [List.length_append,List.length_append,← Nat.add_assoc] at lexes
      exact lexes
    · rw [List.map_cons,same]
      rfl
  | @word gap w ts text blank some' letters next rest ih =>
    intro pre
    obtain ⟨us,lexes,same⟩ := ih (pre ++ gap ++ w)
    simp only [List.append_assoc] at lexes same
    have char (i : Nat) : at' (pre ++ (gap ++ (w ++ text))) (pre.length + gap.length + i) = at' (w ++ text) i := by
      rw [Nat.add_assoc,at_append,at_append]
    have long : 0 < w.length := List.length_pos_iff.mpr some'
    refine ⟨.word (pre.length + gap.length,pre.length + gap.length + w.length) :: us,
      .word (Nat.le_add_right _ gap.length) (white_gap blank) (by omega) (fun i low high => ?_) ?_ ?_,?_⟩
    · obtain ⟨j,rfl⟩ : ∃ j, i = pre.length + gap.length + j := ⟨i - (pre.length + gap.length),by omega⟩
      rw [char,at_append_left (by omega)]
      simpa [plain] using letters _ (at_mem (by omega))
    · have follow := char w.length
      rw [show at' (w ++ text) w.length = at' text 0 from at_append (i := 0)] at follow
      cases text with
      | nil =>
        right
        simp only [List.length_append,List.length_nil]
        omega
      | cons c text =>
        left
        rw [follow]
        have stop := next c rfl
        change plain c = false
        simp only [plain]
        rcases stop with member | member <;> simp [member]
    · rw [List.length_append,List.length_append,← Nat.add_assoc] at lexes
      exact lexes
    · rw [List.map_cons,same]
      refine congrArg (· :: ts) (congrArg Token.word ?_)
      simp [slice]

end Xv6.Sh
