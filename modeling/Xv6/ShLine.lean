import Xv6.ShGrammar

/-!
Whole lines. `parsecmd` returns the command that the tokens of the line derive, or panics; the
NULs that `nulterminate` writes end the words and damage none of them, whatever stands between
the words.
-/
namespace Xv6.Sh
open Xv6.Lib

variable {α β : Type} {line : List UInt8} {s n : Nat} {ts us vs : List (Token Span)} {c : Cmd Span}

/-! ### The words of a command -/

/-- The words of a command: what is in `argv` of its `EXEC` nodes and the files of its `REDIR` nodes. -/
def Cmd.words : Cmd α → List α
  | .exec argv => argv
  | .redir cmd file _ _ => cmd.words ++ [file]
  | .pipe left right => left.words ++ right.words
  | .list left right => left.words ++ right.words
  | .back cmd => cmd.words

theorem words_nest (c : Cmd α) (rs : List (Redirection α)) : (nest c rs).words = c.words ++ rs.map Redirection.file := by
  induction rs using List.reverseRecOn with
  | nil => simp [nest]
  | append_singleton rs r ih =>
    rw [nest_append]
    change (Cmd.redir (nest c rs) r.file r.mode r.fd).words = _
    simp [Cmd.words,ih]

theorem words_back (c : Cmd α) (k : Nat) : (Cmd.back^[k] c).words = c.words := by
  induction k with
  | zero => rfl
  | succ k ih =>
    rw [Function.iterate_succ_apply']
    exact ih

theorem Redirs.words {ts : List (Token α)} {rs : List (Redirection α)} (redirs : Redirs ts rs) :
    ∀ w ∈ rs.map Redirection.file, Token.word w ∈ ts := by
  induction redirs with
  | nil => simp
  | @cons x w r ts rs redir rest ih =>
    intro v member
    rcases List.mem_cons.mp member with rfl | later
    · cases redir <;> simp
    · simp [ih v later]

theorem Args.words {ts : List (Token α)} {ws : List α} {rs : List (Redirection α)} (args : Args ts ws rs) :
    ∀ w ∈ ws ++ rs.map Redirection.file, Token.word w ∈ ts := by
  induction args with
  | nil => simp
  | @cons w ts rs us ws rs' redirs rest ih =>
    intro v member
    simp only [List.cons_append,List.mem_cons,List.map_append,List.mem_append] at member
    rcases member with rfl | inner | inner | inner
    · simp
    · simp [ih v (List.mem_append_left _ inner)]
    · simp [redirs.words v inner]
    · simp [ih v (List.mem_append_right _ inner)]

theorem Derives.words {k : Nonterm} {ts : List (Token α)} {c : Cmd α} (derives : Derives k ts c) : ∀ w ∈ c.words, Token.word w ∈ ts := by
  induction derives with
  | line k pipe ih =>
    intro w member
    rw [words_back] at member
    exact List.mem_append_left _ (ih w member)
  | list k pipe rest ih ih' =>
    intro w member
    rcases List.mem_append.mp member with inner | inner
    · rw [words_back] at inner
      exact List.mem_append_left _ (ih w inner)
    · simp [ih' w inner]
  | one item ih => exact ih
  | pipe item rest ih ih' =>
    intro w member
    rcases List.mem_append.mp member with inner | inner
    · exact List.mem_append_left _ (ih w inner)
    · simp [ih' w inner]
  | block inner redirs ih =>
    intro w member
    rw [words_nest] at member
    rcases List.mem_append.mp member with inner | inner
    · simp [ih w inner]
    · simp [redirs.words w inner]
  | exec redirs args few =>
    intro w member
    rw [words_nest,List.map_append] at member
    rcases List.mem_append.mp member with inner | inner
    · exact List.mem_append_right _ (args.words w (List.mem_append_left _ inner))
    · rcases List.mem_append.mp inner with inner | inner
      · exact List.mem_append_left _ (redirs.words w inner)
      · exact List.mem_append_right _ (args.words w (List.mem_append_right _ inner))

/-- A word of the line: plain characters, up to one that is not. -/
structure Word (line : List UInt8) (w : Span) : Prop where
  some' : w.1 < w.2
  inside : w.2 ≤ line.length
  body : ∀ i, w.1 ≤ i → i < w.2 → plain (at' line i) = true
  ends : plain (at' line w.2) = false ∨ w.2 = line.length

theorem Lexes.words (lexes : Lexes line s ts) : ∀ w, Token.word w ∈ ts → Word line w := by
  induction lexes with
  | blank => simp
  | sym _ _ _ _ ih =>
    intro w member
    exact ih w (by simpa using member)
  | @word s q e ts order gap some' body ends rest ih =>
    intro w member
    rcases List.mem_cons.mp member with same | later
    · obtain rfl : w = (q,e) := Token.word.inj same
      exact ⟨some',rest.inside,body,ends⟩
    · exact ih w later

/-! ### `nulterminate` -/

/-- A buffer with NULs at the ends of some words. -/
structure Cleared (ws : List Span) (buf buf' : List UInt8) : Prop where
  length : buf'.length = buf.length
  ends : ∀ w ∈ ws, at' buf' w.2 = 0
  others : ∀ i, (∀ w ∈ ws, w.2 ≠ i) → at' buf' i = at' buf i

theorem Cleared.refl (buf : List UInt8) : Cleared [] buf buf := ⟨rfl,by simp,fun _ _ => rfl⟩

theorem Cleared.trans {ws ws' : List Span} {buf buf₁ buf₂ : List UInt8} (one : Cleared ws buf buf₁) (two : Cleared ws' buf₁ buf₂) :
    Cleared (ws ++ ws') buf buf₂ := by
  refine ⟨two.length.trans one.length,fun w member => ?_,fun i apart => ?_⟩
  · by_cases again : ∃ v ∈ ws', v.2 = w.2
    · obtain ⟨v,inner,same⟩ := again
      rw [← same]
      exact two.ends v inner
    · push Not at again
      rw [two.others w.2 again]
      exact one.ends w ((List.mem_append.mp member).resolve_right fun inner => again w inner rfl)
  · rw [two.others i fun w member => apart w (List.mem_append_right _ member),
      one.others i fun w member => apart w (List.mem_append_left _ member)]

variable {buf : List UInt8}

theorem clear_spec {w : Span} (inside : w.2 < buf.length) : ∃ buf', clear buf w.2 = .ok buf' ∧ Cleared [w] buf buf' := by
  refine ⟨buf.set w.2 0,if_pos inside,by simp,fun v member => ?_,fun i apart => ?_⟩
  · rw [List.mem_singleton.mp member]
    simp [at',inside]
  · have differs := apart w (by simp)
    simp [at',List.getD_eq_getElem?_getD,List.getElem?_set_ne differs]

theorem clears_spec {ws : List Span} (buf : List UInt8) (inside : ∀ w ∈ ws, w.2 < buf.length) :
    ∃ buf', ws.foldlM (fun buf arg => clear buf arg.2) buf = .ok buf' ∧ Cleared ws buf buf' := by
  induction ws generalizing buf with
  | nil => exact ⟨buf,rfl,.refl buf⟩
  | cons w ws ih =>
    obtain ⟨buf₁,ran,first⟩ := clear_spec (inside w (by simp))
    obtain ⟨buf₂,ran',rest⟩ := ih buf₁ fun v member => by
      rw [first.length]
      exact inside v (by simp [member])
    refine ⟨buf₂,?_,first.trans rest⟩
    rw [List.foldlM_cons,ran]
    exact ran'

theorem nulterminate_spec (c : Cmd Span) : ∀ buf : List UInt8, (∀ w ∈ c.words, w.2 < buf.length) →
    ∃ buf', nulterminate c buf = .ok buf' ∧ Cleared c.words buf buf' := by
  induction c with
  | exec argv => exact clears_spec
  | redir cmd file mode fd ih =>
    intro buf inside
    obtain ⟨buf₁,ran,first⟩ := ih buf fun w member => inside w (List.mem_append_left _ member)
    obtain ⟨buf₂,ran',last⟩ := clear_spec (show file.2 < buf₁.length by
      rw [first.length]
      exact inside file (List.mem_append_right _ (by simp)))
    refine ⟨buf₂,?_,first.trans last⟩
    rw [nulterminate,ran]
    exact ran'
  | pipe left right ih ih' | list left right ih ih' =>
    intro buf inside
    obtain ⟨buf₁,ran,first⟩ := ih buf fun w member => inside w (List.mem_append_left _ member)
    obtain ⟨buf₂,ran',last⟩ := ih' buf₁ fun w member => by
      rw [first.length]
      exact inside w (List.mem_append_right _ member)
    refine ⟨buf₂,?_,first.trans last⟩
    rw [nulterminate,ran]
    exact ran'
  | back cmd ih => exact fun inside => ih inside

/-! ### `parsecmd` -/

theorem peek_end (toks : List UInt8) (lexes : Lexes line s ts) : ∃ b q, peek line toks s = .ok (b,q) ∧ (q = line.length ↔ ts = []) := by
  obtain ⟨q,skipped,inside,_,here⟩ := lexes.next
  refine ⟨_,q,peek_eq toks skipped inside,?_⟩
  match ts with
  | [] => exact ⟨fun _ => rfl,fun _ => here⟩
  | .sym x :: us =>
    have within : q < line.length := lt_of_at (by rw [here.1.1]; exact x.char_ne_zero)
    exact ⟨fun last => by omega,nofun⟩
  | .word w :: us =>
    have within := here.2.2.2.2.inside
    exact ⟨fun last => by omega,nofun⟩

theorem Lexes.length_le (lexes : Lexes line s ts) : s + ts.length ≤ line.length := by
  induction lexes with
  | blank inside => simpa using inside
  | @sym s q x ts order gap here rest ih =>
    have long : 1 ≤ x.spelling.length := by cases x <;> decide
    rw [List.length_cons]
    omega
  | @word s q e ts order gap some' body ends rest ih =>
    rw [List.length_cons]
    omega

theorem parseline_derives (nul : (0 : UInt8) ∉ line) (lexes : Lexes line 0 ts) (enough : 4 * ts.length + 4 ≤ n) (derives : Derives .line ts c) :
    ∃ s, parseline line n 0 = .ok (c,s) ∧ Lexes line s [] := by
  have run := @parse_complete _ _ _ nul _ derives [] _ _ (.inl rfl) enough (by rwa [List.append_nil])
  obtain ⟨_,s,ran,rfl,rest⟩ := post_returns run
  exact ⟨s,ran,rest⟩

/-- `parsecmd` panics, or returns the command that the tokens derive; it panics only where they derive none. -/
theorem parsecmd_cases (nul : (0 : UInt8) ∉ line) (lexes : Lexes line 0 ts) (enough : 4 * ts.length + 4 ≤ n) :
    ((∃ why, parsecmd line n = .error (.panic why)) ∧ ∀ t, ¬Derives .line ts t) ∨
      ∃ t buf, parsecmd line n = .ok (t,buf) ∧ Derives .line ts t ∧ Cleared t.words (line ++ [0]) buf ∧
        ∀ t', Derives .line ts t' → t' = t := by
  by_cases derivable : ∃ t, Derives .line ts t
  · obtain ⟨t,derives⟩ := derivable
    obtain ⟨s,ran,rest⟩ := parseline_derives nul lexes enough derives
    obtain ⟨b,q,peeked,last⟩ := peek_end [] rest
    obtain ⟨buf,cleared,ends⟩ := nulterminate_spec t (line ++ [0]) fun w member => by
      have inside := (lexes.words w (derives.words w member)).inside
      rw [List.length_append,List.length_singleton]
      omega
    refine .inr ⟨t,buf,?_,derives,ends,fun t' derives' => ?_⟩
    · unfold parsecmd
      rw [ran]
      change (peek line [] s >>= _) = _
      rw [peeked]
      change (if q ≠ line.length then _ else _) = _
      rw [if_neg (not_not.mpr (last.mpr rfl)),cleared]
      rfl
    · obtain ⟨s',ran',_⟩ := parseline_derives nul lexes enough derives'
      have same := ran'.symm.trans ran
      simp only [Except.ok.injEq,Prod.mk.injEq] at same
      exact same.1
  · push Not at derivable
    refine .inl ⟨?_,derivable⟩
    have sound := (parse_sound nul n).1 0 ts lexes
    unfold parsecmd
    cases ran : parseline line n 0 with
    | error stop =>
      unfold post at sound
      rw [ran] at sound
      cases stop with
      | panic why => exact ⟨why,rfl⟩
      | outside => exact sound.elim
      | fuel =>
        have short : n < 4 * ts.length + 4 := sound
        omega
    | ok done =>
      obtain ⟨us,vs,rfl,rest,derives⟩ := post_ok sound ran
      obtain ⟨b,q,peeked,last⟩ := peek_end [] rest
      have more : q ≠ line.length := fun at' => by
        have none := last.mp at'
        rw [none,List.append_nil] at derivable
        exact derivable _ derives
      refine ⟨"syntax",?_⟩
      change (peek line [] done.2 >>= _) = _
      rw [peeked]
      change (if q ≠ line.length then _ else _) = _
      rw [if_pos more]

/-! ### Commands of texts -/

section
variable (f : α → β)

def Redirection.map (r : Redirection α) : Redirection β := ⟨f r.file,r.mode,r.fd⟩

theorem map_nest (c : Cmd α) (rs : List (Redirection α)) : (nest c rs).map f = nest (c.map f) (rs.map (Redirection.map f)) := by
  induction rs using List.reverseRecOn with
  | nil => rfl
  | append_singleton rs r ih =>
    rw [nest_append,List.map_append,nest_append,← ih]
    rfl

theorem map_back (c : Cmd α) (k : Nat) : (Cmd.back^[k] c).map f = Cmd.back^[k] (c.map f) := by
  induction k with
  | zero => rfl
  | succ k ih =>
    rw [Function.iterate_succ_apply',Function.iterate_succ_apply']
    exact congrArg Cmd.back ih

variable {us : List (Token β)}

theorem map_sym {ts : List (Token α)} {x : Sym} (same : ts.map (Token.map f) = .sym x :: us) :
    ∃ ts', ts = .sym x :: ts' ∧ ts'.map (Token.map f) = us := by
  obtain ⟨t,ts',rfl,head,rest⟩ := List.map_eq_cons_iff.mp same
  cases t with
  | sym y =>
    cases head
    exact ⟨ts',rfl,rest⟩
  | word w => cases head

theorem map_word {ts : List (Token α)} {v : β} (same : ts.map (Token.map f) = .word v :: us) :
    ∃ w ts', ts = .word w :: ts' ∧ f w = v ∧ ts'.map (Token.map f) = us := by
  obtain ⟨t,ts',rfl,head,rest⟩ := List.map_eq_cons_iff.mp same
  cases t with
  | sym y => cases head
  | word w =>
    cases head
    exact ⟨w,ts',rfl,rfl,rest⟩

theorem map_amps {ts : List (Token α)} {k : Nat} (same : ts.map (Token.map f) = List.replicate k (.sym .amp)) :
    ts = List.replicate k (.sym .amp) := by
  induction k generalizing ts with
  | zero => simpa using same
  | succ k ih =>
    obtain ⟨ts',rfl,rest⟩ := map_sym f same
    rw [ih rest]
    rfl

theorem Redirs.unmap {rs : List (Redirection β)} (redirs : Redirs us rs) : ∀ {ts : List (Token α)},
    ts.map (Token.map f) = us → ∃ rs', Redirs ts rs' ∧ rs'.map (Redirection.map f) = rs := by
  induction redirs with
  | nil =>
    intro ts same
    rw [List.map_eq_nil_iff.mp same]
    exact ⟨[],.nil,rfl⟩
  | @cons x w r us rs redir rest ih =>
    intro ts same
    obtain ⟨ts₁,rfl,same₁⟩ := map_sym f same
    obtain ⟨v,ts₂,rfl,rfl,same₂⟩ := map_word f same₁
    obtain ⟨rs',redirs',rfl⟩ := ih same₂
    cases redir with
    | lt => exact ⟨_,.cons (.lt v) redirs',rfl⟩
    | gt => exact ⟨_,.cons (.gt v) redirs',rfl⟩
    | gtgt => exact ⟨_,.cons (.gtgt v) redirs',rfl⟩

theorem Args.unmap {ws : List β} {rs : List (Redirection β)} (args : Args us ws rs) : ∀ {ts : List (Token α)},
    ts.map (Token.map f) = us → ∃ ws' rs', Args ts ws' rs' ∧ ws'.map f = ws ∧ rs'.map (Redirection.map f) = rs := by
  induction args with
  | nil =>
    intro ts same
    rw [List.map_eq_nil_iff.mp same]
    exact ⟨[],[],.nil,rfl,rfl⟩
  | @cons w us rs us' ws rs' redirs rest ih =>
    intro ts same
    obtain ⟨v,ts₁,rfl,rfl,same₁⟩ := map_word f same
    obtain ⟨ts₂,ts₃,rfl,same₂,same₃⟩ := List.map_eq_append_iff.mp same₁
    obtain ⟨rs₁,redirs',rfl⟩ := redirs.unmap f same₂
    obtain ⟨ws',rs₂,args',rfl,rfl⟩ := ih same₃
    exact ⟨v :: ws',rs₁ ++ rs₂,.cons redirs' args',rfl,List.map_append⟩

/-- A command that is derived from texts is derived from the tokens with these texts. -/
theorem Derives.unmap {k : Nonterm} {u : Cmd β} (derives : Derives k us u) : ∀ {ts : List (Token α)},
    ts.map (Token.map f) = us → ∃ t, Derives k ts t ∧ t.map f = u := by
  induction derives with
  | @line us c k pipe ih =>
    intro ts same
    obtain ⟨ts₁,ts₂,rfl,same₁,same₂⟩ := List.map_eq_append_iff.mp same
    obtain ⟨t,derives,rfl⟩ := ih same₁
    rw [map_amps f same₂]
    exact ⟨_,.line k derives,map_back f t k⟩
  | @list us c us' d k pipe rest ih ih' =>
    intro ts same
    obtain ⟨ts₁,ts₂,rfl,same₁,same₂⟩ := List.map_eq_append_iff.mp same
    obtain ⟨ts₃,ts₄,rfl,same₃,same₄⟩ := List.map_eq_append_iff.mp same₂
    obtain ⟨ts₅,rfl,same₅⟩ := map_sym f same₄
    obtain ⟨t,derives,rfl⟩ := ih same₁
    obtain ⟨t',derives',rfl⟩ := ih' same₅
    rw [map_amps f same₃]
    exact ⟨_,.list k derives derives',congrArg (Cmd.list · _) (map_back f t k)⟩
  | one item ih =>
    intro ts same
    obtain ⟨t,derives,rfl⟩ := ih same
    exact ⟨t,.one derives,rfl⟩
  | pipe item rest ih ih' =>
    intro ts same
    obtain ⟨ts₁,ts₂,rfl,same₁,same₂⟩ := List.map_eq_append_iff.mp same
    obtain ⟨ts₃,rfl,same₃⟩ := map_sym f same₂
    obtain ⟨t,derives,rfl⟩ := ih same₁
    obtain ⟨t',derives',rfl⟩ := ih' same₃
    exact ⟨_,.pipe derives derives',rfl⟩
  | block inner redirs ih =>
    intro ts same
    obtain ⟨ts₁,rfl,same₁⟩ := map_sym f same
    obtain ⟨ts₂,ts₃,rfl,same₂,same₃⟩ := List.map_eq_append_iff.mp same₁
    obtain ⟨ts₄,rfl,same₄⟩ := map_sym f same₃
    obtain ⟨t,derives,rfl⟩ := ih same₂
    obtain ⟨rs',redirs',rfl⟩ := redirs.unmap f same₄
    exact ⟨_,.block derives redirs',map_nest f t rs'⟩
  | @exec us rs us' ws rs' redirs args few =>
    intro ts same
    obtain ⟨ts₁,ts₂,rfl,same₁,same₂⟩ := List.map_eq_append_iff.mp same
    obtain ⟨rs₁,redirs',rfl⟩ := redirs.unmap f same₁
    obtain ⟨ws',rs₂,args',rfl,rfl⟩ := args.unmap f same₂
    refine ⟨_,.exec redirs' args' (by simpa using few),?_⟩
    rw [map_nest,List.map_append]
    rfl

end

/-- The parser accepts exactly its grammar: for every line it comes to an end, in a panic or with a command, without an access outside
    the line or `argv`; it returns the one command that the tokens of the line derive; and every text of a command gives it back. -/
theorem parsecmd_iff (nul : (0 : UInt8) ∉ line) : ∃ ts, Lexes line 0 ts ∧ (∀ us, Lexes line 0 us → us = ts) ∧
    ∀ n, 4 * line.length + 4 ≤ n →
      ((∃ why, parsecmd line n = .error (.panic why)) ∨ ∃ t buf, parsecmd line n = .ok (t,buf)) ∧
      (∀ t, (∃ buf, parsecmd line n = .ok (t,buf)) ↔ Derives .line ts t) ∧
      (∀ t t', Derives .line ts t → Derives .line ts t' → t = t') ∧
      ∀ us u, Derives .line us u → Renders us line → ∃ t buf, parsecmd line n = .ok (t,buf) ∧ t.map (slice line) = u := by
  obtain ⟨ts,lexes⟩ := exists_lexes (Nat.zero_le line.length)
  refine ⟨ts,lexes,fun us lexes' => lexes'.unique nul lexes,fun n enough => ?_⟩
  have few := lexes.length_le
  rcases parsecmd_cases (n := n) nul lexes (by omega) with ⟨⟨why,ran⟩,none⟩ | ⟨t,buf,ran,derives,_,one⟩
  · refine ⟨.inl ⟨why,ran⟩,fun t => ⟨fun ⟨buf,other⟩ => ?_,fun derives => absurd derives (none t)⟩,
      fun t _ derives => absurd derives (none t),fun us u derives renders => ?_⟩
    · rw [ran] at other
      cases other
    · obtain ⟨ts',lexes',same⟩ := renders.lexes []
      obtain ⟨t,derives',_⟩ := derives.unmap (slice line) same
      rw [lexes'.unique nul lexes] at derives'
      exact absurd derives' (none t)
  · refine ⟨.inr ⟨t,buf,ran⟩,fun t' => ⟨fun ⟨buf',other⟩ => ?_,fun derives' => ⟨buf,?_⟩⟩,
      fun t₁ t₂ derives₁ derives₂ => (one t₁ derives₁).trans (one t₂ derives₂).symm,fun us u derives' renders => ⟨t,buf,ran,?_⟩⟩
    · rw [ran] at other
      simp only [Except.ok.injEq,Prod.mk.injEq] at other
      exact other.1 ▸ derives
    · rw [one t' derives',ran]
    · obtain ⟨ts',lexes',same⟩ := renders.lexes []
      obtain ⟨t',derives'',rfl⟩ := derives'.unmap (slice line) same
      rw [lexes'.unique nul lexes] at derives''
      rw [one t' derives'']

/-- The line `(ls)>x;a|b&`. -/
theorem parsecmd_iff_line : ∃ ts, Lexes [40,108,115,41,62,120,59,97,124,98,38] 0 ts ∧
    ∀ n, 48 ≤ n → ∀ t, (∃ buf, parsecmd [40,108,115,41,62,120,59,97,124,98,38] n = .ok (t,buf)) ↔ Derives .line ts t := by
  obtain ⟨ts,lexes,_,rest⟩ := parsecmd_iff (show (0 : UInt8) ∉ [40,108,115,41,62,120,59,97,124,98,38] by decide)
  exact ⟨ts,lexes,fun n enough => (rest n enough).2.1⟩

/-- A string in a buffer. -/
def cstring (buf : List UInt8) (p : Nat) : List UInt8 := (buf.drop p).takeWhile (· ≠ 0)

theorem at_eq_getElem {i : Nat} (inside : i < buf.length) : at' buf i = buf[i] := by
  simp [at',List.getD_eq_getElem?_getD,List.getElem?_eq_getElem inside]

theorem cstring_eq {w : Span} (nul : (0 : UInt8) ∉ line) (order : w.1 ≤ w.2) (inside : w.2 ≤ line.length)
    (body : ∀ i, w.1 ≤ i → i < w.2 → at' buf i = at' line i) (length : w.2 < buf.length) (ends : at' buf w.2 = 0) :
    cstring buf w.1 = slice line w := by
  have same : (buf.drop w.1).take (w.2 - w.1) = slice line w := by
    refine List.ext_getElem (by simp [slice]; omega) fun i here here' => ?_
    simp only [List.length_take,List.length_drop] at here
    have char := body (w.1 + i) (by omega) (by omega)
    rw [at_eq_getElem (by omega),at_eq_getElem (by omega)] at char
    simpa [slice] using char
  have nonzero : ∀ c ∈ slice line w, (c ≠ 0 : Bool) = true := fun c member => by
    have whole : c ∈ line := List.mem_of_mem_drop (List.mem_of_mem_take member)
    have other : c ≠ 0 := fun zero => nul (zero ▸ whole)
    simpa using other
  have rest : (buf.drop w.1).drop (w.2 - w.1) = 0 :: buf.drop (w.2 + 1) := by
    rw [List.drop_drop,Nat.add_sub_cancel' order,List.drop_eq_getElem_cons length,← at_eq_getElem length,ends]
  rw [cstring,← List.take_append_drop (w.2 - w.1) (buf.drop w.1),same,rest,List.takeWhile_append_of_pos nonzero]
  simp

theorem parsecmd_ok (nul : (0 : UInt8) ∉ line) (parsed : parsecmd line n = .ok (c,buf)) :
    ∃ ts, Lexes line 0 ts ∧ Derives .line ts c ∧ Cleared c.words (line ++ [0]) buf := by
  obtain ⟨ts,lexes⟩ := exists_lexes (Nat.zero_le line.length)
  have sound := (parse_sound nul n).1 0 ts lexes
  unfold parsecmd at parsed
  cases ran : parseline line n 0 with
  | error stop =>
    rw [ran] at parsed
    cases parsed
  | ok done =>
    obtain ⟨us,vs,rfl,rest,derives⟩ := post_ok sound ran
    obtain ⟨b,q,peeked,last⟩ := peek_end [] rest
    rw [ran] at parsed
    change (peek line [] done.2 >>= _) = _ at parsed
    rw [peeked] at parsed
    change (if q ≠ line.length then _ else _) = _ at parsed
    by_cases more : q = line.length
    · rw [if_neg (not_not.mpr more)] at parsed
      obtain rfl := last.mp more
      rw [List.append_nil] at lexes
      obtain ⟨buf',cleared,ends⟩ := nulterminate_spec done.1 (line ++ [0]) fun w member => by
        have inside := (lexes.words w (derives.words w member)).inside
        rw [List.length_append,List.length_singleton]
        omega
      rw [cleared] at parsed
      cases parsed
      exact ⟨us,lexes,derives,ends⟩
    · rw [if_pos more] at parsed
      cases parsed

/-- After `nulterminate` every word, read as a string, is what stood in the line; NULs are written only over whitespace, symbols and
    the final NUL. -/
theorem nulterminate_words (nul : (0 : UInt8) ∉ line) {buf : List UInt8} (parsed : parsecmd line n = .ok (c,buf)) :
    (∃ ts, Lexes line 0 ts ∧ ∀ w ∈ c.words, Token.word w ∈ ts) ∧ (∀ w ∈ c.words, cstring buf w.1 = slice line w) ∧
      (∀ w ∈ c.words, at' line w.2 ∈ whitespace ∨ at' line w.2 ∈ symbols ∨ w.2 = line.length) ∧
      buf.length = line.length + 1 ∧ ∀ i, (∀ w ∈ c.words, w.2 ≠ i) → at' buf i = at' (line ++ [0]) i := by
  obtain ⟨ts,lexes,derives,cleared⟩ := parsecmd_ok nul parsed
  have words : ∀ w ∈ c.words, Word line w := fun w member => lexes.words w (derives.words w member)
  have length : buf.length = line.length + 1 := by
    rw [cleared.length]
    simp
  refine ⟨⟨ts,lexes,derives.words⟩,fun w member => ?_,fun w member => ?_,length,cleared.others⟩
  · have word := words w member
    have inside := word.inside
    refine cstring_eq nul (Nat.le_of_lt word.some') inside (fun i low high => ?_) (by omega) (cleared.ends w member)
    -- An end of a word is not inside of one: there is no plain character there.
    rw [cleared.others i fun v member' clash => ?_,at_append_left (by omega)]
    have letter := word.body i low high
    rcases (words v member').ends with stop | stop
    · rw [clash,letter] at stop
      cases stop
    · omega
  · have word := words w member
    rcases word.ends with stop | stop
    · simp only [plain,Bool.and_eq_false_iff,Bool.not_eq_false',List.contains_iff_mem] at stop
      exact stop.imp id .inl
    · exact .inr (.inr stop)

/-- The line `a>b|c`. -/
theorem nulterminate_words_line : ∃ c buf, parsecmd [97,62,98,124,99] 24 = .ok (c,buf) ∧
    ∀ w ∈ c.words, cstring buf w.1 = slice [97,62,98,124,99] w := by
  have accepted : (parsecmd [97,62,98,124,99] 24).toOption.isSome = true := by decide +kernel
  cases parsed : parsecmd [97,62,98,124,99] 24 with
  | error stop =>
    rw [parsed] at accepted
    cases accepted
  | ok done => exact ⟨done.1,done.2,rfl,(nulterminate_words (by decide) parsed).2.1⟩

end Xv6.Sh
