import Xv6.ShTokens

/-!
The parser accepts its grammar and nothing else.
-/
namespace Xv6.Sh
open Xv6.Lib

variable {line : List UInt8} {s n : Nat} {ts us vs : List (Token Span)} {c : Cmd Span}

/-! ### Soundness -/

/-- How the parser may fail: for want of calls only if there are too few. -/
def Fails (short : Prop) : Stop → Prop
  | .panic _ => True
  | .outside => False
  | .fuel => short

theorem Fails.mono {short short' : Prop} (less : short → short') : ∀ e, Fails short e → Fails short' e
  | .panic _ => id
  | .outside => id
  | .fuel => less

theorem heads_cons {toks : List UInt8} (yes : heads toks ts = true) : ∃ x us, ts = .sym x :: us ∧ x.char ∈ toks := by
  match ts with
  | [] => cases yes
  | .word _ :: _ => cases yes
  | .sym x :: us => exact ⟨x,us,rfl,by simpa [heads] using yes⟩

theorem heads_single {y : Sym} (yes : heads [y.char] ts = true) (other : y ≠ .gt ∧ y ≠ .gtgt) : ∃ us, ts = .sym y :: us := by
  obtain ⟨x,us,rfl,member⟩ := heads_cons yes
  refine ⟨us,?_⟩
  revert member other
  cases x <;> cases y <;> simp [Sym.char]

theorem post_call {α β : Type} {m : Parser β} {f : β → Parser α} {P : β → Nat → Prop} {Q : α → Nat → Prop} {short short' : Prop}
    (called : post m P (Fails short) s) (less : short → short') (rest : ∀ b s', P b s' → post (f b) Q (Fails short') s') :
    post (m >>= f) Q (Fails short') s := by
  rw [post_bind]
  exact post_mono called rest (Fails.mono less)

section
variable {α : Type} {Q : α → Nat → Prop} {E : Stop → Prop}

theorem post_peek {toks : List UInt8} {f : Bool → Parser α} (lexes : Lexes line s ts) (known : toks ⊆ symbols)
    (next : ∀ s', Lexes line s' ts → post (f (heads toks ts)) Q E s') : post (peek line toks >>= f) Q E s := by
  rw [post_bind]
  refine post_use (peek_spec lexes known) ?_
  rintro _ s' ⟨rfl,lexes'⟩
  exact next s' lexes'

theorem post_gettoken {f : UInt8 × Span → Parser α} (nul : (0 : UInt8) ∉ line) (lexes : Lexes line s (t :: ts))
    (next : ∀ tok s', tok.1 = t.kind ∧ (∀ w, t = .word w → tok.2 = w) ∧ Lexes line s' ts → post (f tok) Q E s') :
    post (gettoken line >>= f) Q E s := by
  rw [post_bind]
  exact post_use (gettoken_spec nul lexes) next

end

theorem parseredirs_sound (nul : (0 : UInt8) ∉ line) (n : Nat) : ∀ {s ts c}, Lexes line s ts →
    post (parseredirs line n c) (fun c' s' => ∃ us vs rs, ts = us ++ vs ∧ Lexes line s' vs ∧ Redirs us rs ∧ c' = nest c rs)
      (Fails (n ≤ ts.length)) s := by
  induction n with
  | zero => exact fun _ => Nat.zero_le _
  | succ n ih =>
    intro s ts c lexes
    rw [parseredirs]
    refine post_peek lexes (by decide) fun s₁ lexes₁ => ?_
    by_cases more : heads [60,62] ts = true
    · rw [if_pos more]
      obtain ⟨x,us,rfl,angle⟩ := heads_cons more
      refine post_gettoken nul lexes₁ fun tok s₂ got => ?_
      obtain ⟨kind,_,lexes₂⟩ := got
      match us with
      | [] =>
        refine post_call (gettoken_end lexes₂) (fun no : False => no.elim) fun word s₃ got => ?_
        rw [if_pos (by rw [got.1]; decide)]
        trivial
      | .sym y :: us =>
        refine post_gettoken nul lexes₂ fun word s₃ got => ?_
        rw [if_pos (by rw [got.1]; exact y.kind_ne.2)]
        trivial
      | .word w :: us =>
        refine post_gettoken nul lexes₂ fun word s₃ got => ?_
        obtain ⟨kind',here,lexes₃⟩ := got
        rw [if_neg (by rw [kind']; exact not_not.mpr rfl),kind,here w rfl]
        have redirect : ∃ r, Redirects x w r ∧ redircmd x.kind c w = nest c [r] := by
          cases x with
          | lt => exact ⟨_,.lt w,rfl⟩
          | gt => exact ⟨_,.gt w,rfl⟩
          | gtgt => exact ⟨_,.gtgt w,rfl⟩
          | _ => exact absurd angle (by decide)
        obtain ⟨r,redir,same⟩ := redirect
        change post (parseredirs line n (redircmd x.kind c w)) _ _ _
        rw [same]
        refine post_mono (ih lexes₃) (fun c' s' done => ?_) (Fails.mono fun short => by simp only [List.length_cons]; omega)
        obtain ⟨us',vs,rs,rfl,lexes',redirs,rfl⟩ := done
        exact ⟨_,vs,r :: rs,rfl,lexes',.cons redir redirs,rfl⟩
    · rw [if_neg more]
      exact ⟨[],ts,[],rfl,lexes₁,.nil,rfl⟩

theorem argIndex_spec {argc : Nat} {E : Stop → Prop} (few : argc < MAXARGS) : post (argIndex argc) (fun _ s' => s' = s) E s := by
  rw [argIndex,if_pos few]
  rfl

theorem parseexec_from_sound (nul : (0 : UInt8) ∉ line) (n : Nat) : ∀ {s ts ws rs}, Lexes line s ts → ws.length < MAXARGS →
    post (parseexec_from line n ws.length (nest (.exec ws) rs)) (fun c' s' => ∃ us vs ws' rs', ts = us ++ vs ∧ Lexes line s' vs ∧
      Args us ws' rs' ∧ (ws ++ ws').length < MAXARGS ∧ c' = nest (.exec (ws ++ ws')) (rs ++ rs')) (Fails (n ≤ ts.length)) s := by
  induction n with
  | zero => exact fun _ _ => Nat.zero_le _
  | succ n ih =>
    intro s ts ws rs lexes few
    have done {s' : Nat} (lexes' : Lexes line s' ts) : post (argIndex ws.length >>= fun _ => pure (nest (.exec ws) rs))
        (fun c' s' => ∃ us vs ws' rs', ts = us ++ vs ∧ Lexes line s' vs ∧ Args us ws' rs' ∧ (ws ++ ws').length < MAXARGS ∧
          c' = nest (.exec (ws ++ ws')) (rs ++ rs')) (Fails (n + 1 ≤ ts.length)) s' := by
      rw [post_bind]
      refine post_use (argIndex_spec few) fun _ s₂ same => ?_
      rw [same]
      exact ⟨[],ts,[],[],rfl,lexes',.nil,by rwa [List.append_nil],by simp⟩
    rw [parseexec_from]
    refine post_peek lexes (by decide) fun s₁ lexes₁ => ?_
    by_cases follow : heads [124,41,38,59] ts = true
    · rw [if_pos follow]
      exact done lexes₁
    · rw [if_neg follow]
      match ts with
      | [] =>
        refine post_call (gettoken_end lexes₁) (fun no : False => no.elim) fun tok s₂ got => ?_
        rw [if_pos got.1]
        exact done got.2
      | .sym x :: us =>
        refine post_gettoken nul lexes₁ fun tok s₂ got => ?_
        rw [if_neg (by rw [got.1]; exact x.kind_ne.1),if_pos (by rw [got.1]; exact x.kind_ne.2)]
        trivial
      | .word w :: us =>
        refine post_gettoken nul lexes₁ fun tok s₂ got => ?_
        obtain ⟨kind,here,lexes₂⟩ := got
        rw [if_neg (by rw [kind]; exact Token.kind_ne_zero _),if_neg (by rw [kind]; exact not_not.mpr rfl),here w rfl,post_bind]
        refine post_use (argIndex_spec few) fun _ s₃ same => ?_
        rw [same,setArg_nest]
        by_cases many : ws.length + 1 ≥ MAXARGS
        · rw [if_pos many]
          trivial
        · rw [if_neg many]
          refine post_call (parseredirs_sound nul n lexes₂) (fun short => by simp only [List.length_cons]; omega) fun c' s₄ parsed => ?_
          obtain ⟨us',vs,rs',rfl,lexes₄,redirs,rfl⟩ := parsed
          rw [← nest_append]
          have next := @ih _ _ (ws ++ [w]) (rs ++ rs') lexes₄ (by simp only [List.length_append,List.length_singleton]; omega)
          rw [show (ws ++ [w]).length = ws.length + 1 by simp] at next
          refine post_mono next (fun c' s' parsed => ?_)
            (Fails.mono fun short => by simp only [List.length_cons,List.length_append]; omega)
          obtain ⟨us'',vs',ws',rs'',rfl,lexes',args,few',rfl⟩ := parsed
          refine ⟨.word w :: (us' ++ us''),vs',w :: ws',rs' ++ rs'',by simp,lexes',.cons redirs args,by simpa using few',by simp⟩

theorem parseline_from_sound (nul : (0 : UInt8) ∉ line) (n : Nat) : ∀ {s ts c}, Lexes line s ts →
    post (parseline_from line n c) (fun c' s' => ∃ k vs, ts = List.replicate k (.sym .amp) ++ vs ∧ Lexes line s' vs ∧
      c' = Cmd.back^[k] c) (Fails (n ≤ ts.length)) s := by
  induction n with
  | zero => exact fun _ => Nat.zero_le _
  | succ n ih =>
    intro s ts c lexes
    rw [parseline_from]
    refine post_peek lexes (by decide) fun s₁ lexes₁ => ?_
    by_cases more : heads [38] ts = true
    · rw [if_pos more]
      obtain ⟨us,rfl⟩ := heads_single (y := .amp) more (by decide)
      refine post_gettoken nul lexes₁ fun tok s₂ got => ?_
      refine post_mono (ih got.2.2) (fun c' s' done => ?_) (Fails.mono fun short => by simp only [List.length_cons]; omega)
      obtain ⟨k,vs,rfl,lexes',rfl⟩ := done
      exact ⟨k + 1,vs,by rw [List.replicate_succ,List.cons_append],lexes',by rw [Function.iterate_succ_apply]⟩
    · rw [if_neg more]
      exact ⟨0,ts,rfl,lexes₁,rfl⟩

/-- What a part of the parser does: it reads tokens that derive what it returns. -/
def Sound (line : List UInt8) (k : Nonterm) (parse : Parser (Cmd Span)) (short : List (Token Span) → Prop) : Prop :=
  ∀ s ts, Lexes line s ts → post parse (fun c s' => ∃ us vs, ts = us ++ vs ∧ Lexes line s' vs ∧ Derives k us c) (Fails (short ts)) s

theorem parse_sound (nul : (0 : UInt8) ∉ line) (n : Nat) :
    Sound line .line (parseline line n) (fun ts => n < 4 * ts.length + 4) ∧
    Sound line .pipe (parsepipe line n) (fun ts => n < 4 * ts.length + 3) ∧
    Sound line .item (parseexec line n) (fun ts => n < 4 * ts.length + 2) ∧
    Sound line .item (parseblock line n) (fun ts => n < 4 * ts.length + 1) := by
  induction n with
  | zero =>
    refine ⟨fun s ts _ => ?_,fun s ts _ => ?_,fun s ts _ => ?_,fun s ts _ => ?_⟩ <;> exact Nat.succ_pos _
  | succ n ih =>
    obtain ⟨ihLine,ihPipe,ihExec,ihBlock⟩ := ih
    refine ⟨fun s ts lexes => ?_,fun s ts lexes => ?_,fun s ts lexes => ?_,fun s ts lexes => ?_⟩
    · rw [parseline]
      refine post_call (ihPipe s ts lexes) (fun short => by omega) fun c₁ s₁ parsed => ?_
      obtain ⟨us,vs,rfl,lexes₁,pipe⟩ := parsed
      refine post_call (parseline_from_sound nul n lexes₁) (fun short => by simp only [List.length_append]; omega) fun c₂ s₂ parsed => ?_
      obtain ⟨k,vs',rfl,lexes₂,rfl⟩ := parsed
      refine post_peek lexes₂ (by decide) fun s₃ lexes₃ => ?_
      by_cases more : heads [59] vs' = true
      · rw [if_pos more]
        obtain ⟨ws,rfl⟩ := heads_single (y := .semi) more (by decide)
        refine post_gettoken nul lexes₃ fun tok s₄ got => ?_
        refine post_call (ihLine s₄ ws got.2.2) (fun short => by simp only [List.length_append,List.length_cons]; omega)
          fun c₃ s₅ parsed => ?_
        obtain ⟨us',vs'',rfl,lexes₅,rest⟩ := parsed
        exact ⟨us ++ (List.replicate k (.sym .amp) ++ .sym .semi :: us'),vs'',by simp,lexes₅,.list k pipe rest⟩
      · rw [if_neg more]
        exact ⟨us ++ List.replicate k (.sym .amp),vs',by simp,lexes₃,.line k pipe⟩
    · rw [parsepipe]
      refine post_call (ihExec s ts lexes) (fun short => by omega) fun c₁ s₁ parsed => ?_
      obtain ⟨us,vs,rfl,lexes₁,item⟩ := parsed
      refine post_peek lexes₁ (by decide) fun s₂ lexes₂ => ?_
      by_cases more : heads [124] vs = true
      · rw [if_pos more]
        obtain ⟨ws,rfl⟩ := heads_single (y := .bar) more (by decide)
        refine post_gettoken nul lexes₂ fun tok s₃ got => ?_
        refine post_call (ihPipe s₃ ws got.2.2) (fun short => by simp only [List.length_append,List.length_cons]; omega)
          fun c₂ s₄ parsed => ?_
        obtain ⟨us',vs',rfl,lexes₄,rest⟩ := parsed
        exact ⟨us ++ .sym .bar :: us',vs',by simp,lexes₄,.pipe item rest⟩
      · rw [if_neg more]
        exact ⟨us,vs,rfl,lexes₂,.one item⟩
    · rw [parseexec]
      refine post_peek lexes (by decide) fun s₁ lexes₁ => ?_
      by_cases block : heads [40] ts = true
      · rw [if_pos block]
        exact post_mono (ihBlock s₁ ts lexes₁) (fun _ _ => id) (Fails.mono fun short => by omega)
      · rw [if_neg block]
        refine post_call (parseredirs_sound nul n lexes₁) (fun short => by omega) fun c₁ s₂ parsed => ?_
        obtain ⟨us,vs,rs,rfl,lexes₂,redirs,rfl⟩ := parsed
        refine post_mono (@parseexec_from_sound _ nul n _ _ [] rs lexes₂ (by decide)) (fun c₂ s₃ parsed => ?_)
          (Fails.mono fun short => by simp only [List.length_append]; omega)
        obtain ⟨us',vs',ws,rs',rfl,lexes₃,args,few,rfl⟩ := parsed
        exact ⟨us ++ us',vs',by simp,lexes₃,.exec redirs args few⟩
    · rw [parseblock]
      refine post_peek lexes (by decide) fun s₁ lexes₁ => ?_
      by_cases block : heads [40] ts = true
      · rw [if_pos block]
        obtain ⟨ws,rfl⟩ := heads_single (y := .lparen) block (by decide)
        refine post_gettoken nul lexes₁ fun tok s₂ got => ?_
        refine post_call (ihLine s₂ ws got.2.2) (fun short => by simp only [List.length_cons]; omega) fun c₁ s₃ parsed => ?_
        obtain ⟨us,vs,rfl,lexes₃,inner⟩ := parsed
        refine post_peek lexes₃ (by decide) fun s₄ lexes₄ => ?_
        by_cases close : heads [41] vs = true
        · rw [if_pos close]
          obtain ⟨vs',rfl⟩ := heads_single (y := .rparen) close (by decide)
          refine post_gettoken nul lexes₄ fun tok s₅ got => ?_
          refine post_mono (parseredirs_sound nul n got.2.2) (fun c₂ s₆ parsed => ?_)
            (Fails.mono fun short => by simp only [List.length_append,List.length_cons]; omega)
          obtain ⟨us',vs'',rs,rfl,lexes₆,redirs,rfl⟩ := parsed
          exact ⟨.sym .lparen :: (us ++ .sym .rparen :: us'),vs'',by simp,lexes₆,.block inner redirs⟩
        · rw [if_neg close]
          trivial
      · rw [if_neg block]
        trivial

/-! ### Completeness -/

/-- What may follow a command of each kind. -/
def follow : Nonterm → List UInt8
  | .line => [41]
  | .pipe => [41,38,59]
  | .item => [124,41,38,59]

def Follows (k : Nonterm) (vs : List (Token Span)) : Prop := vs = [] ∨ heads (follow k) vs = true

theorem heads_mono {toks toks' : List UInt8} (sub : toks ⊆ toks') (yes : heads toks vs = true) : heads toks' vs = true := by
  obtain ⟨x,us,rfl,member⟩ := heads_cons yes
  simpa [heads] using sub member

theorem Follows.not_heads {k : Nonterm} {toks : List UInt8} (follows : Follows k vs)
    (other : toks.any (follow k).contains = false) : heads toks vs = false := by
  rcases follows with rfl | yes
  · rfl
  · obtain ⟨x,us,rfl,member⟩ := heads_cons yes
    have none' : ∀ c ∈ toks, c ∉ follow k := by simpa using other
    simpa [heads] using fun clash => none' _ clash member

theorem Follows.item {k : Nonterm} (follows : Follows k vs) : Follows .item vs := by
  refine follows.imp id (heads_mono ?_)
  cases k <;> decide

theorem parseredirs_complete (nul : (0 : UInt8) ∉ line) {rs : List (Redirection Span)} (redirs : Redirs us rs)
    (stop : heads [60,62] vs = false) : ∀ {n s c}, us.length < n → Lexes line s (us ++ vs) →
      post (parseredirs line n c) (fun c' s' => c' = nest c rs ∧ Lexes line s' vs) (fun _ => False) s := by
  induction redirs with
  | nil =>
    intro n s c enough lexes
    obtain ⟨n,rfl⟩ : ∃ k, n = k + 1 := ⟨n - 1,by omega⟩
    rw [parseredirs]
    refine post_peek lexes (by decide) fun s₁ lexes₁ => ?_
    rw [List.nil_append,stop,if_neg (by decide)]
    exact ⟨rfl,lexes₁⟩
  | @cons x w r ts rs redir rest ih =>
    intro n s c enough lexes
    simp only [List.length_cons] at enough
    obtain ⟨n,rfl⟩ : ∃ k, n = k + 1 := ⟨n - 1,by omega⟩
    rw [parseredirs]
    refine post_peek lexes (by decide) fun s₁ lexes₁ => ?_
    have angle : heads [60,62] (.sym x :: .word w :: ts ++ vs) = true := by cases redir <;> rfl
    rw [angle,if_pos rfl]
    refine post_gettoken nul lexes₁ fun tok s₂ got => ?_
    obtain ⟨kind,_,lexes₂⟩ := got
    refine post_gettoken nul lexes₂ fun word s₃ got => ?_
    obtain ⟨kind',here,lexes₃⟩ := got
    have same : redircmd tok.1 c word.2 = nest c [r] := by
      rw [kind,here w rfl]
      cases redir <;> rfl
    rw [if_neg (by rw [kind']; exact not_not.mpr rfl),same]
    exact ih (by omega) lexes₃

theorem Args.not_heads {ws : List Span} {rs : List (Redirection Span)} (args : Args us ws rs) (follows : Follows .item vs)
    {toks : List UInt8} (other : toks.any (follow .item).contains = false) : heads toks (us ++ vs) = false := by
  cases args with
  | nil => exact follows.not_heads other
  | cons => rfl

theorem parseexec_from_complete (nul : (0 : UInt8) ∉ line) {ws' : List Span} {rs' : List (Redirection Span)} (args : Args us ws' rs')
    (follows : Follows .item vs) : ∀ {n s ws rs}, us.length < n → (ws ++ ws').length < MAXARGS → Lexes line s (us ++ vs) →
      post (parseexec_from line n ws.length (nest (.exec ws) rs))
        (fun c' s' => c' = nest (.exec (ws ++ ws')) (rs ++ rs') ∧ Lexes line s' vs) (fun _ => False) s := by
  induction args with
  | nil =>
    intro n s ws rs enough few lexes
    rw [List.append_nil] at few
    obtain ⟨n,rfl⟩ : ∃ k, n = k + 1 := ⟨n - 1,by omega⟩
    have done {s' : Nat} (lexes' : Lexes line s' vs) : post (argIndex ws.length >>= fun _ => pure (nest (.exec ws) rs))
        (fun c' s' => c' = nest (.exec (ws ++ [])) (rs ++ []) ∧ Lexes line s' vs) (fun _ => False) s' := by
      rw [post_bind,List.append_nil,List.append_nil]
      refine post_use (argIndex_spec few) fun _ s₂ same => ?_
      rw [same]
      exact ⟨rfl,lexes'⟩
    rw [parseexec_from]
    refine post_peek lexes (by decide) fun s₁ lexes₁ => ?_
    rw [List.nil_append] at lexes₁ ⊢
    rcases follows with rfl | yes
    · rw [if_neg (by decide),post_bind]
      refine post_use (gettoken_end lexes₁) fun tok s₂ got => ?_
      rw [if_pos got.1]
      exact done got.2
    · rw [if_pos (show heads [124,41,38,59] vs = true from yes)]
      exact done lexes₁
  | @cons w ts rs₁ us' ws'' rs₂ redirs rest ih =>
    intro n s ws rs enough few lexes
    simp only [List.length_cons,List.length_append] at enough few
    obtain ⟨n,rfl⟩ : ∃ k, n = k + 1 := ⟨n - 1,by omega⟩
    rw [List.cons_append,List.append_assoc] at lexes
    rw [parseexec_from]
    refine post_peek lexes (by decide) fun s₁ lexes₁ => ?_
    rw [show heads [124,41,38,59] (Token.word w :: (ts ++ (us' ++ vs))) = false from rfl,if_neg (by decide)]
    refine post_gettoken nul lexes₁ fun tok s₂ got => ?_
    obtain ⟨kind,here,lexes₂⟩ := got
    rw [if_neg (by rw [kind]; exact Token.kind_ne_zero _),if_neg (by rw [kind]; exact not_not.mpr rfl),here w rfl,post_bind]
    refine post_use (argIndex_spec (by omega)) fun _ s₃ same => ?_
    rw [same,setArg_nest,if_neg (by omega),post_bind]
    refine post_use (parseredirs_complete nul redirs (rest.not_heads follows (by decide)) (by omega) lexes₂) fun c' s₄ parsed => ?_
    obtain ⟨rfl,lexes₄⟩ := parsed
    have next := @ih n _ (ws ++ [w]) (rs ++ rs₁) (by omega)
      (by simp only [List.length_append,List.length_singleton]; omega) lexes₄
    rw [show (ws ++ [w]).length = ws.length + 1 by simp] at next
    rw [← nest_append]
    refine post_use next fun c' s' parsed => ?_
    simpa using parsed

theorem parseline_from_complete (nul : (0 : UInt8) ∉ line) (k : Nat) (stop : heads [38] vs = false) : ∀ {n s c}, k < n →
    Lexes line s (List.replicate k (.sym .amp) ++ vs) →
      post (parseline_from line n c) (fun c' s' => c' = Cmd.back^[k] c ∧ Lexes line s' vs) (fun _ => False) s := by
  induction k with
  | zero =>
    intro n s c enough lexes
    obtain ⟨n,rfl⟩ : ∃ k, n = k + 1 := ⟨n - 1,by omega⟩
    rw [parseline_from]
    refine post_peek lexes (by decide) fun s₁ lexes₁ => ?_
    rw [show List.replicate 0 (Token.sym (α := Span) .amp) ++ vs = vs from rfl] at lexes₁ ⊢
    rw [stop,if_neg (by decide)]
    exact ⟨rfl,lexes₁⟩
  | succ k ih =>
    intro n s c enough lexes
    obtain ⟨n,rfl⟩ : ∃ k, n = k + 1 := ⟨n - 1,by omega⟩
    rw [parseline_from]
    refine post_peek lexes (by decide) fun s₁ lexes₁ => ?_
    rw [List.replicate_succ,List.cons_append] at lexes₁ ⊢
    rw [show heads [38] (Token.sym .amp :: (List.replicate k (Token.sym (α := Span) .amp) ++ vs)) = true from rfl,if_pos rfl]
    refine post_gettoken nul lexes₁ fun tok s₂ got => ?_
    exact ih (by omega) got.2.2

/-- The part of the parser for a kind of command. -/
def parse (line : List UInt8) : Nonterm → Nat → Parser (Cmd Span)
  | .line => parseline line
  | .pipe => parsepipe line
  | .item => parseexec line

/-- The number of calls that suffice. -/
def calls (k : Nonterm) (us : List (Token Span)) : Nat :=
  4 * us.length + match k with
    | .line => 4
    | .pipe => 3
    | .item => 2

theorem parse_complete (nul : (0 : UInt8) ∉ line) {k : Nonterm} (derives : Derives k us c) : ∀ {vs n s}, Follows k vs →
    calls k us ≤ n → Lexes line s (us ++ vs) →
      post (parse line k n) (fun c' s' => c' = c ∧ Lexes line s' vs) (fun _ => False) s := by
  induction derives with
  | @line ts c k pipe ih =>
    intro vs n s follows enough lexes
    simp only [calls,List.length_append,List.length_replicate] at enough
    obtain ⟨n,rfl⟩ : ∃ k, n = k + 1 := ⟨n - 1,by omega⟩
    rw [List.append_assoc] at lexes
    change post (parseline line (n + 1)) _ _ _
    rw [parseline,post_bind]
    have follows' : Follows .pipe (List.replicate k (.sym .amp) ++ vs) := by
      cases k with
      | zero => exact follows.imp id (heads_mono (by decide))
      | succ k => exact .inr rfl
    refine post_use (ih follows' (by simp only [calls]; omega) lexes) fun c' s₁ parsed => ?_
    obtain ⟨rfl,lexes₁⟩ := parsed
    rw [post_bind]
    refine post_use (parseline_from_complete nul k (follows.not_heads (by decide)) (by omega) lexes₁) fun c'' s₂ parsed => ?_
    obtain ⟨rfl,lexes₂⟩ := parsed
    refine post_peek lexes₂ (by decide) fun s₃ lexes₃ => ?_
    rw [follows.not_heads (by decide),if_neg (by decide)]
    exact ⟨rfl,lexes₃⟩
  | @list ts c us d k pipe rest ih ih' =>
    intro vs n s follows enough lexes
    simp only [calls,List.length_append,List.length_replicate,List.length_cons] at enough
    obtain ⟨n,rfl⟩ : ∃ k, n = k + 1 := ⟨n - 1,by omega⟩
    rw [List.append_assoc,List.append_assoc,List.cons_append] at lexes
    change post (parseline line (n + 1)) _ _ _
    rw [parseline,post_bind]
    have follows' : Follows .pipe (List.replicate k (.sym .amp) ++ .sym .semi :: (us ++ vs)) := by
      cases k with
      | zero | succ k => exact .inr rfl
    refine post_use (ih follows' (by simp only [calls]; omega) lexes) fun c' s₁ parsed => ?_
    obtain ⟨rfl,lexes₁⟩ := parsed
    rw [post_bind]
    refine post_use (parseline_from_complete nul k rfl (by omega) lexes₁) fun c'' s₂ parsed => ?_
    obtain ⟨rfl,lexes₂⟩ := parsed
    refine post_peek lexes₂ (by decide) fun s₃ lexes₃ => ?_
    rw [show heads [59] (Token.sym .semi :: (us ++ vs)) = true from rfl,if_pos rfl]
    refine post_gettoken nul lexes₃ fun tok s₄ got => ?_
    rw [post_bind]
    refine post_use (ih' follows (by simp only [calls]; omega) got.2.2) fun c₃ s₅ parsed => ?_
    obtain ⟨rfl,lexes₅⟩ := parsed
    exact ⟨rfl,lexes₅⟩
  | @one ts c item ih =>
    intro vs n s follows enough lexes
    simp only [calls] at enough
    obtain ⟨n,rfl⟩ : ∃ k, n = k + 1 := ⟨n - 1,by omega⟩
    change post (parsepipe line (n + 1)) _ _ _
    rw [parsepipe,post_bind]
    refine post_use (ih follows.item (by simp only [calls]; omega) lexes) fun c' s₁ parsed => ?_
    obtain ⟨rfl,lexes₁⟩ := parsed
    refine post_peek lexes₁ (by decide) fun s₂ lexes₂ => ?_
    rw [follows.not_heads (by decide),if_neg (by decide)]
    exact ⟨rfl,lexes₂⟩
  | @pipe ts c us d item rest ih ih' =>
    intro vs n s follows enough lexes
    simp only [calls,List.length_append,List.length_cons] at enough
    obtain ⟨n,rfl⟩ : ∃ k, n = k + 1 := ⟨n - 1,by omega⟩
    rw [List.append_assoc,List.cons_append] at lexes
    change post (parsepipe line (n + 1)) _ _ _
    rw [parsepipe,post_bind]
    refine post_use (@ih (.sym .bar :: (us ++ vs)) _ _ (.inr rfl) (by simp only [calls]; omega) lexes) fun c' s₁ parsed => ?_
    obtain ⟨rfl,lexes₁⟩ := parsed
    refine post_peek lexes₁ (by decide) fun s₂ lexes₂ => ?_
    rw [show heads [124] (Token.sym .bar :: (us ++ vs)) = true from rfl,if_pos rfl]
    refine post_gettoken nul lexes₂ fun tok s₃ got => ?_
    rw [post_bind]
    refine post_use (ih' follows (by simp only [calls]; omega) got.2.2) fun c₃ s₄ parsed => ?_
    obtain ⟨rfl,lexes₄⟩ := parsed
    exact ⟨rfl,lexes₄⟩
  | @block ts c us rs inner redirs ih =>
    intro vs n s follows enough lexes
    simp only [calls,List.length_append,List.length_cons] at enough
    obtain ⟨n,rfl⟩ : ∃ k, n = k + 2 := ⟨n - 2,by omega⟩
    rw [List.cons_append,List.append_assoc,List.cons_append] at lexes
    change post (parseexec line (n + 2)) _ _ _
    rw [parseexec]
    refine post_peek lexes (by decide) fun s₁ lexes₁ => ?_
    rw [show heads [40] (Token.sym .lparen :: (ts ++ Token.sym .rparen :: (us ++ vs))) = true from rfl,if_pos rfl,parseblock]
    refine post_peek lexes₁ (by decide) fun s₂ lexes₂ => ?_
    rw [show heads [40] (Token.sym .lparen :: (ts ++ Token.sym .rparen :: (us ++ vs))) = true from rfl,if_pos rfl]
    refine post_gettoken nul lexes₂ fun tok s₃ got => ?_
    rw [post_bind]
    refine post_use (@ih (.sym .rparen :: (us ++ vs)) _ _ (.inr rfl) (by simp only [calls]; omega) got.2.2) fun c' s₄ parsed => ?_
    obtain ⟨rfl,lexes₄⟩ := parsed
    refine post_peek lexes₄ (by decide) fun s₅ lexes₅ => ?_
    rw [show heads [41] (Token.sym .rparen :: (us ++ vs)) = true from rfl,if_pos rfl]
    refine post_gettoken nul lexes₅ fun tok s₆ got => ?_
    exact parseredirs_complete nul redirs (follows.not_heads (by decide)) (by omega) got.2.2
  | @exec ts rs us ws rs' redirs args few =>
    intro vs n s follows enough lexes
    simp only [calls,List.length_append] at enough
    obtain ⟨n,rfl⟩ : ∃ k, n = k + 1 := ⟨n - 1,by omega⟩
    rw [List.append_assoc] at lexes
    change post (parseexec line (n + 1)) _ _ _
    rw [parseexec]
    refine post_peek lexes (by decide) fun s₁ lexes₁ => ?_
    have simple : heads [40] (ts ++ (us ++ vs)) = false := by
      cases redirs with
      | nil => exact args.not_heads follows (by decide)
      | @cons x _ _ _ _ redir => cases redir <;> rfl
    rw [simple,if_neg (by decide),post_bind]
    refine post_use (parseredirs_complete nul redirs (args.not_heads follows (by decide)) (by omega) lexes₁) fun c' s₂ parsed => ?_
    obtain ⟨rfl,lexes₂⟩ := parsed
    exact @parseexec_from_complete _ _ _ nul _ _ args follows _ _ [] _ (by omega) few lexes₂

end Xv6.Sh
