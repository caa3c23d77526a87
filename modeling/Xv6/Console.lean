import Xv6.Lib.Monitor
import Xv6.Lib.Slice

/-!
The console's input. `consoleintr` puts characters into a circular buffer and lets the line be edited up to the last
commit; `consoleread` takes committed bytes out of it.
-/
namespace Xv6.Console
open Xv6.Lib Function

/-- `INPUT_BUF` -/
def INPUT_BUF : Nat := 128

/-- `struct { ... } input` -/
structure Input where
  buf : Nat → UInt8
  /-- Read index -/
  r : UInt32
  /-- Write index -/
  w : UInt32
  /-- Edit index -/
  e : UInt32

/-- Control-x -/
def C (x : Char) : Nat := x.toNat - '@'.toNat

/-- The byte of control-D, as it is in the buffer. -/
def EOF : UInt8 := 4

/-- The character before the edit index. -/
def Input.last (s : Input) : UInt8 := s.buf ((s.e - 1).toNat % INPUT_BUF)

/-- The loop that kills a line; each turn takes a character. -/
def killLine : Nat → Input → Input
  | 0,s => s
  | n + 1,s => if s.e ≠ s.w ∧ s.last ≠ 10 then killLine n { s with e := s.e - 1 } else s

/-- One character of `consoleintr`; the flag says that it commits the input and wakes the readers. -/
def consoleintr (c : Nat) (s : Input) : Input × Bool :=
  if c = C 'P' then (s,false)  -- the process listing comes later
  else if c = C 'U' then (killLine (s.e - s.w).toNat s,false)
  else if c = C 'H' ∨ c = 0x7f then (if s.e ≠ s.w then { s with e := s.e - 1 } else s,false)
  else if c ≠ 0 ∧ (s.e - s.r).toNat < INPUT_BUF then
    let c := if c = 13 then 10 else c
    let s := { s with buf := update s.buf (s.e.toNat % INPUT_BUF) (UInt8.ofNat c), e := s.e + 1 }
    if c = 10 ∨ c = C 'D' ∨ s.e = s.r + 128 then ({ s with w := s.e },true) else (s,false)
  else (s,false)

/-- A call of `consoleread`: the bytes that it has copied, whether it has consumed a control-D, and its result. -/
structure Read where
  dst : List UInt8
  eof : Bool
  result : Option Int
  deriving DecidableEq

/-- Where a process, or an interrupt handler, is. -/
inductive Point where
  | idle
  /-- `consoleintr`, with the characters that `getc` will give -/
  | intr (cs : List Nat)
  /-- `consoleintr`, before `wakeup` -/
  | wake (cs : List Nat)
  /-- `consoleread`, after `acquire` -/
  | start (n : Nat)
  /-- `consoleread`, at the test of its loop; a negative `n` counts as 0 -/
  | read (n target : Nat) (dst : List UInt8)
  /-- `consoleread`, before the last `release` -/
  | leave
  deriving DecidableEq

variable {ι : Type}

/-- The input and its history: the bytes committed, the bytes taken with their readers, and the calls of each reader. -/
structure Data (ι : Type) where
  input : Input
  committed : List UInt8
  taken : List (ι × UInt8)
  calls : ι → List Read

variable [DecidableEq ι]

/-- The calls of a process with the last one changed. -/
def inLast (f : Read → Read) : List Read → List Read
  | [] => []
  | [x] => [f x]
  | x :: xs => x :: inLast f xs

/-- Process `p` starts a call. -/
def Data.call (s : Data ι) (p : ι) : Data ι := { s with calls := update s.calls p (s.calls p ++ [⟨[],false,none⟩]) }

/-- The present call of process `p` goes on. -/
def Data.inCall (s : Data ι) (p : ι) (f : Read → Read) : Data ι := { s with calls := update s.calls p (inLast f (s.calls p)) }

/-- The character at the read index. -/
def Input.front (s : Input) : UInt8 := s.buf (s.r.toNat % INPUT_BUF)

/-- Process `p` takes a byte out of the buffer. -/
def Data.take (s : Data ι) (p : ι) : Data ι :=
  { s with input := { s.input with r := s.input.r + 1 }, taken := s.taken ++ [(p,s.input.front)] }

/-- One character is processed, and what it commits is recorded. -/
def Data.intr (s : Data ι) (c : Nat) : Data ι :=
  let next := consoleintr c s.input
  { s with input := next.1, committed := s.committed ++ slice INPUT_BUF next.1.buf s.input.w next.1.w }

/-- What process `p` does next with `cons.lock`. -/
def act (p : ι) (killed : Bool) (k : Point) (s : Data ι) : Act Unit (Data ι) Point :=
  match k with
  | .intr [] => .release .idle
  | .intr (c :: cs) => .go (s.intr c) (if (consoleintr c s.input).2 then .wake cs else .intr cs)
  | .wake cs => .wakeup () (.intr cs)
  | .start n => .go (s.call p) (.read n n [])
  | .read n target dst =>
    if n = 0 then .go (s.inCall p fun x => { x with result := some (target - n) }) .leave
    else if s.input.r = s.input.w then
      if killed then .go (s.inCall p fun x => { x with result := some (-1) }) .leave
      else .sleep () (.read n target dst)
    else
      let c := s.input.front
      if c = EOF then
        -- Save ^D for next time, to make sure caller gets a 0-byte result.
        if n < target then .go (s.inCall p fun x => { x with result := some (target - n) }) .leave
        else .go ((s.take p).inCall p fun x => { x with eof := true, result := some (target - n) }) .leave
      else if c = 10 then
        .go ((s.take p).inCall p fun x => { x with dst := x.dst ++ [c], result := some (target - (n - 1 : Nat)) }) .leave
      else .go ((s.take p).inCall p fun x => { x with dst := x.dst ++ [c] }) (.read (n - 1) target (dst ++ [c]))
  | .leave => .release .idle
  | .idle => .release .idle

/-- The sections of `cons.lock`. -/
def enter : Point → Point → Prop
  | .idle,.intr _ => True
  | .idle,.start _ => True
  | _,_ => False

/-- The console as a monitor; `&input.r` is its only channel. -/
def console (ι : Type) [DecidableEq ι] : Monitor ι Unit (Data ι) Point where
  act := act
  enter _ := enter
  outside _ _ _ _ _ := False

/-- Before the first character, with the indices anywhere. -/
def initial (buf : Nat → UInt8) (i : UInt32) : World ι Unit (Data ι) Point where
  data := ⟨⟨buf,i,i,i⟩,[],[],fun _ => []⟩
  lock := none
  ptable := none
  place _ := .out .idle
  killed _ := false

/-- The worlds that any interleaving of reads and interrupts reaches. -/
abbrev Reached (buf : Nat → UInt8) (i : UInt32) (w : World ι Unit (Data ι) Point) : Prop :=
  Run (console ι) (fun _ _ => True) (initial buf i) w

/-! ### One character -/

theorem divides : INPUT_BUF ∣ 2 ^ 32 := by decide

/-- The unread bytes: those that are committed. -/
def Input.ready (s : Input) : List UInt8 := slice INPUT_BUF s.buf s.r s.w

/-- The indices are in order, and the buffer is not overrun. -/
structure Input.Ok (s : Input) : Prop where
  order : (s.w - s.r).toNat ≤ (s.e - s.r).toNat
  bound : (s.e - s.r).toNat ≤ INPUT_BUF

/-- What a character does: it takes back uncommitted ones, it is stored, or it is stored and commits the line. -/
inductive Typed (s : Input) : Input × Bool → Prop where
  | edit (e : UInt32) (less : (e - s.w).toNat ≤ (s.e - s.w).toNat) : Typed s ({ s with e := e },false)
  | store (b : UInt8) (room : (s.e - s.r).toNat < INPUT_BUF) :
    Typed s ({ s with buf := update s.buf (s.e.toNat % INPUT_BUF) b, e := s.e + 1 },false)
  | commit (b : UInt8) (room : (s.e - s.r).toNat < INPUT_BUF) :
    Typed s ({ s with buf := update s.buf (s.e.toNat % INPUT_BUF) b, e := s.e + 1, w := s.e + 1 },true)

theorem killLine_edits (n : Nat) (s : Input) :
    ∃ e, killLine n s = { s with e := e } ∧ (e - s.w).toNat ≤ (s.e - s.w).toNat := by
  induction n generalizing s with
  | zero => exact ⟨s.e,rfl,le_refl _⟩
  | succ n ih =>
    rw [killLine]
    split
    · next more =>
      obtain ⟨e,same,less⟩ := ih { s with e := s.e - 1 }
      have step := distance_pop (a := s.w) (b := s.e) (Ne.symm more.1)
      dsimp only at less
      exact ⟨e,same,by omega⟩
    · exact ⟨s.e,rfl,le_refl _⟩

theorem erases {c : Nat} (erase : c = C 'U' ∨ c = C 'H' ∨ c = 0x7f) (s : Input) :
    ∃ e, consoleintr c s = ({ s with e := e },false) ∧ (e - s.w).toNat ≤ (s.e - s.w).toNat := by
  have notP : c ≠ C 'P' := by
    rcases erase with rfl | rfl | rfl <;> decide
  unfold consoleintr
  rw [if_neg notP]
  by_cases line : c = C 'U'
  · obtain ⟨e,same,less⟩ := killLine_edits (s.e - s.w).toNat s
    exact ⟨e,by rw [if_pos line,same],less⟩
  · rw [if_neg line,if_pos (erase.resolve_left line)]
    split
    · next more =>
      have step := distance_pop (a := s.w) (b := s.e) (Ne.symm more)
      exact ⟨s.e - 1,rfl,by omega⟩
    · exact ⟨s.e,rfl,le_refl _⟩

theorem consoleintr_typed (c : Nat) (s : Input) : Typed s (consoleintr c s) := by
  have same : Typed s (s,false) := .edit s.e (le_refl _)
  by_cases erase : c = C 'U' ∨ c = C 'H' ∨ c = 0x7f
  · obtain ⟨e,typed,less⟩ := erases erase s
    rw [typed]
    exact .edit e less
  · rw [not_or] at erase
    unfold consoleintr
    rw [if_neg erase.1,if_neg erase.2]
    split
    · exact same
    · split
      · next room =>
        dsimp only
        generalize (if c = 13 then 10 else c) = c'
        split
        · exact .commit _ room.2
        · exact .store _ room.2
      · exact same

variable {s : Input}

theorem Typed.ok {x : Input × Bool} (typed : Typed s x) (ok : s.Ok) : x.1.Ok := by
  have order := ok.order
  have bound := ok.bound
  cases typed with
  | edit e less =>
    have here := distance_between order less
    have there := distance_add order
    constructor <;> dsimp only <;> omega
  | store b room | commit b room =>
    have more := distance_push (a := s.r) (b := s.e) (n := INPUT_BUF) (by decide) room
    constructor <;> dsimp only <;> omega

theorem Typed.ready {x : Input × Bool} (typed : Typed s x) (ok : s.Ok) :
    x.1.ready = s.ready ++ slice INPUT_BUF x.1.buf s.w x.1.w := by
  unfold Input.ready
  cases typed with
  | edit e less => simp
  | store b room =>
    rw [slice_self,List.append_nil]
    exact slice_update divides ok.order room b
  | commit b room =>
    have more := distance_push (a := s.r) (b := s.e) (n := INPUT_BUF) (by decide) room
    have order := ok.order
    dsimp only
    rw [slice_append divides (b := s.w) (by omega),slice_update divides order room b]

theorem ready_take (some' : s.r ≠ s.w) : s.ready = s.front :: ({ s with r := s.r + 1 } : Input).ready :=
  slice_cons divides some'

theorem Input.Ok.take (ok : s.Ok) (some' : s.r ≠ s.w) : ({ s with r := s.r + 1 } : Input).Ok := by
  have order := ok.order
  have bound := ok.bound
  have ready := distance_succ some'
  have ahead : s.r ≠ s.e := by
    intro same
    rw [← same,UInt32.sub_self] at order
    simp at order
    exact distance_ne_zero some' (by simp [order])
  have all := distance_succ ahead
  exact ⟨by show (s.w - (s.r + 1)).toNat ≤ (s.e - (s.r + 1)).toNat; omega,by show (s.e - (s.r + 1)).toNat ≤ _; omega⟩

/-! ### The history -/

/-- The bytes that a call has taken out of the buffer. -/
def Read.bytes (x : Read) : List UInt8 := if x.eof then x.dst ++ [EOF] else x.dst

/-- Data is never a control-D; who consumes one has got nothing else, and returns 0. -/
structure Read.Fair (x : Read) : Prop where
  data : EOF ∉ x.dst
  eof : x.eof = true → x.dst = [] ∧ x.result = some 0
  result : ∀ n, x.result = some n → n = -1 ∨ n = x.dst.length

/-- The last call of a process is the one it is in. -/
def Current (calls : List Read) : Point → Prop
  | .read n target dst => (∃ before, calls = before ++ [⟨dst,false,none⟩]) ∧ n + dst.length = target
  | _ => True

/-- The bytes that a process has taken. -/
def bytesOf (p : ι) (taken : List (ι × UInt8)) : List UInt8 := (taken.filter fun x => x.1 = p).map (·.2)

/-- What holds of the history at every moment. -/
structure Inv (s : Data ι) (point : ι → Point) : Prop where
  ok : s.input.Ok
  stream : s.committed = s.taken.map (·.2) ++ s.input.ready
  own : ∀ p, bytesOf p s.taken = (s.calls p).flatMap Read.bytes
  fair : ∀ p, ∀ x ∈ s.calls p, x.Fair
  current : ∀ p, Current (s.calls p) (point p)

theorem inLast_append (f : Read → Read) (before : List Read) (x : Read) : inLast f (before ++ [x]) = before ++ [f x] := by
  induction before with
  | nil => rfl
  | cons y before ih =>
    cases before with
    | nil => rfl
    | cons z before =>
      show y :: inLast f (z :: before ++ [x]) = _
      rw [ih]
      rfl

variable {point : ι → Point} {p : ι} {k : Point}

theorem current_update {calls : ι → List Read}
    (current : ∀ q, Current (calls q) (point q)) (mine : Current (calls p) k) (q : ι) : Current (calls q) (update point p k q) := by
  rcases eq_or_ne q p with rfl | other
  · rwa [update_self]
  · rw [update_of_ne other]
    exact current q

variable {s : Data ι}

theorem Inv.move (inv : Inv s point) (mine : Current (s.calls p) k) :
    Inv s (update point p k) := ⟨inv.ok,inv.stream,inv.own,inv.fair,current_update inv.current mine⟩

theorem Inv.intr (inv : Inv s point) (c : Nat)
    (mine : Current (s.calls p) k) : Inv (s.intr c) (update point p k) := by
  have typed := consoleintr_typed c s.input
  refine ⟨typed.ok inv.ok,?_,inv.own,inv.fair,current_update inv.current mine⟩
  show s.committed ++ _ = s.taken.map (·.2) ++ (consoleintr c s.input).1.ready
  rw [typed.ready inv.ok,inv.stream,List.append_assoc]

theorem Inv.call (inv : Inv s point) (n : Nat) :
    Inv (s.call p) (update point p (.read n n [])) := by
  refine ⟨inv.ok,inv.stream,fun q => ?_,fun q => ?_,fun q => ?_⟩
  · rw [show (s.call p).taken = s.taken from rfl,inv.own q]
    show _ = (update s.calls p _ q).flatMap _
    rcases eq_or_ne q p with rfl | other
    · simp [Read.bytes]
    · rw [update_of_ne other]
  · show ∀ x ∈ update s.calls p _ q,_
    rcases eq_or_ne q p with rfl | other
    · rw [update_self]
      intro x listed
      rcases List.mem_append.mp listed with before | new
      · exact inv.fair q x before
      · obtain rfl := List.mem_singleton.mp new
        exact ⟨by simp,by simp,by simp⟩
    · rw [update_of_ne other]
      exact inv.fair q
  · show Current (update s.calls p _ q) _
    rcases eq_or_ne q p with rfl | other
    · rw [update_self,update_self]
      exact ⟨⟨s.calls q,rfl⟩,by simp⟩
    · rw [update_of_ne other,update_of_ne other]
      exact inv.current q

variable {dst : List UInt8}

/-- The present call of a process goes on, with the bytes that it has taken now. -/
theorem Inv.inCall {s s' : Data ι} {n target : Nat} {f : Read → Read}
    (inv : Inv s point) (bytes : List UInt8) (here : point p = .read n target dst)
    (ok : s'.input.Ok) (stream : s'.taken.map (·.2) ++ s'.input.ready = s.taken.map (·.2) ++ s.input.ready)
    (committed : s'.committed = s.committed) (taken : s'.taken = s.taken ++ bytes.map (p,·)) (calls : s'.calls = s.calls)
    (same : (f ⟨dst,false,none⟩).bytes = dst ++ bytes) (fair : (⟨dst,false,none⟩ : Read).Fair → n + dst.length = target →
      (f ⟨dst,false,none⟩).Fair)
    (mine : ∀ before, n + dst.length = target → Current (before ++ [f ⟨dst,false,none⟩]) k) :
    Inv (s'.inCall p f) (update point p k) := by
  have current := inv.current p
  rw [here] at current
  obtain ⟨⟨before,last⟩,count⟩ := current
  have changed : inLast f (s'.calls p) = before ++ [f ⟨dst,false,none⟩] := by rw [calls,last,inLast_append]
  refine ⟨ok,by rw [show (s'.inCall p f).committed = s'.committed from rfl,committed,inv.stream]; exact stream.symm,
    fun q => ?_,fun q => ?_,fun q => ?_⟩
  · show bytesOf q s'.taken = (update s'.calls p _ q).flatMap _
    have own := inv.own q
    unfold bytesOf at own ⊢
    rw [taken,List.filter_append,List.map_append,own]
    rcases eq_or_ne q p with rfl | other
    · rw [update_self,changed,last]
      have all : (bytes.map (q,·)).filter (fun x => x.1 = q) = bytes.map (q,·) := by
        rw [List.filter_eq_self]
        simp
      rw [all,List.map_map]
      simp only [List.flatMap_append,List.flatMap_cons,List.flatMap_nil,List.append_nil,same,List.append_assoc]
      simp [Read.bytes,Function.comp_def]
    · rw [update_of_ne other,calls]
      have none' : (bytes.map (p,·)).filter (fun x => x.1 = q) = [] := by
        rw [List.filter_eq_nil_iff]
        simp [Ne.symm other]
      rw [none']
      simp
  · show ∀ x ∈ update s'.calls p _ q,_
    rcases eq_or_ne q p with rfl | other
    · rw [update_self,changed]
      intro x listed
      rcases List.mem_append.mp listed with old | new
      · exact inv.fair q x (by rw [last]; exact List.mem_append_left _ old)
      · obtain rfl := List.mem_singleton.mp new
        exact fair (inv.fair q _ (by rw [last]; simp)) count
    · rw [update_of_ne other,calls]
      exact inv.fair q
  · show Current (update s'.calls p _ q) _
    rcases eq_or_ne q p with rfl | other
    · rw [update_self,update_self,changed]
      exact mine before count
    · rw [update_of_ne other,update_of_ne other,calls]
      exact inv.current q

theorem Read.Fair.done {n target : Nat} (fair : (⟨dst,false,none⟩ : Read).Fair) (count : n + dst.length = target) :
    (⟨dst,false,some (target - n)⟩ : Read).Fair := by
  refine ⟨fair.data,by simp,fun r result => .inr ?_⟩
  obtain rfl := Option.some.inj result
  show (target : Int) - n = dst.length
  omega

theorem Read.Fair.more {c : UInt8} (fair : (⟨dst,false,none⟩ : Read).Fair) (data : c ≠ EOF) :
    (⟨dst ++ [c],false,none⟩ : Read).Fair :=
  ⟨by simpa [Ne.symm data] using fair.data,by simp,by simp⟩

omit [DecidableEq ι] in
theorem take_stream (s : Data ι) (p : ι) (some' : s.input.r ≠ s.input.w) :
    (s.take p).taken.map (·.2) ++ (s.take p).input.ready = s.taken.map (·.2) ++ s.input.ready := by
  rw [ready_take some']
  simp [Data.take]

theorem Reached.inv {buf : Nat → UInt8} {i : UInt32} {w : World ι Unit (Data ι) Point} (run : Reached buf i w) :
    Inv w.data w.point := by
  refine run.points ?_ (fun s point p k inv enters => ?_) (fun s point p killed x inv acts => ?_)
    fun s point p k s' inv does => False.elim does
  · exact ⟨⟨by simp [initial],by simp [initial]⟩,by simp [initial,Input.ready],fun _ => rfl,fun _ _ listed => (List.not_mem_nil listed).elim,
      fun _ => trivial⟩
  · refine inv.move ?_
    revert enters
    cases point p <;> cases k <;> simp [console,enter,Current]
  · subst acts
    have current := inv.current p
    simp only [console,act]
    cases here : point p with
    | intr cs =>
      cases cs with
      | nil => exact inv.move trivial
      | cons c cs =>
        refine inv.intr c ?_
        dsimp only
        split <;> trivial
    | start n => exact inv.call n
    | read n target dst =>
      rw [here] at current
      dsimp only
      split
      · exact inv.inCall [] here inv.ok rfl rfl (by simp) rfl (by simp [Read.bytes]) .done fun _ _ => trivial
      · split
        · split
          · refine inv.inCall [] here inv.ok rfl rfl (by simp) rfl (by simp [Read.bytes]) (fun fair _ => ?_)
              fun _ _ => trivial
            exact ⟨fair.data,by simp,fun r result => .inl (Option.some.inj result).symm⟩
          · exact inv.move current
        · next some' =>
          have ok := inv.ok.take some'
          have stream := take_stream s p some'
          split
          · next eof =>
            split
            · exact inv.inCall [] here inv.ok rfl rfl (by simp) rfl (by simp [Read.bytes]) .done fun _ _ => trivial
            · next all =>
              refine inv.inCall [EOF] here ok stream rfl (by simp [Data.take,eof]) rfl (by simp [Read.bytes])
                (fun fair count => ?_) fun _ _ => trivial
              have none' : dst.length = 0 := by omega
              refine ⟨fair.data,fun _ => ⟨List.length_eq_zero_iff.mp none',congrArg some ?_⟩,fair.done count |>.result⟩
              omega
          · next data =>
            split
            · refine inv.inCall [s.input.front] here ok stream rfl (by simp [Data.take]) rfl (by simp [Read.bytes])
                (fun fair count => ?_) fun _ _ => trivial
              exact (fair.more data).done (by simp; omega)
            · refine inv.inCall [s.input.front] here ok stream rfl (by simp [Data.take]) rfl (by simp [Read.bytes])
                (fun fair _ => fair.more data) fun before count => ⟨⟨before,rfl⟩,?_⟩
              simp
              omega
    | _ => exact inv.move trivial

/-! ### What readers get -/

/-- The bytes that were copied into the buffers of the readers, in order. -/
def Data.copied (s : Data ι) : List (ι × UInt8) := s.taken.filter fun x => x.2 ≠ EOF

theorem bytes_data {x : Read} (fair : x.Fair) : x.bytes.filter (· ≠ EOF) = x.dst := by
  have data : x.dst.filter (· ≠ EOF) = x.dst := by
    rw [List.filter_eq_self]
    intro b listed
    simp only [ne_eq,decide_eq_true_eq]
    rintro rfl
    exact fair.data listed
  unfold Read.bytes
  split
  · rw [List.filter_append,data]
    simp
  · exact data

theorem Inv.copied (inv : Inv s point) (p : ι) :
    bytesOf p s.copied = (s.calls p).flatMap Read.dst := by
  have own := congrArg (List.filter (· ≠ EOF)) (inv.own p)
  have fair := inv.fair p
  have left : bytesOf p s.copied = (bytesOf p s.taken).filter (· ≠ EOF) := by
    unfold bytesOf Data.copied
    rw [List.filter_map,List.filter_comm]
    rfl
  rw [left,own,List.filter_flatMap]
  exact List.flatMap_congr fun x listed => bytes_data (fair x listed)

/-- For any interleaving of interrupts with any characters and of reads of any lengths, and with indices that may wrap around:
    the indices are in order and the buffer is not overrun; erasing leaves what is committed alone; the bytes that reads have
    copied, followed by those that are ready, are the committed bytes without control-D, in this order, and those of a
    process are the bytes of its calls; a control-D is taken only by a call that has got no bytes, and that returns 0; and a
    call that meets one ends. -/
theorem console_discipline {buf : Nat → UInt8} {i : UInt32} {w : World ι Unit (Data ι) Point} (run : Reached buf i w) :
    let s := w.data.input
    (s.w - s.r).toNat ≤ (s.e - s.r).toNat ∧ (s.e - s.r).toNat ≤ INPUT_BUF ∧
    (∀ c, c = C 'U' ∨ c = C 'H' ∨ c = 0x7f → ∃ e, consoleintr c s = ({ s with e := e },false) ∧
      (s.w - s.r).toNat ≤ (e - s.r).toNat) ∧
    w.data.committed = w.data.taken.map (·.2) ++ slice INPUT_BUF s.buf s.r s.w ∧
    w.data.committed.filter (· ≠ EOF) = w.data.copied.map (·.2) ++ (slice INPUT_BUF s.buf s.r s.w).filter (· ≠ EOF) ∧
    (∀ p, bytesOf p w.data.copied = (w.data.calls p).flatMap Read.dst) ∧
    (∀ p, bytesOf p w.data.taken = (w.data.calls p).flatMap Read.bytes) ∧
    (∀ p, ∀ x ∈ w.data.calls p, EOF ∉ x.dst ∧ (x.eof = true → x.dst = [] ∧ x.result = some 0) ∧
      ∀ n, x.result = some n → n = -1 ∨ n = x.dst.length) ∧
    ∀ p n target dst, w.place p = .inside (.read n target dst) → n ≠ 0 → s.r ≠ s.w → s.front = EOF →
      ∃ s', (console ι).act p (w.killed p) (.read n target dst) w.data = .go s' .leave ∧ (dst ≠ [] → s'.input = s) := by
  intro s
  have inv := run.inv
  have stream : w.data.committed = w.data.taken.map (·.2) ++ slice INPUT_BUF s.buf s.r s.w := inv.stream
  refine ⟨inv.ok.order,inv.ok.bound,fun c erase => ?_,stream,?_,inv.copied,inv.own,fun p x listed => ?_,
    fun p n target dst here more some' eof => ?_⟩
  · obtain ⟨e,same,less⟩ := erases erase s
    refine ⟨e,same,?_⟩
    rw [distance_between inv.ok.order less]
    exact Nat.le_add_right _ _
  · rw [stream,List.filter_append,List.filter_map]
    rfl
  · have fair := inv.fair p x listed
    exact ⟨fair.data,fair.eof,fair.result⟩
  · have current := inv.current p
    rw [World.point,here] at current
    have count : n + dst.length = target := current.2
    simp only [console,act]
    rw [if_neg more,if_neg some',if_pos eof]
    by_cases less : n < target
    · rw [if_pos less]
      exact ⟨_,rfl,fun _ => rfl⟩
    · rw [if_neg less]
      refine ⟨_,rfl,fun bytes => absurd ?_ bytes⟩
      exact List.length_eq_zero_iff.mp (by omega)

instance (p : ι) (k k' : Point) : Decidable ((console ι).enter p k k') := by
  cases k <;> cases k' <;> simp only [console,enter] <;> infer_instance

/-- A line, a control-D and a killed character are typed while the indices wrap around; the line is read in two calls, and
    the third one gets the end of file. -/
theorem console_discipline_wraps : ∃ w : World (Fin 2) Unit (Data (Fin 2)) Point,
    w.data.calls 0 = [⟨[97],false,some 1⟩,⟨[10],false,some 1⟩,⟨[],true,some 0⟩] ∧
    w.data.committed.filter (· ≠ EOF) = w.data.copied.map (·.2) ++
      (slice INPUT_BUF w.data.input.buf w.data.input.r w.data.input.w).filter (· ≠ EOF) := by
  have runs : ((initial (fun _ => 0) (2 ^ 32 - 2)).follow (console (Fin 2))
      [.enter 0 .idle (.start 1),.go 0,.go 0,.go 0,.go 0,.go 0,
        .enter 1 .idle (.intr [97,98,8,13,4]),.go 1,.go 1,.go 1,.go 1,.go 1,.go 1,.go 1,.go 1,
        .go 0,.go 0,.go 0,.go 0,
        .enter 0 .idle (.start 8),.go 0,.go 0,.go 0,
        .enter 0 .idle (.start 8),.go 0,.go 0,.go 0]).map (fun w => w.data.calls 0) =
      some [⟨[97],false,some 1⟩,⟨[10],false,some 1⟩,⟨[],true,some 0⟩] := by decide +kernel
  obtain ⟨w,followed,calls⟩ := Option.map_eq_some_iff.mp runs
  have run : Reached (fun _ => 0) (2 ^ 32 - 2) w := Run.follow .start followed
  exact ⟨w,calls,(console_discipline run).2.2.2.2.1⟩

end Xv6.Console
