import Xv6.Lib.Seen
import Xv6.Dirs

/-!
Files as they are seen by a call that runs alone. A `World` has the inodes and the references to them, but not which
entries of the cache have been read, and it keeps account of the log writes.
-/
namespace Xv6
open Xv6.Lib Prog Function

/-! ### Log writes -/

/-- The blocks that calls have written to the log at most: those of some inodes, a number of blocks of files, and the
    bitmap or not. -/
@[ext] structure Notes where
  inodes : Finset Nat
  blocks : Nat
  bitmap : Bool
  deriving DecidableEq

instance : Zero Notes := ⟨⟨∅,0,false⟩⟩

instance : Add Notes := ⟨fun l m => ⟨l.inodes ∪ m.inodes,l.blocks + m.blocks,l.bitmap || m.bitmap⟩⟩

theorem Notes.add_zero (l : Notes) : l + 0 = l := Notes.ext (Finset.union_empty _) rfl (Bool.or_false _)

theorem Notes.add_assoc (l m k : Notes) : l + m + k = l + (m + k) :=
  Notes.ext (Finset.union_assoc ..) (Nat.add_assoc ..) (Bool.or_assoc ..)

/-- How many blocks of a file a range of `n` bytes at `off` touches. -/
def touched (off n : Nat) : Nat := ((Finset.range MAXFILE).filter fun bn => Touches off n bn).card

/-- The inode of an entry of the cache. -/
def Files.owner (a : Files) (ip : Slot) : Finset Nat := match a.slot ip with
  | some h => {h.inum}
  | none => ∅

/-- What an operation writes to the log at most. -/
def cost : {β : Type} → Op β → Files → Notes
  | _,.isetattr ip _ _ _,a => ⟨a.owner ip,0,false⟩
  | _,.ifree ip,a => ⟨a.owner ip,0,true⟩
  | _,.ialloc _,a => match freeInode (fun i => (a.node i).type = 0) (a.ninodes - 1) 1 with
    | some i => ⟨{i},0,false⟩
    | none => 0
  | _,.readi ip off n,a =>
    if (a.slot ip).any fun h => missing (a.hole h.inum) off n then ⟨∅,touched off n + 1,true⟩ else 0
  | _,.writei ip src off,a => if src = [] then 0 else ⟨a.owner ip,touched off src.length + 1,true⟩
  | _,_,_ => 0

/-- The files, with an account of the log writes. -/
abbrev noted (p : Pid) : Machine Op Wait (Files × Notes) := (files p).account cost

/-! ### Worlds -/

/-- An entry of the inode cache. Whether it has been read is only known of one that is fresh: it has been taken for the
    inode, and not locked since. -/
@[ext] structure Ref where
  inum : Nat
  ref : Nat
  lock : Option Pid
  fresh : Bool
  deriving DecidableEq

def Handle.toRef (h : Handle) (fresh : Bool) : Ref := ⟨h.inum,h.ref,h.lock,fresh⟩

/-- An entry of the cache is what the world says of it. -/
inductive Entry : Option Handle → Option Ref → Prop where
  | none : Entry none none
  | some (h : Handle) (fresh : Bool) (unread : fresh = true → h.valid = false) : Entry (some h) (some (h.toRef fresh))

structure World where
  ninodes : Nat
  node : Nat → Node
  held : Slot → Option Ref
  tables : Tables
  devsw : Fin NDEV → Driver
  notes : Notes
  /-- The inodes that may lack blocks below their size. -/
  holey : Nat → Prop
  /-- The inodes whose holes may be filled, without the copy on disk having the blocks. -/
  soft : Nat → Prop

/-- References are in order, and directories name inodes of the disk. -/
structure World.Ok (x : World) : Prop where
  used : ∀ ip r, x.held ip = some r → 0 < r.ref
  inside : ∀ ip r, x.held ip = some r → r.inum < x.ninodes
  unique : ∀ ip jp r q, x.held ip = some r → x.held jp = some q → r.inum = q.inum → ip = jp
  range : ∀ i < x.ninodes, (x.node i).type = T_DIR → ∀ k, (x.node i).live k → ((x.node i).entry k).inum.toNat < x.ninodes

/-- The files are those of the world. -/
structure Now (x : World) (s : Files × Notes) : Prop where
  ok : x.Ok
  ninodes : s.1.ninodes = x.ninodes
  node : s.1.node = x.node
  held : ∀ ip, Entry (s.1.slot ip) (x.held ip)
  tables : s.1.tables = x.tables
  devsw : s.1.devsw = x.devsw
  notes : s.2 = x.notes
  dry : ∀ i, ¬x.holey i → ∀ bn, s.1.hole i bn = false
  saved : ∀ i, ¬x.soft i → s.1.unsaved i = false
  typed : ∀ ip h, s.1.slot ip = some h → h.valid = true → (x.node h.inum).type ≠ 0
  loaded : ∀ ip h, s.1.slot ip = some h → h.lock ≠ none → h.valid = true

/-- What a call does to the world when it runs alone. -/
abbrev Runs {α : Type} (p : Pid) (c : Call α) (Q : α → World → Prop) (E : Stop Wait → Prop) (x : World) : Prop :=
  seen Now (noted p) c Q E x

def World.setNode (x : World) (i : Nat) (n : Node) : World := { x with node := update x.node i n }

def World.note (x : World) (l : Notes) : World := { x with notes := x.notes + l }

def World.setHeld (x : World) (ip : Slot) (r : Option Ref) : World := { x with held := update x.held ip r }

/-- One more reference to inode `i`; if it is the only one, it is fresh or not. -/
def World.hold (x : World) (ip : Slot) (i : Nat) (fresh : Bool) : World := x.setHeld ip (some (match x.held ip with
  | some r => { r with ref := r.ref + 1 }
  | none => ⟨i,1,none,fresh⟩))

/-- The reference that `iget` takes. -/
def World.take (x : World) (ip : Slot) (i : Nat) : World := x.hold ip i true

/-- One reference less. -/
def World.drop (x : World) (ip : Slot) : World :=
  x.setHeld ip ((x.held ip).bind fun r => if 1 < r.ref then some { r with ref := r.ref - 1 } else none)

def World.lock (x : World) (ip : Slot) (holder : Option Pid) : World :=
  x.setHeld ip ((x.held ip).map fun r => { r with lock := holder, fresh := false })

/-- The entry `ip` is the one for inode `i`: it has the inode already, or it is free and no other entry has it. -/
def World.Fits (x : World) (ip : Slot) (i : Nat) : Prop :=
  (∃ r, x.held ip = some r ∧ r.inum = i) ∨ x.held ip = none ∧ ∀ jp r, x.held jp = some r → r.inum ≠ i

section
variable {x y : World} {s : Files × Notes} {b : Files} {l : Notes} {ip jp : Slot} {r q : Ref} {h : Handle} {i : Nat} {p : Pid}
  {α β : Type} {Q : α → World → Prop} {E : Stop Wait → Prop}

theorem Now.slot (now : Now x (b,l)) (here : x.held ip = some r) :
    ∃ h fresh, b.slot ip = some h ∧ h.toRef fresh = r ∧ (fresh = true → h.valid = false) := by
  have entry : Entry (b.slot ip) (x.held ip) := now.held ip
  rw [here] at entry
  generalize b.slot ip = slot at entry
  cases entry with
  | some h fresh unread => exact ⟨h,fresh,rfl,rfl,unread⟩

theorem Now.free (now : Now x (b,l)) (none' : x.held ip = none) : b.slot ip = none := by
  have entry : Entry (b.slot ip) (x.held ip) := now.held ip
  rw [none'] at entry
  generalize b.slot ip = slot at entry ⊢
  cases entry
  rfl

theorem Now.here (now : Now x (b,l)) (slot : b.slot ip = some h) :
    ∃ fresh, x.held ip = some (h.toRef fresh) ∧ (fresh = true → h.valid = false) := by
  have entry : Entry (b.slot ip) (x.held ip) := now.held ip
  rw [slot] at entry
  generalize x.held ip = held at entry
  cases entry with
  | some _ fresh unread => exact ⟨fresh,rfl,unread⟩

theorem Now.unheld (now : Now x (b,l)) (slot : b.slot ip = none) : x.held ip = none := by
  cases here : x.held ip with
  | none => rfl
  | some r =>
    obtain ⟨h,_,slot',_⟩ := now.slot here
    rw [slot] at slot'
    cases slot'

/-! ### Single operations -/

variable {o : Op α}

theorem wp_noted {Q : α → Files × Notes → Prop} : wp (noted p) (call o) Q E s = match filesStep p s.1 o with
    | .ok (b,c) => Q b (c,s.2 + cost o s.1)
    | .error stop => E stop := by
  have step : (files p).step o s.1 = filesStep p s.1 o := rfl
  rw [wp_call,show s = (s.1,s.2) from rfl,account_step,step]
  cases filesStep p s.1 o <;> rfl

theorem wp_noted_ok {Q : α → Files × Notes → Prop} {a : α} {c : Files} (ran : filesStep p s.1 o = .ok (a,c)) :
    wp (noted p) (call o) Q E s = Q a (c,s.2 + cost o s.1) := by rw [wp_noted,ran]

theorem wp_noted_free {Q : α → Files × Notes → Prop} {a : α} {c : Files} (free : cost o b = 0)
    (ran : filesStep p b o = .ok (a,c)) : wp (noted p) (call o) Q E (b,l) = Q a (c,l) := by
  rw [wp_noted_ok ran,free,Notes.add_zero]

theorem runs_step
    (step : ∀ s, Now x s → ∃ a c y, filesStep p s.1 o = .ok (a,c) ∧ Now y (c,s.2 + cost o s.1) ∧ Q a y) : Runs p (call o) Q E x := by
  intro s now
  obtain ⟨a,c,y,ran,now',post⟩ := step s now
  rw [wp_noted_ok ran]
  exact ⟨y,now',post⟩

theorem runs_look {a : α} (ran : ∀ s, Now x s → filesStep p s.1 o = .ok (a,s.1)) (free : ∀ b, cost o b = 0)
    (next : Q a x) : Runs p (call o) Q E x :=
  runs_step fun s now => ⟨a,s.1,x,ran s now,by rwa [free,Notes.add_zero],next⟩

theorem runs_dev {Q : Nat → World → Prop} (here : x.held ip = some r) (next : Q ROOTDEV x) : Runs p (call (.dev ip)) Q E x := by
  refine runs_look (fun s now => ?_) (fun _ => rfl) next
  obtain ⟨h,fresh,slot,rfl,unread⟩ := now.slot here
  simp [filesStep,Files.handle,slot]

theorem Now.locked (now : Now x (b,l)) (here : x.held ip = some r) (locked : r.lock ≠ none) :
    ∃ h fresh, b.slot ip = some h ∧ h.toRef fresh = r ∧ h.valid = true ∧ (x.node r.inum).type ≠ 0 := by
  obtain ⟨h,fresh,slot,rfl,_⟩ := now.slot here
  have valid := now.loaded ip h slot locked
  exact ⟨h,fresh,slot,rfl,valid,now.typed ip h slot valid⟩

theorem runs_attr {Q : Attr → World → Prop} (here : x.held ip = some r) (locked : r.lock ≠ none)
    (next : Q (x.node r.inum).toAttr x) : Runs p (call (.attr ip)) Q E x := by
  refine runs_look (fun s now => ?_) (fun _ => rfl) next
  obtain ⟨h,fresh,slot,rfl,valid,_⟩ := now.locked here locked
  simp [filesStep,Files.loaded,Files.handle,slot,valid,now.node,Handle.toRef]

theorem runs_tables {f : Tables → Except String (α × Tables)} (done : ∀ a t, f x.tables = .ok (a,t) → Q a { x with tables := t })
    (failed : ∀ why, f x.tables = .error why → E (.panic why)) : Runs p (call (.tables f)) Q E x := by
  intro s now
  rw [wp_noted]
  simp only [filesStep,now.tables]
  cases ran : f x.tables with
  | error why => exact failed why ran
  | ok ends =>
    refine ⟨{ x with tables := ends.2 },?_,done ends.1 ends.2 ran⟩
    exact ⟨⟨now.ok.used,now.ok.inside,now.ok.unique,now.ok.range⟩,now.ninodes,now.node,now.held,rfl,now.devsw,
      (Notes.add_zero _).trans now.notes,now.dry,now.saved,now.typed,now.loaded⟩

/-! ### References -/

@[simp] theorem held_setHeld (x : World) (ip : Slot) (r : Option Ref) : (x.setHeld ip r).held ip = r := update_self ..

theorem held_setHeld_other (x : World) (r : Option Ref) (other : jp ≠ ip) : (x.setHeld ip r).held jp = x.held jp :=
  update_of_ne other ..

theorem hold_some (here : x.held ip = some r) (i : Nat) (fresh : Bool) :
    x.hold ip i fresh = x.setHeld ip (some { r with ref := r.ref + 1 }) := by
  rw [World.hold,here]

theorem hold_none (free : x.held ip = none) (i : Nat) (fresh : Bool) :
    x.hold ip i fresh = x.setHeld ip (some ⟨i,1,none,fresh⟩) := by
  rw [World.hold,free]

theorem take_some (here : x.held ip = some r) (i : Nat) : x.take ip i = x.setHeld ip (some { r with ref := r.ref + 1 }) :=
  hold_some here i true

theorem take_none (free : x.held ip = none) (i : Nat) : x.take ip i = x.setHeld ip (some ⟨i,1,none,true⟩) :=
  hold_none free i true

theorem drop_some (here : x.held ip = some r) :
    x.drop ip = x.setHeld ip (if 1 < r.ref then some { r with ref := r.ref - 1 } else none) := by
  rw [World.drop,here]
  rfl

theorem lock_some' (here : x.held ip = some r) (holder : Option Pid) :
    x.lock ip holder = x.setHeld ip (some { r with lock := holder, fresh := false }) := by
  rw [World.lock,here]
  rfl

theorem setHeld_self (here : x.held ip = some r) : x.setHeld ip (some r) = x := by
  rw [World.setHeld,← here,update_eq_self]

theorem setHeld_free (free : x.held ip = none) : x.setHeld ip none = x := by
  rw [World.setHeld,← free,update_eq_self]

theorem setHeld_setHeld (x : World) (ip : Slot) (r q : Option Ref) : (x.setHeld ip r).setHeld ip q = x.setHeld ip q := by
  simp [World.setHeld]

theorem setHeld_comm (other : jp ≠ ip) (x : World) (u v : Option Ref) :
    (x.setHeld jp u).setHeld ip v = (x.setHeld ip v).setHeld jp u :=
  congrArg (fun held => { x with held := held }) (update_comm other u v x.held)

theorem lock_setHeld_other (other : ip ≠ jp) (x : World) (u : Option Ref) (holder : Option Pid) :
    (x.setHeld jp u).lock ip holder = (x.lock ip holder).setHeld jp u := by
  rw [World.lock,held_setHeld_other _ _ other,World.lock,setHeld_comm other.symm]

theorem drop_setHeld_other (other : ip ≠ jp) (x : World) (u : Option Ref) : (x.setHeld jp u).drop ip = (x.drop ip).setHeld jp u := by
  rw [World.drop,held_setHeld_other _ _ other,World.drop,setHeld_comm other.symm]

theorem hold_drop (ok : x.Ok) (ip : Slot) (i : Nat) (fresh : Bool) : (x.hold ip i fresh).drop ip = x := by
  cases here : x.held ip with
  | none =>
    rw [hold_none here,drop_some (held_setHeld ..),if_neg (by show ¬1 < 1; omega),setHeld_setHeld,setHeld_free here]
  | some r =>
    have used := ok.used ip r here
    rw [hold_some here,drop_some (held_setHeld ..),if_pos (by show 1 < r.ref + 1; omega),setHeld_setHeld]
    exact setHeld_self here

theorem held_hold (here : x.held ip = some r) (jp : Slot) (j : Nat) (fresh : Bool) :
    ∃ n, r.ref ≤ n ∧ (x.hold jp j fresh).held ip = some { r with ref := n } := by
  rcases eq_or_ne ip jp with rfl | other
  · exact ⟨r.ref + 1,Nat.le_succ _,by rw [hold_some here,held_setHeld]⟩
  · exact ⟨r.ref,le_rfl,by rw [World.hold,held_setHeld_other _ _ other,here]⟩

theorem held_take (here : x.held ip = some r) (jp : Slot) (j : Nat) :
    ∃ n, r.ref ≤ n ∧ (x.take jp j).held ip = some { r with ref := n } := held_hold here jp j true

theorem World.Ok.setHeld (ok : x.Ok) {r' : Option Ref} (used : ∀ r, r' = some r → 0 < r.ref ∧ r.inum < x.ninodes)
    (unique : ∀ r, r' = some r → ∀ jp q, jp ≠ ip → x.held jp = some q → r.inum ≠ q.inum) : (x.setHeld ip r').Ok where
  used := (forall_update_iff x.held fun _ q => ∀ r, q = some r → 0 < r.ref).mpr ⟨fun r same => (used r same).1,fun jp _ => ok.used jp⟩
  inside := (forall_update_iff x.held fun _ q => ∀ r, q = some r → r.inum < x.ninodes).mpr
    ⟨fun r same => (used r same).2,fun jp _ => ok.inside jp⟩
  unique jp kp q o there there' same :=
    once_update (f := x.held) (C := fun x y => ∃ q o, x = some q ∧ y = some o ∧ q.inum = o.inum)
      (fun _ _ ⟨q,o,there,there',same⟩ => ⟨o,q,there',there,same.symm⟩)
      (fun jp kp ⟨q,o,there,there',same⟩ => ok.unique jp kp q o there there' same)
      (fun jp other ⟨q,o,there,there',same⟩ => unique o there' jp q other there same.symm) jp kp ⟨q,o,there,there',same⟩
  range := ok.range

theorem World.Ok.touch (ok : x.Ok) (here : x.held ip = some r) {n : Nat} (positive : 0 < n) (holder : Option Pid) (fresh : Bool) :
    (x.setHeld ip (some ⟨r.inum,n,holder,fresh⟩)).Ok := by
  refine ok.setHeld (fun q same => ?_) fun q same jp o other there => ?_
  · cases same
    exact ⟨positive,ok.inside ip r here⟩
  · cases same
    exact fun same => other (ok.unique jp ip o r there here same.symm)

theorem World.Ok.clear (ok : x.Ok) (ip : Slot) : (x.setHeld ip none).Ok :=
  ok.setHeld (fun _ same => nomatch same) fun _ same => nomatch same

theorem World.Ok.take (ok : x.Ok) (fits : x.Fits ip i) (inside : i < x.ninodes) : (x.take ip i).Ok := by
  rcases fits with ⟨r,here,_⟩ | ⟨free,absent⟩
  · rw [take_some here]
    exact ok.touch here (Nat.succ_pos _) r.lock r.fresh
  · rw [take_none free]
    refine ok.setHeld (fun q same => ?_) fun q same jp o other there => ?_
    · cases same
      exact ⟨Nat.one_pos,inside⟩
    · cases same
      exact (absent jp o there).symm

theorem Now.setSlot (now : Now x s) {k : Option Handle} {o : Option Ref} (entry : Entry k o) (ok : (x.setHeld ip o).Ok)
    (typed : ∀ h, k = some h → h.valid = true → (x.node h.inum).type ≠ 0)
    (loaded : ∀ h, k = some h → h.lock ≠ none → h.valid = true) : Now (x.setHeld ip o) (s.1.setSlot ip k,s.2) where
  ok := ok
  ninodes := now.ninodes
  node := now.node
  held jp := by
    rcases eq_or_ne jp ip with rfl | other
    · simpa [Files.setSlot] using entry
    · simpa [Files.setSlot,World.setHeld,other] using now.held jp
  tables := now.tables
  devsw := now.devsw
  notes := now.notes
  dry := now.dry
  saved := now.saved
  typed jp g there valid := by
    rcases eq_or_ne jp ip with rfl | other
    · exact typed g (by simpa [Files.setSlot] using there) valid
    · exact now.typed jp g (by simpa [Files.setSlot,other] using there) valid
  loaded jp g there := by
    rcases eq_or_ne jp ip with rfl | other
    · exact loaded g (by simpa [Files.setSlot] using there)
    · exact now.loaded jp g (by simpa [Files.setSlot,other] using there)

theorem Now.touch (now : Now x (b,l)) (here : x.held ip = some r) {n : Nat} (positive : 0 < n) {holder : Option Pid}
    {fresh valid : Bool} (unread : fresh = true → valid = false) (typed : valid = true → (x.node r.inum).type ≠ 0)
    (loaded : holder ≠ none → valid = true) :
    Now (x.setHeld ip (some ⟨r.inum,n,holder,fresh⟩)) (b.setSlot ip (some ⟨r.inum,n,holder,valid⟩),l) :=
  now.setSlot (s := (b,l)) (.some ⟨r.inum,n,holder,valid⟩ fresh unread) (now.ok.touch here positive holder fresh)
    (fun _ same => by cases same; exact typed) fun _ same => by cases same; exact loaded

theorem Now.taken (now : Now x (b,l)) (slot : b.slot ip = some h) (i : Nat) :
    Now (x.take ip i) (b.setSlot ip (some { h with ref := h.ref + 1 }),l) := by
  obtain ⟨fresh,here,unread⟩ := now.here slot
  rw [take_some here]
  exact now.touch here (Nat.succ_pos _) unread (now.typed ip h slot) (now.loaded ip h slot)

variable {Q : Unit → World → Prop}

theorem runs_idup (here : x.held ip = some r) (i : Nat) (next : Q () (x.take ip i)) :
    Runs p (call (.idup ip)) Q E x := by
  refine runs_step fun s now => ?_
  obtain ⟨h,fresh,slot,rfl,unread⟩ := now.slot here
  refine ⟨(),s.1.setSlot ip (some { h with ref := h.ref + 1 }),_,by simp [filesStep,Files.handle,slot],?_,next⟩
  rw [show cost (.idup ip) s.1 = 0 from rfl,Notes.add_zero]
  exact now.taken slot i

/-- The entry that `iget` finds for an inode, or takes for it. -/
theorem runs_iget {Q : Slot → World → Prop} (inside : i < x.ninodes)
    (full : (∀ jp, x.held jp ≠ none) → E (.panic "iget: no inodes")) (next : ∀ ip, x.Fits ip i → Q ip (x.take ip i)) :
    Runs p (call (.iget ROOTDEV i)) Q E x := by
  intro s now
  rw [wp_noted]
  simp only [filesStep,Files.iget,now.ninodes,inside,and_self,if_true]
  cases found : s.1.cached i with
  | some ip =>
    obtain ⟨h,slot,rfl⟩ := cached_some found
    obtain ⟨fresh,here,_⟩ := now.here slot
    have fits : x.Fits ip h.inum := .inl ⟨_,here,rfl⟩
    simp only [Files.handle,slot]
    refine ⟨x.take ip h.inum,?_,next ip fits⟩
    rw [show cost (.iget ROOTDEV h.inum) s.1 = 0 from rfl,Notes.add_zero]
    exact now.taken slot h.inum
  | none =>
    cases unused : s.1.unused with
    | some ip =>
      have free : x.held ip = none := now.unheld (unused_some unused)
      have fits : x.Fits ip i := by
        refine .inr ⟨free,fun jp r here => ?_⟩
        obtain ⟨h,fresh,slot,rfl,unread⟩ := now.slot here
        exact cached_none found slot
      refine ⟨x.take ip i,?_,next ip fits⟩
      rw [show cost (.iget ROOTDEV i) s.1 = 0 from rfl,Notes.add_zero]
      have ok := now.ok.take fits inside
      rw [take_none free] at ok ⊢
      exact now.setSlot (.some ⟨i,1,none,false⟩ true fun _ => rfl) ok (fun k same => by cases same; exact nofun)
        fun k same => by cases same; exact fun held => absurd rfl held
    | none =>
      refine full fun jp none' => ?_
      have all := List.find?_eq_none.mp unused jp (List.mem_finRange jp)
      rw [now.free none'] at all
      exact all rfl

/-! ### Locks -/

theorem wp_ref {Q : Int → Files × Notes → Prop} (slot : b.slot ip = some h) : wp (noted p) (call (.ref ip)) Q E (b,l) = Q h.ref (b,l) :=
  wp_noted_free rfl (by simp [filesStep,Files.handle,slot])

theorem wp_holdingsleep {Q : Bool → Files × Notes → Prop} (slot : b.slot ip = some h) :
    wp (noted p) (call (.holdingsleep ip)) Q E (b,l) = Q h.lock.isSome (b,l) :=
  wp_noted_free rfl (by simp [filesStep,Files.handle,slot])

theorem wp_valid {Q : Bool → Files × Notes → Prop} (slot : b.slot ip = some h) :
    wp (noted p) (call (.valid ip)) Q E (b,l) = Q h.valid (b,l) :=
  wp_noted_free rfl (by simp [filesStep,Files.handle,slot])

theorem wp_attr {Q : Attr → Files × Notes → Prop} (slot : b.slot ip = some h) (valid : h.valid = true) :
    wp (noted p) (call (.attr ip)) Q E (b,l) = Q (b.node h.inum).toAttr (b,l) :=
  wp_noted_free rfl (by simp [filesStep,Files.loaded,Files.handle,slot,valid])

theorem wp_acquiresleep {Q : Unit → Files × Notes → Prop} {wait : Slot → Wait} (sleeps : wait ip = .ilock ip ∨ wait ip = .iput ip)
    (slot : b.slot ip = some h) : wp (noted p) (acquiresleep ip wait) Q E (b,l) =
      if h.lock = none then Q () (b.setSlot ip (some { h with lock := some p }),l) else E (.blocked (wait ip)) := by
  have lock : (noted p).free (wait ip) (b,l) = h.lock.isNone := by
    rcases sleeps with same | same
    all_goals
      rw [same]
      show ((b.slot ip).bind (·.lock)).isNone = h.lock.isNone
      rw [slot]
      rfl
  unfold acquiresleep
  rw [wp_bind,wp_await,lock,wp_noted_free (a := ()) (c := b.setSlot ip (some { h with lock := some p })) (by rfl)
    (by simp [filesStep,Files.handle,slot])]
  simp only [Option.isNone_iff_eq_none]

theorem wp_releasesleep {Q : Unit → Files × Notes → Prop} (slot : b.slot ip = some h) :
    wp (noted p) (releasesleep ip) Q E (b,l) = Q () (b.setSlot ip (some { h with lock := none }),l) := by
  unfold releasesleep
  rw [wp_bind,wp_noted_free (a := ()) (c := b.setSlot ip (some { h with lock := none })) (by rfl) (by simp [filesStep,Files.handle,slot]),wp_await]
  rfl

theorem setSlot_setSlot (b : Files) (ip : Slot) (h k : Option Handle) : (b.setSlot ip h).setSlot ip k = b.setSlot ip k := by
  simp [Files.setSlot]

theorem slot_setSlot' (b : Files) (ip : Slot) (h : Option Handle) : (b.setSlot ip h).slot ip = h := update_self ..

theorem setSlot_self (slot : b.slot ip = some h) : b.setSlot ip (some h) = b := by
  rw [Files.setSlot,← slot,update_eq_self]

theorem wp_iload {Q : Unit → Files × Notes → Prop} (slot : b.slot ip = some h) (saved : b.unsaved h.inum = false) :
    wp (noted p) (call (.iload ip)) Q E (b,l) =
      if h.valid = true ∨ (b.node h.inum).type ≠ 0 then Q () (b.setSlot ip (some { h with valid := true }),l)
      else E (.panic "ilock: no type") := by
  by_cases valid : h.valid = true
  · have same : b.setSlot ip (some { h with valid := true }) = b := setSlot_self (by rw [slot,← valid])
    rw [wp_noted_free (a := ()) (c := b) (by rfl) (by simp [filesStep,Files.iload,Files.handle,slot,valid]),if_pos (.inl valid),same]
  · by_cases free : (b.node h.inum).type = 0
    · have ran : filesStep p b (.iload ip) = .error (.panic "ilock: no type") := by
        simp [filesStep,Files.iload,Files.handle,slot,valid,saved,free]
      rw [wp_noted,ran,if_neg (by tauto)]
    · rw [wp_noted_free (a := ()) (c := b.setSlot ip (some { h with valid := true })) (by rfl)
        (by simp [filesStep,Files.iload,Files.handle,slot,valid,saved,free]),if_pos (.inr free)]

theorem runs_ilock (here : x.held ip = some r) (hard : ¬x.soft r.inum)
    (stuck : r.lock ≠ none → E (.blocked (.ilock ip))) (bad : (x.node r.inum).type = 0 → E (.panic "ilock: no type"))
    (next : r.lock = none → (x.node r.inum).type ≠ 0 → Q () (x.lock ip (some p))) : Runs p (ilock ip) Q E x := by
  intro s now
  obtain ⟨b,l⟩ := s
  obtain ⟨h,fresh,slot,rfl,unread⟩ := now.slot here
  have used : 0 < h.ref := now.ok.used ip _ here
  have saved : b.unsaved h.inum = false := now.saved h.inum hard
  unfold ilock
  rw [wp_bind,wp_ref slot,if_neg (by omega),wp_bind,wp_acquiresleep (.inl rfl) slot]
  split
  · next free =>
    rw [wp_iload (h := { h with lock := some p }) (slot_setSlot' ..) saved,setSlot_setSlot,show (b.setSlot ip _).node = x.node from now.node]
    split
    · next read =>
      have typed : (x.node h.inum).type ≠ 0 := read.elim (now.typed ip h slot) id
      refine ⟨_,?_,next free typed⟩
      rw [lock_some' here]
      exact now.touch here used nofun (fun _ => typed) fun _ => rfl
    · next unread => exact bad (by tauto)
  · next locked => exact stuck locked

theorem wp_unlock {Q : Unit → Files × Notes → Prop} (slot : b.slot ip = some h) (used : 0 < h.ref) (locked : h.lock ≠ none) :
    wp (noted p) (iunlock ip) Q E (b,l) = Q () (b.setSlot ip (some { h with lock := none }),l) := by
  have holding : h.lock.isSome = true := Option.isSome_iff_ne_none.mpr locked
  unfold iunlock
  rw [wp_bind,wp_holdingsleep slot,wp_bind,wp_ref slot,holding,if_neg (by simp; omega),wp_releasesleep slot]

theorem Now.unlocked (now : Now x (b,l)) (slot : b.slot ip = some h) :
    Now (x.lock ip none) (b.setSlot ip (some { h with lock := none }),l) := by
  obtain ⟨fresh,here,_⟩ := now.here slot
  rw [lock_some' here]
  exact now.touch here (now.ok.used ip _ here) nofun (now.typed ip h slot) fun bad => absurd rfl bad

theorem runs_iunlock (here : x.held ip = some r) (locked : r.lock ≠ none)
    (next : Q () (x.lock ip none)) : Runs p (iunlock ip) Q E x := by
  intro s now
  obtain ⟨b,l⟩ := s
  obtain ⟨h,fresh,slot,rfl,unread⟩ := now.slot here
  rw [wp_unlock slot (now.ok.used ip _ here) locked]
  exact ⟨_,now.unlocked slot,next⟩

/-! ### The last reference -/

theorem wp_unref {Q : Unit → Files × Notes → Prop} (slot : b.slot ip = some h) (used : 0 < h.ref) (free : h.lock = none)
    (saved : b.unsaved h.inum = false) : wp (noted p) (call (.unref ip)) Q E (b,l) =
      Q () (b.setSlot ip (if 1 < h.ref then some { h with ref := h.ref - 1 } else none),l) := by
  refine wp_noted_free rfl ?_
  simp only [filesStep,Files.unref,Files.handle,slot]
  split
  · rfl
  · rw [if_pos ⟨by omega,free,saved⟩]

/-- The files with an inode freed. -/
def Files.freed (b : Files) (ip : Slot) (i : Nat) : Files := ((b.setNode i (b.node i).freed).clear i).setSlot ip none

theorem wp_iput_free {Q : Unit → Files × Notes → Prop} (slot : b.slot ip = some h) : wp (noted p) (iput_free ip) Q E (b,l) =
    if h.valid = true ∧ (b.node h.inum).nlink = 0 ∧ h.ref = 1 then
      Q () (((b.setNode h.inum (b.node h.inum).freed).clear h.inum).setSlot ip (some { h with valid := false }),l + ⟨{h.inum},0,true⟩)
    else Q () (b,l) := by
  unfold iput_free
  rw [wp_bind,wp_valid slot]
  by_cases valid : h.valid = true
  · rw [if_pos valid,wp_bind,wp_attr slot valid]
    by_cases nolink : (b.node h.inum).nlink = 0
    · rw [if_pos nolink,wp_bind,wp_ref slot]
      by_cases last : h.ref = 1
      · rw [if_pos (by omega),if_pos ⟨valid,nolink,last⟩,wp_noted_ok (a := ())
          (c := ((b.setNode h.inum (b.node h.inum).freed).clear h.inum).setSlot ip (some { h with valid := false }))
          (by simp [filesStep,Files.ifree,Files.loaded,Files.handle,slot,valid])]
        rw [show cost (.ifree ip) b = ⟨{h.inum},0,true⟩ by simp [cost,Files.owner,slot]]
      · rw [if_neg (by omega),if_neg (by tauto),wp_ret]
    · rw [if_neg nolink,if_neg (by tauto),wp_ret]
  · rw [if_neg valid,if_neg (by tauto),wp_ret]

theorem wp_iput {Q : Unit → Files × Notes → Prop} (slot : b.slot ip = some h) (used : 0 < h.ref)
    (saved : b.unsaved h.inum = false) : wp (noted p) (iput ip) Q E (b,l) =
      if h.lock = none then
        if h.valid = true ∧ (b.node h.inum).nlink = 0 ∧ h.ref = 1 then Q () (b.freed ip h.inum,l + ⟨{h.inum},0,true⟩)
        else Q () (b.setSlot ip (if 1 < h.ref then some { h with ref := h.ref - 1 } else none),l)
      else E (.blocked (.iput ip)) := by
  unfold iput
  rw [wp_bind,wp_acquiresleep (.inr rfl) slot]
  by_cases free : h.lock = none
  · rw [if_pos free,if_pos free,wp_bind,wp_iput_free (h := { h with lock := some p }) (slot_setSlot' ..)]
    change (if h.valid = true ∧ (b.node h.inum).nlink = 0 ∧ h.ref = 1 then _ else _) = _
    split
    · next last =>
      rw [wp_bind,wp_releasesleep (h := { h with lock := some p, valid := false }) (slot_setSlot' ..),setSlot_setSlot,
        wp_unref (h := { h with lock := none, valid := false }) (slot_setSlot' ..) used rfl (by simp [Files.setSlot,Files.clear,Files.save]),
        setSlot_setSlot,if_neg (by simp only; omega)]
      congr 2
      simp [Files.setSlot,Files.freed,Files.setNode,Files.clear,Files.save]
    · rw [wp_bind,wp_releasesleep (h := { h with lock := some p }) (slot_setSlot' ..),setSlot_setSlot,
        wp_unref (h := { h with lock := none }) (slot_setSlot' ..) used rfl saved,setSlot_setSlot]
      simp only [← free]
  · rw [if_neg free,if_neg free]

theorem World.Ok.setNode (ok : x.Ok) {n : Node} (l : Notes)
    (range : i < x.ninodes → n.type = T_DIR → ∀ k, n.live k → (n.entry k).inum.toNat < x.ninodes) : ((x.setNode i n).note l).Ok := by
  refine ⟨ok.used,ok.inside,ok.unique,fun j low dir k => ?_⟩
  rcases eq_or_ne j i with rfl | other
  · have same : ((x.setNode j n).note l).node j = n := update_self ..
    rw [same] at dir ⊢
    exact range low dir k
  · have same : ((x.setNode i n).note l).node j = x.node j := update_of_ne other ..
    rw [same] at dir ⊢
    exact ok.range j low dir k

theorem Now.edit (now : Now x (b,l)) {c : Files} {n : Node} (only : OnlyInode i b c) (node : c.node = update b.node i n)
    (type : ∀ jp h, b.slot jp = some h → h.valid = true → h.inum = i → n.type ≠ 0)
    (dry : ¬x.holey i → ∀ bn, c.hole i bn = false) (saved : ¬x.soft i → c.unsaved i = false)
    (range : i < x.ninodes → n.type = T_DIR → ∀ k, n.live k → (n.entry k).inum.toNat < x.ninodes) (k : Notes) :
    Now ((x.setNode i n).note k) (c,l + k) where
  ok := now.ok.setNode k range
  ninodes := only.ninodes.trans now.ninodes
  node := by
    rw [show (c,l + k).1.node = c.node from rfl,node,show b.node = x.node from now.node]
    rfl
  held jp := by
    rw [show (c,l + k).1.slot = b.slot from only.slot]
    exact now.held jp
  tables := only.tables.trans now.tables
  devsw := only.devsw.trans now.devsw
  notes := congrArg (· + k) now.notes
  dry j solid := by
    rcases eq_or_ne j i with rfl | other
    · exact dry solid
    · rw [show (c,l + k).1.hole j = b.hole j from only.hole j other]
      exact now.dry j solid
  saved j hard := by
    rcases eq_or_ne j i with rfl | other
    · exact saved hard
    · rw [show (c,l + k).1.unsaved j = b.unsaved j from only.unsaved j other]
      exact now.saved j hard
  typed jp h there valid := by
    have slot : b.slot jp = some h := only.slot ▸ there
    rcases eq_or_ne h.inum i with same | other
    · rw [same,show ((x.setNode i n).note k).node i = n from update_self ..]
      exact type jp h slot valid same
    · rw [show ((x.setNode i n).note k).node h.inum = x.node h.inum from update_of_ne other ..]
      exact now.typed jp h slot valid
  loaded jp h there := now.loaded jp h (only.slot ▸ there)

/-- The world with an inode freed, and its last reference gone. -/
def World.free (x : World) (ip : Slot) (i : Nat) : World := ((x.setNode i (x.node i).freed).setHeld ip none).note ⟨{i},0,true⟩

theorem Now.freed (now : Now x (b,l)) (slot : b.slot ip = some h) :
    Now (x.free ip h.inum) (b.freed ip h.inum,l + ⟨{h.inum},0,true⟩) := by
  obtain ⟨_,here,_⟩ := now.here slot
  have cleared := now.setSlot (s := (b,l)) .none (now.ok.clear ip) (fun _ same => nomatch same) fun _ same => nomatch same
  rw [Files.freed,show b.node = x.node from now.node]
  refine cleared.edit (i := h.inum) (n := (x.node h.inum).freed) ((onlyInode_setNode _ _ _).trans (onlyInode_clear _ _)) rfl
    (fun jp k there _ same => ?_)
    (fun _ _ => by simp [Files.clear]) (fun _ => by simp [Files.clear,Files.save]) (fun _ dir => ?_) _
  · rcases eq_or_ne jp ip with rfl | other
    · simp [Files.setSlot] at there
    · obtain ⟨_,here',_⟩ := now.here (show b.slot jp = some k by simpa [Files.setSlot,other] using there)
      exact absurd (now.ok.unique jp ip _ _ here' here same) other
  · simp [Node.freed,T_DIR] at dir

theorem Now.dropped (now : Now x (b,l)) (slot : b.slot ip = some h) :
    Now (x.drop ip) (b.setSlot ip (if 1 < h.ref then some { h with ref := h.ref - 1 } else none),l) := by
  obtain ⟨fresh,here,unread⟩ := now.here slot
  rw [drop_some here]
  change Now (x.setHeld ip (if 1 < h.ref then _ else _)) _
  split
  · exact now.touch here (by show 0 < h.ref - 1; omega) unread (now.typed ip h slot) (now.loaded ip h slot)
  · exact now.setSlot .none (now.ok.clear ip) (fun k same => nomatch same) fun k same => nomatch same

theorem runs_iput (here : x.held ip = some r) (hard : ¬x.soft r.inum)
    (stuck : r.lock ≠ none → E (.blocked (.iput ip))) (kept : Q () (x.drop ip))
    (freed : r.fresh = false → r.ref = 1 → (x.node r.inum).nlink = 0 → (x.node r.inum).type ≠ 0 → Q () (x.free ip r.inum)) :
    Runs p (iput ip) Q E x := by
  intro s now
  obtain ⟨b,l⟩ := s
  obtain ⟨h,fresh,slot,rfl,unread⟩ := now.slot here
  have used : 0 < h.ref := now.ok.used ip _ here
  rw [wp_iput slot used (now.saved h.inum hard),show b.node = x.node from now.node]
  split
  · split
    · next last =>
      have read : fresh = false := Bool.eq_false_iff.mpr fun bad => Bool.eq_false_iff.mp (unread bad) last.1
      exact ⟨_,now.freed slot,freed read last.2.2 last.2.1 (now.typed ip h slot last.1)⟩
    · exact ⟨_,now.dropped slot,kept⟩
  · next locked => exact stuck locked

theorem runs_iunlockput (here : x.held ip = some r) (locked : r.lock ≠ none) (hard : ¬x.soft r.inum)
    (kept : r.ref ≠ 1 ∨ (x.node r.inum).nlink ≠ 0 → Q () ((x.lock ip none).drop ip))
    (freed : r.ref = 1 → (x.node r.inum).nlink = 0 → Q () (x.free ip r.inum)) : Runs p (iunlockput ip) Q E x := by
  intro s now
  obtain ⟨b,l⟩ := s
  obtain ⟨h,fresh,slot,rfl,unread⟩ := now.slot here
  have used : 0 < h.ref := now.ok.used ip _ here
  have now' := now.unlocked slot
  have slot' : (b.setSlot ip (some { h with lock := none })).slot ip = some { h with lock := none } := slot_setSlot' ..
  have valid : h.valid = true := now.loaded ip h slot locked
  unfold iunlockput
  rw [wp_bind,wp_unlock slot used locked,wp_iput slot' used (now.saved h.inum hard),if_pos rfl]
  change if h.valid = true ∧ (b.node h.inum).nlink = 0 ∧ h.ref = 1 then _ else _
  rw [show b.node = x.node from now.node]
  split
  · next last =>
    refine ⟨_,now'.freed slot',?_⟩
    have same : (x.lock ip none).free ip h.inum = x.free ip h.inum := by
      simp [World.free,World.lock,World.setHeld,World.setNode,World.note]
    rw [same]
    exact freed last.2.2 last.2.1
  · next more =>
    refine ⟨_,now'.dropped slot',kept ?_⟩
    by_contra last
    rw [not_or,not_not,not_not] at last
    exact more ⟨valid,last.2,last.1⟩

/-! ### Inodes -/

theorem note_zero (x : World) : x.note 0 = x := by
  rw [World.note,Notes.add_zero]

theorem note_note (x : World) (l k : Notes) : (x.note l).note k = x.note (l + k) :=
  congrArg (fun notes => { x with notes := notes }) (Notes.add_assoc ..)

theorem World.Ok.note (ok : x.Ok) (k : Notes) : (x.note k).Ok := ⟨ok.used,ok.inside,ok.unique,ok.range⟩

theorem Now.note (now : Now x (b,l)) (k : Notes) : Now (x.note k) (b,l + k) :=
  { now with ok := now.ok.note k, notes := congrArg (· + k) now.notes }

/-- What `readi` gives of an inode. -/
def World.read (x : World) (i off n : Nat) : Option (List UInt8) :=
  if (x.node i).type = T_DEV then
    if b : (x.node i).major.toNat < NDEV then ((x.devsw ⟨(x.node i).major.toNat,b⟩).read).bind (· n) else none
  else if off > (x.node i).size.toNat ∨ (off + n) % 2 ^ 32 < off then none
  else some (slice (x.node i).data off (if off + n > (x.node i).size.toNat then (x.node i).size.toNat - off else n))

theorem missing_dry {hole : Nat → Bool} (dry : ∀ bn, hole bn = false) (off n : Nat) : missing hole off n = false := by
  simp [missing,dry]

theorem Now.fill (now : Now x (b,l)) (tied : x.holey i → x.soft i) (off n : Nat) (k : Notes) :
    Now (x.note k) (b.fill i off n,l + k) := by
  have node : b.node = x.node := now.node
  have same : x.setNode i (x.node i) = x := by rw [World.setNode,update_eq_self]
  have filled := now.edit (n := x.node i) (onlyInode_fill b i off n) (by rw [node,update_eq_self]; exact node)
    (fun jp h there valid same => same ▸ now.typed jp h there valid) (fun solid bn => ?_) (fun hard => ?_) (now.ok.range i) k
  · rwa [same] at filled
  · simp [Files.fill,show b.hole i bn = false from now.dry i solid bn]
  · have dry := now.dry i fun holey => hard (tied holey)
    simp [Files.fill,show b.unsaved i = false from now.saved i hard,missing_dry dry]

theorem runs_readi_soft {Q : Option (List UInt8) → World → Prop} (here : x.held ip = some r) (locked : r.lock ≠ none)
    (tied : x.holey r.inum → x.soft r.inum) {off n : Nat}
    (next : ∀ k, (¬x.holey r.inum → k = 0) → Q (x.read r.inum off n) (x.note k)) : Runs p (call (.readi ip off n)) Q E x := by
  refine runs_step fun s now => ?_
  obtain ⟨b,l⟩ := s
  obtain ⟨h,fresh,slot,rfl,valid,typed⟩ := now.locked here locked
  have node : b.node = x.node := now.node
  have devsw : b.devsw = x.devsw := now.devsw
  have free (solid : ¬x.holey h.inum) : cost (.readi ip off n) b = 0 := by
    simp [cost,slot,missing_dry (now.dry h.inum solid)]
  have ran : ∃ c, filesStep p b (.readi ip off n) = .ok (x.read h.inum off n,c) ∧
      (c = b ∨ ∃ m, c = b.fill h.inum off m) := by
    simp only [filesStep,Files.readi,Files.loaded,Files.handle,slot,valid,if_true,World.read,node,devsw]
    split
    · exact ⟨b,rfl,.inl rfl⟩
    · split
      · exact ⟨b,rfl,.inl rfl⟩
      · exact ⟨_,rfl,.inr ⟨_,rfl⟩⟩
  obtain ⟨c,ran,rfl | ⟨m,rfl⟩⟩ := ran
  · exact ⟨_,_,_,ran,now.note _,next _ free⟩
  · exact ⟨_,_,_,ran,now.fill tied _ _ _,next _ free⟩

end

end Xv6
