import Xv6.Wellformed
import Xv6.Lib.Pool

/-!
Processes that share a struct file. They read and write a regular file through it, in any interleaving of the
operations of `fileread` and `filewrite`; only the inode lock keeps them apart.
-/
namespace Xv6.Offsets
open Xv6 Xv6.Lib Function Prog

/-- A call on the shared file, or a piece of it, which is done under one lock: a `fileread`, or a part of a `filewrite`. -/
inductive Req where
  | write (src : List UInt8)
  | read (n : Nat)
  deriving DecidableEq

/-- A transfer: the process and its piece, where it starts, and the bytes that were transferred. -/
structure Move where
  pid : Pid
  piece : Req
  off : Nat
  bytes : List UInt8
  deriving DecidableEq

/-- A process takes the inode lock, or transfers bytes. -/
inductive Event where
  | took (p : Pid)
  | moved (m : Move)
  deriving DecidableEq

/-- What the operations on the inode in the entry `ip` tell. -/
def tells (ip : Slot) (p : Pid) : {β : Type} → Op β → β → List Event
  | _,.lock jp,_ => if jp = ip then [.took p] else []
  | _,.readi jp off n,bytes => if jp = ip then [.moved ⟨p,.read n,off,bytes.getD []⟩] else []
  | _,.writei jp src off,r => if jp = ip then [.moved ⟨p,.write src,off,src.take r.toNat⟩] else []
  | _,_,_ => []

/-- The processes of the kernel. -/
def crew (ip : Slot) : Crew Op Wait Pid State Event := ⟨kernel,tells ip⟩

def Req.prog (f : FileId) : Req → Call Int
  | .write src => filewrite f src 0
  | .read n => fileread f n 0

/-- The calls of a process, one after the other. -/
def script (f : FileId) : List Req → Call Unit
  | [] => ret ()
  | r :: rs => do
    let _ ← r.prog f
    script f rs

/-- Processes with calls to make. -/
def pool (s : State) (f : FileId) (calls : Pid → List Req) : Pool Op Wait Pid Unit State Event :=
  ⟨fun p => script f (calls p),s,[]⟩

/-! ### What has been transferred -/

/-- Who took the lock, in order. -/
def takers (log : List Event) : List Pid := log.filterMap fun
  | .took p => some p
  | .moved _ => none

/-- The transfers, in order. -/
def moves (log : List Event) : List Move := log.filterMap fun
  | .took _ => none
  | .moved m => some m

/-- How many bytes have been transferred. -/
def transferred (ms : List Move) : Nat := (ms.map fun m => m.bytes.length).sum

/-- Each transfer starts where the one before it ended. -/
def Consecutive : Nat → List Move → Prop
  | _,[] => True
  | off,m :: ms => m.off = off ∧ Consecutive (off + m.bytes.length) ms

/-- What a transfer does to the file. -/
def Move.apply (m : Move) (n : Node) : Node := match m.piece with
  | .write _ => n.write m.bytes m.off
  | .read _ => n

/-- What the transfers make of the file. -/
def replay (n : Node) (ms : List Move) : Node := ms.foldl (fun n m => m.apply n) n

theorem moves_append (log log' : List Event) : moves (log ++ log') = moves log ++ moves log' := List.filterMap_append

theorem takers_append (log log' : List Event) : takers (log ++ log') = takers log ++ takers log' := List.filterMap_append

theorem transferred_append (ms ms' : List Move) : transferred (ms ++ ms') = transferred ms + transferred ms' := by
  simp [transferred]

variable {off : Nat} {ms : List Move}

theorem consecutive_snoc {m : Move} (consecutive : Consecutive off ms)
    (next : m.off = off + transferred ms) : Consecutive off (ms ++ [m]) := by
  induction ms generalizing off with
  | nil => exact ⟨next,trivial⟩
  | cons m' ms ih =>
    refine ⟨consecutive.1,ih consecutive.2 ?_⟩
    rw [next]
    simp only [transferred,List.map_cons,List.sum_cons]
    omega

theorem replay_snoc (n : Node) (ms : List Move) (m : Move) : replay n (ms ++ [m]) = m.apply (replay n ms) := by
  simp [replay]

/-- The size of the largest piece. -/
def most : Nat := (MAXOPBLOCKS - 1 - 1 - 2) / 2 * 512

/-- The pieces that `filewrite` makes of its bytes. -/
def chunks : Nat → List UInt8 → List (List UInt8)
  | 0,_ => []
  | fuel + 1,src =>
    if src.length = 0 then [] else src.take (min src.length most) :: chunks fuel (src.drop (min src.length most))

/-- The pieces of a call through the struct file. -/
def pieces (file : File) : Req → List Req
  | .write src => if file.writable then (chunks src.length src).map .write else []
  | .read n => if file.readable then [.read n] else []

/-! ### Where a process is -/

/-- The processes, the struct file and the inode, as they are at the start. -/
structure Plan where
  f : FileId
  file : File
  opened : file.type = .FD_INODE
  inum : Nat
  ref : Nat
  node : Node
  regular : node.type = T_FILE
  calls : Pid → List Req

/-- The entry of the inode in the cache. -/
abbrev Plan.ip (pl : Plan) : Slot := pl.file.ip

/-- What a process has done since it took the lock. -/
inductive Stage where
  | out
  | locked
  | ready (off : Nat)
  | moved (n : Nat)
  | done

variable {pl : Plan} {β : Type}

/-- What is done under the lock. -/
def body (f : FileId) (ip : Slot) (o : Nat → Op β) (len : β → Nat) (k : β → Call Unit) : Call Unit := do
  let off ← call (.tables fun t => .ok ((t.file f).off,t))
  let b ← call (o off)
  call (.tables (advance f (len b)))
  iunlock ip
  k b

/-- The rest of a `filewrite`, and of the script. -/
def rest (pl : Plan) (fuel : Nat) (src : List UInt8) (rs : List Req) : Call Unit := do
  let _ ← filewrite_from pl.f pl.ip fuel src
  script pl.f rs

/-- What a process does when it has written a piece. -/
def wrote (pl : Plan) (fuel : Nat) (src : List UInt8) (rs : List Req) (r : Int) : Call Unit :=
  if r < 0 then script pl.f rs
  else if r ≠ min src.length most then fail "short filewrite"
  else rest pl fuel (src.drop (min src.length most)) rs

/-- The pieces of the calls that are left. -/
def left (pl : Plan) (rs : List Req) : List Req := rs.flatMap (pieces pl.file)

/-- The transfers that there are, with what comes behind them. -/
inductive Next (pl : Plan) : {β : Type} → (Nat → Op β) → (β → Nat) → (β → Call Unit) → Req → List Req → Prop where
  | read (n : Nat) (rs : List Req) :
    Next pl (fun off => .readi pl.ip off n) (fun bytes => (bytes.getD []).length) (fun _ => script pl.f rs) (.read n) (left pl rs)
  | write (fuel : Nat) (src : List UInt8) (rs : List Req) (enough : src.length ≤ fuel + 1) :
    Next pl (fun off => .writei pl.ip (src.take (min src.length most)) off) Int.toNat (wrote pl fuel src rs)
      (.write (src.take (min src.length most))) ((chunks fuel (src.drop (min src.length most))).map .write ++ left pl rs)

/-- A process between two pieces, and the pieces that it still has to do. -/
inductive Fresh (pl : Plan) : Call Unit → List Req → Prop where
  | script (rs : List Req) : Fresh pl (script pl.f rs) (left pl rs)
  | enter {β : Type} {o : Nat → Op β} {len : β → Nat} {k : β → Call Unit} {piece : Req} {todo : List Req}
    (next : Next pl o len k piece todo) : Fresh pl (ilock pl.ip >>= fun _ => body pl.f pl.ip o len k) (piece :: todo)

/-- Where a process is in the code. -/
inductive Doing (pl : Plan) : Call Unit → List Req → Stage → Prop where
  | fresh {q : Call Unit} {todo : List Req} (fresh : Fresh pl q todo) : Doing pl q todo .out
  | waiting {β : Type} {o : Nat → Op β} {len : β → Nat} {k : β → Call Unit} {piece : Req} {todo : List Req}
    (next : Next pl o len k piece todo) :
    Doing pl (Prog.wait (.ilock pl.ip) (op (.lock pl.ip) fun _ => op (.iload pl.ip) fun _ => body pl.f pl.ip o len k)) (piece :: todo) .out
  | loading {β : Type} {o : Nat → Op β} {len : β → Nat} {k : β → Call Unit} {piece : Req} {todo : List Req}
    (next : Next pl o len k piece todo) :
    Doing pl (op (.iload pl.ip) fun _ => body pl.f pl.ip o len k) (piece :: todo) .locked
  | reading {β : Type} {o : Nat → Op β} {len : β → Nat} {k : β → Call Unit} {piece : Req} {todo : List Req}
    (next : Next pl o len k piece todo) : Doing pl (body pl.f pl.ip o len k) (piece :: todo) .locked
  | moving {β : Type} {o : Nat → Op β} {len : β → Nat} {k : β → Call Unit} {piece : Req} {todo : List Req}
    (next : Next pl o len k piece todo) (off : Nat) :
    Doing pl (op (o off) fun b => op (.tables (advance pl.f (len b))) fun _ => iunlock pl.ip >>= fun _ => k b) (piece :: todo) (.ready off)
  | advancing {q : Call Unit} {todo : List Req} (fresh : Fresh pl q todo) (n : Nat) :
    Doing pl (op (.tables (advance pl.f n)) fun _ => iunlock pl.ip >>= fun _ => q) todo (.moved n)
  | checking {q : Call Unit} {todo : List Req} (fresh : Fresh pl q todo) :
    Doing pl (iunlock pl.ip >>= fun _ => q) todo .done
  | counting {q : Call Unit} {todo : List Req} (fresh : Fresh pl q todo) :
    Doing pl (op (.ref pl.ip) fun r => (if !true ∨ r < 1 then fail "iunlock" else releasesleep pl.ip) >>= fun _ => q) todo .done
  | unlocking {q : Call Unit} {todo : List Req} (fresh : Fresh pl q todo) :
    Doing pl (op (.unlock pl.ip) fun _ => Prog.wait .resume q) todo .done
  | resting {q : Call Unit} {todo : List Req} (fresh : Fresh pl q todo) : Doing pl (Prog.wait .resume q) todo .out

theorem fresh_rest {fuel : Nat} {src : List UInt8} (rs : List Req) (enough : src.length ≤ fuel) :
    Fresh pl (rest pl fuel src rs) ((chunks fuel src).map .write ++ left pl rs) := by
  cases fuel with
  | zero => exact .script rs
  | succ fuel =>
    unfold rest filewrite_from chunks
    by_cases none' : src.length = 0
    · rw [if_pos none',if_pos none']
      exact .script rs
    · rw [if_neg none',if_neg none']
      have enter : Fresh pl _ _ := .enter (.write fuel src rs enough)
      have same : (ilock pl.ip >>= fun _ => body pl.f pl.ip (fun off => .writei pl.ip (src.take (min src.length most)) off) Int.toNat
          (wrote pl fuel src rs)) = (do
          ilock pl.ip
          let off ← call (.tables fun t => .ok ((t.file pl.f).off,t))
          let r ← call (.writei pl.ip (src.take (min src.length most)) off)
          call (.tables (advance pl.f r.toNat))
          iunlock pl.ip
          if r < 0 then return false
          else if r ≠ min src.length most then fail "short filewrite"
          else filewrite_from pl.f pl.ip fuel (src.drop (min src.length most))) >>= fun _ => script pl.f rs := by
        simp only [bind_assoc,ite_bind,body,wrote,rest]
        rfl
      rw [same] at enter
      exact enter

theorem Doing.ended {q : Call Unit} {todo : List Req} {stage : Stage} (doing : Doing pl q todo stage) (ended : q = ret ()) :
    todo = [] := by
  cases doing with
  | fresh fresh =>
    cases fresh with
    | script rs =>
      cases rs with
      | nil => rfl
      | cons r rs => cases r <;> cases ended
    | enter => cases ended
  | _ => cases ended

/-! ### One transfer -/

variable {a a' : Files} {p : Pid}

theorem follows {s t : State} {o : Op β} {b b' : β} (repr : Represents s a) (ran : (kernel p).step o s = .ok (b,t))
    (does : filesStep p a o = .ok (b',a')) : b' = b ∧ Represents t a' := by
  rcases (kernel_refines p).step o repr with missing | matched
  · rw [show (files p).step o a = filesStep p a o from rfl,does] at missing
    cases missing
  · rw [ran] at matched
    obtain ⟨a₂,same,repr'⟩ := matched
    rw [show (files p).step o a = filesStep p a o from rfl,does] at same
    cases same
    exact ⟨rfl,repr'⟩

/-- What one transfer at `off` does to the files `a`. -/
structure Moved (pl : Plan) (a a' : Files) (off : Nat) (piece : Req) (bytes : List UInt8) : Prop where
  only : OnlyInode pl.inum a a'
  node : ∀ p, a'.node pl.inum = (⟨p,piece,off,bytes⟩ : Move).apply (a.node pl.inum)
  inside : off ≤ (a.node pl.inum).size.toNat → off + bytes.length ≤ (a'.node pl.inum).size.toNat
  small : bytes ≠ [] → off + bytes.length ≤ MAXFILE * BSIZE

/-- The piece is not too large for the file. -/
def Fits (off : Nat) : Req → Prop
  | .write src => off + src.length ≤ MAXFILE * BSIZE
  | .read _ => True

/-- All of a piece has been written. -/
def Whole (bytes : List UInt8) : Req → Prop
  | .write src => bytes = src
  | .read _ => True

section
variable {h : Handle} (slot : a.slot pl.ip = some h) (inum : h.inum = pl.inum) (valid : h.valid = true)
  (regular : (a.node pl.inum).type = T_FILE)
include slot inum valid regular

theorem read_step (p : Pid) (off n : Nat) : filesStep p a (.readi pl.ip off n) =
    if off > (a.node pl.inum).size.toNat ∨ (off + n) % 2 ^ 32 < off then .ok (none,a)
    else .ok (some (slice (a.node pl.inum).data off (min n ((a.node pl.inum).size.toNat - off))),
      a.fill pl.inum off (min n ((a.node pl.inum).size.toNat - off))) := by
  show a.readi pl.ip off n = _
  unfold Files.readi Files.loaded Files.handle
  rw [slot]
  simp only [valid,if_true,inum]
  rw [if_neg (by rw [regular]; decide)]
  split
  · rfl
  · next inside =>
    have cut : (if off + n > (a.node pl.inum).size.toNat then (a.node pl.inum).size.toNat - off else n) =
        min n ((a.node pl.inum).size.toNat - off) := by split <;> omega
    rw [cut]

theorem write_step (p : Pid) (src : List UInt8) (off : Nat) : filesStep p a (.writei pl.ip src off) =
    if off > (a.node pl.inum).size.toNat ∨ (off + src.length) % 2 ^ 32 < off ∨ off + src.length > MAXFILE * BSIZE then .ok (-1,a)
    else .ok (src.length,a.write pl.inum src off) := by
  show a.writei pl.ip src off = _
  unfold Files.writei Files.loaded Files.handle
  rw [slot]
  simp only [valid,if_true,inum]
  rw [if_neg (by rw [regular]; decide)]
  by_cases past : off > (a.node pl.inum).size.toNat ∨ (off + src.length) % 2 ^ 32 < off
  · rw [if_pos past,if_pos (by tauto)]
  · rw [if_neg past]
    by_cases big : off + src.length > MAXFILE * BSIZE
    · rw [if_pos big,if_pos (by tauto)]
    · rw [if_neg big,if_neg (by tauto)]

end

theorem write_nil (n : Node) (off : Nat) : n.write [] off = n := by
  have size : sizeAfter off 0 n.size = n.size := by simp [sizeAfter,grows]
  rw [Node.write,overlay_nil,List.length_nil,size]

theorem write_node (a : Files) (i : Nat) (src : List UInt8) (off : Nat) : (a.write i src off).node i = (a.node i).write src off := by
  unfold Files.write
  dsimp only
  split <;> exact update_self ..

theorem Moved.nothing (pl : Plan) (a : Files) (off : Nat) (piece : Req) : Moved pl a a off piece [] where
  only := .refl _ _
  node p := by
    cases piece with
    | write src => exact (write_nil _ _).symm
    | read n => rfl
  inside low := low
  small some' := absurd rfl some'

variable {piece : Req}

theorem transfer {o : Nat → Op β} {len : β → Nat} {k : β → Call Unit} {todo : List Req}
    (next : Next pl o len k piece todo) {h : Handle} (slot : a.slot pl.ip = some h) (inum : h.inum = pl.inum)
    (valid : h.valid = true) (regular : (a.node pl.inum).type = T_FILE) (size : (a.node pl.inum).size.toNat ≤ MAXFILE * BSIZE)
    (p : Pid) (off : Nat) :
    ∃ b a' bytes todo', filesStep p a (o off) = .ok (b,a') ∧ tells pl.ip p (o off) b = [.moved ⟨p,piece,off,bytes⟩] ∧
      len b = bytes.length ∧ Moved pl a a' off piece bytes ∧ Fresh pl (k b) todo' ∧ todo'.Sublist todo ∧
      (off ≤ (a.node pl.inum).size.toNat → Fits off piece → todo' = todo ∧ Whole bytes piece) := by
  have bound : MAXFILE * BSIZE < 2 ^ 32 := by decide
  cases next with
  | read n rs =>
    have step := read_step slot inum valid regular p off n
    split at step
    · exact ⟨none,a,[],_,step,if_pos rfl,rfl,.nothing ..,.script rs,.refl _,fun _ _ => ⟨rfl,trivial⟩⟩
    · next inside =>
      refine ⟨_,_,_,_,step,if_pos rfl,rfl,⟨onlyInode_fill ..,fun _ => rfl,fun low => ?_,fun _ => ?_⟩,.script rs,.refl _,
        fun _ _ => ⟨rfl,trivial⟩⟩
      all_goals
        simp only [Option.getD_some,slice_length]
        show _ ≤ _
      · show off + _ ≤ (a.node pl.inum).size.toNat
        omega
      · omega
  | write fuel src rs enough =>
    have step := write_step slot inum valid regular p (src.take (min src.length most)) off
    have length : (src.take (min src.length most)).length = min src.length most := by simp
    split at step
    · next failed =>
      refine ⟨_,_,[],_,step,if_pos rfl,rfl,.nothing ..,.script rs,List.sublist_append_right _ _,fun low fits => ?_⟩
      unfold Fits at fits
      rw [Nat.mod_eq_of_lt (by omega)] at failed
      omega
    · next fine =>
      generalize piece : src.take (min src.length most) = src₁ at *
      have whole : src₁.take (src₁.length : Int).toNat = src₁ := by simp
      have told : tells pl.ip p (.writei pl.ip src₁ off) (src₁.length : Int) = [.moved ⟨p,.write src₁,off,src₁⟩] := by
        rw [tells,if_pos rfl,whole]
      have after : wrote pl fuel src rs src₁.length = rest pl fuel (src.drop (min src.length most)) rs := by
        rw [wrote,if_neg (by omega),if_neg (by rw [length]; simp)]
      refine ⟨_,_,src₁,_,step,told,rfl,⟨onlyInode_write ..,fun _ => write_node ..,fun _ => ?_,fun _ => by omega⟩,?_,
        .refl _,fun _ _ => ⟨rfl,rfl⟩⟩
      · rw [write_node]
        show off + src₁.length ≤ (sizeAfter off src₁.length (a.node pl.inum).size).toNat
        unfold sizeAfter grows
        split
        · rw [UInt32.toNat_ofNat_of_lt' (show off + src₁.length < 2 ^ 32 by omega)]
        · next keeps => 
          simp only [decide_eq_true_eq,not_and,not_lt] at keeps
          omega
      · rw [after]
        refine fresh_rest rs ?_
        have positive : most = 1536 := rfl
        rw [List.length_drop]
        omega

/-! ### The invariant -/

/-- Bytes that have been transferred but not added to the offset. -/
def Stage.pending : Stage → Nat
  | .moved n => n
  | _ => 0

/-- The transfer for which the lock was taken is still to come. -/
def Stage.owes : Stage → Bool
  | .locked => true
  | .ready _ => true
  | _ => false

def pending (stage : Pid → Stage) : Option Pid → Nat
  | none => 0
  | some p => (stage p).pending

def owed (stage : Pid → Stage) : Option Pid → List Pid
  | none => []
  | some p => if (stage p).owes then [p] else []

/-- The file is not shorter than the offset at the start, and no piece is too large. -/
def Fitting (pl : Plan) (ms : List Move) : Prop := pl.file.off ≤ pl.node.size.toNat ∧ ∀ m ∈ ms, Fits m.off m.piece

/-- What the transfers have made of the file, and the pieces that are left. -/
structure History (pl : Plan) (ms : List Move) (n : Node) (todo : Pid → List Req) : Prop where
  low : pl.file.off + transferred ms < 2 ^ 32
  consecutive : Consecutive pl.file.off ms
  node : n = replay pl.node ms
  reach : pl.file.off ≤ pl.node.size.toNat → pl.file.off + transferred ms ≤ n.size.toNat
  order : ∀ p, ((ms.filter (·.pid = p)).map (·.piece) ++ todo p).Sublist (left pl (pl.calls p))
  exact' : Fitting pl ms → ∀ p, (ms.filter (·.pid = p)).map (·.piece) ++ todo p = left pl (pl.calls p)
  whole : Fitting pl ms → ∀ m ∈ ms, Whole m.bytes m.piece

/-- What holds at every moment: the state represents the files `a`, `holder` has the inode lock, and each process is
    in its stage with pieces to do. -/
structure Good (pl : Plan) (w : Pool Op Wait Pid Unit State Event) (a : Files) (holder : Option Pid) (todo : Pid → List Req)
    (stage : Pid → Stage) : Prop where
  repr : Represents w.state a
  file : a.tables.file pl.f = { pl.file with off := (a.tables.file pl.f).off }
  slot : a.slot pl.ip = some ⟨pl.inum,pl.ref,holder,true⟩
  doing : ∀ p, Doing pl (w.prog p) (todo p) (stage p)
  inside : ∀ p, stage p ≠ .out ↔ holder = some p
  ready : ∀ p off, stage p = .ready off → (a.tables.file pl.f).off = off
  count : (a.tables.file pl.f).off + pending stage holder = pl.file.off + transferred (moves w.log)
  took : takers w.log = (moves w.log).map (·.pid) ++ owed stage holder
  history : History pl (moves w.log) (a.node pl.inum) todo

variable {w : Pool Op Wait Pid Unit State Event} {holder : Option Pid} {todo : Pid → List Req} {stage : Pid → Stage}

theorem log_put (w : Pool Op Wait Pid Unit State Event) (p : Pid) (q : Call Unit) (t : State) : (w.put p q t []).log = w.log :=
  List.append_nil _

variable {q : Call Unit} {st : Stage}

theorem Good.doing_put (good : Good pl w a holder todo stage) (p : Pid) (t : State) (told : List Event)
    {td : List Req} (doing : Doing pl q td st) (p' : Pid) :
    Doing pl ((w.put p q t told).prog p') (update todo p td p') (update stage p st p') := by
  by_cases me : p' = p
  · subst me
    simpa [Pool.put] using doing
  · simpa [Pool.put,me] using good.doing p'

theorem Good.doing_keep (good : Good pl w a holder todo stage) (p : Pid) (t : State) (told : List Event)
    (doing : Doing pl q (todo p) st) (p' : Pid) :
    Doing pl ((w.put p q t told).prog p') (todo p') (update stage p st p') := by
  have put := good.doing_put p t told doing p'
  rwa [update_eq_self] at put

theorem Good.others (good : Good pl w a holder todo stage) {p' : Pid} (other : holder ≠ some p') : stage p' = .out := by
  by_contra busy
  exact other ((good.inside p').mp busy)

theorem Good.inside_put (good : Good pl w a (some p) todo stage) (busy : st ≠ .out) (p' : Pid) :
    update stage p st p' ≠ .out ↔ some p = some p' := by
  by_cases me : p' = p
  · subst me
    simpa using busy
  · rw [update_of_ne me,good.others (by simpa using Ne.symm me)]
    simpa using Ne.symm me

theorem Good.ready_put (good : Good pl w a (some p) todo stage) {off₀ : Nat}
    (mine : ∀ off, st = .ready off → off₀ = off) (p' : Pid) (off : Nat) (ready : update stage p st p' = .ready off) :
    off₀ = off := by
  by_cases me : p' = p
  · subst me
    exact mine off (by simpa using ready)
  · rw [update_of_ne me,good.others (by simpa using Ne.symm me)] at ready
    cases ready

variable {t : State}

theorem Good.quiet (good : Good pl w a holder todo stage) (repr : Represents t a)
    (doing : Doing pl q (todo p) (stage p)) : Good pl (w.put p q t []) a holder todo stage where
  repr := repr
  doing p' := by
    have keep := good.doing_keep p t [] doing p'
    rwa [update_eq_self] at keep
  file := good.file
  slot := good.slot
  inside := good.inside
  ready := good.ready
  count := by rw [log_put]; exact good.count
  took := by rw [log_put]; exact good.took
  history := by rw [log_put]; exact good.history

theorem Good.take (good : Good pl w a none todo stage)
    (repr : Represents t (a.setSlot pl.ip (some ⟨pl.inum,pl.ref,some p,true⟩))) (doing : Doing pl q (todo p) .locked) :
    Good pl (w.put p q t [.took p]) (a.setSlot pl.ip (some ⟨pl.inum,pl.ref,some p,true⟩)) (some p) todo (update stage p .locked) := by
  have same : moves (w.put p q t [.took p]).log = moves w.log := (moves_append ..).trans (List.append_nil _)
  have told : takers (w.put p q t [.took p]).log = takers w.log ++ [p] := takers_append ..
  refine ⟨repr,good.file,update_self ..,good.doing_keep p t _ doing,fun p' => ?_,fun p' off ready => ?_,?_,?_,?_⟩
  · by_cases me : p' = p
    · subst me
      simp
    · rw [update_of_ne me,good.others nofun]
      simpa using Ne.symm me
  · by_cases me : p' = p
    · subst me
      simp at ready
    · rw [update_of_ne me,good.others nofun] at ready
      cases ready
  · rw [same]
    simpa [pending,Stage.pending,Files.setSlot] using good.count
  · rw [same,told,good.took]
    simp [owed,Stage.owes]
  · rw [same]
    exact good.history

theorem Good.step (good : Good pl w a (some p) todo stage) {t' : Tables}
    (repr : Represents t { a with tables := t' }) (doing : Doing pl q (todo p) st) (busy : st ≠ .out)
    (owes : st.owes = (stage p).owes) (file : t'.file pl.f = { pl.file with off := (t'.file pl.f).off })
    (count : (t'.file pl.f).off + st.pending = (a.tables.file pl.f).off + (stage p).pending)
    (ready : ∀ off, st = .ready off → (t'.file pl.f).off = off) :
    Good pl (w.put p q t []) { a with tables := t' } (some p) todo (update stage p st) := by
  refine ⟨repr,file,good.slot,good.doing_keep p t _ doing,good.inside_put busy,good.ready_put ready,?_,?_,?_⟩
  · have before := good.count
    rw [log_put]
    simp only [pending,update_self] at before ⊢
    omega
  · rw [log_put,good.took]
    simp only [owed,update_self,owes]
  · rw [log_put]
    exact good.history

theorem Good.drop (good : Good pl w a (some p) todo stage) (done : stage p = .done)
    (repr : Represents t (a.setSlot pl.ip (some ⟨pl.inum,pl.ref,none,true⟩))) (doing : Doing pl q (todo p) .out) :
    Good pl (w.put p q t []) (a.setSlot pl.ip (some ⟨pl.inum,pl.ref,none,true⟩)) none todo (update stage p .out) := by
  have out (p' : Pid) : update stage p .out p' = .out := by
    by_cases me : p' = p
    · subst me
      simp
    · rw [update_of_ne me,good.others (by simpa using Ne.symm me)]
  refine ⟨repr,good.file,update_self ..,good.doing_keep p t _ doing,fun p' => ?_,fun p' off ready => ?_,?_,?_,?_⟩
  · rw [out]
    simp
  · rw [out] at ready
    cases ready
  · have before := good.count
    rw [log_put]
    simp only [pending,done,Stage.pending] at before
    exact before
  · rw [log_put,good.took]
    simp [owed,done,Stage.owes]
  · rw [log_put]
    exact good.history

theorem History.transfer (history : History pl ms (a.node pl.inum) todo)
    {bytes : List UInt8} {td td' : List Req} (here : off = pl.file.off + transferred ms) (todo' : todo p = piece :: td)
    (moved : Moved pl a a' off piece bytes) (sub : td'.Sublist td)
    (fits : off ≤ (a.node pl.inum).size.toNat → Fits off piece → td' = td ∧ Whole bytes piece) :
    History pl (ms ++ [⟨p,piece,off,bytes⟩]) (a'.node pl.inum) (update todo p td') := by
  have more : transferred (ms ++ [⟨p,piece,off,bytes⟩]) = transferred ms + bytes.length := by
    rw [transferred_append]
    simp [transferred]
  have fitting (now : Fitting pl (ms ++ [⟨p,piece,off,bytes⟩])) : Fitting pl ms ∧ td' = td ∧ Whole bytes piece := by
    obtain ⟨low,all⟩ := now
    refine ⟨⟨low,fun m mem => all m (List.mem_append_left _ mem)⟩,fits ?_ (all ⟨p,piece,off,bytes⟩ (by simp))⟩
    rw [here]
    exact history.reach low
  refine ⟨?_,consecutive_snoc history.consecutive here,?_,fun low => ?_,fun p' => ?_,fun now p' => ?_,fun now m mem => ?_⟩
  · have bound : MAXFILE * BSIZE < 2 ^ 32 := by decide
    have low := history.low
    rw [more]
    rcases eq_or_ne bytes [] with rfl | some'
    · simpa using low
    · have := moved.small some'
      omega
  · rw [replay_snoc,← history.node]
    exact moved.node p
  · have := moved.inside (by rw [here]; exact history.reach low)
    rw [more]
    omega
  · have order := history.order p'
    by_cases me : p' = p
    · subst me
      rw [todo'] at order
      refine List.Sublist.trans ?_ order
      simpa using sub
    · simpa [me,Ne.symm me] using order
  · obtain ⟨before,rfl,_⟩ := fitting now
    have order := history.exact' before p'
    by_cases me : p' = p
    · subst me
      rw [todo'] at order
      simpa using order
    · simpa [me,Ne.symm me] using order
  · obtain ⟨before,_,whole⟩ := fitting now
    rcases List.mem_append.mp mem with old | new
    · exact history.whole before m old
    · rw [List.mem_singleton.mp new]
      exact whole

theorem Good.transfer (good : Good pl w a (some p) todo stage)
    {bytes : List UInt8} {td td' : List Req} (ready : stage p = .ready off) (todo' : todo p = piece :: td)
    (repr : Represents t a') (moved : Moved pl a a' off piece bytes) (doing : Doing pl q td' (.moved bytes.length))
    (sub : td'.Sublist td) (fits : off ≤ (a.node pl.inum).size.toNat → Fits off piece → td' = td ∧ Whole bytes piece) :
    Good pl (w.put p q t [.moved ⟨p,piece,off,bytes⟩]) a' (some p) (update todo p td')
      (update stage p (.moved bytes.length)) := by
  have same : moves (w.put p q t [.moved ⟨p,piece,off,bytes⟩]).log = moves w.log ++ [⟨p,piece,off,bytes⟩] := moves_append ..
  have told : takers (w.put p q t [.moved ⟨p,piece,off,bytes⟩]).log = takers w.log :=
    (takers_append ..).trans (List.append_nil _)
  have here : (a.tables.file pl.f).off = off := good.ready p off ready
  have count := good.count
  simp only [pending,ready,Stage.pending,here,Nat.add_zero] at count
  have tables : a'.tables = a.tables := moved.only.tables
  refine ⟨repr,?_,?_,good.doing_put p t _ doing,good.inside_put nofun,good.ready_put nofun,?_,?_,?_⟩
  · rw [tables]
    exact good.file
  · rw [moved.only.slot]
    exact good.slot
  · rw [tables,same,here,transferred_append]
    simp only [pending,update_self,Stage.pending,transferred,List.map_cons,List.map_nil,List.sum_cons,List.sum_nil] at count ⊢
    omega
  · rw [same,told,good.took]
    simp [owed,ready,Stage.owes]
  · rw [same]
    exact good.history.transfer count todo' moved sub fits

/-! ### Every step keeps the invariant -/

theorem replay_type (n : Node) (ms : List Move) : (replay n ms).type = n.type := by
  induction ms generalizing n with
  | nil => rfl
  | cons m ms ih =>
    have one : (m.apply n).type = n.type := by
      unfold Move.apply
      split <;> rfl
    exact (ih (m.apply n)).trans one

theorem Good.positive (good : Good pl w a holder todo stage) : 0 < pl.ref := by
  obtain ⟨v,repr⟩ := good.repr
  exact (repr.inUse good.slot).2.1

theorem Good.small (good : Good pl w a holder todo stage) (regular : (a.node pl.inum).type = T_FILE) :
    (a.node pl.inum).size.toNat ≤ MAXFILE * BSIZE := by
  obtain ⟨v,repr⟩ := good.repr
  have looks := repr.nodes pl.inum (repr.inUse good.slot).2.2.2.2.1
  have small := looks.small
  rw [looks.attr] at small
  exact small (by rw [regular]; decide)

/-- There is a state of the invariant in which the pool is. -/
def Fine (pl : Plan) (w : Pool Op Wait Pid Unit State Event) : Prop := ∃ a holder todo stage, Good pl w a holder todo stage

theorem Good.fine (good : Good pl w a holder todo stage) : Fine pl w := ⟨a,holder,todo,stage,good⟩

variable {u : Pool Op Wait Pid Unit State Event}

theorem Good.turn_fresh (good : Good pl w a holder todo stage) (at' : w.prog p = q) (fresh : Fresh pl q (todo p))
    (out : stage p = .out) (turn : w.turn (crew pl.ip) p = some u) : Fine pl u := by
  generalize left' : todo p = td at fresh
  cases fresh with
  | script rs =>
    cases rs with
    | nil =>
      unfold Pool.turn at turn
      rw [at'] at turn
      cases turn
    | cons r rs =>
      cases r with
      | read n =>
        obtain ⟨b,t,ran,rfl⟩ := Pool.turn_op (o := .tables fun t => .ok (t.file pl.f,t)) at' turn
        have looks : filesStep p a (.tables fun t => .ok (t.file pl.f,t)) = .ok (a.tables.file pl.f,a) := rfl
        obtain ⟨rfl,repr⟩ := follows good.repr ran looks
        refine (good.quiet repr ?_).fine
        rw [out,left']
        refine .fresh ?_
        rw [good.file]
        change Fresh pl ((if pl.file.readable = false then _ else _) >>= fun _ => script pl.f rs) _
        rw [ite_bind,left,List.flatMap_cons,pieces]
        dsimp only
        cases readable : pl.file.readable with
        | false => exact .script rs
        | true =>
          simp only [pl.opened,bind_assoc,Bool.true_eq_false,if_false,if_true]
          exact .enter (.read n rs)
      | write src =>
        obtain ⟨b,t,ran,rfl⟩ := Pool.turn_op (o := .tables fun t => .ok (t.file pl.f,t)) at' turn
        have looks : filesStep p a (.tables fun t => .ok (t.file pl.f,t)) = .ok (a.tables.file pl.f,a) := rfl
        obtain ⟨rfl,repr⟩ := follows good.repr ran looks
        refine (good.quiet repr ?_).fine
        rw [out,left']
        refine .fresh ?_
        rw [good.file]
        change Fresh pl ((if pl.file.writable = false then _ else _) >>= fun _ => script pl.f rs) _
        rw [ite_bind,left,List.flatMap_cons,pieces]
        dsimp only
        cases writable : pl.file.writable with
        | false => exact .script rs
        | true =>
          simp only [pl.opened,bind_assoc,Bool.true_eq_false,if_false,if_true]
          exact fresh_rest rs (le_refl _)
  | enter next =>
    obtain ⟨b,t,ran,rfl⟩ := Pool.turn_op (o := .ref pl.ip) at' turn
    have count : filesStep p a (.ref pl.ip) = .ok ((pl.ref : Int),a) := by
      show a.handle pl.ip _ = _
      rw [Files.handle,good.slot]
    obtain ⟨rfl,repr⟩ := follows good.repr ran count
    refine (good.quiet repr ?_).fine
    rw [out,left']
    have enough : ¬(pl.ref : Int) < 1 := by
      have := good.positive
      omega
    change Doing pl ((if (pl.ref : Int) < 1 then _ else _) >>= fun _ => body pl.f pl.ip _ _ _) _ _
    rw [if_neg enough]
    exact .waiting next

theorem Good.turn (good : Good pl w a holder todo stage) (turn : w.turn (crew pl.ip) p = some u) : Fine pl u := by
  have doing := good.doing p
  generalize at' : w.prog p = q at doing
  generalize left' : todo p = td at doing
  generalize now : stage p = st at doing
  have mine (busy : st ≠ .out) : holder = some p := (good.inside p).mp (by rw [now]; exact busy)
  have count : filesStep p a (.ref pl.ip) = .ok ((pl.ref : Int),a) := by
    show a.handle pl.ip _ = _
    rw [Files.handle,good.slot]
  cases doing with
  | fresh fresh => exact good.turn_fresh at' (by rw [left']; exact fresh) now turn
  | waiting next =>
    obtain ⟨free,b,t,ran,rfl⟩ := Pool.turn_wait_op at' turn
    have free' : (files p).free (.ilock pl.ip) a = true := ((kernel_refines p).free _ good.repr).symm.trans free
    have nobody : holder = none := by
      have lock : a.lock pl.ip = holder := by rw [Files.lock,good.slot]; rfl
      have : (a.lock pl.ip).isNone = true := free'
      rw [lock] at this
      simpa using this
    subst nobody
    have takes : filesStep p a (.lock pl.ip) = .ok ((),a.setSlot pl.ip (some ⟨pl.inum,pl.ref,some p,true⟩)) := by
      show a.handle pl.ip _ = _
      rw [Files.handle,good.slot]
    obtain ⟨_,repr⟩ := follows good.repr ran takes
    have told : (crew pl.ip).tells p (.lock pl.ip) b = [.took p] := if_pos rfl
    rw [told]
    exact (good.take repr (by rw [left']; exact .loading next)).fine
  | loading next =>
    obtain ⟨b,t,ran,rfl⟩ := Pool.turn_op at' turn
    have loads : filesStep p a (.iload pl.ip) = .ok ((),a) := by
      show a.iload pl.ip = _
      rw [Files.iload,Files.handle,good.slot]
      rfl
    obtain ⟨_,repr⟩ := follows good.repr ran loads
    exact (good.quiet repr (by rw [left',now]; exact .reading next)).fine
  | reading next =>
    obtain ⟨b,t,ran,rfl⟩ := Pool.turn_op (o := .tables fun t => .ok ((t.file pl.f).off,t)) at' turn
    have looks : filesStep p a (.tables fun t => .ok ((t.file pl.f).off,t)) = .ok ((a.tables.file pl.f).off,a) := rfl
    obtain ⟨rfl,repr⟩ := follows good.repr ran looks
    obtain rfl := mine Stage.noConfusion
    have doing := Doing.moving next (a.tables.file pl.f).off
    rw [← left'] at doing
    exact (good.step repr doing Stage.noConfusion (by rw [now]; rfl) good.file (by rw [now]; rfl) fun off same => Stage.ready.inj same).fine
  | moving next off =>
    obtain ⟨b,t,ran,rfl⟩ := Pool.turn_op at' turn
    obtain rfl := mine Stage.noConfusion
    have regular : (a.node pl.inum).type = T_FILE := by rw [good.history.node,replay_type,pl.regular]
    obtain ⟨b',a',bytes,td',does,told,len,moved,fresh,sub,fits⟩ := Offsets.transfer next good.slot rfl rfl regular (good.small regular) p off
    obtain ⟨rfl,repr⟩ := follows good.repr ran does
    rw [show (crew pl.ip).tells p (_ : Op _) b' = _ from told]
    exact (good.transfer now left' repr moved (by rw [len]; exact .advancing fresh _) sub fits).fine
  | advancing fresh n =>
    obtain ⟨b,t,ran,rfl⟩ := Pool.turn_op at' turn
    obtain rfl := mine Stage.noConfusion
    have low := good.history.low
    have total := good.count
    simp only [pending,now,Stage.pending] at total
    have sum : ((a.tables.file pl.f).off + n) % 2 ^ 32 = (a.tables.file pl.f).off + n := Nat.mod_eq_of_lt (by omega)
    have adds : filesStep p a (.tables (advance pl.f n)) = .ok ((),{ a with
        tables := a.tables.setFile pl.f { a.tables.file pl.f with off := (a.tables.file pl.f).off + n } }) := by
      rw [← sum]
      rfl
    obtain ⟨_,repr⟩ := follows good.repr ran adds
    have file : (a.tables.setFile pl.f { a.tables.file pl.f with off := (a.tables.file pl.f).off + n }).file pl.f =
      { pl.file with off := (a.tables.file pl.f).off + n } := by
      simp only [Tables.setFile,update_self]
      rw [good.file]
    have doing := Doing.checking fresh
    rw [← left'] at doing
    refine (good.step repr doing Stage.noConfusion (by rw [now]; rfl) (by rw [file]) ?_ fun _ => Stage.noConfusion).fine
    rw [file,now]
    rfl
  | checking fresh =>
    obtain ⟨b,t,ran,rfl⟩ := Pool.turn_op (o := .holdingsleep pl.ip) at' turn
    obtain rfl := mine Stage.noConfusion
    have holds : filesStep p a (.holdingsleep pl.ip) = .ok (true,a) := by
      show a.handle pl.ip _ = _
      rw [Files.handle,good.slot]
      rfl
    obtain ⟨rfl,repr⟩ := follows good.repr ran holds
    exact (good.quiet repr (by rw [left',now]; exact .counting fresh)).fine
  | counting fresh =>
    obtain ⟨b,t,ran,rfl⟩ := Pool.turn_op at' turn
    obtain ⟨rfl,repr⟩ := follows good.repr ran count
    refine (good.quiet repr ?_).fine
    have enough : ¬(pl.ref : Int) < 1 := by
      have := good.positive
      omega
    rw [left',now,if_neg (by simpa using enough)]
    exact .unlocking fresh
  | unlocking fresh =>
    obtain ⟨b,t,ran,rfl⟩ := Pool.turn_op at' turn
    obtain rfl := mine Stage.noConfusion
    have gives : filesStep p a (.unlock pl.ip) = .ok ((),a.setSlot pl.ip (some ⟨pl.inum,pl.ref,none,true⟩)) := by
      show a.handle pl.ip _ = _
      rw [Files.handle,good.slot]
    obtain ⟨_,repr⟩ := follows good.repr ran gives
    exact (good.drop now repr (by rw [left']; exact .resting fresh)).fine
  | resting fresh =>
    have went := good.quiet good.repr (by rw [left',now]; exact .fresh fresh)
    rcases Pool.turn_wait at' turn with turn | rfl
    · exact went.turn_fresh (update_self ..) (by rw [left']; exact fresh) now turn
    · exact went.fine

/-! ### No byte is lost -/

theorem replay_writes {n : Node} (consecutive : Consecutive off ms)
    (writes : ∀ m ∈ ms, ∃ src, m.piece = .write src) : (replay n ms).data = overlay n.data off (ms.flatMap (·.bytes)) := by
  induction ms generalizing n off with
  | nil => exact (overlay_nil ..).symm
  | cons m ms ih =>
    obtain ⟨here,later⟩ := consecutive
    obtain ⟨src,write⟩ := writes m List.mem_cons_self
    have first : (m.apply n).data = overlay n.data off m.bytes := by
      rw [Move.apply,write,← here]
      rfl
    have both := overlay_append n.data off (m.bytes ++ ms.flatMap (·.bytes)) (m := m.bytes.length) (by simp)
    rw [List.take_left,List.drop_left] at both
    have rest := ih later (n := m.apply n) fun m mem => writes m (List.mem_cons_of_mem _ mem)
    rw [first] at rest
    exact rest.trans both

/-- A struct file is open on a regular file that nobody has locked. -/
@[mk_iff] structure Opened (s : State) (f : FileId) : Prop where
  type : (s.tables.file f).type = .FD_INODE
  off : (s.tables.file f).off < 2 ^ 32
  held : 0 < (s.icache (s.tables.file f).ip).ref
  free : (s.icache (s.tables.file f).ip).lock = none
  valid : (s.icache (s.tables.file f).ip).valid = true
  regular : (s.icache (s.tables.file f).ip).node.type = T_FILE

instance (s : State) (f : FileId) : Decidable (Opened s f) := decidable_of_iff _ (opened_iff s f).symm

/-- What the processes have done to the file and its offset, from the state `s` on. -/
structure Lossless (s : State) (f : FileId) (calls : Pid → List Req) (w : Pool Op Wait Pid Unit State Event) : Prop where
  /-- Each transfer starts where the one before it ended, the first at the offset at the start. -/
  consecutive : Consecutive (s.tables.file f).off (moves w.log)
  /-- While nobody has the inode locked, the offset is behind the last transfer. -/
  offset : (w.state.icache (s.tables.file f).ip).lock = none →
    (w.state.tables.file f).off = (s.tables.file f).off + transferred (moves w.log)
  /-- The transfers are in the order of the locks; the last process with the lock may have its transfer before it. -/
  locked : takers w.log = (moves w.log).map (·.pid) ∨ ∃ p, (w.state.icache (s.tables.file f).ip).lock = some p ∧
    takers w.log = (moves w.log).map (·.pid) ++ [p]
  /-- The pieces of a process are in the order of its calls. -/
  order : ∀ p, (((moves w.log).filter (·.pid = p)).map (·.piece)).Sublist ((calls p).flatMap (pieces (s.tables.file f)))
  /-- No piece is left out and each is written as a whole, as long as they fit: a process whose calls have ended has
      transferred them all. -/
  complete : (s.tables.file f).off ≤ (s.icache (s.tables.file f).ip).node.size.toNat →
    (∀ m ∈ moves w.log, Fits m.off m.piece) →
      (∀ p, ((moves w.log).filter (·.pid = p)).map (·.piece) <+: (calls p).flatMap (pieces (s.tables.file f))) ∧
      (∀ p, w.prog p = ret () →
        ((moves w.log).filter (·.pid = p)).map (·.piece) = (calls p).flatMap (pieces (s.tables.file f))) ∧
      ∀ m ∈ moves w.log, Whole m.bytes m.piece
  /-- After writes only, the file has the bytes of all of them from the offset at the start on. -/
  written : (∀ m ∈ moves w.log, ∃ src, m.piece = .write src) → ∀ off < MAXFILE * BSIZE,
    content w.state.disk (w.state.icache (s.tables.file f).ip).node off =
      overlay (content s.disk (s.icache (s.tables.file f).ip).node) (s.tables.file f).off ((moves w.log).flatMap (·.bytes)) off

theorem content_eq {s : State} {ip : Slot} {h : Handle} (repr : Represents s a) (slot : a.slot ip = some h) (valid : h.valid = true)
    (small : off < MAXFILE * BSIZE) : content s.disk (s.icache ip).node off = (a.node h.inum).data off := by
  obtain ⟨v,repr⟩ := repr
  obtain ⟨_,_,_,_,inside,_,_,node⟩ := repr.inUse slot
  obtain ⟨same,typed⟩ := node valid
  rw [same]
  exact (repr.nodes _ inside).data typed off small

/-- For any interleaving of reads and writes through a shared struct file, no byte is lost or transferred twice. -/
theorem shared_offset_lossless {s : State} {a : Files} (consistent : Represents s a) {f : FileId} (opened : Opened s f)
    (calls : Pid → List Req) {w : Pool Op Wait Pid Unit State Event}
    (runs : (pool s f calls).Runs (crew (s.tables.file f).ip) w) : Lossless s f calls w := by
  obtain ⟨h,slot⟩ : ∃ h, a.slot (s.tables.file f).ip = some h := by
    obtain ⟨v,repr⟩ := consistent
    cases slot : a.slot (s.tables.file f).ip with
    | none =>
      have := (repr.notInUse slot).1
      have := opened.held
      omega
    | some h => exact ⟨h,rfl⟩
  have facts : h.valid = true ∧ h.lock = none ∧ (a.node h.inum).toAttr = (s.icache (s.tables.file f).ip).node.toAttr ∧
      a.tables = s.tables := by
    obtain ⟨v,repr⟩ := consistent
    obtain ⟨_,_,_,_,inside,lock,valid,node⟩ := repr.inUse slot
    rw [opened.valid] at valid
    rw [opened.free] at lock
    exact ⟨valid.symm,lock.symm,by rw [(node valid.symm).1]; exact (repr.nodes _ inside).attr.symm,repr.tables⟩
  obtain ⟨valid,lock,attr,tables⟩ := facts
  let pl : Plan := ⟨f,s.tables.file f,opened.type,h.inum,h.ref,a.node h.inum,by rw [attr]; exact opened.regular,calls⟩
  have start : Good pl (pool s f calls) a none (fun p => left pl (calls p)) fun _ => .out := by
    refine ⟨consistent,?_,?_,fun p => .fresh (.script _),fun p => by simp,nofun,?_,rfl,?_⟩
    · rw [tables]
    · rw [show pl.ip = (s.tables.file f).ip from rfl,slot,← valid,← lock]
    · rw [tables]
      rfl
    · exact ⟨opened.off,trivial,rfl,id,fun p => by exact .refl _,fun _ _ => rfl,nofun⟩
  obtain ⟨a',holder,todo,stage,good⟩ : Fine pl w := runs.keeps start.fine fun v p u fine turn => by
    obtain ⟨a',holder,todo,stage,good⟩ := fine
    exact good.turn turn
  have table : w.state.tables = a'.tables := by
    obtain ⟨v,repr⟩ := good.repr
    exact repr.tables.symm
  have held : (w.state.icache (s.tables.file f).ip).lock = holder := by
    obtain ⟨v,repr⟩ := good.repr
    exact (repr.inUse good.slot).2.2.2.2.2.1
  refine ⟨good.history.consecutive,fun free => ?_,?_,fun p => ?_,fun low fits => ?_,fun writes off small => ?_⟩
  · have count := good.count
    rw [held] at free
    rw [free] at count
    rw [table]
    exact count
  · have took := good.took
    cases holder with
    | none => exact .inl (took.trans (List.append_nil _))
    | some p =>
      by_cases owes : (stage p).owes = true
      · rw [owed,if_pos owes] at took
        exact .inr ⟨p,held,took⟩
      · rw [owed,if_neg owes] at took
        exact .inl (took.trans (List.append_nil _))
  · exact (List.sublist_append_left _ _).trans (good.history.order p)
  · have fitting : Fitting pl (moves w.log) := ⟨by rw [attr]; exact low,fits⟩
    refine ⟨fun p => ⟨_,good.history.exact' fitting p⟩,fun p ended => ?_,good.history.whole fitting⟩
    have all := good.history.exact' fitting p
    rwa [(good.doing p).ended ended,List.append_nil] at all
  · rw [content_eq good.repr good.slot rfl small]
    show (a'.node pl.inum).data off = _
    rw [good.history.node,replay_writes good.history.consecutive writes]
    exact overlay_congr _ _ (content_eq consistent slot valid small).symm

/-! ### A run -/

/-- An image with one file, `a`. -/
def oneFile : Disk := Image.image [Image.dir 1 3 6,Image.file 1] [[Image.entry 1 dot,Image.entry 1 dotdot,Image.entry 2 [97]]]

/-- A process opens the file and forks. -/
def forked : State := ((Image.run [(0,.open (some [97]) O_RDWR),(0,.fork true true)] (Image.booted oneFile)).toOption.get
  (by decide +kernel)).2

theorem forked_clean : Clean forked where
  core := core_of_lists (by decide +kernel) (by decide +kernel) (by decide +kernel)
    (show targets _ _ _ = [6] by decide +kernel) (by decide) (by decide +kernel) (by decide +kernel)
  small := by decide +kernel
  slots := by decide +kernel
  unique := by decide +kernel

/-- Both processes write. -/
def writers (p : Pid) : List Req := if p = 0 then [.write [1,2]] else if p = 1 then [.write [3]] else []

/-- Both come to the lock; then the first has it, and after it the second. -/
def turns : List Pid := [0,0,1,1] ++ List.replicate 8 0 ++ List.replicate 8 1

theorem shared_offset_lossless_writers : ∃ w, (pool forked 0 writers).Runs (crew (forked.tables.file 0).ip) w ∧
    moves w.log = [⟨0,.write [1,2],0,[1,2]⟩,⟨1,.write [3],2,[3]⟩] ∧ Lossless forked 0 writers w := by
  have ran : ((pool forked 0 writers).follow (crew (forked.tables.file 0).ip) turns).isSome := by decide +kernel
  obtain ⟨w,follow⟩ := Option.isSome_iff_exists.mp ran
  have opened : Opened forked 0 := by decide +kernel
  have runs := Pool.Runs.refl.follow follow
  have told : (((pool forked 0 writers).follow (crew (forked.tables.file 0).ip) turns).map fun w => moves w.log) =
    some [⟨0,.write [1,2],0,[1,2]⟩,⟨1,.write [3],2,[3]⟩] := by decide +kernel
  rw [follow] at told
  exact ⟨w,runs,Option.some.inj told,shared_offset_lossless forked_clean.represents opened writers runs⟩

end Xv6.Offsets
