import Xv6.Lookups

/-!
Paths. A path is the list of its components: what stands between slashes, if it is not empty, cut to the length of a
name.
-/
namespace Xv6
open Xv6.Lib Prog Function

/-! ### Components -/

/-- The components of a path. -/
def comps (path : List UInt8) : List (List UInt8) := ((path.splitOn slash).filter (· ≠ [])).map (·.take DIRSIZ)

theorem splitOn_cons (c : UInt8) (path : List UInt8) :
    (c :: path).splitOn slash = if c = slash then [] :: path.splitOn slash else (path.splitOn slash).modifyHead (c :: ·) := by
  rw [List.splitOn,List.splitOnP_cons_eq_if_modifyHead]
  simp only [beq_iff_eq]
  rfl

theorem splitOn_eq (path : List UInt8) : path.splitOn slash = path.takeWhile (· ≠ slash) ::
    match path.dropWhile (· ≠ slash) with
    | [] => []
    | _ :: rest => rest.splitOn slash := by
  induction path with
  | nil => rfl
  | cons c path ih =>
    rw [splitOn_cons]
    by_cases here : c = slash
    · simp [here]
    · rw [if_neg here,ih]
      simp [here]

theorem dropWhile_head {f : UInt8 → Bool} {path rest : List UInt8} {c : UInt8} (left : path.dropWhile f = c :: rest) : f c = false := by
  have first := List.head?_dropWhile_not f path
  rwa [left] at first

theorem comps_slash (path : List UInt8) : comps (slash :: path) = comps path := by
  rw [comps,splitOn_cons,if_pos rfl]
  rfl

theorem comps_dropWhile (path : List UInt8) : comps (path.dropWhile (· = slash)) = comps path := by
  induction path with
  | nil => rfl
  | cons c path ih =>
    by_cases here : c = slash
    · subst here
      rw [comps_slash,← ih,List.dropWhile_cons_of_pos (by simp)]
    · rw [List.dropWhile_cons_of_neg (by simpa using here)]

theorem comps_cons {c : UInt8} {path : List UInt8} (other : c ≠ slash) : comps (c :: path) =
    ((c :: path).takeWhile (· ≠ slash)).take DIRSIZ :: comps (((c :: path).dropWhile (· ≠ slash)).dropWhile (· = slash)) := by
  rw [comps_dropWhile]
  conv_lhs => rw [comps,splitOn_eq]
  have some' : (c :: path).takeWhile (· ≠ slash) ≠ [] := by simp [other]
  rw [List.filter_cons_of_pos (by simpa using some'),List.map_cons]
  congr 1
  generalize left : (c :: path).dropWhile (· ≠ slash) = rest
  cases rest with
  | nil => rfl
  | cons e rest =>
    have cut : e = slash := by simpa using dropWhile_head left
    rw [cut,comps_slash]
    rfl

theorem skipelem_nil {path : List UInt8} (ended : comps path = []) : skipelem path = none := by
  unfold skipelem
  dsimp only
  rw [← comps_dropWhile] at ended
  cases left : path.dropWhile (· = slash) with
  | nil => rfl
  | cons c rest =>
    have other : c ≠ slash := by simpa using dropWhile_head left
    rw [left,comps_cons other] at ended
    cases ended

theorem skipelem_cons {path name : List UInt8} {names : List (List UInt8)} (more : comps path = name :: names) :
    ∃ rest, skipelem path = some (name,rest) ∧ comps rest = names ∧ (rest = [] ↔ names = []) ∧ rest.length < path.length := by
  unfold skipelem
  dsimp only
  rw [← comps_dropWhile] at more
  have shorter := (List.dropWhile_sublist (fun e => decide (e = slash)) (l := path)).length_le
  cases left : path.dropWhile (· = slash) with
  | nil =>
    rw [left] at more
    cases more
  | cons c rest =>
    have other : c ≠ slash := by simpa using dropWhile_head left
    rw [left] at more shorter
    rw [comps_cons other] at more
    obtain ⟨rfl,rfl⟩ := List.cons.inj more
    refine ⟨_,by rw [if_neg (by simp)],rfl,?_,?_⟩
    · generalize after : ((c :: rest).dropWhile (· ≠ slash)).dropWhile (· = slash) = path'
      cases path' with
      | nil => exact ⟨fun _ => rfl,fun _ => rfl⟩
      | cons e path' =>
        have other' : e ≠ slash := by simpa using dropWhile_head after
        rw [comps_cons other']
        exact ⟨nofun,nofun⟩
    · have first := (List.dropWhile_sublist (fun e => decide (e ≠ slash)) (l := rest)).length_le
      have second := (List.dropWhile_sublist (fun e => decide (e = slash)) (l := rest.dropWhile (· ≠ slash))).length_le
      rw [List.dropWhile_cons_of_pos (by simpa using other)]
      rw [List.length_cons] at shorter
      omega

/-! ### Walks -/

/-- From an inode to the one that it has under a name. -/
def enter (node : Nat → Node) (i : Nat) (name : List UInt8) : Option Nat :=
  if (node i).type = T_DIR then ((node i).find name).map fun k => ((node i).entry k).inum.toNat else none

/-- The inode that is reached by looking up names one after the other. -/
def resolve (node : Nat → Node) (start : Nat) (names : List (List UInt8)) : Option Nat := names.foldlM (enter node) start

/-- The directory in which the last name is to be looked up, and that name. -/
def resolveParent (node : Nat → Node) (start : Nat) (names : List (List UInt8)) : Option (Nat × List UInt8) := do
  let name ← names.getLast?
  let d ← resolve node start names.dropLast
  if (node d).type = T_DIR then some (d,name) else none

/-- Where `namex` ends. -/
def walk (node : Nat → Node) (parent : Bool) : Nat → List (List UInt8) → Option (Nat × List UInt8)
  | i,[] => if parent then none else some (i,[])
  | i,name :: names =>
    if (node i).type ≠ T_DIR then none
    else if parent ∧ names = [] then some (i,name)
    else match (node i).find name with
      | none => none
      | some k => walk node parent ((node i).entry k).inum.toNat names

theorem walk_false (node : Nat → Node) (i : Nat) (names : List (List UInt8)) :
    walk node false i names = (resolve node i names).map fun j => (j,[]) := by
  induction names generalizing i with
  | nil => rfl
  | cons name names ih =>
    rw [walk,resolve,List.foldlM_cons]
    by_cases dir : (node i).type = T_DIR
    · rw [if_neg (not_not.mpr dir),if_neg (by simp)]
      simp only [enter,dir,if_true]
      cases (node i).find name with
      | none => rfl
      | some k => exact ih _
    · rw [if_pos dir]
      simp only [enter,dir,if_false]
      rfl

theorem walk_true (node : Nat → Node) (i : Nat) (names : List (List UInt8)) :
    walk node true i names = resolveParent node i names := by
  induction names generalizing i with
  | nil => rfl
  | cons name names ih =>
    rw [walk]
    cases names with
    | nil =>
      by_cases dir : (node i).type = T_DIR
      · simp [dir,resolveParent,resolve]
      · simp [dir,resolveParent,resolve]
    | cons name' names =>
      by_cases dir : (node i).type = T_DIR
      · rw [if_neg (not_not.mpr dir),if_neg (by simp),resolveParent,List.getLast?_cons_cons,List.dropLast_cons_cons,resolve,
          List.foldlM_cons]
        simp only [enter,dir,if_true]
        cases (node i).find name with
        | none => cases (name' :: names).getLast? <;> rfl
        | some k => exact ih _
      · rw [if_pos dir,resolveParent,List.getLast?_cons_cons,List.dropLast_cons_cons,resolve,List.foldlM_cons]
        simp only [enter,dir,if_false]
        cases (name' :: names).getLast? <;> rfl

/-! ### `namex` -/

variable {x y : World} {ip jp : Slot} {r q : Ref} {i j : Nat} {p : Pid} {name path : List UInt8} {parent fresh : Bool}
  {E : Stop Wait → Prop}

/-- An inode has links, or it is in use. -/
def World.Linked (x : World) (i : Nat) : Prop :=
  (x.node i).type ≠ 0 → (x.node i).nlink = 0 → ∃ ip r, x.held ip = some r ∧ r.inum = i

/-- An entry of the cache is not in use, or it is not locked and has been read. -/
def World.Idle (x : World) (ip : Slot) : Prop := ∀ r, x.held ip = some r → r.lock = none ∧ r.fresh = false

/-- No call is under way: nothing is locked, every inode has its blocks, and one that can be looked up has links or is in
    use. -/
structure World.Calm (x : World) : Prop where
  idle : ∀ ip, x.Idle ip
  solid : ∀ i, ¬x.holey i
  hard : ∀ i, ¬x.soft i
  root : x.Linked ROOTINO
  named : ∀ d < x.ninodes, (x.node d).type = T_DIR → ∀ k, (x.node d).live k → x.Linked ((x.node d).entry k).inum.toNat

/-- The panics of a walk: too few entries of the cache are free, an entry of a directory names a free inode, or the size
    of a directory is not that of its entries. -/
structure Stops (x : World) (E : Stop Wait → Prop) : Prop where
  full : (∃ jp, ∀ kp, kp ≠ jp → x.held kp ≠ none) → E (.panic "iget: no inodes")
  dangling : ∀ d < x.ninodes, (x.node d).type = T_DIR → ∀ k, (x.node d).live k →
    (x.node ((x.node d).entry k).inum.toNat).type = 0 → E (.panic "ilock: no type")
  odd : ∀ d < x.ninodes, (x.node d).type = T_DIR → ¬(x.node d).aligned → E (.panic "dirlookup read")

theorem World.Idle.held_hold (idle : x.Idle ip) (fits : x.Fits ip i) (fresh : Bool) :
    ∃ r, (x.hold ip i fresh).held ip = some r ∧ r.inum = i ∧ r.lock = none ∧ 0 < r.ref ∧
      (r.ref = 1 → x.Ok → ∀ jp q, x.held jp = some q → q.inum ≠ i) := by
  rcases fits with ⟨r,here,same⟩ | ⟨free,absent⟩
  · refine ⟨{ r with ref := r.ref + 1 },by rw [hold_some here,held_setHeld],same,(idle r here).1,
      Nat.succ_pos _,fun last ok => ?_⟩
    have used := ok.used ip r here
    exact absurd last (by show ¬r.ref + 1 = 1; omega)
  · exact ⟨⟨i,1,none,fresh⟩,by rw [hold_none free,held_setHeld],rfl,rfl,Nat.one_pos,fun _ _ => absent⟩

theorem World.Idle.lock_unlock (idle : x.Idle ip) (i : Nat) (fresh : Bool) (holder : Option Pid) :
    ((x.hold ip i fresh).lock ip holder).lock ip none = x.hold ip i false := by
  cases here : x.held ip with
  | none =>
    rw [hold_none here,hold_none here,lock_some' (held_setHeld ..),setHeld_setHeld,lock_some' (held_setHeld ..),setHeld_setHeld]
  | some r =>
    obtain ⟨lock,old⟩ := idle r here
    rw [hold_some here,hold_some here,lock_some' (held_setHeld ..),setHeld_setHeld,lock_some' (held_setHeld ..),setHeld_setHeld]
    simp only [← lock,← old]

theorem World.Linked.held (here : x.held ip = some r) : x.Linked r.inum := fun _ _ => ⟨ip,r,here,rfl⟩

theorem World.Linked.nlink (linked : x.Linked i) (typed : (x.node i).type ≠ 0)
    (absent : ∀ jp q, x.held jp = some q → q.inum ≠ i) : (x.node i).nlink ≠ 0 := fun nolink =>
  have ⟨jp,q,there,same⟩ := linked typed nolink
  absent jp q there same

/-- From one directory to the next: the reference to the first is given back. -/
theorem World.Calm.step (calm : x.Calm) (ok : x.Ok) (fits : x.Fits ip i)
    (next : ((x.hold ip i fresh).lock ip (some p)).Fits jp j) : x.Fits jp j ∧ ∃ fresh',
      ((((x.hold ip i fresh).lock ip (some p)).take jp j).lock ip none).drop ip = x.hold jp j fresh' := by
  obtain ⟨r,held,inum,_,used,_⟩ := (calm.idle ip).held_hold fits fresh
  have locked : ((x.hold ip i fresh).lock ip (some p)).held ip = some { r with lock := some p, fresh := false } := by
    rw [lock_some' held,held_setHeld]
  rcases eq_or_ne jp ip with rfl | other
  · have same : i = j := by
      rcases next with ⟨q,there,same⟩ | ⟨free,_⟩
      · rw [locked] at there
        cases there
        exact inum.symm.trans same
      · rw [locked] at free
        cases free
    subst same
    refine ⟨fits,false,?_⟩
    rw [take_some locked,lock_some' (held_setHeld ..),setHeld_setHeld,drop_some (held_setHeld ..),
      if_pos (by show 1 < r.ref + 1; omega),setHeld_setHeld,← (calm.idle jp).lock_unlock i fresh (some p),lock_some' locked]
    rfl
  · have kept : ((x.hold ip i fresh).lock ip (some p)).held jp = x.held jp := by
      rw [lock_some' held,held_setHeld_other _ _ other,World.hold,held_setHeld_other _ _ other]
    refine ⟨?_,true,?_⟩
    · rcases next with ⟨q,there,same⟩ | ⟨free,absent⟩
      · exact .inl ⟨q,kept ▸ there,same⟩
      · refine .inr ⟨kept ▸ free,fun kp q there => ?_⟩
        rcases eq_or_ne kp ip with rfl | apart
        · have mine : q.inum = r.inum := by
            rcases fits with ⟨o,here,same⟩ | ⟨free',_⟩
            · rw [there] at here
              cases here
              rw [same,inum]
            · rw [there] at free'
              cases free'
          rw [mine]
          exact absent kp { r with lock := some p, fresh := false } locked
        · refine absent kp q ?_
          rwa [lock_some' held,held_setHeld_other _ _ apart,World.hold,held_setHeld_other _ _ apart]
    · have taken : ((x.hold ip i fresh).lock ip (some p)).take jp j = ((x.hold ip i fresh).lock ip (some p)).setHeld jp
          ((x.hold jp j true).held jp) := by
        cases there : x.held jp with
        | none => rw [take_none (kept.trans there),hold_none there,held_setHeld]
        | some q => rw [take_some (kept.trans there),hold_some there,held_setHeld]
      rw [taken,lock_setHeld_other other.symm,drop_setHeld_other other.symm,(calm.idle ip).lock_unlock,hold_drop ok,World.hold,held_setHeld]

/-- Where a walk has come to: a reference to its end has been taken, or nothing has changed. -/
def Arrives (x : World) (target : Option (Nat × List UInt8)) (found : Option (Slot × List UInt8)) (y : World) : Prop :=
  match target with
  | none => found = none ∧ y = x
  | some (j,name) => ∃ jp fresh, found = some (jp,name) ∧ x.Fits jp j ∧ j < x.ninodes ∧ x.Linked j ∧ y = x.hold jp j fresh

theorem World.Idle.held_lock (idle : x.Idle ip) (fits : x.Fits ip i) (fresh : Bool) (p : Pid) :
    ∃ r, ((x.hold ip i fresh).lock ip (some p)).held ip = some r ∧ r.inum = i ∧ r.lock = some p ∧ 0 < r.ref ∧
      (r.ref = 1 → x.Ok → ∀ jp q, x.held jp = some q → q.inum ≠ i) := by
  obtain ⟨r,held,inum,_,used,last⟩ := idle.held_hold fits fresh
  exact ⟨{ r with lock := some p, fresh := false },by rw [lock_some' held,held_setHeld],inum,rfl,used,last⟩

theorem runs_giveback {Q : Unit → World → Prop} (idle : x.Idle ip) (hard : ¬x.soft i) (ok : x.Ok) (fits : x.Fits ip i)
    (linked : x.Linked i) (typed : (x.node i).type ≠ 0) (next : Q () x) :
    Runs p (iunlockput ip) Q E ((x.hold ip i fresh).lock ip (some p)) := by
  obtain ⟨r,locked,inum,holder,_,last⟩ := idle.held_lock fits fresh p
  refine runs_iunlockput locked (by rw [holder]; simp) (inum ▸ hard) (fun _ => ?_) fun only nolink => ?_
  · rwa [idle.lock_unlock,hold_drop ok]
  · change (x.node r.inum).nlink = 0 at nolink
    rw [inum] at nolink
    exact absurd nolink (linked.nlink typed (last only ok))

theorem runs_release {Q : Unit → World → Prop} (calm : x.Calm) (ok : x.Ok) (fits : x.Fits ip i) (linked : x.Linked i)
    (typed : (x.node i).type ≠ 0) (next : Q () x) : Runs p (iunlockput ip) Q E ((x.hold ip i fresh).lock ip (some p)) :=
  runs_giveback (calm.idle ip) (calm.hard i) ok fits linked typed next

theorem runs_advance {Q : Unit → World → Prop} (calm : x.Calm) (ok : x.Ok) (fits : x.Fits ip i) (linked : x.Linked i)
    (typed : (x.node i).type ≠ 0) (next : ((x.hold ip i fresh).lock ip (some p)).Fits jp j)
    (done : ∀ fresh', x.Fits jp j → Q () (x.hold jp j fresh')) :
    Runs p (iunlockput ip) Q E (((x.hold ip i fresh).lock ip (some p)).take jp j) := by
  obtain ⟨q,locked,rfl,holder,_,last⟩ := (calm.idle ip).held_lock fits fresh p
  obtain ⟨fits',fresh',moved⟩ := calm.step ok fits next
  obtain ⟨n,more,held'⟩ := held_take locked jp j
  refine runs_iunlockput held' (by rw [holder]; simp) (calm.hard _) (fun _ => ?_) fun only nolink => ?_
  · rw [moved]
    exact done fresh' fits'
  · exact absurd nolink (linked.nlink typed (last (by change n = 1 at only; omega) ok))

theorem runs_namex_from (calm : x.Calm) (ok : x.Ok) (stops : Stops x E) (fuel : Nat) (fits : x.Fits ip i) (inside : i < x.ninodes)
    (linked : x.Linked i) (typed : (x.node i).type = 0 → E (.panic "ilock: no type")) (enough : path.length < fuel) :
    Runs p (namex_from parent fuel ip path) (Arrives x (walk x.node parent i (comps path))) E (x.hold ip i fresh) := by
  induction fuel generalizing ip i path fresh with
  | zero => omega
  | succ fuel ih =>
    obtain ⟨r,held,inum,free,_,last⟩ := (calm.idle ip).held_hold fits fresh
    unfold namex_from
    cases names : comps path with
    | nil =>
      rw [skipelem_nil names,walk]
      dsimp only
      cases parent with
      | false => exact seen_pure ⟨ip,fresh,rfl,fits,inside,linked,rfl⟩
      | true =>
        rw [if_pos rfl,if_pos rfl]
        refine seen_bind (runs_iput held (calm.hard _) (fun bad => absurd free bad) ?_ fun _ only nolink known => ?_)
        · exact seen_pure ⟨rfl,hold_drop ok ip i fresh⟩
        · change (x.node r.inum).nlink = 0 at nolink
          change (x.node r.inum).type ≠ 0 at known
          rw [inum] at nolink known
          exact absurd nolink (linked.nlink known (last only ok))
    | cons name names =>
      obtain ⟨rest,skip,rfl,ends,shorter⟩ := skipelem_cons names
      rw [skip,walk]
      refine seen_bind (runs_ilock held (calm.hard _) (fun bad => absurd free bad) (by rwa [inum]) fun _ known => ?_)
      change (x.node r.inum).type ≠ 0 at known
      rw [inum] at known
      obtain ⟨q,locked,same,holder,used,last⟩ := (calm.idle ip).held_lock fits fresh p
      have busy : q.lock ≠ none := by rw [holder]; simp
      refine seen_bind (runs_attr locked busy ?_)
      subst same
      change Runs p (if (x.node q.inum).type ≠ T_DIR then _ else _) _ E _
      by_cases dir : (x.node q.inum).type = T_DIR
      · rw [if_neg (not_not.mpr dir),if_neg (not_not.mpr dir)]
        by_cases final : parent = true ∧ rest = []
        · rw [if_pos final,if_pos ⟨final.1,ends.mp final.2⟩]
          refine seen_bind (runs_iunlock locked busy ?_)
          rw [(calm.idle ip).lock_unlock]
          exact seen_pure ⟨ip,false,rfl,fits,inside,linked,rfl⟩
        · rw [if_neg final,if_neg fun both => final ⟨both.1,ends.mpr both.2⟩]
          refine seen_bind (runs_dirlookup locked busy dir (fun holey => absurd holey (calm.solid _)) (fun all => stops.full ⟨ip,fun kp other => ?_⟩)
            (fun odd _ => stops.odd _ inside dir odd) (fun y reads absent => ?_) fun y k next reads found next_fits => ?_)
          · have there := all kp
            rwa [lock_some' held,held_setHeld_other _ _ other,World.hold,held_setHeld_other _ _ other] at there
          · change (x.node q.inum).find name = none at absent
            rw [reads.solid (calm.solid _),absent]
            exact seen_bind (runs_release calm ok fits linked known (seen_pure ⟨rfl,rfl⟩))
          · change (x.node q.inum).find name = some k at found
            change y.Fits next ((x.node q.inum).entry k).inum.toNat at next_fits
            change Runs p _ _ E (y.take next ((x.node q.inum).entry k).inum.toNat)
            rw [reads.solid (calm.solid _)] at next_fits ⊢
            rw [found]
            have live := (find_some found).1
            have there := ok.range q.inum inside dir k live
            exact seen_bind (runs_advance calm ok fits linked known next_fits fun fresh' fits' =>
              ih fits' there (calm.named q.inum inside dir k live) (stops.dangling q.inum inside dir k live) (by omega))
      · rw [if_pos dir,if_pos dir]
        exact seen_bind (runs_release calm ok fits linked known (seen_pure ⟨rfl,rfl⟩))

/-- Where a path starts: at the root, or at the current directory. -/
def World.start (x : World) (p : Pid) (path : List UInt8) : Option Nat :=
  if path.head? = some slash then some ROOTINO
  else (x.tables.proc p).cwd.bind fun ip => (x.held ip).map (·.inum)

/-- The process has a current directory, and there is a root. -/
structure World.Placed (x : World) (p : Pid) : Prop where
  root : ROOTINO < x.ninodes
  cwd : ∃ ip r, (x.tables.proc p).cwd = some ip ∧ x.held ip = some r

theorem runs_cwdOf {Q : Slot → World → Prop} (cwd : (x.tables.proc p).cwd = some ip) (next : Q ip x) : Runs p (cwdOf p) Q E x := by
  unfold cwdOf
  refine seen_bind (runs_tables (fun a t ran => ?_) nofun)
  cases ran
  rw [cwd]
  exact seen_pure next

theorem runs_namex (calm : x.Calm) (stops : Stops x E) (placed : x.Placed p)
    (typed : ∀ i, x.start p path = some i → (x.node i).type = 0 → E (.panic "ilock: no type")) :
    Runs p (namex p path parent) (fun found y => ∃ i, x.start p path = some i ∧ i < x.ninodes ∧
      Arrives x (walk x.node parent i (comps path)) found y) E x := by
  refine seen_known (fun _ now => now.ok) fun ok => ?_
  have walked {ip : Slot} {i : Nat} (start : x.start p path = some i) (fits : x.Fits ip i) (inside : i < x.ninodes)
      (linked : x.Linked i) : Runs p (namex_from parent (path.length + 1) ip path) (fun found y => ∃ i, x.start p path = some i ∧ i < x.ninodes ∧
        Arrives x (walk x.node parent i (comps path)) found y) E (x.take ip i) :=
    seen_use (runs_namex_from calm ok stops _ fits inside linked (typed i start) (Nat.lt_succ_self _))
      fun found y arrives => ⟨i,start,inside,arrives⟩
  unfold namex namex_start
  refine seen_bind ?_
  by_cases absolute : path.head? = some slash
  · rw [if_pos absolute]
    have start : x.start p path = some ROOTINO := if_pos absolute
    exact runs_iget placed.root (fun all => stops.full ⟨0,fun kp _ => all kp⟩) fun ip fits => walked start fits placed.root calm.root
  · rw [if_neg absolute]
    obtain ⟨ip,r,cwd,here⟩ := placed.cwd
    have start : x.start p path = some r.inum := by rw [World.start,if_neg absolute,cwd,Option.bind_some,here]; rfl
    refine seen_bind (runs_cwdOf cwd (seen_bind (runs_idup here r.inum (seen_pure ?_))))
    exact walked start (.inl ⟨r,here,rfl⟩) (ok.inside ip r here) (.held here)

/-- `namei`: nothing has changed, or a reference to the inode has been taken. -/
def Reached (x : World) (target : Option Nat) (found : Option Slot) (y : World) : Prop :=
  match target with
  | none => found = none ∧ y = x
  | some j => ∃ jp fresh, found = some jp ∧ x.Fits jp j ∧ j < x.ninodes ∧ x.Linked j ∧ y = x.hold jp j fresh

theorem runs_namei (calm : x.Calm) (stops : Stops x E) (placed : x.Placed p)
    (typed : ∀ i, x.start p path = some i → (x.node i).type = 0 → E (.panic "ilock: no type")) :
    Runs p (namei p path) (fun found y => ∃ i, x.start p path = some i ∧ i < x.ninodes ∧
      Reached x (resolve x.node i (comps path)) found y) E x := by
  unfold namei
  refine seen_then (runs_namex calm stops placed typed) fun found y ⟨i,start,inside,arrives⟩ => seen_pure ⟨i,start,inside,?_⟩
  rw [walk_false] at arrives
  cases target : resolve x.node i (comps path) with
  | none =>
    rw [target] at arrives
    obtain ⟨rfl,rfl⟩ := arrives
    exact ⟨rfl,rfl⟩
  | some j =>
    rw [target] at arrives
    obtain ⟨jp,fresh,rfl,fits,inside,linked,rfl⟩ := arrives
    exact ⟨jp,fresh,rfl,fits,inside,linked,rfl⟩

theorem runs_nameiparent (calm : x.Calm) (stops : Stops x E) (placed : x.Placed p)
    (typed : ∀ i, x.start p path = some i → (x.node i).type = 0 → E (.panic "ilock: no type")) :
    Runs p (nameiparent p path) (fun found y => ∃ i, x.start p path = some i ∧ i < x.ninodes ∧
      Arrives x (resolveParent x.node i (comps path)) found y) E x := by
  unfold nameiparent
  refine seen_use (runs_namex calm stops placed typed) fun found y ⟨i,start,inside,arrives⟩ => ⟨i,start,inside,?_⟩
  rwa [walk_true] at arrives

end Xv6
