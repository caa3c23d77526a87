import Xv6.Alone
import Xv6.DirMap
import Xv6.MkfsRead
import Xv6.Offsets

/-!
Path resolution on the kernel.
-/
namespace Xv6
open Xv6.Lib Prog Function

variable {s t : State} {x : World} {ip : Slot} {i : Nat} {p : Pid} {E : Stop Wait → Prop}

/-! ### Slashes -/

theorem splitOn_append (a b : List UInt8) : (a ++ slash :: b).splitOn slash = a.splitOn slash ++ b.splitOn slash := by
  induction a with
  | nil => rw [List.nil_append,splitOn_cons,if_pos rfl]; rfl
  | cons c a ih =>
    rw [List.cons_append,splitOn_cons,splitOn_cons,ih]
    split
    · rfl
    · rw [splitOn_eq a,List.cons_append,List.modifyHead_cons,List.modifyHead_cons,List.cons_append]

theorem comps_append (a b : List UInt8) : comps (a ++ slash :: b) = comps a ++ comps b := by
  rw [comps,splitOn_append,List.filter_append,List.map_append]
  rfl

theorem comps_repeated (a b : List UInt8) : comps (a ++ slash :: slash :: b) = comps (a ++ slash :: b) := by
  rw [comps_append,comps_append,comps_slash]

theorem comps_trailing (a : List UInt8) : comps (a ++ [slash]) = comps a := by
  rw [comps_append]
  exact List.append_nil _

/-! ### Walks on the kernel -/

/-- Where a path starts, for a process whose current directory is in entry `cp`. -/
def startOf (s : State) (cp : Slot) (path : List UInt8) : Nat :=
  if path.head? = some slash then ROOTINO else (s.icache cp).inum

/-- The root is there, what directories name is allocated, and directories are no more than their entries. -/
structure Undangling (s : State) : Prop where
  root : ((view s).node ROOTINO).type ≠ 0
  named : ∀ d < s.sb.ninodes, ((view s).node d).type = T_DIR → ((view s).node d).aligned ∧
    ∀ k, ((view s).node d).live k → ((view s).node (((view s).node d).entry k).inum.toNat).type ≠ 0

/-- The current directory of a process is an inode in use. -/
structure Cwd (s : State) (p : Pid) (cp : Slot) : Prop where
  cwd : (s.tables.proc p).cwd = some cp
  used : (s.icache cp).ref ≠ 0
  typed : ((view s).node (s.icache cp).inum).type ≠ 0

theorem Cwd.start {cp : Slot} (cwd : Cwd s p cp) (path : List UInt8) : s.still.start p path = some (startOf s cp path) := by
  unfold World.start startOf
  split
  · rfl
  · rw [show s.still.tables = s.tables from rfl,cwd.cwd,Option.bind_some,held_still cwd.used]
    rfl

theorem Cwd.placed {cp : Slot} (cwd : Cwd s p cp) (orderly : Orderly s) : s.still.Placed p :=
  ⟨orderly.root.1,cp,_,cwd.cwd,held_still cwd.used⟩

/-- Two entries of the cache are not in use. -/
def Room (s : State) : Prop := ∃ ip jp, ip ≠ jp ∧ (s.icache ip).ref = 0 ∧ (s.icache jp).ref = 0

theorem Undangling.stops (whole : Undangling s) (room : Room s) : Stops s.still fun _ => False where
  full := by
    rintro ⟨kp,all⟩
    obtain ⟨ip,jp,apart,free,free'⟩ := room
    have unused {lp : Slot} (free : (s.icache lp).ref = 0) : s.still.held lp = none := if_pos free
    by_cases here : ip = kp
    · exact all jp (fun same => apart (here.trans same.symm)) (unused free')
    · exact all ip here (unused free)
  dangling d inside dir k live free := (whole.named d inside dir).2 k live free
  odd d inside dir bad := bad (whole.named d inside dir).1

theorem Undangling.typed (whole : Undangling s) {cp : Slot} (cwd : Cwd s p cp) {path : List UInt8} (start : s.still.start p path = some i) :
    (s.still.node i).type ≠ 0 := by
  rw [cwd.start] at start
  cases start
  unfold startOf
  split
  · exact whole.root
  · exact cwd.typed

theorem held_fits (fits : x.Fits ip i) (fresh : Bool) : ∃ r, (x.hold ip i fresh).held ip = some r ∧ r.inum = i := by
  rcases fits with ⟨r,here,same⟩ | ⟨free,_⟩
  · exact ⟨{ r with ref := r.ref + 1 },by rw [hold_some here,held_setHeld],same⟩
  · exact ⟨⟨i,1,none,fresh⟩,by rw [hold_none free,held_setHeld],rfl⟩

theorem Arrives.notes {y : World} {target : Option (Nat × List UInt8)} {found : Option (Slot × List UInt8)}
    (arrives : Arrives x target found y) : y.notes = x.notes := by
  cases target with
  | none => rw [arrives.2]
  | some j =>
    obtain ⟨_,_,_,_,_,_,rfl⟩ := arrives
    rfl

theorem Reached.notes {y : World} {target : Option Nat} {found : Option Slot} (reached : Reached x target found y) :
    y.notes = x.notes := by
  cases target with
  | none => rw [reached.2]
  | some j =>
    obtain ⟨_,_,_,_,_,_,rfl⟩ := reached
    rfl

/-- `namei` returns the inode that is reached by looking up the components of the path one after the other, and no inode
    if there is none; `nameiparent` returns the directory of the last component, and that component. Both depend on
    where the path starts and on its components only, so repeated and trailing slashes make no difference. -/
theorem path_resolution {cp : Slot} (orderly : Orderly s) (whole : Undangling s) (cwd : Cwd s p cp) (room : Room s) (path : List UInt8) :
    (∃ r t, exec (kernel p) (namei p path) s = .ok (r,t) ∧
      r.map (fun ip => (t.icache ip).inum) = resolve (view s).node (startOf s cp path) (comps path)) ∧
    (∃ r t, exec (kernel p) (nameiparent p path) s = .ok (r,t) ∧
      r.map (fun found => ((t.icache found.1).inum,found.2)) = resolveParent (view s).node (startOf s cp path) (comps path)) ∧
    (∀ a b, comps (a ++ slash :: slash :: b) = comps (a ++ slash :: b) ∧
      startOf s cp (a ++ slash :: slash :: b) = startOf s cp (a ++ slash :: b)) ∧
    ∀ a, comps (a ++ [slash]) = comps a ∧ (a ≠ [] → startOf s cp (a ++ [slash]) = startOf s cp a) := by
  have start := cwd.start path
  have typed i (here : s.still.start p path = some i) (bad : (s.still.node i).type = 0) : False := whole.typed cwd here bad
  refine ⟨?_,?_,fun a b => ⟨comps_repeated a b,?_⟩,fun a => ⟨comps_trailing a,fun some' => ?_⟩⟩
  · obtain ⟨r,t,ran,y,stands,i,here,_,reached⟩ := orderly.stands.returns (c := namei p path)
      (runs_namei orderly.calm (whole.stops room) (cwd.placed orderly) typed) fun r y ⟨i,_,_,reached⟩ => by rw [reached.notes]
    refine ⟨r,t,ran,?_⟩
    rw [start] at here
    cases here
    change Reached s.still (resolve (view s).node (startOf s cp path) (comps path)) r y at reached
    generalize resolve (view s).node (startOf s cp path) (comps path) = target at reached ⊢
    cases target with
    | none =>
      rw [reached.1]
      rfl
    | some j =>
      obtain ⟨jp,fresh,rfl,fits,_,_,rfl⟩ := reached
      obtain ⟨q,held,rfl⟩ := held_fits fits fresh
      rw [Option.map_some,(stands.held held).2.1]
  · obtain ⟨r,t,ran,y,stands,i,here,_,reached⟩ := orderly.stands.returns (c := nameiparent p path)
      (runs_nameiparent orderly.calm (whole.stops room) (cwd.placed orderly) typed) fun r y ⟨i,_,_,arrives⟩ => by rw [arrives.notes]
    refine ⟨r,t,ran,?_⟩
    rw [start] at here
    cases here
    change Arrives s.still (resolveParent (view s).node (startOf s cp path) (comps path)) r y at reached
    generalize resolveParent (view s).node (startOf s cp path) (comps path) = target at reached ⊢
    cases target with
    | none =>
      rw [reached.1]
      rfl
    | some j =>
      obtain ⟨jp,fresh,rfl,fits,_,_,rfl⟩ := reached
      obtain ⟨q,held,same⟩ := held_fits fits fresh
      rw [Option.map_some,(stands.held held).2.1,same]
  · unfold startOf
    cases a <;> rfl
  · unfold startOf
    cases a with
    | nil => exact absurd rfl some'
    | cons c a => rfl

/-! ### An image with one file -/

/-- The kernel that has booted on the image with one file, `a`. -/
def started : State := Image.booted Offsets.oneFile

theorem started_clean : Clean started where
  core := core_of_lists (by decide) (by decide) (by decide)
    (show targets _ _ _ = [6] by decide +kernel) (by decide) (by decide +kernel) (by decide +kernel)
  small := by decide
  slots := by decide
  unique := by decide

theorem started_orderly : Orderly started where
  clean := started_clean
  idle := by decide
  solid := by decide +kernel
  root := by decide
  named := by
    have all : ∀ d < started.sb.ninodes, ((view started).node d).type = T_DIR → ∀ k < ((view started).node d).count,
        ((view started).node d).live k → (((view started).node d).entry k).inum.toNat < started.sb.ninodes ∧
          Unlost started (((view started).node d).entry k).inum.toNat := by decide
    exact fun d inside dir k live => all d inside dir k live.1 live

theorem started_undangling : Undangling started where
  root := by decide
  named := by
    have all : ∀ d < started.sb.ninodes, ((view started).node d).type = T_DIR → ((view started).node d).aligned ∧
        ∀ k < ((view started).node d).count, ((view started).node d).live k →
          ((view started).node (((view started).node d).entry k).inum.toNat).type ≠ 0 := by
      unfold Node.aligned
      decide
    exact fun d inside dir => ⟨(all d inside dir).1,fun k live => (all d inside dir).2 k live.1 live⟩

theorem started_cwd : Cwd started 0 0 := ⟨rfl,by decide,by decide⟩

theorem started_room : Room started := ⟨1,2,by decide,by decide,by decide⟩

/-- `//a/` is the file, and `/a/b` is nothing. -/
theorem path_resolution_one :
    (∃ r t, exec (kernel 0) (namei 0 [47,47,97,47]) started = .ok (r,t) ∧ r.map (fun ip => (t.icache ip).inum) = some 2) ∧
    ∃ t, exec (kernel 0) (namei 0 [47,97,47,98]) started = .ok (none,t) := by
  have resolves := path_resolution started_orderly started_undangling started_cwd started_room
  obtain ⟨r,t,ran,found⟩ := (resolves [47,47,97,47]).1
  obtain ⟨r',t',ran',found'⟩ := (resolves [47,97,47,98]).1
  have one : resolve (view started).node (startOf started 0 [47,47,97,47]) (comps [47,47,97,47]) = some 2 := by decide
  have two : resolve (view started).node (startOf started 0 [47,97,47,98]) (comps [47,97,47,98]) = none := by decide
  rw [one] at found
  rw [two,Option.map_eq_none_iff] at found'
  exact ⟨⟨r,t,ran,found⟩,t',found' ▸ ran'⟩

/-! ### A full disk -/

theorem namei_stops {disk : Disk} {devsw : Fin NDEV → Driver} {path name : List UInt8} {why : String}
    (absolute : path.head? = some slash) (skip : skipelem path = some (name,[]))
    (before : wp (kernel p) (Mkfs.lookup name) (fun _ _ => False) (· = .panic why) (boot disk devsw))
    (differs : why ≠ "dirlookup not DIR") :
    exec (kernel p) (namei p path) (boot disk devsw) = .error (.panic why) := by
  have after : wp (kernel p) (namei p path) (fun _ _ => False) (· = .panic why) (boot disk devsw) := by
    unfold namei namex namex_start namex_from
    rw [if_pos absolute,wp_bind,wp_bind,skip]
    unfold Mkfs.lookup at before
    rw [wp_bind] at before
    refine wp_use before fun dp s' before => ?_
    rw [wp_bind] at before ⊢
    refine wp_use before fun _ s' before => ?_
    unfold dirlookup at before
    rw [wp_bind,wp_attr_kernel] at before ⊢
    by_cases dir : (s'.icache dp).node.type = T_DIR
    · rw [if_neg (not_not.mpr dir)] at before ⊢
      rw [if_neg (by simp),wp_bind]
      unfold dirlookup
      rw [wp_bind,wp_attr_kernel,if_neg (not_not.mpr dir)]
      exact wp_use before fun _ _ => False.elim
    · rw [if_pos dir,wp_fail] at before
      cases before
      exact absurd rfl differs
  obtain ⟨stop,ran,rfl⟩ := wp_stops after
  exact ran

/-- The image that `mkfs` makes of files that fill the disk, with a root directory that has a hole: to look for a name
    that is not there, the kernel wants a block. -/
theorem namei_full_disk : ∃ f, Mkfs.mkfs Mkfs.fillers = .ok f ∧ ∀ (p : Pid) (devsw : Fin NDEV → Driver),
    exec (kernel p) (namei p [47,65]) (boot f.img devsw) = .error (.panic "balloc: out of blocks") := by
  have few : Mkfs.fillers.length + 2 ≤ Mkfs.sb.ninodes := by decide
  have absent : key [65] ∉ Mkfs.keys Mkfs.fillers := by decide
  obtain ⟨f,made,complete⟩ := Mkfs.mkfs_complete few Mkfs.accepted_fillers
  have full : f.freeblock = FSSIZE := by
    rw [complete.count,Mkfs.root_fillers,Mkfs.taken_fillers]
    decide
  exact ⟨f,made,fun p devsw => namei_stops rfl (by decide)
    (complete.lookup_panics few (by decide) full absent (by decide) (by decide)) (by decide)⟩

end Xv6
