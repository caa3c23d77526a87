import Xv6.ByteArrays

/-!
The pieces of `filewrite`. A write of more than `((MAXOPBLOCKS-1-1-2)/2)*512` bytes is made in pieces, each of them
under the lock and in a transaction of its own.
-/
namespace Xv6
open Xv6.Lib Prog Function

variable {s t : State} {v : Nat → Dinode} {ip : Slot} {i : Nat} {disk : Disk} {d : Dinode} {p : Pid}

/-! ### Locks -/

variable {E : Stop Wait → Prop}

theorem wp_ilock_loaded {Q : Unit → State → Prop} (held : 0 < (s.icache ip).ref)
    (free : (s.icache ip).lock = none) (valid : (s.icache ip).valid = true) :
    wp (kernel p) (ilock ip) Q E s = Q () (s.setLock ip (some p)) := by
  rw [wp_ilock held,if_pos free]
  unfold iload
  simp only [post_bind,post_get,State.setLock,update_self]
  rw [if_pos valid]
  rfl

theorem wp_iunlock {Q : Unit → State → Prop} (held : 0 < (s.icache ip).ref)
    (locked : (s.icache ip).lock = some p) : wp (kernel p) (iunlock ip) Q E s = Q () (s.setLock ip none) := by
  unfold iunlock releasesleep
  simp only [wp_bind,Refs.wp_kernel,kernelStep,post_bind,post_get,post_pure,locked]
  rw [if_neg (by simp; omega)]
  simp only [wp_bind,wp_await,Refs.wp_kernel,kernelStep,post_modifyInode]
  rfl

/-! ### A piece -/

/-- What a write of `n` bytes leaves: another disk, another copy of the inode, and the offset behind the bytes. -/
def State.wrote (s : State) (f : FileId) (n : Nat) (disk : Disk) (ip : Slot) (d : Dinode) : State :=
  { s.put disk ip d with
    tables := s.tables.setFile f { s.tables.file f with off := ((s.tables.file f).off + n) % 2 ^ 32 } }

variable {f : FileId}

theorem setLock_wrote {n : Nat} (free : (s.icache ip).lock = none) :
    ((s.setLock ip (some p)).wrote f n disk ip d).setLock ip none = s.wrote f n disk ip d := by
  have lock : { s.icache ip with lock := none, node := d } = { s.icache ip with node := d } := by rw [← free]
  simp only [State.setLock,State.wrote,State.put,update_self,update_idem]
  rw [lock]

theorem setFile_none (word : (s.tables.file f).off < 2 ^ 32) :
    s.tables.setFile f { s.tables.file f with off := ((s.tables.file f).off + 0) % 2 ^ 32 } = s.tables := by
  rw [Nat.add_zero,Nat.mod_eq_of_lt word]
  exact congrArg (fun file => { s.tables with file := file }) (update_eq_self f s.tables.file)

theorem wrote_none (node : (s.icache ip).node = d) (word : (s.tables.file f).off < 2 ^ 32) :
    s.wrote f 0 s.disk ip d = s := by
  have same : s.put s.disk ip d = s := put_self (v := fun _ => d) (i := 0) node
  unfold State.wrote
  rw [setFile_none word,same]

theorem Holds.setLock (holds : Holds s v ip i) (l : Option Pid) : Holds (s.setLock ip l) v ip i :=
  ⟨holds.core,holds.inside,by simpa [State.setLock] using holds.node,holds.type⟩

theorem Edited.trans {u : State} {size size' : UInt32} {file file' : Nat → UInt8} {disk' : Disk} {d' : Dinode}
    (one : Edited s v i disk d size file) (sb : u.sb = s.sb) (here : u.disk = disk)
    (two : Edited u (update v i d) i disk' d' size' file') : Edited s v i disk' d' size' file' := by
  obtain ⟨core,attr,mine,others,blocks,stored⟩ := two
  rw [sb] at core others blocks stored
  rw [here] at others blocks stored
  rw [update_idem] at core
  refine ⟨core,?_,mine,fun j inside other type => ?_,fun j inside other type => ?_,fun j inside other => ?_⟩
  · rw [attr,update_self,one.attr]
  · have kept := others j inside other
    rw [update_of_ne other] at kept
    intro off low
    rw [kept type off low,one.others j inside other type off low]
  · have kept := blocks j inside other
    rw [update_of_ne other] at kept
    intro k low
    rw [kept type k low,one.blocks j inside other type k low]
  · rw [stored j inside other,one.stored j inside other]

theorem Edited.congr {size : UInt32} {file file' : Nat → UInt8} (edited : Edited s v i disk d size file)
    (same : ∀ off < MAXFILE * BSIZE, file off = file' off) : Edited s v i disk d size file' :=
  { edited with mine := fun off low => (edited.mine off low).trans (same off low) }

variable {src : List UInt8}

theorem wp_piece {off : Nat} {rest : Int → Call Bool} {Q : Bool → State → Prop}
    (held : 0 < (s.icache ip).ref) (free : (s.icache ip).lock = none)
    (valid : (s.icache ip).valid = true) (off' : (s.tables.file f).off = off) :
    wp (kernel p) (do
      ilock ip
      let off ← call (.tables fun t => .ok ((t.file f).off,t))
      let r ← call (.writei ip src off)
      call (.tables (advance f r.toNat))
      iunlock ip
      rest r) Q E s =
    post (writei ip src off) (fun r s' => wp (kernel p) (do iunlock ip; rest r) Q E
      { s' with tables := s'.tables.setFile f { s'.tables.file f with off := ((s'.tables.file f).off + r.toNat) % 2 ^ 32 } })
      (fun why => E (.panic why)) (s.setLock ip (some p)) := by
  simp only [wp_bind]
  rw [wp_ilock_loaded held free valid]
  simp only [Refs.wp_kernel,kernelStep,advance]
  subst off'
  rfl

/-! ### The loop -/

theorem wrote_wrote {m n : Nat} {disk' : Disk} {d' : Dinode} :
    (s.wrote f m disk ip d).wrote f n disk' ip d' = s.wrote f (m + n) disk' ip d' := by
  simp only [State.wrote,State.put,Tables.setFile,update_self,update_idem,Nat.mod_add_mod,Nat.add_assoc]

/-- What the write of `src` leaves is what one `writei` leaves; the offset is behind the bytes. -/
def Wrote (s : State) (v : Nat → Dinode) (f : FileId) (ip : Slot) (i off : Nat) (src : List UInt8) (s' : State) : Prop :=
  ∃ disk d, s' = s.wrote f src.length disk ip d ∧
    Edited s v i disk d (sizeAfter off src.length (v i).size) (overlay (content s.disk (v i)) off src) ∧
    Mapped s v i disk d (way off src.length)

theorem Wrote.nil (holds : Holds s v ip i) (word : (s.tables.file f).off < 2 ^ 32) (off : Nat) :
    Wrote s v f ip i off [] s := by
  refine ⟨s.disk,v i,(wrote_none holds.node word).symm,?_,?_⟩
  · rw [overlay_nil]
    exact (Grown.refl holds.core).edited
  · rw [List.length_nil,way_zero]
    exact .none s v i

theorem Wrote.append {off m : Nat} {s' : State} (part : m ≤ src.length)
    (legal : off ≤ (v i).size.toNat) (fits : off + src.length ≤ MAXFILE * BSIZE)
    (edited : Edited s v i disk d (sizeAfter off m (v i).size) (overlay (content s.disk (v i)) off (src.take m)))
    (mapped : Mapped s v i disk d (way off m))
    (rest : Wrote (s.wrote f m disk ip d) (update v i d) f ip i (off + m) (src.drop m) s') : Wrote s v f ip i off src s' := by
  obtain ⟨disk',d',rfl,edited',mapped'⟩ := rest
  have length : (src.drop m).length = src.length - m := List.length_drop
  rw [length] at edited' mapped' ⊢
  have whole : m + (src.length - m) = src.length := by omega
  have first : d.size.toNat = max (v i).size.toNat (off + m) := by
    rw [edited.attr]
    exact sizeAfter_toNat legal (by omega)
  have size : sizeAfter (off + m) (src.length - m) d.size = sizeAfter off src.length (v i).size := by
    rw [← UInt32.toNat_inj,sizeAfter_toNat (by omega) (by omega),sizeAfter_toNat legal fits]
    omega
  refine ⟨disk',d',by rw [wrote_wrote,whole],?_,?_⟩
  · have both := edited.trans (u := s.wrote f m disk ip d) rfl rfl edited'
    rw [update_self,size] at both
    refine both.congr fun o low => ?_
    rw [← overlay_append _ _ _ part]
    exact overlay_congr (off + m) (src.drop m) (edited.mine o low)
  · have both := @Mapped.trans _ _ ip _ _ _ _ _ _ _ mapped ⟨mapped'.ptrs,mapped'.count⟩ fun k => way_lt (by omega)
    rwa [← way_append (by omega),whole] at both

/-- The loop of `filewrite` writes all the bytes, or panics because there are not enough blocks for them. -/
theorem filewrite_from_spec (fuel : Nat) {off : Nat} (enough : src.length ≤ fuel)
    (holds : Holds s v ip i) (inum : (s.icache ip).inum = i) (held : 0 < (s.icache ip).ref)
    (free : (s.icache ip).lock = none) (valid : (s.icache ip).valid = true) (regular : (v i).type ≠ T_DEV)
    (off' : (s.tables.file f).off = off) (legal : off ≤ (v i).size.toNat) (fits : off + src.length ≤ MAXFILE * BSIZE) :
    wp (kernel p) (filewrite_from f ip fuel src) (fun all s' => all = true ∧ Wrote s v f ip i off src s')
      (fun stop => (∃ why, stop = .panic why ∧ Full why) ∧ Short s v i (way off src.length)) s := by
  have bound : MAXFILE * BSIZE < 2 ^ 32 := by decide
  induction fuel generalizing s v src off with
  | zero =>
    obtain rfl := List.eq_nil_of_length_eq_zero (Nat.le_zero.mp enough)
    exact ⟨rfl,.nil holds (by omega) off⟩
  | succ fuel ih =>
    unfold filewrite_from
    split
    · next none' =>
      obtain rfl := List.eq_nil_of_length_eq_zero none'
      exact ⟨rfl,.nil holds (by omega) off⟩
    · next some' =>
      dsimp only
      rw [show (MAXOPBLOCKS - 1 - 1 - 2) / 2 * 512 = Offsets.most from rfl]
      generalize piece : min src.length Offsets.most = m
      have size : Offsets.most = 1536 := rfl
      have length : (src.take m).length = m := by rw [List.length_take]; omega
      rw [wp_piece held free valid off']
      have spec := @writei_spec _ _ _ _ (holds.setLock (some p)) (by simpa [State.setLock] using inum) regular _ (src.take m) legal
        (by omega)
      rw [length] at spec
      refine post_mono spec ?_ fun why short => ?_
      · rintro r s₁ ⟨all,disk,d,same,edited,mapped,_⟩
        subst same all
        change wp (kernel p) _ _ _ ((s.setLock ip (some p)).wrote f (m : Int).toNat disk ip d)
        have typed : d.type ≠ 0 := by rw [edited.attr]; exact holds.type
        rw [Int.toNat_natCast,wp_bind,wp_iunlock (by simpa [State.wrote,State.put,State.setLock] using held)
          (by simp [State.wrote,State.put,State.setLock]),setLock_wrote free,if_neg (by omega),if_neg (by omega)]
        have mapped₁ : Mapped s v i disk d (way off m) := ⟨mapped.ptrs,mapped.count⟩
        have edited₁ : Edited s v i disk d (sizeAfter off m (v i).size) (overlay (content s.disk (v i)) off (src.take m)) :=
          ⟨edited.core,edited.attr,edited.mine,edited.others,edited.blocks,edited.stored⟩
        have left : (src.drop m).length = src.length - m := List.length_drop
        have grown : d.size.toNat = max (v i).size.toNat (off + m) := by
          rw [edited.attr]
          exact sizeAfter_toNat legal (by omega)
        have later := @ih (s.wrote f m disk ip d) (update v i d) (src.drop m) (off + m)
          (by omega) ⟨edited.core,holds.inside,by simp [State.wrote,State.put],by rwa [update_self]⟩
          (by simpa [State.wrote,State.put] using inum) (by simpa [State.wrote,State.put] using held)
          (by simpa [State.wrote,State.put] using free) (by simpa [State.wrote,State.put] using valid)
          (by rw [update_self,edited.attr]; exact regular)
          (by simp only [State.wrote,Tables.setFile,update_self,off']; exact Nat.mod_eq_of_lt (by omega))
          (by rw [update_self]; omega) (by omega)
        refine wp_mono later (fun all s₂ done => ⟨done.1,.append (by omega) legal fits edited₁ mapped₁ done.2⟩)
          fun stop short => ⟨short.1,?_⟩
        have all := @Short.later _ _ ip _ _ _ _ _ mapped₁ short.2 fun k => way_lt (by omega)
        rwa [left,← way_append (by omega),show m + (src.length - m) = src.length by omega] at all
      · refine ⟨⟨why,rfl,short.1⟩,Short.mono short.2 ?_⟩
        rw [show src.length = m + (src.length - m) by omega,way_append (by omega)]
        exact Finset.subset_union_left

/-! ### `filewrite` -/

theorem Clean.table (clean : Clean s) : ∃ v, Table s v :=
  have ⟨v,repr⟩ := clean.represents
  ⟨v,repr.table⟩

theorem wp_filewrite {piped : Int} {Q : Int → State → Prop}
    (type : (s.tables.file f).type = .FD_INODE) (writable : (s.tables.file f).writable = true) :
    wp (kernel p) (filewrite f src piped) Q E s = wp (kernel p) (filewrite_from f (s.tables.file f).ip src.length src)
      (fun all s' => Q (if all then src.length else -1) s') E s := by
  unfold filewrite
  rw [wp_bind]
  change wp (kernel p) (if (s.tables.file f).writable = false then _ else _) Q E s = _
  rw [if_neg (by rw [writable]; decide),type]
  simp only [wp_bind,wp_pure]

section
variable {f : FileId} {src : List UInt8} {off : Nat}

theorem filewrite_spec (opened : Offsets.Opened s f) (writable : (s.tables.file f).writable = true)
    (here : (s.tables.file f).ip = ip) (at' : (s.tables.file f).off = off) (holds : Holds s v ip i)
    (inum : (s.icache ip).inum = i) (legal : off ≤ (v i).size.toNat) (fits : off + src.length ≤ MAXFILE * BSIZE) (piped : Int) :
    wp (kernel p) (filewrite f src piped) (fun r s' => r = src.length ∧ Wrote s v f ip i off src s')
      (fun stop => (∃ why, stop = .panic why ∧ Full why) ∧ Short s v i (way off src.length)) s := by
  obtain ⟨type,_,held,free,valid,regular⟩ := opened
  rw [here] at held free valid regular
  have device : (v i).type ≠ T_DEV := by rw [← holds.node,regular]; decide
  rw [wp_filewrite type writable,here]
  refine wp_use (filewrite_from_spec src.length le_rfl holds inum held free valid device at' legal fits)
    fun all s' ⟨done,wrote⟩ => ⟨?_,wrote⟩
  rw [done,if_pos rfl]

end

/-! ### With the log -/

namespace Logged
open Xv6.LogSleep (Log)

/-- Calls with the log. The error `none` is a sleep in `begin_op`, with nobody to end it. -/
abbrev C := StateT (State × Log) (Except (Option (Stop Wait)))

variable {α β : Type}

/-- Code that does not call `log_write`. -/
def onCalls (p : Pid) (c : Call α) : C α := fun x => match exec (kernel p) c x.1 with
  | .ok (a,s) => .ok (a,(s,x.2))
  | .error stop => .error (some stop)

def onLog (t : L α) : C α := fun x => match t x with
  | .ok r => .ok r
  | .error why => .error (some (.panic why))

def begin_op : C Unit := fun x =>
  if x.2.Busy then .error none else .ok ((),(x.1,{ x.2 with outstanding := x.2.outstanding + 1 }))

/-- The end of the last operation commits, which empties the header. -/
def end_op : C Unit := fun x =>
  let log := { x.2 with outstanding := x.2.outstanding - 1 }
  if log.committing then .error (some (.panic "log.committing"))
  else if log.outstanding = 0 then .ok ((),(x.1,{ log with lh := [] }))
  else .ok ((),(x.1,log))

def filewrite_from (p : Pid) (f : FileId) (ip : Slot) : Nat → List UInt8 → C Bool
  | 0,_ => return true
  | fuel + 1,src =>
    if src.length = 0 then return true
    else do
      let n1 := min src.length ((MAXOPBLOCKS - 1 - 1 - 2) / 2 * 512)
      begin_op
      onCalls p (ilock ip)
      let off ← onCalls p (call (.tables fun t => .ok ((t.file f).off,t)))
      let r ← onLog (writei ip (src.take n1) off)
      onCalls p (call (.tables (advance f r.toNat)))
      onCalls p (iunlock ip)
      end_op
      if r < 0 then return false
      else if r ≠ n1 then onCalls p (fail "short filewrite")
      else filewrite_from p f ip fuel (src.drop n1)

def filewrite (p : Pid) (f : FileId) (src : List UInt8) (piped : Int) : C Int := do
  let ff ← onCalls p (call (.tables fun t => .ok (t.file f,t)))
  if ff.writable = false then return -1
  else match ff.type with
    | .FD_PIPE => return piped
    | .FD_INODE =>
      let all ← filewrite_from p f ff.ip src.length src
      return if all then src.length else -1
    | .FD_NONE => onCalls p (fail "filewrite")

/-- The log with no operation in progress. -/
def idle (size : Int) : Log := ⟨size,0,false,[]⟩

/-- From a log in `P`, the code `t` does what the calls `c` do, and leaves the log in `Q`. -/
def Sim (p : Pid) (P Q : Log → Prop) (t : C α) (c : Call α) : Prop := ∀ s log, P log → match exec (kernel p) c s with
  | .ok (a,s') => ∃ log', Q log' ∧ t (s,log) = .ok (a,(s',log'))
  | .error stop => t (s,log) = .error (some stop)

variable {P Q R : Log → Prop} {t : C α} {c : Call α} {size : Int}

theorem Sim.calls (c : Call α) : Sim p P P (onCalls p c) c := by
  intro s log here
  unfold onCalls
  dsimp only
  cases exec (kernel p) c s with
  | ok r => exact ⟨log,here,rfl⟩
  | error stop => rfl

theorem Sim.bind {f : α → C β} {g : α → Call β} (first : Sim p P Q t c) (rest : ∀ a, Sim p Q R (f a) (g a)) :
    Sim p P R (t >>= f) (c >>= g) := by
  intro s log here
  have done := first s log here
  have ran : (t >>= f) (s,log) = t (s,log) >>= fun r => f r.1 r.2 := rfl
  rw [exec_bind,ran]
  cases run : exec (kernel p) c s with
  | error stop =>
    rw [run] at done
    rw [show t (s,log) = _ from done]
    rfl
  | ok r =>
    rw [run] at done
    obtain ⟨log',here',done⟩ := done
    rw [done]
    exact rest r.1 r.2 log' here'

theorem Sim.begin_op (rest : Sim p (· = ⟨size,1,false,[]⟩) Q t c) : Sim p (· = idle size) Q (do begin_op; t) c := by
  rintro s _ rfl
  exact rest s _ rfl

theorem Sim.end_op (rest : Sim p (· = idle size) Q t c) : Sim p (∃ lh, · = ⟨size,1,false,lh⟩) Q (do end_op; t) c := by
  rintro s _ ⟨lh,rfl⟩
  exact rest s _ rfl

theorem Sim.writei (large : 26 ≤ size) {src : List UInt8} (short : src.length ≤ Offsets.most) (ip : Slot) (off : Nat) :
    Sim p (· = ⟨size,1,false,[]⟩) (∃ lh, · = ⟨size,1,false,lh⟩) (onLog (writei ip src off)) (call (.writei ip src off)) := by
  rintro s _ rfl
  have few : blocks off src.length ≤ 4 := by
    have most : Offsets.most = 1536 := rfl
    unfold blocks
    rw [BSIZE_eq]
    split <;> omega
  have logs := @logs_writei s ip src off 25 fun _ _ _ => by omega
  have room : Room ⟨size,1,false,[]⟩ 25 := ⟨le_refl 1,show 0 + 25 ≤ LOGSIZE by decide,show (0 : Int) + 25 ≤ size - 1 by omega⟩
  obtain ⟨lh,same⟩ := (logs.inside room.inside).resolve_right fun full => full.2 room
  have step : exec (kernel p) (call (.writei ip src off)) s = M.step (Xv6.writei ip src off) s := by
    rw [call,exec,show (kernel p).step (.writei ip src off) s = M.step (Xv6.writei ip src off) s from rfl]
    cases M.step (Xv6.writei ip src off) s <;> rfl
  unfold onLog
  dsimp only
  rw [step,same,M.step]
  cases Xv6.writei ip src off s with
  | ok r => exact ⟨_,⟨lh,rfl⟩,rfl⟩
  | error why => rfl

end Logged

section
variable {f : FileId} {src : List UInt8} {off : Nat}

/-- The pieces before the largest size of a file, when the write goes beyond it. -/
def HalfDone (off n size : Nat) : Prop := off ≤ size ∧ off + Offsets.most ≤ MAXFILE * BSIZE ∧ MAXFILE * BSIZE < off + n

theorem filewrite_from_refused (held : 0 < (s.icache ip).ref) (free : (s.icache ip).lock = none)
    (valid : (s.icache ip).valid = true) (device : (s.icache ip).node.type ≠ T_DEV) (at' : (s.tables.file f).off = off)
    (word : off < 2 ^ 32) (fuel : Nat) (some' : src.length ≠ 0)
    (refused : ¬(off ≤ (s.icache ip).node.size.toNat ∧ off + min src.length Offsets.most ≤ MAXFILE * BSIZE)) :
    wp (kernel p) (filewrite_from f ip (fuel + 1) src) (fun all t => all = false ∧ t = s) (fun _ => False) s := by
  unfold filewrite_from
  rw [if_neg some']
  dsimp only
  rw [show (MAXOPBLOCKS - 1 - 1 - 2) / 2 * 512 = Offsets.most from rfl,wp_piece held free valid at',post]
  have node : ((s.setLock ip (some p)).icache ip).node = (s.icache ip).node := by simp [State.setLock]
  have refused' : ¬(off ≤ (s.icache ip).node.size.toNat ∧
      off + (src.take (min src.length Offsets.most)).length ≤ MAXFILE * BSIZE) := by
    rwa [List.length_take,Nat.min_eq_left (Nat.min_le_left _ _)]
  rw [writei_refused node device refused']
  have same := setFile_none (s := s.setLock ip (some p)) (f := f) (by show (s.tables.file f).off < 2 ^ 32; omega)
  have none' : (-1 : Int).toNat = 0 := rfl
  dsimp only
  rw [none',same,wp_bind,wp_iunlock (by simpa [State.setLock] using held) (by simp [State.setLock]),if_pos (by decide)]
  refine ⟨rfl,?_⟩
  have lock : { s.icache ip with lock := none } = s.icache ip := by rw [← free]
  simp only [State.setLock,update_self,update_idem]
  rw [lock,update_eq_self]

/-- A write that fails leaves the file and its offset, unless its first pieces fit and the rest does not. -/
theorem filewrite_failed (table : ∃ v, Table s v) (opened : Offsets.Opened s f) (writable : (s.tables.file f).writable = true)
    (whole : ¬HalfDone (s.tables.file f).off src.length (s.icache (s.tables.file f).ip).node.size.toNat) {piped : Int}
    (failed : exec (kernel p) (filewrite f src piped) s = .ok (-1,t)) : t = s := by
  obtain ⟨v,table⟩ := table
  have word := opened.off
  generalize here : (s.tables.file f).ip = ip at whole
  generalize at' : (s.tables.file f).off = off at whole word
  have holds := table.loaded ip (here ▸ opened.held) (here ▸ opened.valid)
  rcases Nat.eq_zero_or_eq_succ_pred src.length with none' | length
  · have ends : wp (kernel p) (filewrite f src piped) (fun r _ => r = 0) (fun _ => False) s := by
      rw [wp_filewrite opened.type writable,none']
      exact rfl
    exact absurd (wp_ok ends failed) (by decide)
  · by_cases fits : off ≤ (s.icache ip).node.size.toNat ∧ off + min src.length Offsets.most ≤ MAXFILE * BSIZE
    · have all : off + src.length ≤ MAXFILE * BSIZE := by
        by_contra beyond
        exact whole ⟨fits.1,by omega,by omega⟩
      have wrote := wp_ok (filewrite_spec opened writable here at' holds rfl (holds.node ▸ fits.1) all piped) failed
      exact absurd wrote.1 (by omega)
    · have regular := opened.regular
      rw [here] at regular
      have device : (s.icache ip).node.type ≠ T_DEV := by rw [regular]; decide
      have refused := filewrite_from_refused (p := p) (here ▸ opened.held) (here ▸ opened.free) (here ▸ opened.valid) device
        at' word (src.length - 1) (by omega) fits
      have ends : wp (kernel p) (filewrite f src piped) (fun _ t => t = s) (fun _ => False) s := by
        rw [wp_filewrite opened.type writable,here,length]
        exact wp_use refused fun _ _ => And.right
      have done := wp_ok ends failed
      exact done

end

/-! ### Runs -/

/-- An image with a file of 137 blocks; the blocks from 145 on are free. -/
def bigFile : Disk
  | 1 => Image.sbBlock { Image.sb with size := 160, nblocks := 154 }
  | 3 => Image.inodeBlock [.zero,Image.dir 1 3 6,⟨⟨T_FILE,0,0,1,70144⟩,fun k => UInt32.ofNat (7 + k)⟩]
  | 5 => Image.bitmapBlock 145
  | 6 => Image.dirBlock [Image.entry 1 dot,Image.entry 1 dotdot,Image.entry 2 [97]]
  | 19 => fun i => leByte (if i.val / 4 < 125 then 20 + i.val / 4 else 0) (i.val % 4)
  | _ => fun _ => 0

/-- The file, open and read to its end. -/
def atEnd : State :=
  let s := ((Image.run [(0,.open (some [97]) O_RDWR)] (Image.booted bigFile)).toOption.get (by decide)).2
  { s with tables := s.tables.setFile 0 { s.tables.file 0 with off := 70144 } }

theorem atEnd_clean : Clean atEnd where
  core := core_of_lists (by decide) (by decide) (by decide)
    (show targets _ _ _ = List.range' 6 139 by decide +kernel) List.nodup_range'
    (fun b listed => by
      have bounds := List.mem_range'_1.mp listed
      exact ⟨bounds.1,bounds.2.trans_le (by decide +kernel)⟩) (by decide +kernel)
  small := by decide
  slots := by decide
  unique := by decide

/-- Three blocks fit below the largest size, one byte more does not: the call fails, and the file has grown. -/
theorem filewrite_half_done : Clean atEnd ∧ Offsets.Opened atEnd 0 ∧ (atEnd.tables.file 0).writable = true ∧
    (atEnd.icache (atEnd.tables.file 0).ip).node.size = 70144 ∧ (atEnd.tables.file 0).off = 70144 ∧
    ∃ t, exec (kernel 0) (filewrite 0 (List.replicate 1537 1) 0) atEnd = .ok (-1,t) ∧
      (t.icache (atEnd.tables.file 0).ip).node.size = 71680 ∧ (t.tables.file 0).off = 71680 := by
  refine ⟨atEnd_clean,by decide,by decide,by decide,by decide,?_⟩
  have ran : ((exec (kernel 0) (filewrite 0 (List.replicate 1537 1) 0) atEnd).toOption.map fun done =>
      (done.1,(done.2.icache (atEnd.tables.file 0).ip).node.size,(done.2.tables.file 0).off)) = some (-1,71680,71680) := by
    decide +kernel
  obtain ⟨⟨r,t⟩,returned,told⟩ := Option.map_eq_some_iff.mp ran
  obtain ⟨rfl,size,off⟩ := by simpa using told
  exact ⟨t,Image.eq_ok returned,size,off⟩

/-- The offset is behind the end of the file: the write is refused. -/
def behind : State := { Offsets.forked with
  tables := Offsets.forked.tables.setFile 0 { Offsets.forked.tables.file 0 with off := 5 } }

theorem filewrite_failed_behind : ∃ t, exec (kernel 0) (filewrite 0 [1] 0) behind = .ok (-1,t) ∧ t = behind := by
  have clean : Clean behind := ⟨Offsets.forked_clean.core,Offsets.forked_clean.small,Offsets.forked_clean.slots,
    Offsets.forked_clean.unique⟩
  have opened : Offsets.Opened behind 0 := by decide
  have ran : ((exec (kernel 0) (filewrite 0 [1] 0) behind).toOption.map (·.1)) = some (-1) := by decide
  obtain ⟨⟨r,t⟩,returned,rfl⟩ := Option.map_eq_some_iff.mp ran
  have failed := Image.eq_ok returned
  exact ⟨t,failed,filewrite_failed clean.table opened (by decide) (fun half => absurd half.1 (by decide)) failed⟩

end Xv6
