import Xv6.Refs
import Xv6.Image

/-!
Inode reference counts balance over complete system calls.
-/
namespace Xv6.Refs
open Xv6 Xv6.Lib Function Prog

variable {p : Pid} {α β : Type}

/-! ### Paths -/

variable {s : State}

theorem wp_look {Q : α → State → Prop} {E : Stop Wait → Prop} (f : Tables → α) :
    wp (kernel p) (call (.tables fun t => .ok (f t,t))) Q E s = Q (f s.tables) s := by
  rw [wp_kernel]; rfl

theorem wp_cwdOf {Q : Slot → State → Prop} {E : Stop Wait → Prop} (q : Pid) (none' : E (.panic "trap"))
    (next : ∀ ip, (s.tables.proc q).cwd = some ip → Q ip s) : wp (kernel p) (cwdOf q) Q E s := by
  unfold cwdOf
  rw [wp_bind,wp_look]
  cases here : (s.tables.proc q).cwd with
  | none => exact none'
  | some ip => exact next ip here

theorem moves_namex_start (path : List UInt8) : Moves p 0 (namex_start p path) one := by
  unfold namex_start
  split
  · exact moves_iget _ _
  · intro held s debt bal
    rw [add_zero] at bal
    rw [wp_bind]
    refine wp_cwdOf p (by decide : "trap" ∉ filePanics) fun ip here => ?_
    rw [wp_bind,wp_kernel]
    exact idup_spec bal (bal.cwd_ref debt here)

theorem moves_namex (path : List UInt8) (parent : Bool) : Moves p 0 (namex p path parent) got :=
  .bind (moves_namex_start path) fun ip => moves_namex_from parent _ ip path (by omega)

/-- The reference that comes with an inode. -/
def gotInode : Option Slot → Slot → Int
  | none => 0
  | some ip => one ip

theorem moves_namei (path : List UInt8) : Moves p 0 (namei p path) gotInode := by
  refine .bind (moves_namex path false) fun found => .ret _ ?_
  rcases found with _ | ⟨ip,name⟩ <;> rfl

theorem moves_nameiparent (path : List UInt8) : Moves p 0 (nameiparent p path) got := moves_namex path true

/-! ### `create`, `link` and `unlink` -/

theorem Moves.beside₂ {c : Call α} (moves : Moves p 0 c fun _ => 0) (ip jp : Slot) :
    Moves p (one ip + one jp) c fun _ => one ip + one jp := by
  have debt (kp : Slot) : 0 ≤ (one ip + one jp) kp := add_nonneg (one_nonneg ip kp) (one_nonneg jp kp)
  simpa using moves.frame debt

theorem moves_create_dots (dp ip : Slot) (type : UInt16) : Moves p 0 (create_dots dp ip type) fun _ => 0 := by
  unfold create_dots
  split
  · refine .skip (.call (kept_look _)) fun d => .skip (.call (kept_isetattr _ _ _ _).files) fun _ => ?_
    refine .skip (.call (kept_look _)) fun inum => .bind (moves_dirlink ip dot inum) fun linked => ?_
    split
    · refine .skip (.call (kept_look _)) fun dinum => .bind (moves_dirlink ip dotdot dinum) fun linked => ?_
      split
      · exact .ret () rfl
      · exact .fail (by decide)
    · exact .fail (by decide)
  · exact .ret () rfl

theorem moves_create_new (dp : Slot) (name : List UInt8) (type major minor : UInt16) :
    Moves p (one dp) (create_new dp name type major minor) one := by
  refine .skip (.call (kept_look _)) fun dev => ?_
  have alloc : Moves p 0 (ialloc dev type) one := .skip (.call (kept_ialloc_inum type).files) fun inum => moves_iget dev inum
  refine .bind (alloc.beside dp) fun ip => .skip (kept_ilock ip) fun _ => ?_
  refine .skip (.call (kept_isetattr _ _ _ _).files) fun _ => .bind ((moves_create_dots dp ip type).beside₂ dp ip) fun _ => ?_
  refine .skip (.call (kept_look _)) fun inum => .bind ((moves_dirlink dp name inum).beside₂ dp ip) fun linked => ?_
  split
  · rw [add_comm]
    exact .bind (moves_iunlockput_beside dp ip) fun _ => .ret ip rfl
  · exact .fail (by decide)

theorem moves_create (path : List UInt8) (type major minor : UInt16) :
    Moves p 0 (create p path type major minor) gotInode := by
  refine .bind (moves_nameiparent path) fun found => ?_
  rcases found with _ | ⟨dp,name⟩
  · exact .ret none rfl
  refine .skip (kept_ilock dp) fun _ => .bind ((moves_dirlookup dp name).beside dp) fun found => ?_
  rcases found with _ | ⟨ip,off⟩
  · simp only [got,add_zero]
    exact .bind (moves_create_new dp name type major minor) fun ip => .ret (some ip) rfl
  · simp only [got]
    rw [add_comm]
    refine .bind (moves_iunlockput_beside dp ip) fun _ => .skip (kept_ilock ip) fun _ => ?_
    refine .skip (.call (kept_look _)) fun d => ?_
    split
    · exact .ret (some ip) rfl
    · exact .bind (moves_iunlockput ip) fun _ => .ret none rfl

theorem moves_link_bad (ip : Slot) : Moves p (one ip) (sys_link_bad ip) fun _ => 0 :=
  .skip (kept_ilock ip) fun _ => .skip (.call (kept_look _)) fun _ => .skip (.call (kept_isetattr _ _ _ _).files) fun _ =>
    .bind (moves_iunlockput ip) fun _ => .ret _ rfl

theorem moves_link_entry (dp ip : Slot) (name : List UInt8) : Moves p 0 (sys_link_entry dp ip name) fun _ => 0 := by
  refine .skip (.call (kept_look _)) fun ddev => .skip (.call (kept_look _)) fun dev => ?_
  split
  · exact .ret false rfl
  · exact .skip (.call (kept_look _)) fun inum => moves_dirlink dp name inum

theorem moves_link_new (new : List UInt8) (ip : Slot) : Moves p (one ip) (sys_link_new p new ip) fun _ => 0 := by
  refine .bind ((moves_nameiparent new).beside ip) fun found => ?_
  rcases found with _ | ⟨dp,name⟩
  · simp only [got,add_zero]
    exact moves_link_bad ip
  · simp only [got]
    refine .skip (kept_ilock dp) fun _ => .bind ((moves_link_entry dp ip name).beside₂ ip dp) fun linked => ?_
    refine .bind (moves_iunlockput_beside dp ip) fun _ => ?_
    split
    · exact .bind (moves_iput ip) fun _ => .ret 0 rfl
    · exact moves_link_bad ip

theorem moves_link (old new : Arg) : Moves p 0 (sys_link p old new) fun _ => 0 := by
  unfold sys_link
  split
  · next old new _ _ =>
    refine .bind (moves_namei old) fun found => ?_
    rcases found with _ | ip
    · exact .ret (-1) rfl
    refine .skip (kept_ilock ip) fun _ => .skip (.call (kept_look _)) fun d => ?_
    split
    · exact .bind (moves_iunlockput ip) fun _ => .ret (-1) rfl
    · exact .skip (.call (kept_isetattr _ _ _ _).files) fun _ => .skip (kept_iunlock ip) fun _ => moves_link_new new ip
  · exact .ret (-1) rfl

theorem moves_unlink_found (dp ip : Slot) (off : Nat) :
    Moves p (one dp + one ip) (sys_unlink_found dp ip off) fun _ => 0 := by
  refine .skip (kept_ilock ip) fun _ => .skip (.call (kept_look _)) fun d => ?_
  split
  · exact .fail (by decide)
  · refine .skip (kept_nonempty _ _) fun full => ?_
    split
    · exact .bind (moves_iunlockput_beside ip dp) fun _ => .bind (moves_iunlockput dp) fun _ => .ret (-1) rfl
    · refine .skip (.call (kept_writei _ _ _)) fun n => ?_
      split
      · exact .fail (by decide)
      · rw [add_comm]
        refine .skip (kept_unlink_dotdot _ _) fun _ => .bind (moves_iunlockput_beside dp ip) fun _ => ?_
        exact .skip (.call (kept_look _)) fun d => .skip (.call (kept_isetattr _ _ _ _).files) fun _ =>
          .bind (moves_iunlockput ip) fun _ => .ret 0 rfl

theorem moves_unlink (path : Arg) : Moves p 0 (sys_unlink p path) fun _ => 0 := by
  unfold sys_unlink
  split
  · exact .ret (-1) rfl
  · next path _ =>
    refine .bind (moves_nameiparent path) fun found => ?_
    rcases found with _ | ⟨dp,name⟩
    · exact .ret (-1) rfl
    refine .skip (kept_ilock dp) fun _ => ?_
    split
    · exact .bind (moves_iunlockput dp) fun _ => .ret (-1) rfl
    · refine .bind ((moves_dirlookup dp name).beside dp) fun found => ?_
      rcases found with _ | ⟨ip,off⟩
      · simp only [got,add_zero]
        exact .bind (moves_iunlockput dp) fun _ => .ret (-1) rfl
      · exact moves_unlink_found dp ip off

theorem moves_sys_create (path : Arg) (type major minor : UInt16) :
    Moves p 0 (sys_create p path type major minor) fun _ => 0 := by
  unfold sys_create
  split
  · exact .ret (-1) rfl
  · next path _ =>
    refine .bind (moves_create path type major minor) fun made => ?_
    cases made with
    | none => exact .ret (-1) rfl
    | some ip => exact .bind (moves_iunlockput ip) fun _ => .ret 0 rfl

theorem moves_exec (path : Arg) (pgdir : Bool) (memory : Nat → Bool) (stack : Bool) :
    Moves p 0 (sys_exec p path pgdir memory stack) fun _ => 0 := by
  unfold sys_exec
  split
  · exact .ret (-1) rfl
  · next path _ =>
    refine .bind (moves_namei path) fun found => ?_
    cases found with
    | none => exact .ret (-1) rfl
    | some ip =>
      exact .skip (kept_ilock ip) fun _ => .skip (kept_exec_image ip pgdir memory) fun _ =>
        .bind (moves_iunlockput ip) fun _ => .ret _ rfl

/-! ### The tables -/

variable {held held' : Slot → Int} {t : Tables}

theorem Balanced.retable (bal : Balanced held s)
    (paid : ∀ ip, (fileRefs t ip + cwdRefs t ip + held' ip : Int) =
      fileRefs s.tables ip + cwdRefs s.tables ip + held ip)
    (closed : ∀ f, (t.file f).ref ≤ 0 → (t.file f).type ≠ .FD_INODE)
    (idle : ∀ p, (t.proc p).state ≠ .RUNNABLE → (t.proc p).cwd = none) : Balanced held' { s with tables := t } where
  count ip := by rw [paid]; exact bal.count ip
  unique := bal.unique
  closed := closed
  idle := idle

/-- The references that an entry of the file table has. -/
def fileRef (f : File) (ip : Slot) : Nat := if 0 < f.ref ∧ f.type = .FD_INODE ∧ f.ip = ip then 1 else 0

theorem fileRefs_update (t : Tables) (f : FileId) (g : File) (ip : Slot) :
    fileRefs (t.setFile f g) ip + fileRef (t.file f) ip = fileRefs t ip + fileRef g ip :=
  card_update t.file f g fun g => 0 < g.ref ∧ g.type = .FD_INODE ∧ g.ip = ip

theorem cwdRefs_update (t : Tables) (p : Pid) (q : Proc) (ip : Slot) :
    cwdRefs (t.setProc p q) ip + (if (t.proc p).cwd = some ip then 1 else 0) =
      cwdRefs t ip + (if q.cwd = some ip then 1 else 0) :=
  card_update t.proc p q fun q => q.cwd = some ip

theorem Balanced.setFile (bal : Balanced held s) (f : FileId) (g : File)
    (paid : ∀ ip, (fileRef g ip + held' ip : Int) = fileRef (s.tables.file f) ip + held ip)
    (closed : g.ref ≤ 0 → g.type ≠ .FD_INODE) :
    Balanced held' { s with tables := s.tables.setFile f g } := by
  refine bal.retable (fun ip => ?_) (fun h => ?_) bal.idle
  · have files := fileRefs_update s.tables f g ip
    have := paid ip
    have cwds : cwdRefs (s.tables.setFile f g) ip = cwdRefs s.tables ip := rfl
    omega
  · rcases eq_or_ne h f with rfl | other
    · simpa [Tables.setFile] using closed
    · simpa [Tables.setFile,other] using bal.closed h

theorem Balanced.setProc (bal : Balanced held s) (p : Pid) (q : Proc)
    (paid : ∀ ip, ((if q.cwd = some ip then 1 else 0) + held' ip : Int) =
      (if (s.tables.proc p).cwd = some ip then 1 else 0) + held ip)
    (idle : q.state ≠ .RUNNABLE → q.cwd = none) :
    Balanced held' { s with tables := s.tables.setProc p q } := by
  refine bal.retable (fun ip => ?_) bal.closed fun h => ?_
  · have cwds := cwdRefs_update s.tables p q ip
    have := paid ip
    have files : fileRefs (s.tables.setProc p q) ip = fileRefs s.tables ip := rfl
    split at cwds <;> split at cwds <;> simp_all <;> omega
  · rcases eq_or_ne h p with rfl | other
    · simpa [Tables.setProc] using idle
    · simpa [Tables.setProc,other] using bal.idle h

variable {held : Slot → Int}

theorem Balanced.setOfile (bal : Balanced held s) (p : Pid) (fd : Fin NOFILE)
    (f : Option FileId) : Balanced held { s with tables := setOfile p fd f s.tables } :=
  bal.setProc p _ (fun _ => rfl) (bal.idle p)

theorem wp_tables {Q : β → State → Prop} {f : Tables → Except String (β × Tables)}
    (next : ∀ b t, f s.tables = .ok (b,t) → Q b { s with tables := t }) :
    wp (kernel p) (call (.tables f)) Q (fun _ => True) s := by
  rw [wp_kernel]
  unfold post kernelStep
  dsimp only
  cases step : f s.tables with
  | error why => trivial
  | ok done => exact next done.1 done.2 step

/-- One call of a process alone leaves the books balanced. -/
def Balances (p : Pid) (c : Call α) : Prop :=
  ∀ s, (s.tables.proc p).state = .RUNNABLE → Balanced 0 s → wp (kernel p) c (fun _ s' => Balanced 0 s') (fun _ => True) s

theorem Moves.balances {c : Call α} (moves : Moves p 0 c fun _ => 0) : Balances p c := by
  intro s _ bal
  refine wp_any (moves 0 s (fun _ => le_rfl) (by simpa using bal)) fun _ s' ⟨done,_⟩ => ?_
  simpa using done

/-! ### Files -/

/-- What the books need of the processes has not changed. -/
def SameProcs (s s' : State) : Prop :=
  ∀ q, (s'.tables.proc q).state = (s.tables.proc q).state ∧ (s'.tables.proc q).cwd = (s.tables.proc q).cwd

theorem SameProcs.trans {s t u : State} (one : SameProcs s t) (two : SameProcs t u) : SameProcs s u :=
  fun q => ⟨(two q).1.trans (one q).1,(two q).2.trans (one q).2⟩

theorem setOfile_sameProcs (s : State) (p : Pid) (fd : Fin NOFILE) (f : Option FileId) :
    SameProcs s { s with tables := setOfile p fd f s.tables } := by
  intro q
  rcases eq_or_ne q p with rfl | other <;> simp [*, setOfile,Tables.setProc]

theorem filealloc_spec (bal : Balanced held s) :
    wp (kernel p) (call (.tables filealloc)) (fun f s' => Balanced held s' ∧ SameProcs s s' ∧
      (∀ g, (s'.tables.file g).type = (s.tables.file g).type) ∧
      ∀ f', f = some f' → 0 < (s'.tables.file f').ref ∧ (s'.tables.file f').type ≠ .FD_INODE) (fun _ => True) s := by
  refine wp_tables fun b t step => ?_
  unfold filealloc at step
  split at step
  · next f found =>
    simp only [Except.ok.injEq,Prod.mk.injEq] at step
    obtain ⟨rfl,rfl⟩ := step
    have free : (s.tables.file f).ref = 0 := by simpa using List.find?_some found
    have closed := bal.closed f (by omega)
    refine ⟨bal.setFile f _ (fun ip => ?_) fun _ => closed,fun q => ⟨rfl,rfl⟩,?_,fun f' same => ?_⟩
    · simp [fileRef,closed]
    · exact (forall_update_iff s.tables.file fun g x => x.type = (s.tables.file g).type).mpr ⟨rfl,fun _ _ => rfl⟩
    · cases same
      simp [Tables.setFile,closed]
  · simp only [Except.ok.injEq,Prod.mk.injEq] at step
    obtain ⟨rfl,rfl⟩ := step
    exact ⟨bal,fun q => ⟨rfl,rfl⟩,fun _ => rfl,by simp⟩

theorem fdalloc_spec (bal : Balanced held s) (f : FileId) :
    wp (kernel p) (call (.tables (fdalloc p f))) (fun _ s' => Balanced held s' ∧ SameProcs s s' ∧
      s'.tables.file = s.tables.file) (fun _ => True) s := by
  refine wp_tables fun b t step => ?_
  unfold fdalloc at step
  split at step <;> simp only [Except.ok.injEq,Prod.mk.injEq] at step <;> obtain ⟨rfl,rfl⟩ := step
  · exact ⟨bal.setOfile p _ _,setOfile_sameProcs s p _ _,rfl⟩
  · exact ⟨bal,fun q => ⟨rfl,rfl⟩,rfl⟩

theorem filedup_balanced (bal : Balanced held s) {f : FileId}
    (step : filedup f s.tables = .ok ((),t)) :
    Balanced held { s with tables := t } ∧ SameProcs s { s with tables := t } := by
  unfold filedup at step
  split at step
  · simp at step
  · next used =>
    simp only [Except.ok.injEq,Prod.mk.injEq,true_and] at step
    subst step
    refine ⟨bal.setFile f _ (fun ip => ?_) fun free => ?_,fun q => ⟨rfl,rfl⟩⟩
    · have now : 0 < (s.tables.file f).ref + 1 := by omega
      have before : 0 < (s.tables.file f).ref := by omega
      simp [fileRef,now,before]
    · simp only at free
      omega

theorem Balanced.closeLast (bal : Balanced held s) {f : FileId}
    (used : 0 < (s.tables.file f).ref) :
    Balanced (held + if (s.tables.file f).type = .FD_INODE then one (s.tables.file f).ip else 0)
      { s with tables := s.tables.setFile f ({ s.tables.file f with ref := 0, type := .FD_NONE }) } := by
  refine bal.setFile f _ (fun ip => ?_) (by simp)
  by_cases kind : (s.tables.file f).type = .FD_INODE
  · rcases eq_or_ne ip (s.tables.file f).ip with rfl | other
    · simp [fileRef,kind,used,one_self,add_comm]
    · simp [fileRef,kind,Ne.symm other,one_other other]
  · simp [fileRef,kind]

theorem fileclose_spec (bal : Balanced held s) (f : FileId) :
    wp (kernel p) (fileclose f) (fun _ s' => Balanced held s' ∧ SameProcs s s') (fun _ => True) s := by
  unfold fileclose
  rw [wp_bind]
  refine wp_tables fun last t step => ?_
  unfold fileclose_ref at step
  dsimp only at step
  split at step
  · simp at step
  · next used =>
    have before : 0 < (s.tables.file f).ref := by omega
    split at step <;> simp only [Except.ok.injEq,Prod.mk.injEq] at step <;> obtain ⟨rfl,rfl⟩ := step
    · next more =>
      refine ⟨bal.setFile f _ (fun ip => ?_) fun free => ?_,fun q => ⟨rfl,rfl⟩⟩
      · have many : 1 < (s.tables.file f).ref := by omega
        simp [fileRef,many,before]
      · simp only at free
        omega
    · have closed := bal.closeLast before
      cases kind : (s.tables.file f).type with
      | FD_NONE =>
        rw [kind] at closed
        simp only [kind,wp_ret]
        exact ⟨by simpa using closed,fun q => ⟨rfl,rfl⟩⟩
      | FD_PIPE =>
        rw [kind,if_neg (by decide),add_zero] at closed
        simp only [kind]
        refine wp_tables fun _ t step => ?_
        unfold pipeclose at step
        split at step
        · simp at step
        · simp only [Except.ok.injEq,Prod.mk.injEq,true_and] at step
          subst step
          exact ⟨closed.retable (fun _ => rfl) closed.closed closed.idle,fun q => ⟨rfl,rfl⟩⟩
      | FD_INODE =>
        rw [kind,if_pos rfl] at closed
        simp only [kind]
        refine wp_any (iput_spec closed _) fun _ s' ⟨done,tables⟩ => ⟨by simpa using done,fun q => ?_⟩
        rw [tables]
        exact ⟨rfl,rfl⟩

theorem balances_dup (fd : Int) : Balances p (sys_dup p fd) := by
  intro s _ bal
  unfold sys_dup
  rw [wp_bind,wp_look]
  rcases argfd p fd s.tables with _ | ⟨fd,f⟩
  · exact bal
  · refine wp_bind .. ▸ wp_use (fdalloc_spec bal f) fun fd s' ⟨bal',_,_⟩ => ?_
    cases fd with
    | none => exact bal'
    | some fd =>
      refine wp_bind .. ▸ wp_tables fun _ t step => ?_
      exact (filedup_balanced bal' step).1

theorem balances_close (fd : Int) : Balances p (sys_close p fd) := by
  intro s _ bal
  unfold sys_close
  rw [wp_bind,wp_look]
  rcases argfd p fd s.tables with _ | ⟨fd,f⟩
  · exact bal
  · refine wp_bind .. ▸ wp_tables fun _ t step => ?_
    cases step
    exact wp_bind .. ▸ wp_use (fileclose_spec (bal.setOfile p fd none) f) fun _ s' done => done.1

theorem moves_open_existing (path : List UInt8) (omode : Nat) :
    Moves p 0 (sys_open_existing p path omode) gotInode := by
  refine .bind (moves_namei path) fun found => ?_
  cases found with
  | none => exact .ret none rfl
  | some ip =>
    refine .skip (kept_ilock ip) fun _ => .skip (.call (kept_look _)) fun d => ?_
    split
    · exact .bind (moves_iunlockput ip) fun _ => .ret none rfl
    · exact .ret (some ip) rfl

theorem moves_open_inode (path : List UInt8) (omode : Nat) : Moves p 0 (sys_open_inode p path omode) gotInode := by
  unfold sys_open_inode
  split
  · exact moves_create path T_FILE 0 0
  · exact moves_open_existing path omode

theorem open_file_spec (bal : Balanced held s) :
    wp (kernel p) (sys_open_file p) (fun opened s' => Balanced held s' ∧ SameProcs s s' ∧
      ∀ f fd, opened = some (f,fd) → 0 < (s'.tables.file f).ref ∧ (s'.tables.file f).type ≠ .FD_INODE)
      (fun _ => True) s := by
  unfold sys_open_file
  rw [wp_bind]
  refine wp_use (filealloc_spec bal) fun f s₁ ⟨bal₁,procs₁,_,fresh⟩ => ?_
  cases f with
  | none => exact ⟨bal₁,procs₁,by simp⟩
  | some f =>
    refine wp_bind .. ▸ wp_use (fdalloc_spec bal₁ f) fun fd s₂ ⟨bal₂,procs₂,files⟩ => ?_
    cases fd with
    | none =>
      refine wp_bind .. ▸ wp_use (fileclose_spec bal₂ f) fun _ s₃ ⟨bal₃,procs₃⟩ => ?_
      exact ⟨bal₃,(procs₁.trans procs₂).trans procs₃,by simp⟩
    | some fd =>
      refine ⟨bal₂,procs₁.trans procs₂,fun f' fd' same => ?_⟩
      cases same
      rw [files]
      exact fresh f rfl

theorem open_set_spec {ip : Slot} (bal : Balanced (held + one ip) s) {f : FileId}
    (fresh : (s.tables.file f).type ≠ .FD_INODE) (used : 0 < (s.tables.file f).ref) (omode : Nat) :
    wp (kernel p) (call (.tables (sys_open_set f ip omode))) (fun _ s' => Balanced held s') (fun _ => True) s := by
  refine wp_tables fun _ t step => ?_
  cases step
  refine bal.setFile f _ (fun jp => ?_) fun free => absurd free (by simpa using used)
  rcases eq_or_ne jp ip with rfl | other
  · simp [fileRef,fresh,used,one_self,add_comm]
  · simp [fileRef,fresh,Ne.symm other,one_other other]

theorem balances_open (path : Arg) (omode : Nat) : Balances p (sys_open p path omode) := by
  intro s _ bal
  unfold sys_open
  split
  · exact bal
  · next path _ =>
    rw [wp_bind]
    refine wp_any (moves_open_inode path omode 0 s (fun _ => le_rfl) (by simpa using bal)) fun found s₁ ⟨bal₁,_⟩ => ?_
    cases found with
    | none => exact (by simpa [gotInode] using bal₁ : Balanced 0 s₁)
    | some ip =>
      refine wp_bind .. ▸ wp_use (open_file_spec bal₁) fun opened s₂ ⟨bal₂,_,fresh⟩ => ?_
      rcases opened with _ | ⟨f,fd⟩
      · refine wp_bind .. ▸ wp_any (moves_iunlockput ip 0 s₂ (fun _ => le_rfl) bal₂) fun _ s₃ ⟨bal₃,_⟩ => ?_
        simpa using bal₃
      · refine wp_bind .. ▸ wp_any (kept_iunlock ip s₂) fun _ s₃ keeps => ?_
        have bal₃ := bal₂.keeps keeps
        have fresh := fresh f fd rfl
        rw [← keeps.tables] at fresh
        exact wp_bind .. ▸ wp_use (open_set_spec bal₃ fresh.2 fresh.1 omode) fun _ s₄ bal₄ => bal₄

/-! ### Processes -/

theorem ite_one (ip jp : Slot) : (if some ip = some jp then 1 else 0 : Int) = one ip jp := by
  rcases eq_or_ne jp ip with rfl | other
  · simp [one_self]
  · simp [one_other other,Ne.symm other]

theorem ite_gotInode (cwd : Option Slot) (ip : Slot) : (if cwd = some ip then 1 else 0 : Int) = gotInode cwd ip := by
  cases cwd with
  | none => rfl
  | some jp => exact ite_one jp ip

theorem setCwd_balanced {old : Slot} {new : Option Slot}
    (bal : Balanced (held + gotInode new - one old) s) {q : Pid} (here : (s.tables.proc q).cwd = some old)
    (runnable : (s.tables.proc q).state = .RUNNABLE) (step : setCwd q new s.tables = .ok ((),t)) :
    Balanced held { s with tables := t } := by
  cases step
  refine bal.setProc q _ (fun ip => ?_) fun dead => absurd runnable dead
  simp only [here,ite_gotInode,Pi.add_apply,Pi.sub_apply,gotInode]
  ring

theorem balances_chdir (path : Arg) : Balances p (sys_chdir p path) := by
  intro s runnable bal
  unfold sys_chdir
  split
  · exact bal
  · next path _ =>
    rw [wp_bind]
    refine wp_any (moves_namei path 0 s (fun _ => le_rfl) (by simpa using bal)) fun found s₁ ⟨bal₁,tables₁⟩ => ?_
    cases found with
    | none => exact (by simpa [gotInode] using bal₁ : Balanced 0 s₁)
    | some ip =>
      refine wp_bind .. ▸ wp_any (kept_ilock ip s₁) fun _ s₂ keeps₂ => ?_
      have attr : KeptCall p (call (.attr ip)) := .call (kept_look _)
      refine wp_bind .. ▸ wp_any (attr s₂) fun d s₃ keeps₃ => ?_
      have bal₃ := (bal₁.keeps keeps₂).keeps keeps₃
      split
      · refine wp_bind .. ▸ wp_any (moves_iunlockput ip 0 s₃ (fun _ => le_rfl) bal₃) fun _ s₄ ⟨bal₄,_⟩ => ?_
        simpa using bal₄
      · refine wp_bind .. ▸ wp_any (kept_iunlock ip s₃) fun _ s₄ keeps₄ => ?_
        refine wp_bind .. ▸ wp_cwdOf p trivial fun cwd here => ?_
        refine wp_bind .. ▸ wp_any (iput_spec (bal₃.keeps keeps₄) cwd) fun _ s₅ ⟨bal₅,tables₅⟩ => ?_
        have tables : s₅.tables = s.tables := by
          rw [tables₅,keeps₄.tables,keeps₃.tables,keeps₂.tables,tables₁]
        rw [← tables₅] at here
        refine wp_bind .. ▸ wp_tables fun _ t step => ?_
        exact setCwd_balanced bal₅ here (by rw [tables]; exact runnable) step

theorem fork_files_balanced {q np : Pid} (fds : List (Fin NOFILE))
    (bal : Balanced held s) (step : fork_files q np fds s.tables = .ok ((),t)) :
    Balanced held { s with tables := t } ∧ SameProcs s { s with tables := t } := by
  induction fds generalizing s with
  | nil =>
    cases step
    exact ⟨bal,fun _ => ⟨rfl,rfl⟩⟩
  | cons fd fds ih =>
    unfold fork_files at step
    split at step
    · exact ih bal step
    · next f _ =>
      cases dup : filedup f s.tables with
      | error why => rw [dup] at step; cases step
      | ok done =>
        rw [dup] at step
        obtain ⟨bal',procs⟩ := filedup_balanced bal dup
        have rest := ih (bal'.setOfile np fd (some f)) step
        exact ⟨rest.1,(procs.trans (setOfile_sameProcs _ np fd (some f))).trans rest.2⟩

theorem Balanced.setState (bal : Balanced held s) {q : Pid} {state : ProcState}
    (dead : (s.tables.proc q).cwd = none) : Balanced held { s with tables := setState q state s.tables } :=
  bal.setProc q _ (fun _ => rfl) fun _ => dead

theorem setState_proc (q : Pid) (state : ProcState) (t : Tables) :
    (setState q state t).proc q = { t.proc q with state := state } := by
  simp [Xv6.setState,Tables.setProc]

theorem allocproc_spec (bal : Balanced held s) (kstack : Bool) :
    wp (kernel p) (call (.tables (allocproc kstack))) (fun np s' => Balanced held s' ∧
      ∀ np', np = some np' → (s'.tables.proc np').cwd = none) (fun _ => True) s := by
  refine wp_tables fun np t step => ?_
  unfold allocproc at step
  split at step
  · cases step
    exact ⟨bal,by simp⟩
  · next np found =>
    have unused : (s.tables.proc np).state = .UNUSED := by simpa using List.find?_some found
    have dead := bal.idle np (by simp [unused])
    split at step <;> cases step
    · refine ⟨bal.setState dead,fun np' same => ?_⟩
      cases same
      rw [setState_proc]
      exact dead
    · exact ⟨bal.setState dead,by simp⟩

theorem balances_fork (kstack memory : Bool) : Balances p (fork p kstack memory) := by
  intro s _ bal
  unfold fork
  rw [wp_bind]
  refine wp_use (allocproc_spec bal kstack) fun np s₁ ⟨bal₁,fresh⟩ => ?_
  cases np with
  | none => exact bal₁
  | some np =>
    have dead := fresh np rfl
    dsimp only
    split
    · refine wp_bind .. ▸ wp_tables fun _ t step => ?_
      cases step
      exact bal₁.setState dead
    · refine wp_bind .. ▸ wp_tables fun _ t step => ?_
      obtain ⟨bal₂,procs₂⟩ := fork_files_balanced _ bal₁ step
      rw [← (procs₂ np).2] at dead
      refine wp_bind .. ▸ wp_cwdOf p trivial fun cwd here => ?_
      refine wp_bind .. ▸ wp_kernel ▸ post_mono (idup_spec bal₂ (bal₂.cwd_ref (fun _ => le_rfl) here))
        (fun _ s₃ ⟨bal₃,tables₃⟩ => ?_) fun _ _ => trivial
      refine wp_bind .. ▸ wp_tables fun _ t step => ?_
      cases step
      rw [← tables₃] at dead
      refine bal₃.setProc np _ (fun ip => ?_) fun dead => absurd rfl dead
      simp only [dead,ite_gotInode,gotInode,Pi.add_apply,Pi.zero_apply]
      ring

theorem exit_files_spec (q : Pid) (fds : List (Fin NOFILE)) (bal : Balanced held s) :
    wp (kernel p) (exit_files q fds) (fun _ s' => Balanced held s' ∧ SameProcs s s') (fun _ => True) s := by
  induction fds generalizing s with
  | nil => exact ⟨bal,fun _ => ⟨rfl,rfl⟩⟩
  | cons fd fds ih =>
    unfold exit_files
    rw [wp_bind,wp_look]
    cases (s.tables.proc q).ofile fd with
    | none => exact ih bal
    | some f =>
      refine wp_bind .. ▸ wp_use (fileclose_spec bal f) fun _ s₁ ⟨bal₁,procs₁⟩ => ?_
      refine wp_bind .. ▸ wp_tables fun _ t step => ?_
      cases step
      refine wp_use (ih (bal₁.setOfile q fd none)) fun _ s₂ ⟨bal₂,procs₂⟩ => ⟨bal₂,?_⟩
      exact (procs₁.trans (setOfile_sameProcs s₁ q fd none)).trans procs₂

theorem exit_zombie_balanced (bal : Balanced held s) {q : Pid}
    (dead : (s.tables.proc q).cwd = none) (step : exit_zombie q s.tables = .ok ((),t)) :
    Balanced held { s with tables := t } := by
  cases step
  have same (r : Pid) : (reparent q s.tables.initproc (s.tables.proc r)).cwd = (s.tables.proc r).cwd ∧
      (reparent q s.tables.initproc (s.tables.proc r)).state = (s.tables.proc r).state := by
    unfold reparent
    split <;> exact ⟨rfl,rfl⟩
  have moved : Balanced held
      { s with tables := { s.tables with proc := fun r => reparent q s.tables.initproc (s.tables.proc r) } } := by
    refine bal.retable (fun ip => ?_) bal.closed fun r => ?_
    · simp only [fileRefs,cwdRefs,(same _).1]
    · simp only [(same r).1,(same r).2]
      exact bal.idle r
  exact moved.setState (by simpa only [(same q).1] using dead)

theorem balances_exit : Balances p (exit p) := by
  intro s runnable bal
  unfold exit
  rw [wp_bind,wp_look]
  split
  · trivial
  · refine wp_bind .. ▸ wp_use (exit_files_spec p _ bal) fun _ s₁ ⟨bal₁,procs₁⟩ => ?_
    refine wp_bind .. ▸ wp_cwdOf p trivial fun cwd here => ?_
    refine wp_bind .. ▸ wp_any (iput_spec bal₁ cwd) fun _ s₂ ⟨bal₂,tables₂⟩ => ?_
    have runnable₂ : (s₂.tables.proc p).state = .RUNNABLE := by rw [tables₂,(procs₁ p).1]; exact runnable
    rw [← tables₂] at here
    refine wp_bind .. ▸ wp_tables fun _ t step => ?_
    have paid : Balanced (0 + gotInode none - one cwd) s₂ := by simpa [gotInode] using bal₂
    have bal₃ := setCwd_balanced paid here runnable₂ step
    have dead : (t.proc p).cwd = none := by
      cases step
      simp [Tables.setProc]
    refine wp_bind .. ▸ wp_tables fun _ t' step' => ?_
    exact exit_zombie_balanced bal₃ dead step'

theorem balances_wait : Balances p (wait p) := by
  intro s _ bal
  unfold wait
  rw [wp_bind,wp_await]
  split
  · refine wp_tables fun r t step => ?_
    unfold wait_scan at step
    split at step <;> cases step
    · next q found =>
      have dead : (s.tables.proc q).cwd = none := by
        have this := List.find?_some found
        simp only [decide_eq_true_eq] at this
        exact bal.idle q (by simp [this.2])
      exact bal.setProc q _ (fun _ => rfl) fun _ => dead
    · exact bal
  · trivial

/-! ### Reading and writing -/

theorem advance_spec (bal : Balanced held s) (f : FileId) (r : Nat) :
    wp (kernel p) (call (.tables (advance f r))) (fun _ s' => Balanced held s') (fun _ => True) s := by
  refine wp_tables fun _ t step => ?_
  cases step
  exact bal.setFile f _ (fun _ => rfl) (bal.closed f)

theorem filewrite_from_spec (f : FileId) (ip : Slot) (fuel : Nat) (src : List UInt8)
    (bal : Balanced held s) :
    wp (kernel p) (filewrite_from f ip fuel src) (fun _ s' => Balanced held s') (fun _ => True) s := by
  induction fuel generalizing src s with
  | zero => exact bal
  | succ fuel ih =>
    unfold filewrite_from
    split
    · exact bal
    · have write (off n : Nat) : KeptCall p (call (.writei ip (src.take n) off)) := .call (kept_writei _ _ _)
      refine wp_bind .. ▸ wp_any (kept_ilock ip s) fun _ s₁ keeps₁ => ?_
      rw [wp_bind,wp_look]
      refine wp_bind .. ▸ wp_any (write _ _ s₁) fun r s₂ keeps₂ => ?_
      refine wp_bind .. ▸ wp_use (advance_spec ((bal.keeps keeps₁).keeps keeps₂) f r.toNat) fun _ s₃ bal₃ => ?_
      refine wp_bind .. ▸ wp_any (kept_iunlock ip s₃) fun _ s₄ keeps₄ => ?_
      have bal₄ := bal₃.keeps keeps₄
      split
      · exact bal₄
      · split
        · trivial
        · exact ih _ bal₄

theorem balances_write (fd : Int) (src : List UInt8) (piped : Int) : Balances p (sys_write p fd src piped) := by
  intro s _ bal
  unfold sys_write filewrite
  rw [wp_bind,wp_look]
  rcases argfd p fd s.tables with _ | ⟨fd,f⟩
  · exact bal
  · dsimp only
    rw [wp_bind,wp_look]
    split
    · exact bal
    · split
      · exact bal
      · exact wp_bind .. ▸ wp_use (filewrite_from_spec f _ _ src bal) fun _ _ done => done
      · trivial

theorem balances_read (fd : Int) (n : Nat) (piped : Int) : Balances p (sys_read p fd n piped) := by
  intro s _ bal
  unfold sys_read fileread
  rw [wp_bind,wp_look]
  rcases argfd p fd s.tables with _ | ⟨fd,f⟩
  · exact bal
  · dsimp only
    rw [wp_bind,wp_look]
    split
    · exact bal
    · split
      · exact bal
      · have read (ip : Slot) (off : Nat) : KeptCall p (call (.readi ip off n)) := .call (kept_readi _ _ _)
        refine wp_bind .. ▸ wp_any (kept_ilock _ s) fun _ s₁ keeps₁ => ?_
        rw [wp_bind,wp_look]
        refine wp_bind .. ▸ wp_any (read _ _ s₁) fun r s₂ keeps₂ => ?_
        refine wp_bind .. ▸ wp_use (advance_spec ((bal.keeps keeps₁).keeps keeps₂) f _) fun _ s₃ bal₃ => ?_
        exact wp_bind .. ▸ wp_any (kept_iunlock _ s₃) fun _ s₄ keeps₄ => bal₃.keeps keeps₄
      · trivial

/-! ### Every call -/

theorem balances (c : SysCall) : Balances p (c.prog p) := by
  cases c with
  | «open» path omode => exact balances_open path omode
  | close fd => exact balances_close fd
  | dup fd => exact balances_dup fd
  | read fd n piped => exact balances_read fd n piped
  | write fd src piped => exact balances_write fd src piped
  | link old new => exact (moves_link old new).balances
  | unlink path => exact (moves_unlink path).balances
  | mkdir path => exact (moves_sys_create path T_DIR 0 0).balances
  | mknod path major minor => exact (moves_sys_create path T_DEV major minor).balances
  | chdir path => exact balances_chdir path
  | exec path pgdir memory stack => exact (moves_exec path pgdir memory stack).balances
  | fork kstack memory => exact balances_fork kstack memory
  | exit => exact balances_exit
  | wait => exact balances_wait

theorem Calls.balanced {s t : State} (calls : Calls s t) (bal : Balanced 0 s) : Balanced 0 t := by
  induction calls with
  | refl => exact bal
  | step before runnable ran ih =>
    have done := wp_ok (balances _ _ runnable ih) ran
    exact done

theorem boot_balanced (disk : Disk) (devsw : Fin NDEV → Driver) : Balanced 0 (boot disk devsw) where
  count ip := by
    have files : fileRefs bootTables ip = 0 := Finset.card_eq_zero.mpr (by simp [bootTables])
    have cwds : cwdRefs bootTables ip = if ip = 0 then 1 else 0 := by
      unfold cwdRefs
      have here (p : Pid) : (bootTables.proc p).cwd = some ip ↔ p = 0 ∧ ip = 0 := by
        unfold bootTables
        dsimp only
        split <;> simp_all [eq_comm]
      rcases eq_or_ne ip 0 with rfl | other
      · simp [here,Finset.filter_eq']
      · simp [here,other]
    simp only [boot,files,cwds]
    split <;> simp_all
  unique ip jp := by
    simp only [boot]
    split <;> split <;> simp_all
  closed f _ := by simp [boot,bootTables]
  idle p := by
    simp only [boot,bootTables]
    split <;> simp

/-- **Inode reference counts balance.** After complete system calls of any
    processes on any disk, the count of each cache entry is the number of open files
    and current directories that use it, these entries are in use, and no inode has
    two of them. -/
theorem refs_balance (disk : Disk) (devsw : Fin NDEV → Driver) {s : State} (calls : Calls (boot disk devsw) s) :
    (∀ ip, (s.icache ip).ref = fileRefs s.tables ip + cwdRefs s.tables ip) ∧
    (∀ f, 0 < (s.tables.file f).ref → (s.tables.file f).type = .FD_INODE → 0 < (s.icache (s.tables.file f).ip).ref) ∧
    (∀ p ip, (s.tables.proc p).cwd = some ip → 0 < (s.icache ip).ref) ∧
    (∀ ip jp, 0 < (s.icache ip).ref → 0 < (s.icache jp).ref → (s.icache ip).dev = (s.icache jp).dev →
      (s.icache ip).inum = (s.icache jp).inum → ip = jp) := by
  have bal := Calls.balanced calls (boot_balanced disk devsw)
  refine ⟨fun ip => ?_,fun f => bal.file_ref fun _ => le_rfl,fun p ip => bal.cwd_ref fun _ => le_rfl,bal.unique⟩
  simpa using bal.count ip

/-- An image with the root directory only. -/
def rootImage : Disk := Image.image [Image.dir 1 2 6] [[Image.entry 1 dot,Image.entry 1 dotdot]]

/-- Make a file and a directory, fork, and change the directory of the child. -/
def someCalls : List (Pid × SysCall) :=
  [(0,.open (some [102]) O_CREATE),(0,.mkdir (some [100])),(0,.fork true true),(1,.chdir (some [100]))]

/-- Where these calls lead. -/
def someEnd : List Int × State := (Image.run someCalls (Image.booted rootImage)).toOption.get (by decide +kernel)

theorem refs_balance_someCalls : someEnd.1 = [0,0,1,0] ∧ ∀ ip, (someEnd.2.icache ip).ref =
    fileRefs someEnd.2.tables ip + cwdRefs someEnd.2.tables ip := by
  have ran : Image.run someCalls (Image.booted rootImage) = .ok someEnd := Image.eq_ok_get (by decide +kernel)
  have calls := Image.run_calls (.refl _) (by decide +kernel) ran
  exact ⟨by decide +kernel,(refs_balance rootImage _ calls).1⟩

end Xv6.Refs
