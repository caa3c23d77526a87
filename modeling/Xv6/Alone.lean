import Xv6.Paths
import Xv6.Wellformed
import Xv6.Reading
import Xv6.Refs

/-!
The kernel as a world.
-/
namespace Xv6
open Xv6.Lib Prog Function

variable {s t : State} {x y : World} {ip jp : Slot} {r : Ref} {i : Nat} {p : Pid} {α : Type} {E : Stop Wait → Prop}

/-- The world that a state spells out, with the inodes that may have holes and those that may be filled. -/
def State.world (s : State) (holey soft : Nat → Prop) : World where
  ninodes := s.sb.ninodes
  node := (view s).node
  held ip := if (s.icache ip).ref = 0 then none
    else some ⟨(s.icache ip).inum,(s.icache ip).ref.toNat,(s.icache ip).lock,false⟩
  tables := s.tables
  devsw := s.devsw
  notes := 0
  holey := holey
  soft := soft

/-- The kernel is in a state of the world. -/
def Stands (s : State) (x : World) : Prop := ∃ a, Represents s a ∧ Now x (a,x.notes)

/-! ### Calls that need no blocks -/

/-- The code does not look for a free block in vain. -/
def Sated {β : Type} (m : M β) : Prop := ∀ s, post m (fun _ _ => True) (¬Full ·) s

theorem Sated.step {β : Type} {m : M β} (sated : Sated m) (s : State) :
    (∃ done, m.step s = .ok done) ∨ ∃ why, m.step s = .error (.panic why) ∧ ¬Full why := by
  have ends := sated s
  unfold post at ends
  unfold M.step
  cases ran : m s with
  | ok done => exact .inl ⟨done,rfl⟩
  | error why =>
    rw [ran] at ends
    exact .inr ⟨why,rfl,ends⟩

theorem sated_spares {β : Type} {m : M β} (spares : Refs.Spares m) : Sated m := fun s =>
  post_mono (spares s) (fun _ _ _ => trivial) fun _ other full => other (full ▸ List.mem_cons_self)

theorem sated_iget (dev inum : Nat) : Sated (iget dev inum) := by
  intro s
  unfold iget
  rw [post_bind,post_get]
  split
  · trivial
  · split
    · trivial
    · exact (by decide : "iget: no inodes" ≠ "balloc: out of blocks")

theorem sated_writei_nil (ip : Slot) (off : Nat) : Sated (writei ip [] off) := by
  intro s
  unfold writei
  rw [post_bind,post_get]
  dsimp only
  split
  · split
    · split <;> trivial
    · trivial
  · split
    · trivial
    · split <;> trivial

theorem missing_less {hole : Nat → Bool} {off n m : Nat} (whole : missing hole off n = false) (less : m ≤ n) :
    missing hole off m = false := by
  unfold missing at whole ⊢
  rw [List.any_eq_false] at whole ⊢
  intro bn low both
  rw [Bool.and_eq_true,decide_eq_true_eq] at both
  refine whole bn low ?_
  rw [Bool.and_eq_true,decide_eq_true_eq]
  have touches := both.1
  unfold Touches at touches ⊢
  exact ⟨by omega,both.2⟩

theorem Repr.readi_sated {v : Nat → Dinode} {a : Files} (repr : Repr s v a) {h : Handle} (here : a.slot ip = some h)
    (valid : h.valid = true) {off n : Nat} (whole : missing (a.hole h.inum) off n = false) :
    ∃ r, readi ip off n s = .ok (r,s) := by
  have holds := repr.holds here valid
  have looks := repr.nodes _ holds.inside
  have ends : post (readi ip off n) (fun _ s' => s' = s) (fun _ => False) s := by
    unfold readi
    simp only [post_bind,post_get,holds.node]
    split
    · split
      · split <;> rfl
      · rfl
    · split
      · rfl
      · next legal =>
        rw [not_or] at legal
        generalize clip : (if off + n > (v h.inum).size.toNat then (v h.inum).size.toNat - off else n) = m
        have inside : off + m ≤ (v h.inum).size.toNat ∧ m ≤ n := by
          have := legal.1
          split at clip <;> omega
        rw [post_bind,post_readi_from holds.node m off m (Nat.le_refl _) (inside.1.trans (looks.small holds.type))
          fun bn touches => looks.mapped holds.type inside.1 (missing_less whole inside.2) touches]
        rfl
  obtain ⟨b,_,ran,rfl⟩ := post_returns ends
  exact ⟨b,ran⟩

/-- An operation that costs no blocks does not run out of them. -/
theorem kernel_spared {β : Type} (o : Op β) {a a' : Files} {b : β} (repr : Represents s a) (ran : filesStep p a o = .ok (b,a'))
    (nothing : (cost o a).blocks = 0) : ∃ done, (kernel p).step o s = .ok done := by
  have matched := (kernel_refines p).step o repr
  rw [show (files p).step o a = .ok (b,a') from ran] at matched
  -- what is left is that the kernel does not panic for want of a block
  have enough (sated : Sated (kernelStep p o)) : ∃ done, (kernel p).step o s = .ok done := by
    rcases sated.step s with done | ⟨why,failed,other⟩
    · exact done
    · rw [show (kernel p).step o s = _ from failed] at matched
      rcases matched with bad | full | bad
      · cases bad
      · exact absurd full other
      · cases bad
  cases o with
  | iget dev inum => exact enough (sated_iget dev inum)
  | idup ip | unref ip | lock ip | unlock ip | ref ip | dev ip | inum ip | holdingsleep ip | valid ip | attr ip =>
    exact enough fun _ => trivial
  | iload ip => exact enough (sated_spares (Refs.kept_iload ip))
  | isetattr ip major minor nlink => exact enough (sated_spares (Refs.kept_isetattr ip major minor nlink))
  | ialloc type => exact enough (sated_spares (Refs.kept_ialloc_inum type))
  | ifree ip => exact enough (sated_spares (Refs.kept_ifree ip))
  | readi ip off n =>
    obtain ⟨v,repr⟩ := repr
    cases here : a.slot ip with
    | none => simp [filesStep,Files.readi,Files.loaded,Files.handle,here] at ran
    | some h =>
      have valid : h.valid = true := by
        by_contra bad
        simp [filesStep,Files.readi,Files.loaded,Files.handle,here,bad] at ran
      have whole : missing (a.hole h.inum) off n = false := by
        by_contra bad
        simp [cost,here,Bool.not_eq_false _ ▸ bad] at nothing
      obtain ⟨done,read⟩ := repr.readi_sated here valid whole
      exact ⟨(done,s),by show M.step (readi ip off n) s = _; rw [M.step,read]⟩
  | writei ip src off =>
    obtain rfl : src = [] := by
      by_contra some'
      simp [cost,some'] at nothing
    exact enough (sated_writei_nil ip off)
  | tables f =>
    obtain ⟨v,repr⟩ := repr
    simp only [filesStep,repr.tables] at ran
    cases step : f s.tables with
    | error why =>
      rw [step] at ran
      cases ran
    | ok done =>
      refine ⟨(done.1,{ s with tables := done.2 }),?_⟩
      show M.step (kernelStep p (.tables f)) s = _
      simp only [M.step,kernelStep,step]
      rfl

theorem Stands.returns {c : Call α} {Q : α → World → Prop} (stands : Stands s x) (runs : Runs p c Q (fun _ => False) x)
    (nothing : ∀ r y, Q r y → y.notes.blocks = x.notes.blocks) : ∃ r t, exec (kernel p) c s = .ok (r,t) ∧ ∃ y, Stands t y ∧ Q r y := by
  obtain ⟨a,repr,now⟩ := stands
  obtain ⟨r,⟨b,l⟩,ran,y,now',post⟩ := wp_returns (runs _ now)
  obtain rfl : l = y.notes := now'.notes
  obtain ⟨t,ran',repr'⟩ := exec_afforded Notes.blocks (fun _ _ => rfl) (kernel_refines p) (fun _ => 0)
    (fun o _ _ _ _ repr step free =>
      have ⟨done,ran⟩ := kernel_spared o repr step (Nat.le_zero.mp free)
      ⟨done.1,done.2,ran,Nat.zero_le _⟩) c repr ran (nothing r y post).le
  exact ⟨r,t,ran',y,⟨b,repr',now'⟩,post⟩

/-! ### From a state to its world -/

open Classical in
/-- The files of a state, with all blocks in doubt of the inodes that may have holes. -/
noncomputable def State.doubt (s : State) (holey : Nat → Prop) : Files := { view s with hole := fun i _ => decide (holey i) }

theorem doubt_hole {holey : Nat → Prop} {bn : Nat} : (s.doubt holey).hole i bn = true ↔ holey i := by simp [State.doubt]

theorem Clean.doubt (clean : Clean s) {holey : Nat → Prop} (solid : ∀ i < s.sb.ninodes, ¬holey i →
    (dinodeAt s.sb s.disk i).type ≠ 0 → ∀ bn < MAXFILE, bn * BSIZE < (dinodeAt s.sb s.disk i).size.toNat →
      blk s.disk (dinodeAt s.sb s.disk i) bn ≠ 0) : Represents s (s.doubt holey) := by
  obtain ⟨v,repr⟩ := clean.represents
  refine ⟨v,{ repr with nodes := fun i inside => ?_ }⟩
  have looks := repr.nodes i inside
  refine { looks with holes := fun typed bn small low none' => doubt_hole.mpr ?_ }
  have same : dinodeAt s.sb s.disk i = v i := repr.saved i inside rfl
  by_contra firm
  exact solid i inside firm (same ▸ typed) bn small (same ▸ low) (same ▸ none')

theorem Clean.stands (clean : Clean s) {holey soft : Nat → Prop} (solid : ∀ i < s.sb.ninodes, ¬holey i →
    (dinodeAt s.sb s.disk i).type ≠ 0 → ∀ bn < MAXFILE, bn * BSIZE < (dinodeAt s.sb s.disk i).size.toNat →
      blk s.disk (dinodeAt s.sb s.disk i) bn ≠ 0)
    (loaded : ∀ ip, (s.icache ip).lock ≠ none → (s.icache ip).valid = true)
    (range : ∀ i < s.sb.ninodes, ((view s).node i).type = T_DIR → ∀ k, ((view s).node i).live k →
      (((view s).node i).entry k).inum.toNat < s.sb.ninodes) : Stands s (s.world holey soft) := by
  have used {ip : Slot} (busy : (s.icache ip).ref ≠ 0) : 0 < (s.icache ip).ref ∧ (s.icache ip).inum < s.sb.ninodes ∧
      ((s.icache ip).valid = true → (s.icache ip).node = dinodeAt s.sb s.disk (s.icache ip).inum ∧ (s.icache ip).node.type ≠ 0) := by
    have saved := clean.slots ip
    unfold Saved at saved
    rw [if_neg busy] at saved
    exact ⟨saved.1,saved.2.2.1,saved.2.2.2⟩
  have held {ip : Slot} {r : Ref} (here : (s.world holey soft).held ip = some r) :
      (s.icache ip).ref ≠ 0 ∧ r = ⟨(s.icache ip).inum,(s.icache ip).ref.toNat,(s.icache ip).lock,false⟩ := by
    by_cases free : (s.icache ip).ref = 0
    · simp [State.world,free] at here
    · simp only [State.world,free,if_false,Option.some.injEq] at here
      exact ⟨free,here.symm⟩
  have slot {ip : Slot} {h : Handle} (here : (s.doubt holey).slot ip = some h) :
      (s.icache ip).ref ≠ 0 ∧ h = ⟨(s.icache ip).inum,(s.icache ip).ref.toNat,(s.icache ip).lock,(s.icache ip).valid⟩ := by
    by_cases free : (s.icache ip).ref = 0
    · simp [State.doubt,view,free] at here
    · simp only [State.doubt,view,free,if_false,Option.some.injEq] at here
      exact ⟨free,here.symm⟩
  refine ⟨s.doubt holey,clean.doubt solid,⟨fun ip r here => ?_,fun ip r here => ?_,fun ip jp r q here there same => ?_,range⟩,
    rfl,rfl,fun ip => ?_,rfl,rfl,rfl,fun i firm bn => Bool.eq_false_iff.mpr (firm ∘ doubt_hole.mp),fun _ _ => rfl,fun ip h here valid => ?_,
    fun ip h here locked => ?_⟩
  · obtain ⟨busy,rfl⟩ := held here
    have := (used busy).1
    show 0 < (s.icache ip).ref.toNat
    omega
  · obtain ⟨busy,rfl⟩ := held here
    exact (used busy).2.1
  · obtain ⟨busy,rfl⟩ := held here
    obtain ⟨busy',rfl⟩ := held there
    exact clean.unique ip jp busy busy' same
  · by_cases free : (s.icache ip).ref = 0
    · simpa [State.doubt,view,State.world,free] using Entry.none
    · simp only [State.doubt,view,State.world,free,if_false]
      exact .some ⟨(s.icache ip).inum,(s.icache ip).ref.toNat,(s.icache ip).lock,(s.icache ip).valid⟩ false nofun
  · obtain ⟨busy,rfl⟩ := slot here
    obtain ⟨same,typed⟩ := (used busy).2.2 valid
    rw [same] at typed
    exact typed
  · obtain ⟨busy,rfl⟩ := slot here
    exact loaded ip locked

/-! ### From a world to its state -/

theorem Stands.held (stands : Stands s x) (here : x.held ip = some r) :
    (s.icache ip).ref = r.ref ∧ (s.icache ip).inum = r.inum ∧ (s.icache ip).lock = r.lock ∧ 0 < r.ref := by
  obtain ⟨a,⟨v,repr⟩,now⟩ := stands
  obtain ⟨h,fresh,slot,rfl,_⟩ := now.slot here
  obtain ⟨ref,positive,_,inum,_,lock,_⟩ := repr.inUse slot
  exact ⟨ref,inum,lock,positive⟩

/-! ### A file system at rest -/

/-- An inode has links, or it is in use. -/
def Unlost (s : State) (i : Nat) : Prop :=
  ((view s).node i).type ≠ 0 → ((view s).node i).nlink = 0 → ∃ ip, (s.icache ip).ref ≠ 0 ∧ (s.icache ip).inum = i

instance (s : State) (i : Nat) : Decidable (Unlost s i) := by
  unfold Unlost
  infer_instance

/-- No call is under way, all inodes are saved and have their blocks, and what directories name are inodes of the disk
    that are not lost. -/
structure Orderly (s : State) : Prop where
  clean : Clean s
  idle : ∀ ip, (s.icache ip).lock = none
  solid : ∀ i < s.sb.ninodes, (dinodeAt s.sb s.disk i).type ≠ 0 → ∀ bn < MAXFILE,
    bn * BSIZE < (dinodeAt s.sb s.disk i).size.toNat → blk s.disk (dinodeAt s.sb s.disk i) bn ≠ 0
  root : ROOTINO < s.sb.ninodes ∧ Unlost s ROOTINO
  named : ∀ d < s.sb.ninodes, ((view s).node d).type = T_DIR → ∀ k, ((view s).node d).live k →
    (((view s).node d).entry k).inum.toNat < s.sb.ninodes ∧ Unlost s (((view s).node d).entry k).inum.toNat

/-- The world of a file system at rest. -/
abbrev State.still (s : State) : World := s.world (fun _ => False) fun _ => False

theorem Orderly.stands (orderly : Orderly s) : Stands s s.still :=
  orderly.clean.stands (fun i inside _ => orderly.solid i inside) (fun ip bad => absurd (orderly.idle ip) bad)
    fun d inside dir k live => (orderly.named d inside dir k live).1

theorem still_held (here : s.still.held ip = some r) :
    (s.icache ip).ref ≠ 0 ∧ r = ⟨(s.icache ip).inum,(s.icache ip).ref.toNat,(s.icache ip).lock,false⟩ := by
  by_cases free : (s.icache ip).ref = 0
  · simp [State.world,free] at here
  · simp only [State.world,free,if_false,Option.some.injEq] at here
    exact ⟨free,here.symm⟩

theorem held_still (busy : (s.icache ip).ref ≠ 0) :
    s.still.held ip = some ⟨(s.icache ip).inum,(s.icache ip).ref.toNat,(s.icache ip).lock,false⟩ := if_neg busy

theorem Unlost.linked (unlost : Unlost s i) : s.still.Linked i := fun typed nolink =>
  have ⟨ip,busy,same⟩ := unlost typed nolink
  ⟨ip,_,held_still busy,same⟩

theorem Orderly.calm (orderly : Orderly s) : s.still.Calm where
  idle ip r here := by
    obtain ⟨_,rfl⟩ := still_held here
    exact ⟨orderly.idle ip,rfl⟩
  solid _ := id
  hard _ := id
  root := orderly.root.2.linked
  named d inside dir k live := (orderly.named d inside dir k live).2.linked

end Xv6
