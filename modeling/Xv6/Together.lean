import Xv6.Offsets

/-!
Processes side by side. In any interleaving of the operations of their calls the kernel does what the files do.
-/
namespace Xv6
open Xv6.Lib Prog Function

/-- The processes, with nothing told of what they do. -/
def together {σ : Type} (m : Pid → Machine Op Wait σ) : Crew Op Wait Pid σ Unit := ⟨m,fun _ _ _ _ => []⟩

/-- Every run of any calls of any number of processes on the disk, with its blocks and its cache, is one of the same calls on
    files: the processes have got the same answers and the disk represents the files. The calls are such that they never do,
    on the files, what has no meaning there. -/
theorem kernel_refines_together {prog : Pid → Call Unit} {s : State} {a : Files} (repr : Represents s a)
    (safe : ∀ v p, Pool.Runs (together files) ⟨prog,a,[]⟩ v → ¬v.Stuck (together files) p)
    {u : Pool Op Wait Pid Unit State Unit} (runs : Pool.Runs (together kernel) ⟨prog,s,[]⟩ u) :
    ∃ a', Pool.Runs (together files) ⟨prog,a,[]⟩ ⟨u.prog,a',u.log⟩ ∧ Represents u.state a' :=
  runs.simulates (c := together kernel) (d := together files) kernel_refines (fun _ _ _ _ => rfl) repr safe

/-- A process writes to a file under its lock. Another one copies behind them the bytes that it finds there. -/
def sharing (p : Pid) : Call Unit :=
  if p = 0 then do
    ilock 1
    let _ ← call (.writei 1 [5,6] 0)
    iunlock 1
  else if p = 1 then do
    ilock 1
    let bytes ← call (.readi 1 0 2)
    let _ ← call (.writei 1 (bytes.getD []) 2)
    iunlock 1
  else ret ()

/-- Both come to the lock; then the first has it, and after it the second. -/
theorem kernel_refines_together_sharing : ∃ u a, Pool.Runs (together kernel) ⟨sharing,Offsets.forked,[]⟩ u ∧
    slice (content u.state.disk (u.state.icache 1).node) 0 4 = [5,6,5,6] ∧
    Pool.Runs (together files) ⟨sharing,view Offsets.forked,[]⟩ ⟨u.prog,a,u.log⟩ ∧ Represents u.state a := by
  have ran : ((Pool.follow (together kernel) ([1,0] ++ List.replicate 7 0 ++ List.replicate 8 1) ⟨sharing,Offsets.forked,[]⟩).any
    fun u => slice (content u.state.disk (u.state.icache 1).node) 0 4 = [5,6,5,6]) = true := by decide +kernel
  obtain ⟨u,follow,bytes⟩ := (Option.any_eq_true ..).mp ran
  have runs := Pool.Runs.refl.follow follow
  have calm : (⟨sharing,view Offsets.forked,[]⟩ : Pool Op Wait Pid Unit Files Unit).calm (together files) [0,1] 20 = true := by
    decide +kernel
  have others (q : Pid) (other : q ∉ [0,1]) : ∃ r, sharing q = ret r := by
    simp only [List.mem_cons,List.not_mem_nil,or_false,not_or] at other
    exact ⟨(),by rw [sharing,if_neg other.1,if_neg other.2]⟩
  obtain ⟨a,same,repr⟩ := kernel_refines_together Offsets.forked_clean.represents
    (fun v p reached => reached.calm others calm) runs
  exact ⟨u,a,runs,by simpa using bytes,same,repr⟩

end Xv6
