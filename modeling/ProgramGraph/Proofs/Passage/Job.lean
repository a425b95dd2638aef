import ProgramGraph.Proofs.Passage.Basic
import ProgramGraph.Proofs.Passage.Wait
/-!
# What a job passes through

A job begins with a memo in some world, takes its turns, and goes on after its
waits with what can come of them; and what can come of a wait are ends of jobs
that pass through the same. Unlike `Engine.MayReach` this leaves out what no job
can bring about. A property of all that jobs pass through is shown by induction,
with a case for each way in which a job goes on (`Passes.rec`).
-/

namespace ProgramGraph

variable {P : Plugins}

/-- **What a job passes through** from a memo, if the worlds that it sees are such
as given. -/
inductive Passes (E : Engine P) (W : World P → Prop) : Memo → Job → Next P → Prop
  /-- The job begins. -/
  | begin {m : Memo} {job : Job} {world : World P} : W world →
    Passes E W m job (Run.begin E { memo := m, scope := job.scope, world } job.node)
  /-- It takes a turn. -/
  | turn {m : Memo} {job : Job} {r : Run P} {input : Input} :
    Passes E W m job (.resume r input) → Passes E W m job (r.turn E input)
  /-- It goes on after a wait. Jobs that were waited for have ended in one of the
  ways in which they may end from an empty memo. -/
  | wake {m : Memo} {job : Job} {r : Run P} {await : Await} {world : World P} {wake : Wake}
    {ends : Job → Outcome P → Prop} : Passes E W m job (.wait r await) → W world →
    (∀ job o, ends job o → Passes E W .empty job (.finish o)) →
    await.Comes (fun job c => ∃ o, ends job o ∧ o.conclusion = c) wake →
    Passes E W m job (r.wake world wake)

/-- How a job may end. -/
def Job.Ends (E : Engine P) (W : World P → Prop) (job : Job) (c : Conclusion) : Prop :=
  ∃ o, Passes E W .empty job (.finish o) ∧ o.conclusion = c

/-- **What a job can do next,** if jobs end as they may. -/
inductive Next.Advances (E : Engine P) (W : World P → Prop) : Next P → Next P → Prop
  | turn (r : Run P) (input : Input) : Advances E W (.resume r input) (r.turn E input)
  | wake {r : Run P} {await : Await} {world : World P} {wake : Wake} : W world →
    await.Comes (Job.Ends E W) wake → Advances E W (.wait r await) (r.wake world wake)

namespace Passes

variable {E : Engine P} {W : World P → Prop} {m : Memo} {job : Job} {next : Next P}

/-- A job that goes on after its wait. -/
theorem wake_of_comes {r : Run P} {await : Await} {world : World P} {wake : Wake}
    (h : Passes E W m job (.wait r await)) (hworld : W world) (hwake : await.Comes (Job.Ends E W) wake) :
    Passes E W m job (r.wake world wake) :=
  .wake h hworld (fun _ _ h => h) hwake

/-- **A job gets to what it passes through** from its beginning. -/
theorem exists_advances (h : Passes E W m job next) :
    ∃ world, Relation.ReflTransGen (Next.Advances E W)
      (Run.begin E { memo := m, scope := job.scope, world } job.node) next := by
  induction h with
  | @begin m job world _ => exact ⟨world, .refl⟩
  | turn _ ih =>
    obtain ⟨world, hadvances⟩ := ih
    exact ⟨world, hadvances.tail (.turn _ _)⟩
  | wake _ hworld hends hcomes ih =>
    obtain ⟨world, hadvances⟩ := ih
    refine ⟨world, hadvances.tail (.wake hworld (hcomes.mono fun job _ c => ?_))⟩
    rintro ⟨o, ho, hc⟩
    exact ⟨o, hends job o ho, hc⟩

/-- **All that a job passes through** is such that the run may come to it. -/
theorem mayReach (h : Passes E W m job next) :
    ∃ world, E.MayReach job.node m job.scope world next := by
  induction h with
  | @begin m job world _ => exact ⟨world, .refl⟩
  | turn _ ih =>
    obtain ⟨world, hreach⟩ := ih
    exact ⟨world, hreach.tail (.turn _ _)⟩
  | wake _ _ _ _ ih =>
    obtain ⟨world, hreach⟩ := ih
    exact ⟨world, hreach.tail (.wake _ _ _ _)⟩

end Passes

end ProgramGraph
