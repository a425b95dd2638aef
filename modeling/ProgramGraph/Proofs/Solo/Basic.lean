import ProgramGraph.Engine.Schedule
import ProgramGraph.Proofs.Course.Basic
/-!
# Runs by themselves

What becomes of a run if it is never kept from going on: `Solo` says to what
it comes, how long it takes and how many steps of a schedule it makes work for.
Where the run waits for jobs, each of them goes on by itself as well, and what
comes of the wait is told from how the jobs end and when (`Await.Resolves`).
The world has no part in it, so whatever other jobs do to the world is of no
account.

A wait whose end hangs on which of two things comes first resolves only if one
of them does.
-/

namespace ProgramGraph

variable {P : Plugins}

/-- What is left of a run: its result, and its memo with the counters. -/
structure Report where
  result : Except EvalError Value
  tainted : Bool
  memo : Memo

/-- What an outcome leaves. -/
def Outcome.report (o : Outcome P) : Report := ⟨o.result, o.tainted, o.run.memo⟩

/-- The report as the one who waited for it sees it. -/
def Report.conclusion (e : Report) : Conclusion := ⟨e.result, e.tainted, e.memo.tally⟩

/-- What becomes of a job. -/
structure Fate where
  report : Report
  duration : Nat
  work : Nat

namespace Await

/-- The jobs that a wait is for. -/
def jobs : Await → List Job
  | timer _ _ => []
  | job asked => [asked]
  | all asked => asked
  | first asked others => asked :: others
  | deadline _ asked => [asked]

/-- **What comes of a wait, and when,** told from how its jobs end and how long
they take. -/
def Resolves (fates : List (Conclusion × Nat)) : Await → Wake → Nat → Prop
  | timer ms answer, wake, delay => wake = answer ∧ delay = min ms Wait.longest
  | job _, wake, delay => ∃ fate ∈ fates, wake = .settled fate.1 ∧ delay = fate.2
  | all _, wake, delay =>
    wake = .settled (.gather (fates.map Prod.fst)) ∧ delay = (fates.map Prod.snd).foldl max 0
  | first _ _, wake, delay => ∃ fate ∈ fates, wake = .settled fate.1 ∧ delay = fate.2 ∧
      ∀ other ∈ fates, fate.2 ≤ other.2 ∧ (other.2 = fate.2 → other.1 = fate.1)
  | deadline ms _, wake, delay => ∃ fate ∈ fates,
      (fate.2 < min ms Wait.longest ∧ wake = .settled fate.1 ∧ delay = fate.2) ∨
        (min ms Wait.longest < fate.2 ∧ wake = .elapsed ∧ delay = min ms Wait.longest)

end Await

/-- How a job ends, and how long it takes. -/
def Fate.ending (fate : Fate) : Conclusion × Nat := (fate.report.conclusion, fate.duration)

/-- How much work jobs and the wait for them make. -/
def Fate.workOf (fates : List Fate) : Nat := fates.foldr (fun fate n => fate.work + 1 + n) 3

/-- The work of the jobs alone. -/
def Fate.total (fates : List Fate) : Nat := fates.foldr (fun fate n => fate.work + n) 0

theorem Fate.total_cons (fate : Fate) (fates : List Fate) :
    total (fate :: fates) = fate.work + total fates := rfl

/-- One step more for each job, and three for the wait. -/
theorem Fate.workOf_eq (fates : List Fate) : workOf fates = total fates + fates.length + 3 := by
  induction fates with
  | nil => rfl
  | cons fate fates ih =>
    have hcons : workOf (fate :: fates) = fate.work + 1 + workOf fates := rfl
    rw [hcons, ih, total_cons, List.length_cons]
    omega

/-- **What becomes of a run by itself:** its report, how long it takes and how
much work it makes. -/
inductive Solo (E : Engine P) : Next P → Report → Nat → Nat → Prop
  /-- It has ended. -/
  | finish (o : Outcome P) : Solo E (.finish o) o.report 0 2
  /-- It takes a turn. -/
  | resume {r : Run P} {input : Input} {e : Report} {d n : Nat} :
    Solo E (r.turn E input) e d n → Solo E (.resume r input) e d (n + 1)
  /-- It waits, and goes on in whatever the world is then. -/
  | wait {r : Run P} {await : Await} {fates : List Fate} {wake : Wake} {delay : Nat} {e : Report}
      {d n : Nat} :
    fates.length = await.jobs.length →
    (∀ (i : Nat) (job : Job) (fate : Fate), await.jobs[i]? = some job → fates[i]? = some fate →
      ∀ world : World P, Solo E (Run.begin E { scope := job.scope, world } job.node)
        fate.report fate.duration fate.work) →
    await.Resolves (fates.map Fate.ending) wake delay →
    (∀ world : World P, Solo E (r.wake world wake) e d n) →
    Solo E (.wait r await) e (delay + d) (Fate.workOf fates + n)

/-! ## What is known of a run whose end is known -/

namespace Solo

variable {E : Engine P}

/-- A run that has ended has its report, and takes no time. -/
theorem of_finish {o : Outcome P} {e : Report} {d n : Nat} (h : Solo E (.finish o) e d n) :
    e = o.report ∧ d = 0 ∧ n = 2 := by
  cases h
  exact ⟨rfl, rfl, rfl⟩

/-- What becomes of a run that takes a turn. -/
theorem of_resume {r : Run P} {input : Input} {e : Report} {d n : Nat}
    (h : Solo E (.resume r input) e d n) : ∃ left, n = left + 1 ∧
      Solo E (r.turn E input) e d left := by
  cases h with
  | resume h => exact ⟨_, rfl, h⟩

/-- What becomes of a run that waits. -/
theorem of_wait {r : Run P} {await : Await} {e : Report} {d n : Nat}
    (h : Solo E (.wait r await) e d n) :
    ∃ (fates : List Fate) (wake : Wake) (delay rest left : Nat),
      fates.length = await.jobs.length ∧
      (∀ (i : Nat) (job : Job) (fate : Fate), await.jobs[i]? = some job → fates[i]? = some fate →
        ∀ world : World P, Solo E (Run.begin E { scope := job.scope, world } job.node)
          fate.report fate.duration fate.work) ∧
      await.Resolves (fates.map Fate.ending) wake delay ∧
      (∀ world : World P, Solo E (r.wake world wake) e rest left) ∧
      d = delay + rest ∧ n = Fate.workOf fates + left := by
  cases h with
  | wait hlength hfates hres hwake =>
    exact ⟨_, _, _, _, _, hlength, hfates, hres, hwake, rfl, rfl⟩

end Solo

end ProgramGraph
