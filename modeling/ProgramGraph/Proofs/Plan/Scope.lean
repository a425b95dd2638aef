import ProgramGraph.Handler
/-!
# What tasks make of their scope

The scope that a task of the library is resumed under goes into its jobs and into
nothing else: under two scopes it does the same, up to the scopes of the jobs that it
waits for. And if it waits for all of some jobs, it is one node that they evaluate.
-/

namespace ProgramGraph

/-- The same is waited for, up to the scopes of the jobs. -/
inductive Await.Alike : Await → Await → Prop
  | timer (ms : Nat) (answer : Wake) : Alike (.timer ms answer) (.timer ms answer)
  | job {job job' : Job} : job.node = job'.node → Alike (.job job) (.job job')
  | all {jobs jobs' : List Job} : jobs.map Job.node = jobs'.map Job.node →
    Alike (.all jobs) (.all jobs')
  | first {job job' : Job} {others others' : List Job} : job.node = job'.node →
    others.map Job.node = others'.map Job.node → Alike (.first job others) (.first job' others')
  | deadline (ms : Nat) {job job' : Job} : job.node = job'.node →
    Alike (.deadline ms job) (.deadline ms job')

theorem Await.Alike.refl (await : Await) : await.Alike await := by
  cases await with
  | timer ms answer => exact .timer ms answer
  | job job => exact .job rfl
  | all jobs => exact .all rfl
  | first job others => exact .first rfl rfl
  | deadline ms job => exact .deadline ms rfl

/-- The same is done, up to the scopes of jobs. -/
inductive Step.Alike : Step → Step → Prop
  | same (step : Step) : Alike step step
  | wait {await await' : Await} : await.Alike await' → Alike (.wait await) (.wait await')

/-- If all of some jobs are waited for, they evaluate one node. -/
def Step.Even : Step → Prop
  | .request (.await (.all jobs)) => ∃ body, ∀ job ∈ jobs, job.node = body
  | _ => True

namespace Builtin.Task

/-- A map starts the same jobs under every scope. -/
theorem proceed_alike (task : ParallelMap) (node : NodeId) (s s' : Scope) (input : Input) :
    (task.proceed ⟨node, s⟩ input).1.Alike (task.proceed ⟨node, s'⟩ input).1 ∧
      (task.proceed ⟨node, s⟩ input).2 = (task.proceed ⟨node, s'⟩ input).2 := by
  unfold ParallelMap.proceed
  split
  · exact ⟨.same _, rfl⟩
  · dsimp only
    split
    · exact ⟨.same _, rfl⟩
    · split
      · refine ⟨.wait (.all ?_), rfl⟩
        rw [List.map_map, List.map_map]
        rfl
      · split <;> exact ⟨.same _, rfl⟩

/-- **Under two scopes a task does the same.** -/
theorem resume_alike (task : Builtin.Task) (node : NodeId) (s s' : Scope) (input : Input) :
    (task.resume ⟨node, s⟩ input).1.Alike (task.resume ⟨node, s'⟩ input).1 ∧
      (task.resume ⟨node, s⟩ input).2 = (task.resume ⟨node, s'⟩ input).2 := by
  cases task with
  | parMap task =>
    have hproceed : ∀ task : ParallelMap, (task.proceed ⟨node, s⟩ input).1.Alike
          (task.proceed ⟨node, s'⟩ input).1 ∧
        parMap (task.proceed ⟨node, s⟩ input).2 = parMap (task.proceed ⟨node, s'⟩ input).2 :=
      fun task => (proceed_alike task node s s' input).imp_right (congrArg parMap)
    simp only [resume, resume.wrap, ParallelMap.resume]
    split
    · exact hproceed task
    · split
      · split
        · exact hproceed _
        · exact ⟨.same _, rfl⟩
      · split
        · split
          · exact hproceed _
          · exact ⟨.same _, rfl⟩
        · exact hproceed _
    · exact ⟨.same _, rfl⟩
    · exact ⟨.same _, rfl⟩
  | race task =>
    cases input with
    | start =>
      refine ⟨.wait (.first rfl ?_), rfl⟩
      rw [List.map_map, List.map_map]
      rfl
    | _ => exact ⟨.same _, rfl⟩
  | timeout task =>
    cases input with
    | start => exact ⟨.wait (.deadline _ rfl), rfl⟩
    | _ => exact ⟨.same _, rfl⟩
  | _ => exact ⟨.same _, rfl⟩

/-- Whatever ends as a result waits for nothing. -/
theorem even_ofResult (result : Except EvalError Value) : (Step.ofResult result).Even := by
  cases result <;> trivial

/-- **All jobs of one wait evaluate one node,** which is the body of a map. -/
theorem resume_even (task : Builtin.Task) (cx : Context) (input : Input) :
    (task.resume cx input).1.Even := by
  cases task with
  | parMap task =>
    have hproceed : ∀ task : ParallelMap, (task.proceed cx input).1.Even := by
      intro task
      unfold ParallelMap.proceed
      split
      · trivial
      · dsimp only
        split
        · trivial
        · split
          · refine ⟨task.lambda.body, fun job hjob => ?_⟩
            obtain ⟨item, -, rfl⟩ := List.mem_map.1 hjob
            rfl
          · split <;> trivial
    simp only [resume, resume.wrap, ParallelMap.resume]
    repeat' split
    all_goals first | trivial | exact hproceed _
  | leaf task =>
    simp only [resume, resume.wrap, Leaf.resume]
    split
    · exact even_ofResult _
    · trivial
  | collect task =>
    have hproceed : ∀ task : Collection, task.proceed.1.Even := by
      intro task
      unfold Collection.proceed
      split
      · trivial
      · exact even_ofResult _
    cases input <;> first | trivial | exact hproceed _
  | record task =>
    have hproceed : ∀ task : Assembly, task.proceed.1.Even := by
      intro task
      unfold Assembly.proceed
      split <;> trivial
    simp only [resume, resume.wrap, Assembly.resume]
    repeat' split
    all_goals first | trivial | exact hproceed _
  | apply task =>
    simp only [resume, resume.wrap, Application.resume]
    split <;> trivial
  | race task => cases input <;> trivial
  | timeout task => cases input <;> trivial
  | retry task =>
    simp only [resume, resume.wrap, Retry.resume]
    repeat' split
    all_goals trivial
  | fail task => cases input <;> trivial
  | tryCatch task =>
    have hending : ∀ outcome, (Recovery.ending outcome).Even := by
      rintro (value | value) <;> trivial
    have hfinish : ∀ (task : Recovery) (outcome : Except Value Value),
        (task.finish outcome).1.Even := by
      intro task outcome
      unfold Recovery.finish
      split
      · trivial
      · exact hending outcome
    simp only [resume, resume.wrap, Recovery.resume]
    repeat' split
    all_goals first | trivial | exact hfinish _ _ | exact hending _
  | attempt task => cases input <;> trivial
  | guard task =>
    simp only [resume, resume.wrap, Guarded.resume]
    split <;> trivial
  | settle task =>
    have hproceed : ∀ task : Partition, task.proceed.1.Even := by
      intro task
      unfold Partition.proceed
      split <;> trivial
    cases input <;> first | trivial | exact hproceed _

end Builtin.Task

end ProgramGraph
