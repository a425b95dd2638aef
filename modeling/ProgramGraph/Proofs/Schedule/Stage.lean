import ProgramGraph.Proofs.Schedule.Agenda
import ProgramGraph.Proofs.Schedule.Wait
/-!
# Stages and parents on a schedule

What the operations of a schedule do to the stage of a job and to the job that
asked for it. Jobs are only ever added, at the end, so numbers stand for the
same jobs for good.
-/

namespace ProgramGraph

variable {P : Plugins}

/-- The wait for jobs that have been given numbers. -/
def Await.toWait (now : Nat) (ids : List JobId) : Await → Wait
  | timer ms answer => .timer (Wait.dueAfter now ms) answer
  | job _ => .job (ids.headD 0)
  | all _ => .all [] ids
  | first _ _ => .first ids
  | deadline ms _ => .deadline (Wait.dueAfter now ms) (ids.headD 0)

/-- A wait is for the jobs that have been planned for it. -/
theorem Await.mem_of_mem_toWait {await : Await} {now : Nat} {ids : List JobId} {id : JobId}
    (hlength : ids.length = await.jobs.length) (h : id ∈ (await.toWait now ids).ids) : id ∈ ids := by
  cases await with
  | timer ms answer => cases h
  | job job =>
    obtain ⟨other, rfl⟩ := List.length_eq_one_iff.1 hlength
    exact h
  | all jobs => exact h
  | first job others => exact h
  | deadline ms job =>
    obtain ⟨other, rfl⟩ := List.length_eq_one_iff.1 hlength
    exact h

namespace Schedule

variable {s : Schedule P} {id j : JobId}

/-- The job that asked for a job. -/
def parent? (s : Schedule P) (id : JobId) : Option JobId := s.jobs[id]?.bind ScheduledJob.parent

theorem lt_size_of_stage? {stage : Stage P} (h : s.stage? id = some stage) :
    id < s.jobs.size := by
  obtain ⟨job, hjob, -⟩ := Option.map_eq_some_iff.1 h
  exact (Array.getElem?_eq_some_iff.1 hjob).1

theorem lt_size_of_parent? {parent : JobId} (h : s.parent? id = some parent) :
    id < s.jobs.size := by
  obtain ⟨job, hjob, -⟩ := Option.bind_eq_some_iff.1 h
  exact (Array.getElem?_eq_some_iff.1 hjob).1

theorem exists_stage? (h : id < s.jobs.size) : ∃ stage, s.stage? id = some stage :=
  ⟨s.jobs[id].stage, by simp [stage?, h]⟩

theorem conclusion?_eq_some {c : Conclusion} :
    s.conclusion? id = some c ↔ s.stage? id = some (.settled c) := by
  unfold conclusion?
  split
  next c' h => simp [h]
  next h =>
    simp only [reduceCtorEq, false_iff]
    exact fun hc => h _ hc

/-! ## Another stage -/

theorem stage?_setStage (s : Schedule P) (id : JobId) (stage : Stage P) (j : JobId) :
    (s.setStage id stage).stage? j =
      if j = id ∧ id < s.jobs.size then some stage else s.stage? j := by
  simp only [stage?, setStage, Array.getElem?_modify]
  by_cases h : id = j
  · subst h
    by_cases hlt : id < s.jobs.size
    · simp [hlt]
    · simp [hlt]
  · simp [h, Ne.symm h]

theorem stage?_setStage_self (stage : Stage P) (h : id < s.jobs.size) :
    (s.setStage id stage).stage? id = some stage := by
  rw [stage?_setStage, if_pos ⟨rfl, h⟩]

theorem stage?_setStage_of_ne (stage : Stage P) (h : j ≠ id) :
    (s.setStage id stage).stage? j = s.stage? j := by
  rw [stage?_setStage, if_neg fun hj => h hj.1]

@[simp] theorem parent?_setStage (s : Schedule P) (id : JobId) (stage : Stage P) (j : JobId) :
    (s.setStage id stage).parent? j = s.parent? j := by
  simp only [parent?, setStage, Array.getElem?_modify]
  split
  · cases s.jobs[j]? <;> rfl
  · rfl

@[simp] theorem size_setStage (s : Schedule P) (id : JobId) (stage : Stage P) :
    (s.setStage id stage).jobs.size = s.jobs.size := by
  simp [setStage]

/-! ## Another job -/

variable {now : Nat} {parent : JobId} {job : Job}

theorem stage?_plan (s : Schedule P) (now : Nat) (parent : JobId) (job : Job) (j : JobId) :
    (s.plan now parent job).2.stage? j =
      if j = s.jobs.size then some (.planned job) else s.stage? j := by
  simp only [stage?, plan, Array.getElem?_push]
  split <;> rfl

theorem parent?_plan (s : Schedule P) (now : Nat) (parent : JobId) (job : Job) (j : JobId) :
    (s.plan now parent job).2.parent? j =
      if j = s.jobs.size then some parent else s.parent? j := by
  simp only [parent?, plan, Array.getElem?_push]
  split <;> rfl

@[simp] theorem size_plan (s : Schedule P) (now : Nat) (parent : JobId) (job : Job) :
    (s.plan now parent job).2.jobs.size = s.jobs.size + 1 := by
  simp [plan]

/-- Planning some jobs is planning the first and then the others. -/
theorem planAll_cons (s : Schedule P) (now : Nat) (parent : JobId) (job : Job) (jobs : List Job) :
    s.planAll now parent (job :: jobs) =
      (s.jobs.size :: ((s.plan now parent job).2.planAll now parent jobs).1,
        ((s.plan now parent job).2.planAll now parent jobs).2) := by
  simp only [planAll, List.length_cons, List.range'_succ, List.foldl_cons, size_plan]

@[simp] theorem size_planAll (s : Schedule P) (now : Nat) (parent : JobId) (jobs : List Job) :
    (s.planAll now parent jobs).2.jobs.size = s.jobs.size + jobs.length := by
  induction jobs generalizing s with
  | nil => rfl
  | cons job jobs ih =>
    rw [planAll_cons, ih, size_plan, List.length_cons, Nat.add_right_comm, Nat.add_assoc]

/-- Jobs that are planned leave the others where they are. -/
theorem stage?_planAll (jobs : List Job) (hj : j < s.jobs.size) :
    (s.planAll now parent jobs).2.stage? j = s.stage? j := by
  induction jobs generalizing s with
  | nil => rfl
  | cons job jobs ih =>
    rw [planAll_cons, ih (by rw [size_plan]; exact Nat.lt_succ_of_lt hj), stage?_plan,
      if_neg (Nat.ne_of_lt hj)]

/-- The jobs are planned in order. -/
theorem stage?_planAll_of_getElem? {jobs : List Job} {i : Nat} (h : jobs[i]? = some job) :
    (s.planAll now parent jobs).2.stage? (s.jobs.size + i) = some (.planned job) := by
  induction jobs generalizing s i with
  | nil => cases h
  | cons first jobs ih =>
    rw [planAll_cons]
    cases i with
    | zero =>
      cases h
      rw [Nat.add_zero, stage?_planAll jobs (by rw [size_plan]; exact Nat.lt_succ_self _),
        stage?_plan, if_pos rfl]
    | succ i =>
      have hrest := ih (s := (s.plan now parent first).2) h
      rw [size_plan, Nat.add_assoc, Nat.add_comm 1 i] at hrest
      exact hrest

/-- **The wait that is arranged** is for the jobs that have been planned. -/
theorem arrange_eq (s : Schedule P) (now : Nat) (parent : JobId) (await : Await) :
    s.arrange now parent await =
      (await.toWait now (s.planAll now parent await.jobs).1,
        (s.planAll now parent await.jobs).2) := by
  cases await <;> rfl

theorem planAll_ids (s : Schedule P) (now : Nat) (parent : JobId) (jobs : List Job) :
    (s.planAll now parent jobs).1 = List.range' s.jobs.size jobs.length := rfl

end Schedule

end ProgramGraph
