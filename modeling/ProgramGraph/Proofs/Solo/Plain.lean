import ProgramGraph.Proofs.Solo.Untied
/-!
# What may be tied

Which of two things comes first matters to races and timeouts only. All other waits are
plain: for some time, for one job or for all of some jobs, and however long that takes,
it can be told what comes of them. So an evaluation is untied if each race and each
timeout is, each time it is evaluated (`Run.untied_begin`).
-/

namespace ProgramGraph

open Relation

variable {P : Plugins} {E : Engine P}

/-! ## Plain waits -/

/-- A wait whose end does not hang on which of two things comes first. -/
def Await.Plain : Await → Prop
  | timer _ _ | job _ | all _ => True
  | first _ _ | deadline _ _ => False

/-- **What comes of a plain wait** can always be told. -/
theorem Await.Plain.exists_resolves {await : Await} (h : await.Plain)
    {fates : List (Conclusion × Nat)} (hlength : fates.length = await.jobs.length) :
    ∃ wake delay, await.Resolves fates wake delay := by
  cases await with
  | timer ms answer => exact ⟨_, _, rfl, rfl⟩
  | job job =>
    obtain ⟨fate, hfate⟩ := List.exists_mem_of_length_pos (by
      rw [hlength]
      exact Nat.zero_lt_one)
    exact ⟨_, _, fate, hfate, rfl, rfl⟩
  | all jobs => exact ⟨_, _, rfl, rfl⟩
  | first job others => exact h.elim
  | deadline ms job => exact h.elim

namespace Builtin.Task

/-- Races and timeouts. -/
def isTimed : Builtin.Task → Bool
  | race _ | timeout _ => true
  | _ => false

/-- Parallel maps. -/
def isMap : Builtin.Task → Bool
  | parMap _ => true
  | _ => false

/-- Retries. -/
def isRetry : Builtin.Task → Bool
  | retry _ => true
  | _ => false

/-- **What a task may wait for:** a parallel map for all of some jobs, a retry for its pause
to pass, and a race or a timeout, as it starts, for what comes first. -/
theorem wait_of_resume {task : Builtin.Task} {cx : Context} {input : Input} {await : Await}
    (h : (task.resume cx input).1 = .wait await) :
    (∃ jobs, task.isMap = true ∧ await = .all jobs) ∨
      (∃ ms, task.isRetry = true ∧ await = .timer ms .elapsed) ∨
      task.isTimed = true ∧ input = .start ∧ ¬ await.Plain := by
  have hresult : ∀ result, Step.ofResult result ≠ .wait await := fun result => by
    cases result <;> exact nofun
  cases task with
  | race task =>
    cases input with
    | start =>
      cases h
      exact .inr (.inr ⟨rfl, rfl, id⟩)
    | _ => cases h
  | timeout task =>
    cases input with
    | start =>
      cases h
      exact .inr (.inr ⟨rfl, rfl, id⟩)
    | _ => cases h
  | parMap task =>
    cases input <;> simp only [resume, resume.wrap, ParallelMap.resume, ParallelMap.proceed] at h <;>
      repeat' split at h
    all_goals
      cases h
      try exact .inl ⟨_, rfl, rfl⟩
  | retry task =>
    cases input <;> simp only [resume, resume.wrap, Retry.resume, Retry.again] at h <;>
      repeat' split at h
    all_goals
      cases h
      try exact .inr (.inl ⟨_, rfl, rfl⟩)
  | leaf task =>
    simp only [resume, resume.wrap, Leaf.resume] at h
    split at h
    · exact absurd h (hresult _)
    · cases h
  | collect task =>
    cases input <;> simp only [resume, resume.wrap, Collection.resume, Collection.proceed] at h <;>
      (try split at h) <;> first | exact absurd h (hresult _) | cases h
  | record task =>
    cases input <;> simp only [resume, resume.wrap, Assembly.resume, Assembly.proceed] at h <;>
      repeat' split at h
    all_goals cases h
  | apply task =>
    simp only [resume, resume.wrap, Application.resume] at h
    split at h <;> cases h
  | tryCatch task =>
    simp only [resume, resume.wrap, Recovery.resume, Recovery.finish, Recovery.ending] at h
    repeat' split at h
    all_goals cases h
  | guard task =>
    simp only [resume, resume.wrap, Guarded.resume] at h
    split at h <;> cases h
  | settle task =>
    cases input <;> simp only [resume, resume.wrap, Partition.resume, Partition.proceed] at h <;>
      (try split at h) <;> cases h
  | fail task => cases input <;> cases h
  | attempt task => cases input <;> cases h

/-- Races and timeouts stay as they are, and nothing becomes one. -/
theorem resume_snd_of_isTimed (task : Builtin.Task) (cx : Context) (input : Input)
    (h : (task.resume cx input).2.isTimed = true) : (task.resume cx input).2 = task := by
  cases task with
  | race task => cases input <;> rfl
  | timeout task => cases input <;> rfl
  | _ => cases h

end Builtin.Task

/-- Races and timeouts stand under their tags. -/
theorem Engine.Starts.exists_tag {id : NodeId} {task : Builtin.Task} {volatile : Bool}
    (h : E.Starts id task volatile) (hr : E.registry.Native) (htimed : task.isTimed = true) :
    ∃ node, E.graph.get? id = some node ∧ (node.tag = Tag.race ∨ node.tag = Tag.timeout) := by
  obtain ⟨node, entry, handler, hnode, -, hentry, hhandler, hstart, -⟩ := h
  obtain ⟨handler', hhandler', hnative⟩ := hr.of_get hentry
  obtain rfl : handler = handler' := Handler.builtin.inj (hhandler.symm.trans hhandler')
  have hhandlerTimed : handler.isTimed = true := by
    cases Builtin.makes_of_start hstart <;> first | rfl | cases htimed
  exact ⟨node, hnode, (hnative hhandlerTimed).2⟩

/-! ## Where waits come from -/

/-- What a run waits for. -/
def Next.await? : Next P → Option Await
  | .wait _ await => some await
  | _ => none

namespace Run

theorem await?_handOver (r : Run P) (result : Except EvalError Value) :
    (r.handOver result).await? = none := by
  cases result with
  | ok value => rfl
  | error error =>
    unfold handOver
    dsimp only
    split <;> rfl

theorem await?_answer (r : Run P) (a : Answer) : (r.answer a).await? = none := by
  unfold answer
  split
  · rfl
  · exact await?_handOver _ _

theorem await?_visit (r : Run P) (id : NodeId) (restore : Nat) (fresh : Bool) :
    (r.visit E id restore fresh).await? = none := by
  unfold visit
  split
  · rfl
  · exact await?_answer _ _

theorem await?_wake (r : Run P) (world : World P) (wake : Wake) :
    (r.wake world wake).await? = none := by
  cases wake with
  | elapsed => rfl
  | settled c => exact await?_handOver _ _

/-- A run waits for what a task has asked it to wait for. -/
theorem await?_serve (r : Run P) {step : Step} {await : Await}
    (h : (r.serve E step).await? = some await) : step = .wait await := by
  cases step with
  | done value => exact absurd (h.symm.trans (await?_answer _ _)) nofun
  | fail error => exact absurd (h.symm.trans (await?_answer _ _)) nofun
  | request request =>
    cases request with
    | await asked =>
      cases h
      rfl
    | _ => exact absurd (h.symm.trans (await?_visit _ _ _ _)) nofun

/-- **A turn that ends in a wait** is one of a frame whose task waits. -/
theorem wait_of_turn {r : Run P} {input : Input} {await : Await}
    (h : (r.turn E input).await? = some await) :
    (r.countTurn.resumeFrame input).2 = .wait await := by
  unfold turn at h
  dsimp only at h
  split at h
  · cases h
  · exact await?_serve _ h

end Run

namespace Next

variable {next : Next P}

/-- **A wait begins in a turn,** if the evaluation does not begin with it. -/
theorem Involves.wait_cases {r : Run P} {await : Await} (h : next.Involves E (.wait r await))
    (hnext : next.await? = none) : ∃ r₀ input, next.Involves E (.resume r₀ input) ∧
      (r₀.turn E input).await? = some await := by
  rcases ReflTransGen.cases_tail h with heq | ⟨before, hbefore, hbrings⟩
  · rw [← heq] at hnext
    cases hnext
  · generalize hwait : Next.wait r await = after at hbrings
    have hafter : after.await? = some await := by rw [← hwait]; rfl
    cases hbrings with
    | turn r₀ input => exact ⟨r₀, input, hbefore, hafter⟩
    | job world hmem => exact absurd (hafter.symm.trans (Run.await?_visit _ _ _ _)) nofun
    | wake world hfates hres => exact absurd (hafter.symm.trans (Run.await?_wake _ _ _)) nofun

end Next

/-- **Whoever waits in an evaluation** waits for what its task has asked for, and what is
known of the tasks is known of that one. -/
theorem Run.exists_task_of_wait {known : NodeId → Builtin.Task → Prop} (hknown : E.Upholds known)
    {root : NodeId} {memo : Memo} {scope : Scope} {world : World P} {r : Run P} {await : Await}
    (h : (Run.begin E { memo, scope, world } root).Involves E (.wait r await)) :
    ∃ r₀ frame rest input task, (Run.begin E { memo, scope, world } root).Involves E (.resume r₀ input) ∧
      r₀.frames.items = frame :: rest ∧ known frame.node task ∧
      (task.resume ⟨frame.node, r₀.scope⟩ input).1 = .wait await := by
  obtain ⟨r₀, input, hbefore, hturn⟩ := h.wait_cases (await?_visit _ _ _ _)
  have hwait := wait_of_turn hturn
  cases hitems : r₀.frames.items with
  | nil =>
    have hcount : r₀.countTurn.frames.items = [] := hitems
    simp only [resumeFrame, hcount] at hwait
    cases hwait
  | cons frame rest =>
    obtain ⟨task, htask, -, htold⟩ := (hbefore.like hknown).exists_task hitems
    have hcount : r₀.countTurn.frames.items = frame :: rest := hitems
    rw [resumeFrame_of_builtin hcount htask] at hwait
    exact ⟨r₀, frame, rest, input, task, hbefore, hitems, htold, hwait⟩

/-- **No wait is tied if no race and no timeout is,** each time that it is evaluated. -/
theorem Run.untied_begin (hr : E.registry.Native) {root : NodeId} {memo : Memo} {scope : Scope}
    {world : World P}
    (h : ∀ id s task volatile await fates,
      (Run.begin E { memo, scope, world } root).Meets E id s → E.Starts id task volatile →
      task.isTimed = true → (task.resume ⟨id, s⟩ .start).1 = .wait await →
      List.Forall₂ E.Fares await.jobs fates →
      ∃ wake delay, await.Resolves (fates.map Fate.ending) wake delay) :
    (Run.begin E { memo, scope, world } root).Untied E := by
  intro r await fates hinvolves hfates
  -- a race or a timeout is evaluated by the task that its node gets
  have hknown : E.Upholds fun id task => task.isTimed = true → ∃ volatile, E.Starts id task volatile :=
    Engine.upholds_of_starts hr (fun _ _ volatile hstarts _ => ⟨volatile, hstarts⟩)
      fun id task s input hknown htimed => by
        have hstays := task.resume_snd_of_isTimed _ _ htimed
        rw [hstays] at htimed ⊢
        exact hknown htimed
  obtain ⟨r₀, frame, rest, input, task, hbefore, hitems, htimed, hstep⟩ :=
    exists_task_of_wait hknown hinvolves
  have hlength : (fates.map Fate.ending).length = await.jobs.length := by
    rw [List.length_map, hfates.length_eq]
  rcases Builtin.Task.wait_of_resume hstep with ⟨jobs, -, rfl⟩ | ⟨ms, -, rfl⟩ | ⟨htask, rfl, -⟩
  · have hplain : (Await.all jobs).Plain := trivial
    exact hplain.exists_resolves hlength
  · have hplain : (Await.timer ms .elapsed).Plain := trivial
    exact hplain.exists_resolves hlength
  · -- the task is the one of a race or a timeout, and it has just been started
    obtain ⟨volatile, hstarts⟩ := htimed htask
    exact h frame.node r₀.scope task volatile await fates
      ⟨r₀, frame, rest, hbefore, hitems, rfl, rfl⟩ hstarts htask hstep hfates

end ProgramGraph
