import ProgramGraph.Proofs.Passage.Discipline
import ProgramGraph.Proofs.Passage.Job
import ProgramGraph.Proofs.Plan.Ending
import ProgramGraph.Proofs.Solo.Plain
/-!
# What runs wait for

A run waits for what one of its tasks has asked for, and tasks are made by handlers and
stay what they are. So what is known of the tasks of an engine is known of the waits of
every run (`Engine.MayReach.exists_task_of_wait`).

If there are no races, no timeouts and no parallel maps with jobs, a run is solitary: it
waits for pauses only (`Engine.Solitary.paused`). If there are no races and no timeouts, it
waits for pauses and for all of some jobs (`Engine.Unrushed.plain`).
-/

namespace ProgramGraph

variable {P : Plugins} {E : Engine P}

/-! ## Tasks -/

namespace Builtin.Task

/-- Parallel maps whose elements are jobs. -/
def isConcurrent : Builtin.Task → Bool
  | parMap task => task.concurrent
  | _ => false

/-- **Only these wait for jobs together.** -/
theorem isConcurrent_of_resume {task : Builtin.Task} {cx : Context} {input : Input}
    {jobs : List Job} (h : (task.resume cx input).1 = .wait (.all jobs)) :
    task.isConcurrent = true := by
  rcases wait_of_resume h with ⟨_, hmap, -⟩ | ⟨ms, -, hawait⟩ | ⟨-, -, hplain⟩
  · cases task with
    | parMap task =>
      cases input <;> simp only [resume, resume.wrap, ParallelMap.resume, ParallelMap.proceed] at h <;>
        repeat' split at h
      all_goals first | assumption | cases h
    | _ => cases hmap
  · cases hawait
  · exact absurd trivial hplain

/-- **The jobs that a task asks for** are made under its scope. -/
theorem exists_job_of_resume {task : Builtin.Task} {cx : Context} {input : Input} {await : Await}
    (h : (task.resume cx input).1 = .wait await) :
    ∀ job ∈ await.jobs, ∃ id bindings, job = cx.job id bindings := by
  rcases wait_of_resume h with ⟨jobs, hmap, rfl⟩ | ⟨ms, -, rfl⟩ | ⟨htimed, rfl, -⟩
  · cases task with
    | parMap task =>
      cases input <;> simp only [resume, resume.wrap, ParallelMap.resume, ParallelMap.proceed] at h <;>
        repeat' split at h
      all_goals
        cases h
        try
          intro job hjob
          obtain ⟨item, -, rfl⟩ := List.mem_map.1 hjob
          exact ⟨_, _, rfl⟩
    | _ => cases hmap
  · exact fun _ hjob => absurd hjob List.not_mem_nil
  · cases task with
    | race task =>
      cases h
      intro job hjob
      rcases List.mem_cons.1 hjob with rfl | hjob
      · exact ⟨_, _, rfl⟩
      · obtain ⟨id, -, rfl⟩ := List.mem_map.1 hjob
        exact ⟨_, _, rfl⟩
    | timeout task =>
      cases h
      intro job hjob
      obtain rfl := List.mem_singleton.1 hjob
      exact ⟨_, _, rfl⟩
    | _ => cases htimed

/-- A task stays one of these, or none. -/
theorem isConcurrent_resume_snd (task : Builtin.Task) (cx : Context) (input : Input) :
    (task.resume cx input).2.isConcurrent = task.isConcurrent := by
  cases task with
  | parMap task =>
    cases input <;> simp only [resume, resume.wrap, ParallelMap.resume, ParallelMap.proceed] <;>
      repeat' split
    all_goals rfl
  | _ => rfl

end Builtin.Task

/-! ## Handlers -/

/-- The handlers of parallel maps whose elements are jobs. -/
def Builtin.isConcurrent : Builtin → Bool
  | parMap concurrent => concurrent
  | _ => false

/-- The registry with the sequential parallel map has none of them. -/
theorem Registry.holds_standardSequential {q : Builtin → Prop}
    (h : ∀ handler : Builtin, handler.isConcurrent = false → q handler) :
    (standardSequential : Registry P).Holds q := by
  have hcore : (core : Registry P).Holds q :=
    (((holds_empty.insert (h .literal rfl) _).insert (h .list rfl) _).insert (h .record rfl)
      _).insert (h .apply rfl) _
  have hconcurrency : (concurrencySequential : Registry P).Holds q :=
    (((holds_empty.insert (h .race rfl) _).insert (h .timeout rfl) _).insert (h .retry rfl)
      _).insert (h (.parMap false) rfl) _
  have herrors : (errors : Registry P).Holds q :=
    ((((holds_empty.insert (h .fail rfl) _).insert (h .tryCatch rfl) _).insert (h .attempt rfl)
      _).insert (h .guard rfl) _).insert (h .settle rfl) _
  exact (hcore.union hconcurrency).union herrors

/-! ## Runs -/

namespace Engine

variable {known : NodeId → Builtin.Task → Prop} {root : NodeId} {memo : Memo} {scope : Scope}
  {world : World P}

/-- **What is known of the tasks** is known of those of all that a run may come to. -/
theorem MayReach.same (hknown : E.Upholds known) {next : Next P}
    (h : E.MayReach root memo scope world next) : next.Same E known next := by
  induction h with
  | refl => exact hknown.same_begin root memo scope world world
  | tail _ hleads ih =>
    cases hleads with
    | turn r input =>
      cases ih with
      | resume _ hlike _ => exact hknown.turn hlike input
    | wake r await world' wake =>
      cases ih with
      | wait _ hlike _ => exact hlike.wake _ _ fun _ _ _ _ => trivial

/-- **A run that waits** waits for what its top frame has asked for under the scope at hand, and
this is known of the task that asked. -/
theorem MayReach.exists_task_of_wait (hknown : E.Upholds known) {r : Run P} {await : Await}
    (h : E.MayReach root memo scope world (.wait r await)) :
    ∃ frame rest input task, r.frames.items = frame :: rest ∧ known frame.node task ∧
      (task.resume ⟨frame.node, r.scope⟩ input).1 = .wait await := by
  generalize hwait : Next.wait r await = next at h
  have hawait : next.await? = some await := by rw [← hwait]; rfl
  rcases Relation.ReflTransGen.cases_tail h with heq | ⟨before, hbefore, hleads⟩
  · rw [heq] at hawait
    exact absurd (hawait.symm.trans (Run.await?_visit _ _ _ _)) nofun
  · cases hleads with
    | wake r₀ asked world' wake => exact absurd (hawait.symm.trans (Run.await?_wake _ _ _)) nofun
    | turn r₀ input =>
      have hasked := Run.wait_of_turn hawait
      obtain ⟨frame, rest, hitems⟩ := List.exists_cons_of_ne_nil fun hnil =>
        MayReach.manned hbefore (r₀.frames.size_eq_zero_iff.2 hnil)
      have hcount : r₀.countTurn.frames.items = frame :: rest := hitems
      cases MayReach.same hknown hbefore with
      | resume _ hlike _ =>
        obtain ⟨task, htask, -, htold⟩ := hlike.exists_task hitems
        obtain ⟨after, shared, -, hafter⟩ := Run.exists_resumeFrame hcount input
        -- the run that waits is the one whose frame has been resumed
        have hrun : r = (r₀.countTurn.resumeFrame input).1 := by
          cases hexceeded : r₀.countTurn.exceeded? E.limits with
          | some limit =>
            rw [Run.turn_of_exceeded hexceeded] at hwait
            cases hwait
          | none =>
            rw [Run.turn_of_within hexceeded, hasked] at hwait
            exact (Next.wait.inj hwait).1
        have hscope : r.scope = r₀.countTurn.scope := by
          rw [hrun]
          exact (r₀.countTurn.rests_resumeFrame input).scope
        rw [Run.resumeFrame_of_builtin hcount htask] at hasked
        refine ⟨{ frame with task := after }, rest, input, task, by rw [hrun, hafter], htold, ?_⟩
        rw [hscope]
        exact hasked

/-- **The jobs that a run asks for** are made under the scope at hand. -/
theorem MayReach.exists_job_of_wait (hr : E.registry.Native) {r : Run P} {await : Await}
    (h : E.MayReach root memo scope world (.wait r await)) :
    ∀ job ∈ await.jobs, ∃ node id bindings, job = Context.job ⟨node, r.scope⟩ id bindings := by
  obtain ⟨frame, _, _, _, -, -, hwait⟩ := h.exists_task_of_wait (upholds_true hr)
  intro job hjob
  obtain ⟨id, bindings, hmade⟩ := Builtin.Task.exists_job_of_resume hwait job hjob
  exact ⟨frame.node, id, bindings, hmade⟩

/-! ## Engines without jobs -/

/-- **The engine starts no races, no timeouts and no parallel maps with jobs.** -/
structure Solitary (E : Engine P) : Prop where
  native : E.registry.Native
  starts : ∀ id task volatile, E.Starts id task volatile →
    task.isTimed = false ∧ task.isConcurrent = false

/-- **The engine starts no races and no timeouts.** -/
structure Unrushed (E : Engine P) : Prop where
  native : E.registry.Native
  starts : ∀ id task volatile, E.Starts id task volatile → task.isTimed = false

theorem Solitary.unrushed (h : E.Solitary) : E.Unrushed :=
  ⟨h.native, fun id task volatile hstarts => (h.starts id task volatile hstarts).1⟩

/-- There are none if there are no nodes for them. -/
theorem unrushed_of_untimed (hr : E.registry.Native) (hu : E.graph.Untimed) : E.Unrushed where
  native := hr
  starts id task volatile hstarts := by
    cases htimed : task.isTimed with
    | false => rfl
    | true =>
      obtain ⟨node, hnode, htag⟩ := hstarts.exists_tag hr htimed
      obtain ⟨hrace, htimeout⟩ := hu id node hnode
      exact (htag.elim hrace htimeout).elim

/-- With the sequential parallel map, races and timeouts are all there could be. -/
theorem solitary_of_untimed (hr : E.registry = .standardSequential) (hu : E.graph.Untimed) :
    E.Solitary where
  native := by
    rw [hr]
    exact Registry.native_standardSequential
  starts id task volatile hstarts := by
    have hnative : E.registry.Native := by
      rw [hr]
      exact Registry.native_standardSequential
    refine ⟨(unrushed_of_untimed hnative hu).starts id task volatile hstarts, ?_⟩
    obtain ⟨node, entry, handler, -, -, hentry, hhandler, hstart, -⟩ := hstarts
    have hholds : E.registry.Holds fun handler => handler.isConcurrent = false := by
      rw [hr]
      exact Registry.holds_standardSequential fun _ h => h
    obtain ⟨handler', hhandler', hconcurrent⟩ := hholds _ (Registry.mem_of_get hentry)
    obtain rfl : handler = handler' := Handler.builtin.inj (hhandler.symm.trans hhandler')
    cases Builtin.makes_of_start hstart with
    | parMap concurrent hpayload => exact hconcurrent
    | _ => rfl

/-- No race and no timeout ever is. -/
theorem Unrushed.upholds (h : E.Unrushed) : E.Upholds fun _ task => task.isTimed = false := by
  refine upholds_of_starts h.native h.starts fun id task s input htimed => ?_
  rcases hafter : (task.resume ⟨id, s⟩ input).2.isTimed with _ | _
  · rfl
  · rw [task.resume_snd_of_isTimed _ _ hafter] at hafter
    exact hafter.symm.trans htimed

/-- **Runs wait for all of some jobs or for a pause** if nothing is rushed. -/
theorem Unrushed.plain (h : E.Unrushed) {r : Run P} {await : Await}
    (hreach : E.MayReach root memo scope world (.wait r await)) :
    (∃ jobs, await = .all jobs) ∨ ∃ ms, await = .timer ms .elapsed := by
  obtain ⟨_, _, _, task, -, htimed, hwait⟩ := hreach.exists_task_of_wait h.upholds
  rcases Builtin.Task.wait_of_resume hwait with ⟨jobs, -, rfl⟩ | ⟨ms, -, rfl⟩ | ⟨htask, -⟩
  · exact .inl ⟨jobs, rfl⟩
  · exact .inr ⟨ms, rfl⟩
  · exact absurd (htimed.symm.trans htask) nofun

/-- **A solitary run waits for pauses only.** -/
theorem Solitary.paused (h : E.Solitary) {r : Run P} {await : Await}
    (hreach : E.MayReach root memo scope world (.wait r await)) :
    ∃ ms, await = .timer ms .elapsed := by
  have hknown : E.Upholds fun _ task => task.isConcurrent = false := by
    refine upholds_of_starts h.native (fun id task volatile hs => (h.starts id task volatile hs).2)
      fun id task s input hconcurrent => ?_
    rw [Builtin.Task.isConcurrent_resume_snd, hconcurrent]
  rcases h.unrushed.plain hreach with ⟨jobs, rfl⟩ | hpause
  · obtain ⟨_, _, _, task, -, hconcurrent, hwait⟩ := hreach.exists_task_of_wait hknown
    exact absurd (hconcurrent.symm.trans (Builtin.Task.isConcurrent_of_resume hwait)) nofun
  · exact hpause

end Engine

end ProgramGraph
