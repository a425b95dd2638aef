import ProgramGraph.Proofs.Passage.Conduct
import ProgramGraph.Proofs.Passage.Job
import ProgramGraph.Proofs.Solo.Untied
/-!
# Who is to blame for an error

Tasks of the library fail, or complain of their node or of the order of things, and so do
the handlers that refuse a node. Every other error is the engine's: it has met a node whose
tag has no handler, or a parameter outside of any binding, or its limit is exceeded. So the
error that a job ends with tells something of the graph, the registry or the limit
(`Passes.warranted`), whatever the job has waited for.
-/

namespace ProgramGraph

variable {P : Plugins} {E : Engine P}

/-- **The error is a handler's own:** a failure, or a complaint of a node or of the order of
things. -/
def EvalError.Domestic : EvalError → Prop
  | failed _ | invalidNode _ _ | internal _ => True
  | _ => False

namespace Engine

/-- **The node lacks a handler** for its tag. Parameters need none, whatever their tag. -/
def Lacks (E : Engine P) (id : NodeId) (tag : String) : Prop :=
  ∃ node, E.graph.get? id = some node ∧ node.tag = tag ∧ node.param? = none ∧
    E.registry.contains tag = false

/-- **The engine has cause for an error,** if it is not a handler's own. -/
def Warrants (E : Engine P) : EvalError → Prop
  | .missingHandler tag => ∃ id, E.Lacks id tag
  | .unboundParameter p => ∃ id node, E.graph.get? id = some node ∧ node.param? = some p
  | .stepLimitExceeded limit => E.limits.maxSteps = some limit
  | .failed _ | .invalidNode _ _ | .internal _ => True

/-- No cause is needed for an error that is a handler's own. -/
theorem warrants_of_domestic {error : EvalError} (h : error.Domestic) : E.Warrants error := by
  cases error <;> first | exact trivial | exact absurd h id

end Engine

/-! ## Tasks -/

/-- The step is no failure, or one of the task's own. -/
def Step.Sober : Step → Prop
  | fail error => error.Domestic
  | _ => True

/-- A result that is no error, or one of the task's own. -/
theorem Step.sober_ofResult {result : Except EvalError Value}
    (h : ∀ error, result = .error error → error.Domestic) : (ofResult result).Sober := by
  cases result with
  | ok value => trivial
  | error error => exact h error rfl

namespace Builtin

/-- What a task has been given fails for reasons of its own only. -/
def Task.Sober : Task → Prop
  | leaf task => ∀ error, task.outcome = some (.error error) → error.Domestic
  | collect task => ∀ values error, task.combine values = .error error → error.Domestic
  | _ => True

/-- A collection combines values the same way all along. -/
theorem sober_proceed {task task' : Collection} (h : (Task.collect task).Sober)
    (hcombine : task'.combine = task.combine) :
    task'.proceed.1.Sober ∧ (Task.collect task'.proceed.2).Sober := by
  have h' : ∀ values error, task'.combine values = .error error → error.Domestic := by
    rw [hcombine]
    exact h
  unfold Collection.proceed
  split
  · exact ⟨trivial, h'⟩
  · exact ⟨Step.sober_ofResult fun error herror => h' _ error herror, h'⟩

/-- It fails for reasons of its own only, if combining them does. -/
theorem sober_collect {task : Collection} (h : (Task.collect task).Sober) (cx : Context)
    (input : Input) :
    (task.resume cx input).1.Sober ∧ (Task.collect (task.resume cx input).2).Sober := by
  cases input with
  | start => exact sober_proceed h rfl
  | value value => exact sober_proceed h rfl
  | error value => exact ⟨trivial, h⟩
  | elapsed => exact ⟨trivial, h⟩

/-- **Tasks fail for reasons of their own only.** -/
theorem Task.sober_resume {task : Task} (h : task.Sober) (cx : Context) (input : Input) :
    (task.resume cx input).1.Sober ∧ (task.resume cx input).2.Sober := by
  cases task with
  | leaf task =>
    refine ⟨?_, nofun⟩
    simp only [resume, resume.wrap, Leaf.resume]
    split
    next result houtcome =>
      refine Step.sober_ofResult fun error herror => h error ?_
      rw [houtcome, herror]
    next => trivial
  | collect task => exact sober_collect h cx input
  | record task =>
    refine ⟨?_, trivial⟩
    cases input <;> simp only [resume, resume.wrap, Assembly.resume, Assembly.proceed] <;>
      repeat' split
    all_goals trivial
  | apply task =>
    refine ⟨?_, trivial⟩
    simp only [resume, resume.wrap, Application.resume]
    split <;> trivial
  | parMap task =>
    refine ⟨?_, trivial⟩
    cases input <;> simp only [resume, resume.wrap, ParallelMap.resume, ParallelMap.proceed] <;>
      repeat' split
    all_goals trivial
  | race task =>
    refine ⟨?_, trivial⟩
    cases input <;> trivial
  | timeout task =>
    refine ⟨?_, trivial⟩
    cases input <;> trivial
  | retry task =>
    refine ⟨?_, trivial⟩
    cases input <;> simp only [resume, resume.wrap, Retry.resume, Retry.again] <;>
      repeat' split
    all_goals trivial
  | fail task =>
    refine ⟨?_, trivial⟩
    cases input <;> trivial
  | tryCatch task =>
    refine ⟨?_, trivial⟩
    simp only [resume, resume.wrap, Recovery.resume, Recovery.finish, Recovery.ending]
    repeat' split
    all_goals trivial
  | attempt task =>
    refine ⟨?_, trivial⟩
    cases input <;> trivial
  | guard task =>
    refine ⟨?_, trivial⟩
    simp only [resume, resume.wrap, Guarded.resume]
    split <;> trivial
  | settle task =>
    refine ⟨?_, trivial⟩
    cases input <;> simp only [resume, resume.wrap, Partition.resume, Partition.proceed] <;>
      (try split) <;> trivial

/-- **The handler has reasons of its own** if it refuses a node, and so have its tasks. -/
structure Sober (h : Builtin) : Prop where
  refuses : ∀ id node error, h.start id node = .error error → error.Domestic
  makes : ∀ id node task, Makes id node h task → task.Sober

theorem sober_of_not_parametric {h : Builtin} (hh : h.isParametric = false) : h.Sober where
  refuses id node error hstart := by
    cases h with
    | leaf outcome => cases hh
    | args combine => cases hh
    | _ =>
      simp only [start, onlyChild] at hstart
      split at hstart
      · cases hstart
      · cases hstart
        trivial
  makes id node task hmade := by
    cases hmade with
    | leaf outcome => cases hh
    | args combine => cases hh
    | _ => trivial

theorem sober_literal : literal.Sober where
  refuses _ _ _ := nofun
  makes id node task hmade := by
    cases hmade
    intro error herror
    have herror := Option.some.inj herror
    dsimp only at herror
    split at herror
    · cases herror
    · cases herror
      trivial

theorem sober_list : list.Sober where
  refuses id node error hstart := by
    simp only [list, start, Collection.start] at hstart
    split at hstart
    · cases hstart
    · cases hstart
      trivial
  makes id node task hmade := by
    cases hmade
    intro values error herror
    cases herror

end Builtin

namespace Engine

variable {id : NodeId}

/-- A node gets a sober task. -/
theorem Starts.sober (hr : E.registry.Holds Builtin.Sober) {task : Builtin.Task} {volatile : Bool}
    (h : E.Starts id task volatile) : task.Sober := by
  obtain ⟨node, entry, handler, -, -, hentry, hhandler, hstart, -⟩ := h
  obtain ⟨handler', hhandler', hsober⟩ := hr _ (Registry.mem_of_get hentry)
  obtain rfl : handler = handler' := Handler.builtin.inj (hhandler.symm.trans hhandler')
  exact hsober.makes id node task (Builtin.makes_of_start hstart)

/-- The engine has cause to refuse a node, unless its handler has. -/
theorem Refuses.warranted (hr : E.registry.Holds Builtin.Sober) {error : EvalError}
    {volatile : Bool} (h : E.Refuses id error volatile) : E.Warrants error := by
  obtain ⟨node, hnode, hparam, ⟨hget, -⟩ | ⟨entry, handler, hget, hhandler, hstart, -⟩⟩ := h
  · obtain ⟨rfl, huncovered⟩ := Registry.missing_of_get hget
    exact ⟨id, node, hnode, rfl, hparam, huncovered⟩
  · obtain ⟨handler', hhandler', hsober⟩ := hr _ (Registry.mem_of_get hget)
    obtain rfl : handler = handler' := Handler.builtin.inj (hhandler.symm.trans hhandler')
    exact warrants_of_domestic (hsober.refuses id node error hstart)

/-- Of the tasks it is known that they are sober. -/
theorem upholds_sober (hn : E.registry.Native) (hr : E.registry.Holds Builtin.Sober) :
    E.Upholds fun _ task => task.Sober :=
  upholds_of_starts hn (fun _ _ _ h => h.sober hr) fun id _ s input h =>
    (Builtin.Task.sober_resume h ⟨id, s⟩ input).2

end Engine

/-! ## Runs -/

/-- **The engine has cause for the error** that comes next in a run, if that is how it ends. -/
def Next.Warranted (E : Engine P) : Next P → Prop
  | .finish o => ∀ error, o.result = .error error → E.Warrants error
  | _ => True

namespace Run

variable {r : Run P} {known : NodeId → Builtin.Task → Prop}

theorem warranted_handOver {result : Except EvalError Value}
    (h : ∀ error, result = .error error → E.Warrants error) : (r.handOver result).Warranted E := by
  cases result with
  | ok value => trivial
  | error error =>
    unfold handOver
    cases error <;> first | exact h | trivial

theorem warranted_answer {a : Answer} (h : ∀ error, a.result = .error error → E.Warrants error) :
    (r.answer a).Warranted E := by
  unfold answer
  split
  · exact h
  · exact warranted_handOver h

/-- **A visit.** -/
theorem warranted_visit (hn : E.registry.Native) (hr : E.registry.Holds Builtin.Sober) (id : NodeId)
    (restore : Nat) (fresh : Bool) : (r.visit E id restore fresh).Warranted E := by
  have hserved : ∀ {node : Node} {value : Value}, E.graph.get? id = some node → node.param? = none →
      (if fresh then none else r.innermost.kept? id) = some value →
      (r.visit E id restore fresh).Warranted E := by
    intro node value hnode hparam hkept
    rw [Engine.visit_of_kept hnode hparam hkept]
    exact warranted_answer nofun
  cases (E.upholds_true hn).concurs id with
  | absent hnode =>
    simp only [visit, arrive, hnode]
    refine warranted_answer ?_
    rintro error ⟨⟩
    trivial
  | @param node _ p hnode _ hparam =>
    simp only [visit, arrive, hnode, hparam]
    refine warranted_answer fun error herror => ?_
    dsimp only at herror
    split at herror
    · cases herror
    · cases herror
      exact ⟨id, node, hnode, hparam⟩
  | refused hrefuses =>
    cases hkept : if fresh then none else r.innermost.kept? id with
    | some value =>
      obtain ⟨node, hnode, hparam, -⟩ := hrefuses
      exact hserved hnode hparam hkept
    | none =>
      obtain ⟨r', hvisit, -⟩ := hrefuses.visit restore hkept
      rw [hvisit]
      refine warranted_answer ?_
      rintro error ⟨⟩
      exact hrefuses.warranted hr
  | started hstarts =>
    cases hkept : if fresh then none else r.innermost.kept? id with
    | some value =>
      obtain ⟨node, entry, handler, hnode, hparam, -⟩ := hstarts
      exact hserved hnode hparam hkept
    | none =>
      rw [hstarts.visit hkept]
      trivial

/-- **A step that fails for reasons of the task's own only.** -/
theorem warranted_serve (hn : E.registry.Native) (hr : E.registry.Holds Builtin.Sober) {step : Step}
    (h : step.Sober) : (r.serve E step).Warranted E := by
  cases step with
  | done value =>
    refine warranted_answer (a := (r.succeed value).2) fun error herror => ?_
    unfold succeed at herror
    split at herror
    · cases herror
      trivial
    · cases herror
  | fail error =>
    refine warranted_answer (a := (r.fail error).2) fun other hother => ?_
    obtain rfl : error = other := by
      unfold fail at hother
      split at hother <;> exact Except.error.inj hother
    exact Engine.warrants_of_domestic h
  | request request =>
    cases request with
    | await await => trivial
    | _ => exact warranted_visit hn hr _ _ _

/-- **A turn,** of a frame with a sober task. -/
theorem warranted_turn (hn : E.registry.Native) (hr : E.registry.Holds Builtin.Sober)
    (hlike : r.Like (.knowing fun _ task => task.Sober) r) (input : Input) :
    (r.turn E input).Warranted E := by
  cases hexceeded : r.countTurn.exceeded? E.limits with
  | some limit =>
    rw [turn_of_exceeded hexceeded]
    rintro error ⟨⟩
    exact (Option.filter_eq_some_iff.1 hexceeded).1
  | none =>
    rw [turn_of_within hexceeded]
    refine warranted_serve hn hr ?_
    cases hitems : r.frames.items with
    | nil =>
      have hcount : r.countTurn.frames.items = [] := hitems
      simp only [resumeFrame, hcount]
      trivial
    | cons frame rest =>
      obtain ⟨task, htask, -, hsober⟩ := hlike.exists_task hitems
      have hcount : r.countTurn.frames.items = frame :: rest := hitems
      rw [resumeFrame_of_builtin hcount htask]
      exact (Builtin.Task.sober_resume hsober _ input).1

end Run

/-- **The engine has cause for the error that a job ends with,** by induction on how the job
gets there. -/
theorem Passes.warranted {W : World P → Prop} {m : Memo} {job : Job} {next : Next P}
    (hn : E.registry.Native) (ho : E.registry.Ordinary) (hr : E.registry.Holds Builtin.Sober)
    (h : Passes E W m job next) :
    next.Same E (fun _ task => task.Sober) next ∧ next.Warranted E := by
  have hknown := E.upholds_sober hn hr
  induction h with
  | begin _ => exact ⟨hknown.same_begin _ _ _ _ _, Run.warranted_visit hn hr _ _ _⟩
  | @turn m job r input _ ih =>
    cases ih.1 with
    | resume _ hlike _ => exact ⟨hknown.turn hlike input, Run.warranted_turn hn hr hlike input⟩
  | @wake m job r await world wake ends hbefore _ _ hcomes ih ihends =>
    cases ih.1 with
    | wait _ hlike _ =>
    refine ⟨hlike.wake _ _ fun _ _ _ _ => trivial, ?_⟩
    cases wake with
    | elapsed => trivial
    | settled c =>
      obtain ⟨frame, rest, -, ⟨-, htimer, -⟩, -⟩ := hbefore.conducted hn ho
      refine Run.warranted_handOver ?_
      refine hcomes.conclude (p := fun c => ∀ error, c.result = .error error → E.Warrants error)
        htimer ?_ ?_
      · rintro asked - c ⟨o, ho, rfl⟩
        exact (ihends asked o ho).2
      · intro found hfound error herror
        obtain ⟨c, hc, herror⟩ := Conclusion.exists_of_gather_error herror
        exact hfound c hc error herror

namespace Registry

/-- **The handlers of the library** have reasons of their own. -/
theorem sober_of_standard_or {reg : Registry P} (h : reg = standard ∨ reg = standardSequential) :
    reg.Holds Builtin.Sober :=
  holds_of_standard_or Builtin.sober_literal Builtin.sober_list
    (fun _ => Builtin.sober_of_not_parametric) h

end Registry

end ProgramGraph
