import ProgramGraph.Graph.Families
import ProgramGraph.Proofs.Fold.Basic
import ProgramGraph.Proofs.Passage.Conduct
/-!
# Folds keep to the protocol of tasks

The engine and the tasks of the library never misunderstand each other, in whatever
graph, from whatever memo and with whatever limit: `Engine.orderly`. A task is never
resumed with an input that it did not ask for; there always is a task to be resumed;
and the frame of a task that has ended is taken off in the same turn, so the task is
not met again. No fold therefore ends with an internal error.
-/

namespace ProgramGraph

variable {P : Plugins}

/-- **An evaluation keeps to the protocol.** -/
structure Engine.Orderly (E : Engine P) (root : NodeId) (memo : Memo) (scope : Scope)
    (shared : P.Shared) : Prop where
  /-- No task finds itself resumed out of order. -/
  expects : ∀ r input, E.AttendsTo root memo scope shared (.resume r input) →
    ∀ node input', (r.countTurn.resumeFrame input).2 ≠ .outOfOrder node input'
  /-- Nor does a task end with any other internal error. -/
  fails : ∀ r input, E.AttendsTo root memo scope shared (.resume r input) →
    ∀ text, (r.countTurn.resumeFrame input).2 ≠ .fail (.internal text)
  /-- There is a frame when a task is resumed, and there is one when its step is
  served. -/
  manned : ∀ r input, E.AttendsTo root memo scope shared (.resume r input) →
    r.frames.items ≠ [] ∧ (r.countTurn.resumeFrame input).1.frames.items ≠ []
  /-- When a task has ended, the tasks that are left are those below it, or none. -/
  leaves : ∀ r input, E.AttendsTo root memo scope shared (.resume r input) →
    (∀ request, (r.countTurn.resumeFrame input).2 ≠ .request request) →
    (r.turn E input).run.frames.items.map Frame.task = (r.frames.items.map Frame.task).tail ∨
      (r.turn E input).run.frames.items = []
  /-- No job ends with an internal error. -/
  jobs : ∀ o, E.AttendsTo root memo scope shared (.finish o) →
    ∀ text, o.result ≠ .error (.internal text)
  /-- Nor does the evaluation. -/
  ends : ∀ o, E.Evaluates root memo scope shared o → ∀ text, o.result ≠ .error (.internal text)

/-! ## Frames that are left -/

namespace Run

variable {E : Engine P} {r : Run P}

/-- The tasks below the top stay when a result is handed over, or all frames go. -/
theorem tasks_handOver (r : Run P) (result : Except EvalError Value) :
    (r.handOver result).run.frames.items = r.frames.items ∨
      (r.handOver result).run.frames.items = [] := by
  unfold handOver
  split
  next => exact .inl rfl
  next error =>
    split
    next => exact .inr rfl
    next =>
      left
      dsimp only
      split <;> rfl

theorem tasks_answer (r : Run P) (a : Answer) :
    (r.answer a).run.frames.items.map Frame.task = r.frames.items.map Frame.task ∨
      (r.answer a).run.frames.items = [] := by
  unfold answer
  split
  next => exact .inl rfl
  next frame rest hitems =>
    refine ((r.observe a.tainted).tasks_handOver a.result).imp_left fun hframes => ?_
    rw [hframes]
    simp only [observe, Stack.items_mapTop, hitems, List.modifyHead_cons, List.map_cons]

/-- **A task that has ended is gone** after the turn. -/
theorem tasks_turn_of_ended (E : Engine P) {frame : Frame P} {rest : List (Frame P)}
    (hitems : r.frames.items = frame :: rest) {input : Input}
    (hended : ∀ request, (r.countTurn.resumeFrame input).2 ≠ .request request) :
    (r.turn E input).run.frames.items.map Frame.task = rest.map Frame.task ∨
      (r.turn E input).run.frames.items = [] := by
  have hcount : r.countTurn.frames.items = frame :: rest := hitems
  obtain ⟨after, -, -, hafter⟩ := exists_resumeFrame hcount input
  unfold turn
  dsimp only
  split
  next => exact .inr rfl
  next =>
    generalize (r.countTurn.resumeFrame input).1 = r' at hafter
    cases hstep : (r.countTurn.resumeFrame input).2 with
    | request request => exact absurd hstep (hended request)
    | done value =>
      have hrest : (r'.succeed value).1.frames.items = rest := by
        rw [frames_succeed, Stack.items_pop, hafter, List.tail_cons]
      rw [← hrest]
      exact tasks_answer _ _
    | fail error =>
      have hrest : (r'.fail error).1.frames.items = rest := by
        rw [frames_fail, Stack.items_pop, hafter, List.tail_cons]
      rw [← hrest]
      exact tasks_answer _ _

end Run

/-! ## The protocol -/

namespace Engine

variable {E : Engine P} {root : NodeId} {memo : Memo} {scope : Scope} {shared : P.Shared}

/-- **Whatever an evaluation attends to is as it should be.** -/
theorem AttendsTo.conducted (hr : E.registry.Native) (ho : E.registry.Ordinary) {next : Next P}
    (h : E.AttendsTo root memo scope shared next) : ∃ id, next.Conducted E.graph id := by
  rcases h.exists_passes (Schedule.closed_true E memo) trivial trivial with hpasses | ⟨job, -, hpasses⟩
  · exact ⟨root, hpasses.conducted hr ho⟩
  · exact ⟨job.node, hpasses.conducted hr ho⟩

/-- A task that is resumed does not end with an internal error. -/
theorem AttendsTo.step_ne_internal (hr : E.registry.Native) (ho : E.registry.Ordinary) {r : Run P}
    {input : Input} (h : E.AttendsTo root memo scope shared (.resume r input)) (text : String) :
    (r.countTurn.resumeFrame input).2 ≠ .fail (.internal text) := by
  obtain ⟨id, frame, rest, hitems, hperforms, -⟩ := h.conducted hr ho
  have hcount : r.countTurn.frames.items = frame :: rest := hitems
  obtain ⟨after, -, hasks⟩ := Run.resumeFrame_asks hcount hperforms
  intro hstep
  rw [hstep] at hasks
  exact hasks

/-- **Evaluations keep to the protocol of tasks,** with the standard registry or the
one with the sequential map: in every graph, cyclic or with missing nodes or with
payloads that fit no handler, from every memo, and with every limit. -/
theorem orderly (hr : E.registry = .standard ∨ E.registry = .standardSequential) (root : NodeId)
    (memo : Memo) (scope : Scope) (shared : P.Shared) : E.Orderly root memo scope shared := by
  have hnative := Registry.native_of_standard_or hr
  have hordinary := Registry.ordinary_of_standard_or hr
  refine ⟨?expects, ?fails, ?manned, ?leaves, ?jobs, ?ends⟩
  case expects => exact fun r input h node input' => h.step_ne_internal hnative hordinary _
  case fails => exact fun r input h => h.step_ne_internal hnative hordinary
  case manned =>
    intro r input h
    obtain ⟨id, frame, rest, hitems, hperforms, -⟩ := h.conducted hnative hordinary
    have hcount : r.countTurn.frames.items = frame :: rest := hitems
    obtain ⟨after, hafter, -⟩ := Run.resumeFrame_asks hcount hperforms
    exact ⟨by simp [hitems], by simp [hafter]⟩
  case leaves =>
    intro r input h hended
    obtain ⟨id, frame, rest, hitems, -⟩ := h.conducted hnative hordinary
    rw [hitems, List.map_cons, List.tail_cons]
    exact Run.tasks_turn_of_ended E hitems hended
  case jobs =>
    intro o h text herror
    obtain ⟨id, hexplained⟩ := h.conducted hnative hordinary
    exact (hexplained _ herror).ne_internal text rfl
  case ends =>
    rintro o ⟨fuel, hfuel⟩ text herror
    obtain ⟨hpasses, -⟩ := passes_of_evaluate? (Schedule.closed_true E memo) trivial trivial hfuel
    exact (hpasses.conducted hnative hordinary _ herror).ne_internal text rfl

/-- So does that of a list that contains itself, a race without branches and a node
that is missing. -/
theorem orderly_ring : Engine.Orderly (P := .none)
    ⟨⟨#[Graph.listNode [⟨0⟩, ⟨1⟩, ⟨2⟩], ⟨Tag.race, .args []⟩]⟩, .standard, {}⟩ ⟨0⟩ .empty .empty () :=
  orderly (.inl rfl) _ _ _ _

end Engine

end ProgramGraph
