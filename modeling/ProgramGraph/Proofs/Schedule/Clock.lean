import ProgramGraph.Engine.Schedule
/-!
# The clock of a run

No time passes in a run. The clock is that of the world which the run was
handed, whatever the run does until it waits or ends.
-/

namespace ProgramGraph

variable {P : Plugins}

/-- The world of the run that goes on, waits or has ended. -/
def Next.world : Next P → World P
  | resume run _ => run.world
  | wait run _ => run.world
  | finish o => o.run.world

namespace Run

variable {E : Engine P} {r : Run P}

@[simp] theorem world_mapInnermost (r : Run P) (f : Memo → Memo) :
    (r.mapInnermost f).world = r.world := by
  unfold mapInnermost
  split <;> rfl

@[simp] theorem world_handOver_clock (r : Run P) (result : Except EvalError Value) :
    (r.handOver result).world.clock = r.world.clock := by
  unfold handOver
  split
  · rfl
  · split
    · rfl
    · dsimp only
      split <;> rfl

@[simp] theorem world_answer_clock (r : Run P) (a : Answer) :
    (r.answer a).world.clock = r.world.clock := by
  unfold answer
  split
  · rfl
  · rw [world_handOver_clock]
    rfl

theorem world_arrive_clock (r : Run P) (id : NodeId) (restore : Nat) (fresh : Bool) :
    (r.arrive E id restore fresh).1.world.clock = r.world.clock := by
  unfold arrive
  split
  · rfl
  · split
    · simp only [note, world_mapInnermost]
      rfl
    · split
      · rfl
      · split
        · rfl
        · split <;> rfl

theorem world_visit_clock (r : Run P) (id : NodeId) (restore : Nat) (fresh : Bool) :
    (r.visit E id restore fresh).world.clock = r.world.clock := by
  have harrive := r.world_arrive_clock (E := E) id restore fresh
  unfold visit
  split
  next h =>
    rw [h] at harrive
    exact harrive
  next h =>
    rw [h] at harrive
    rw [world_answer_clock]
    exact harrive

/-- The end of a frame does nothing to the world. -/
theorem world_succeed (r : Run P) (value : Value) : (r.succeed value).1.world = r.world := by
  unfold succeed
  split
  · rfl
  · split
    · rfl
    · simp only [world_mapInnermost]
      rfl

theorem world_fail (r : Run P) (error : EvalError) : (r.fail error).1.world = r.world := by
  unfold fail
  split
  · rfl
  · split <;> rfl

theorem world_serve_clock (r : Run P) (step : Step) :
    (r.serve E step).world.clock = r.world.clock := by
  cases step with
  | done value =>
    rw [serve, world_answer_clock, world_succeed]
  | fail error =>
    rw [serve, world_answer_clock, world_fail]
  | request request =>
    cases request with
    | child id => exact r.world_visit_clock id _ _
    | under id bindings => exact world_visit_clock _ id _ _
    | fresh id => exact r.world_visit_clock id _ _
    | await await => rfl

/-- **A turn takes no time.** -/
theorem world_turn_clock (r : Run P) (input : Input) :
    (r.turn E input).world.clock = r.world.clock := by
  have hresume : ∀ r : Run P, (r.resumeFrame input).1.world.clock = r.world.clock := by
    intro r
    unfold resumeFrame
    split <;> rfl
  unfold turn
  dsimp only
  split
  · rfl
  · rw [world_serve_clock, hresume]
    rfl

theorem world_begin_clock (r : Run P) (root : NodeId) :
    (r.begin E root).world.clock = r.world.clock :=
  r.world_visit_clock root _ _

theorem world_wake_clock (r : Run P) (world : World P) (wake : Wake) :
    (r.wake world wake).world.clock = world.clock := by
  cases wake with
  | elapsed => rfl
  | settled conclusion =>
    simp only [wake, world_handOver_clock]
    rfl

end Run

end ProgramGraph
