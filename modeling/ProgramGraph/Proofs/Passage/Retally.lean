import ProgramGraph.Proofs.Sound.Abreast
/-!
# Counters play no part

A run counts what it does, but nothing that it does hangs on its counters. So a run with
other counters does the same: whatever comes next is the same but for the counters, turn by
turn and after every wait (`Run.exists_turn_retally`, `Run.exists_wake_retally`).
-/

namespace ProgramGraph

variable {P : Plugins}

/-- The run with other counters. -/
def Run.retally (r : Run P) (t : Tally) : Run P := r.mapTally fun _ => t

/-- The same is next, with other counters. -/
def Next.retally (t : Tally) : Next P → Next P
  | .resume r input => .resume (r.retally t) input
  | .wait r await => .wait (r.retally t) await
  | .finish o => .finish { o with run := o.run.retally t }

/-- The report with other counters. -/
def Report.retally (e : Report) (t : Tally) : Report := { e with memo := e.memo.mapTally fun _ => t }

namespace Run

variable {E : Engine P} (r : Run P) (t : Tally)

/-! ## Answers -/

theorem kept?_retally (id : NodeId) : (r.retally t).innermost.kept? id = r.innermost.kept? id := by
  unfold innermost
  split
  next hoverlays =>
    have hempty : r.overlays = [] := hoverlays
    rw [hempty]
    rfl
  next hoverlays =>
    have hcons : r.overlays = _ := hoverlays
    rw [hcons]

/-- A change of the innermost memo that leaves its counters alone. -/
theorem mapInnermost_retally {f : Memo → Memo}
    (hf : ∀ m, f (m.mapTally fun _ => t) = (f m).mapTally fun _ => t) :
    (r.retally t).mapInnermost f = (r.mapInnermost f).retally t := by
  obtain ⟨memo, overlays, scope, frames, steps, world⟩ := r
  cases overlays with
  | nil => exact congrArg (fun m => (⟨m, [], scope, frames, steps, world⟩ : Run P)) (hf memo)
  | cons overlay rest => rfl

theorem exists_handOver_retally (result : Except EvalError Value) :
    ∃ t', (r.retally t).handOver result = (r.handOver result).retally t' := by
  cases result with
  | ok value => exact ⟨t, rfl⟩
  | error error =>
    unfold handOver
    dsimp only
    cases error.errorValue with
    | error fatal => exact ⟨t, rfl⟩
    | ok value =>
      refine ⟨t.countInjection, ?_⟩
      have hitems : ((r.retally t).mapTally .countInjection).frames.items =
          (r.mapTally .countInjection).frames.items := rfl
      dsimp only
      rw [hitems]
      split <;> rfl

theorem exists_answer_retally (a : Answer) :
    ∃ t', (r.retally t).answer a = (r.answer a).retally t' := by
  have hitems : (r.retally t).frames.items = r.frames.items := rfl
  unfold answer
  rw [hitems]
  split
  · exact ⟨t, rfl⟩
  · exact (r.observe a.tainted).exists_handOver_retally t a.result

/-! ## Visits -/

/-- **A visit comes to the same.** -/
theorem exists_arrive_retally (id : NodeId) (restore : Nat) (fresh : Bool) :
    ∃ t', (r.retally t).arrive E id restore fresh =
      ((r.arrive E id restore fresh).1.retally t', (r.arrive E id restore fresh).2) := by
  unfold arrive
  rw [kept?_retally]
  split
  next => exact ⟨t, rfl⟩
  next node _ =>
    split
    next p _ =>
      refine ⟨t.countLookup, ?_⟩
      have hmark := ((r.truncate restore).mapTally .countLookup).mapInnermost_retally t.countLookup
        (f := (·.setTainted id)) fun _ => rfl
      exact congrArg (fun r' : Run P => (r'.note (.lookedUp id), Arrival.ready _)) hmark
    next =>
      split
      next => exact ⟨t.countHit, rfl⟩
      next =>
        split
        next => exact ⟨t, rfl⟩
        next entry _ =>
          have hshared : (r.retally t).world.shared = r.world.shared := rfl
          rw [hshared]
          split
          next => exact ⟨t, rfl⟩
          next => exact ⟨_, rfl⟩

theorem exists_visit_retally (id : NodeId) (restore : Nat) (fresh : Bool) :
    ∃ t', (r.retally t).visit E id restore fresh = (r.visit E id restore fresh).retally t' := by
  obtain ⟨t', harrive⟩ := r.exists_arrive_retally (E := E) t id restore fresh
  unfold visit
  rw [harrive]
  generalize r.arrive E id restore fresh = arrived
  obtain ⟨r', arrival⟩ := arrived
  cases arrival with
  | pushed => exact ⟨t', rfl⟩
  | ready a => exact r'.exists_answer_retally t' a

/-! ## Turns -/

/-- A frame ends in the same way. -/
theorem leave_retally (frame : Frame P) {f : Memo → Memo}
    (hf : ∀ m, f (m.mapTally fun _ => t) = (f m).mapTally fun _ => t) :
    (r.retally t).leave frame f = (r.leave frame f).retally t := by
  unfold leave
  cases frame.fresh with
  | true => rfl
  | false =>
    exact mapInnermost_retally { r.truncate frame.scopeDepth with frames := r.frames.pop } t hf

/-- So does one that comes to a value. -/
theorem succeed_retally (value : Value) :
    (r.retally t).succeed value = ((r.succeed value).1.retally t, (r.succeed value).2) := by
  cases hitems : r.frames.items with
  | nil =>
    have hempty : (r.retally t).frames.items = [] := hitems
    simp only [succeed, hitems, hempty]
  | cons frame rest =>
    have hcons : (r.retally t).frames.items = frame :: rest := hitems
    rw [succeed_eq hitems, succeed_eq hcons, leave_retally]
    intro m
    cases frame.volatile || frame.tainted <;> rfl

/-- And so does one that fails. -/
theorem fail_retally (error : EvalError) :
    (r.retally t).fail error = ((r.fail error).1.retally t, (r.fail error).2) := by
  cases hitems : r.frames.items with
  | nil =>
    have hempty : (r.retally t).frames.items = [] := hitems
    simp only [fail, hitems, hempty]
  | cons frame rest =>
    have hcons : (r.retally t).frames.items = frame :: rest := hitems
    rw [fail_eq hitems, fail_eq hcons, leave_retally]
    exact fun _ => rfl

theorem exists_serve_retally (step : Step) :
    ∃ t', (r.retally t).serve E step = (r.serve E step).retally t' := by
  cases step with
  | done value =>
    simp only [serve, succeed_retally]
    exact exists_answer_retally _ t _
  | fail error =>
    simp only [serve, fail_retally]
    exact exists_answer_retally _ t _
  | request request =>
    cases request with
    | child id => exact r.exists_visit_retally t id _ _
    | under id bindings =>
      exact exists_visit_retally { r with scope := r.scope.push bindings } t id _ _
    | fresh id => exact r.exists_visit_retally t id _ _
    | await await => exact ⟨t, rfl⟩

/-- The top task is resumed alike. -/
theorem resumeFrame_retally (input : Input) : (r.retally t).resumeFrame input =
    ((r.resumeFrame input).1.retally t, (r.resumeFrame input).2) := by
  have hitems : (r.retally t).frames.items = r.frames.items := rfl
  unfold resumeFrame
  rw [hitems]
  split <;> rfl

/-- **A turn is the same,** but for the counters. -/
theorem exists_turn_retally (input : Input) :
    ∃ t', (r.retally t).turn E input = (r.turn E input).retally t' := by
  have hcount : (r.retally t).countTurn = r.countTurn.retally t.countResumption := rfl
  have hexceeded : (r.countTurn.retally t.countResumption).exceeded? E.limits =
      r.countTurn.exceeded? E.limits := rfl
  cases hlimit : r.countTurn.exceeded? E.limits with
  | some limit =>
    rw [turn_of_exceeded hlimit, turn_of_exceeded (by rw [hcount, hexceeded, hlimit])]
    exact ⟨t.countResumption, rfl⟩
  | none =>
    rw [turn_of_within hlimit, turn_of_within (by rw [hcount, hexceeded, hlimit]), hcount,
      resumeFrame_retally]
    exact exists_serve_retally _ _ _

/-- **So is what follows on a wait** that the same has come of, whatever the jobs have counted. -/
theorem exists_wake_retally (world : World P) {wake wake' : Wake} (h : wake.Alike wake') :
    ∃ t', (r.retally t).wake world wake' = (r.wake world wake).retally t' := by
  cases h with
  | elapsed => exact ⟨t, rfl⟩
  | @settled c c' hanswer =>
    obtain ⟨result, tainted, tally⟩ := c
    obtain ⟨result', tainted', tally'⟩ := c'
    obtain ⟨rfl, rfl⟩ := Answer.mk.inj hanswer
    exact exists_handOver_retally ((({ r with world } : Run P).mapTally (·.merge tally)).observe tainted')
      (t.merge tally') result'

end Run

end ProgramGraph
