import ProgramGraph.Proofs.Schedule.Clock
import ProgramGraph.Proofs.Sound.Run
/-!
# What runs at pure nodes do

Where everything in sight is pure, no parameter is looked up and no volatile
handler is started. This is said of the journal, which all runs of a fold write
into, so nothing that a job does escapes it.
-/

namespace ProgramGraph

variable {P : Plugins} {E : Engine P} {m : Memo}

/-- **Nothing that a result could hang on** besides the graph. -/
def Event.Innocent (E : Engine P) : Event → Prop
  | .started id _ _ => ∀ node, E.graph.get? id = some node → E.registry.isVolatile node.tag = false
  | .lookedUp _ => False
  | _ => True

/-- So far nothing else has been done. -/
def World.Innocent (E : Engine P) (w : World P) : Prop := ∀ event ∈ w.journal, event.Innocent E

namespace Run

variable {r : Run P} {root : NodeId}

theorem innocent_note (h : r.world.Innocent E) {event : Event} (he : event.Innocent E) :
    (r.note event).world.Innocent E :=
  List.forall_mem_cons.2 ⟨he, h⟩

theorem innocent_handOver (h : r.world.Innocent E) (result : Except EvalError Value) :
    (r.handOver result).world.Innocent E := by
  unfold handOver
  split
  · exact h
  · split
    · exact h
    · dsimp only
      split
      · exact h
      · exact innocent_note (r := r.mapTally _) h trivial

theorem innocent_answer (h : r.world.Innocent E) (a : Answer) :
    (r.answer a).world.Innocent E := by
  unfold answer
  split
  · exact h
  · exact innocent_handOver (r := r.observe a.tainted) h a.result

/-- **A visit to a pure node.** -/
theorem innocent_arrive (h : r.world.Innocent E) {id : NodeId}
    (hpure : E.graph.Pure E.registry id) (restore : Nat) (fresh : Bool) :
    (r.arrive E id restore fresh).1.world.Innocent E := by
  unfold arrive
  split
  · exact h
  next node hnode =>
  obtain ⟨hparam, hvolatile⟩ := hpure.of_get? hnode
  have hstarted : ∀ accepted, Event.Innocent E (.started id fresh accepted) := by
    intro accepted other hother
    rw [hnode] at hother
    cases hother
    exact hvolatile
  split
  next p hp =>
    rw [hparam] at hp
    cases hp
  next =>
  split
  · exact innocent_note (r := (r.truncate restore).mapTally _) h trivial
  · split
    · exact h
    · split
      · exact innocent_note (r := (r.truncate restore).withShared _) h (hstarted false)
      · exact List.forall_mem_cons.2 ⟨hstarted true, h⟩

theorem innocent_visit (h : r.world.Innocent E) {id : NodeId}
    (hpure : E.graph.Pure E.registry id) (restore : Nat) (fresh : Bool) :
    (r.visit E id restore fresh).world.Innocent E := by
  have harrive := innocent_arrive h hpure restore fresh
  unfold visit
  split
  next hpair =>
    rw [hpair] at harrive
    exact harrive
  next hpair =>
    rw [hpair] at harrive
    exact innocent_answer harrive _

theorem innocent_serve (h : r.world.Innocent E) {frame : Frame P} {step : Step}
    (hmay : frame.May E step) (hpure : E.graph.Pure E.registry frame.node) :
    (r.serve E step).world.Innocent E := by
  cases step with
  | done value =>
    refine innocent_answer (r := (r.succeed value).1) ?_ _
    rw [world_succeed]
    exact h
  | fail error =>
    refine innocent_answer (r := (r.fail error).1) ?_ _
    rw [world_fail]
    exact h
  | request request =>
    cases request with
    | child id => exact innocent_visit h (hmay.1 hpure) _ _
    | under id bindings =>
      have hpushed : ({ r with scope := r.scope.push bindings } : Run P).world.Innocent E := h
      exact innocent_visit hpushed (hmay.1 hpure) _ _
    | fresh id => exact innocent_visit h (hmay.1 hpure) _ _
    | await await => exact h

/-- **A turn at a pure node.** -/
theorem innocent_turn (h : r.world.Innocent E) (hroot : E.graph.Pure E.registry root)
    {input : Input} (hsound : (Next.resume r input).Sound E m root) :
    (r.turn E input).world.Innocent E := by
  obtain ⟨-, frame, rest, hitems, hresumes, hawait⟩ := hsound
  unfold turn
  dsimp only
  split
  · exact h
  · have hitems' : r.countTurn.frames.items = frame :: rest := hitems
    obtain ⟨step, after, shared, hstep⟩ : ∃ step after shared,
        frame.task.resume ⟨frame.node, r.countTurn.scope⟩ input r.countTurn.world.shared =
          ((step, after), shared) := ⟨_, _, _, rfl⟩
    simp only [resumeFrame, hitems', hstep]
    refine innocent_serve ?_ (hresumes.may hstep) (hawait.pure hroot)
    exact innocent_note (r := { r.countTurn.withShared shared with frames := _ }) h trivial

theorem innocent_wake {world : World P} (h : world.Innocent E) (r : Run P) (wake : Wake) :
    (r.wake world wake).world.Innocent E := by
  cases wake with
  | elapsed => exact h
  | settled c => exact innocent_handOver (r := observe _ c.tainted) h c.result

end Run

end ProgramGraph
