import ProgramGraph.Proofs.Passage.Track
import ProgramGraph.Proofs.Solo.Plain
import ProgramGraph.Proofs.Transcript.Frame
/-!
# What tasks expect

An expectation says of a node, of a task for it and of an input whether the task may be resumed
with the input at the point that it has come to. Two things are asked of the handlers and the
tasks of an engine, each by itself: a task that has been made may begin, and a task that has
asked for something may be resumed with whatever can come of that (`Expectation.Met`).

Then every task of every run is resumed as expected (`Engine.AttendsTo.suits`), whatever the
graph and the limits are. The invariant is one of the frames. The top frame is about to be
resumed, or waits; every frame below has asked for the node of the one above it, and may be
given any reply.
-/

namespace ProgramGraph

variable {P : Plugins}

/-- **What the tasks of nodes may be resumed with.** -/
def Expectation (P : Plugins) : Type := NodeId → Task P → Input → Prop

namespace Expectation

section

variable (X : Expectation P) (id : NodeId) (task : Task P)

/-- The task may be given any reply. -/
def Listens : Prop := ∀ reply : Reply, X id task reply.toInput

/-- The task may go on when its wait has come to this. -/
def GoesOn : Wake → Prop
  | .elapsed => X id task .elapsed
  | .settled c => ∀ reply, Reply.ofResult c.result = .ok reply → X id task reply.toInput

/-- **The task may be resumed after its request,** with whatever can come of it. -/
def Rests : Request → Prop
  | .await await => ∀ wake, await.Comes (fun _ _ => True) wake → X.GoesOn id task wake
  | _ => X.Listens id task

/-- **The expectation is met** by the handlers and the tasks of an engine. -/
structure Met (E : Engine P) : Prop where
  /-- A task that has been made may begin. -/
  starts : ∀ {id : NodeId} {node : Node} {entry : Entry P} {task : Task P}
    {shared shared' : P.Shared}, E.graph.get? id = some node →
    E.registry.get node.tag = .ok entry →
    entry.handler.start id node shared = (.ok task, shared') → X id task .start
  /-- A task that has asked for something may be resumed after that. -/
  asks : ∀ {id : NodeId} {task after : Task P} {input : Input} {scope : Scope}
    {shared shared' : P.Shared} {request : Request}, X id task input →
    task.resume ⟨id, scope⟩ input shared = ((.request request, after), shared') →
    X.Rests id after request

/-- Frames that have asked for the nodes of the frames above them. -/
def Lower (frames : List (Frame P)) : Prop := ∀ frame ∈ frames, X.Listens frame.node frame.task

/-- **What is next is as expected.** -/
def Suits : Next P → Prop
  | .resume r input => ∃ frame rest, r.frames.items = frame :: rest ∧
      X frame.node frame.task input ∧ X.Lower rest
  | .wait r await => ∃ frame rest, r.frames.items = frame :: rest ∧
      X.Rests frame.node frame.task (.await await) ∧ X.Lower rest
  | .finish _ => True

end

variable {X : Expectation P} {E : Engine P} {r : Run P} {next : Next P} {frame : Frame P}
  {frames rest : List (Frame P)} {scope : Scope} {clock : Nat}

/-- A node is asked for by a task that listens. -/
theorem Rests.listens {id id' : NodeId} {task : Task P} {request : Request} {base : Scope}
    {fresh : Bool} (h : X.Rests id task request) (hvisits : request.Visits base scope id' fresh) :
    X.Listens id task := by
  cases hvisits <;> exact h

/-- What may be resumed with anything may be resumed after any request. -/
theorem rests_of_forall {id : NodeId} {task : Task P} (h : ∀ input, X id task input)
    (request : Request) : X.Rests id task request := by
  cases request with
  | await await =>
    intro wake _
    cases wake with
    | elapsed => exact h _
    | settled c => exact fun reply _ => h _
  | _ => exact fun reply => h _

theorem suits_of_stopped (h : next.Stopped) : X.Suits next := by
  obtain ⟨o, e, rfl, -⟩ := h
  trivial

/-- **A result has been handed to the top frame,** or it was fatal. -/
theorem suits_of_handed {tainted : Bool} {result : Except EvalError Value}
    (h : (∃ reply r', Reply.ofResult result = .ok reply ∧ next = .resume r' reply.toInput ∧
      r'.Sits ({ frame with tainted } :: rest) scope clock) ∨
      ∃ fatal, Reply.ofResult result = .error fatal ∧ next.Stopped)
    (hlistens : ∀ reply, Reply.ofResult result = .ok reply → X frame.node frame.task reply.toInput)
    (hrest : X.Lower rest) : X.Suits next := by
  rcases h with ⟨reply, r', hreply, rfl, hsits⟩ | ⟨fatal, -, hstopped⟩
  · exact ⟨_, rest, hsits.frames, hlistens reply hreply, hrest⟩
  · exact suits_of_stopped hstopped

/-- **An answer is given to a frame that listens,** or the run is over. -/
theorem suits_answer (h : r.Sits frames scope clock) (hlower : X.Lower frames) (a : Answer) :
    X.Suits (r.answer a) := by
  cases frames with
  | nil =>
    simp only [Run.answer, h.frames]
    trivial
  | cons frame rest =>
    obtain ⟨hframe, hrest⟩ := List.forall_mem_cons.1 hlower
    exact suits_of_handed (h.answer a) (fun reply _ => hframe reply) hrest

/-- **A visit** starts a task that may begin, or is answered at once. -/
theorem Met.suits_visit (hmet : X.Met E) (h : r.Sits frames scope clock) (hlower : X.Lower frames)
    (id : NodeId) (restore : Nat) (fresh : Bool) : X.Suits (r.visit E id restore fresh) := by
  cases harrive : r.arrive E id restore fresh with
  | mk r' arrival =>
    cases arrival with
    | pushed =>
      obtain ⟨node, entry, task, shared, hnode, hentry, hstart, hsits⟩ :=
        Run.sits_of_pushed h harrive
      rw [Run.visit_of_pushed harrive]
      exact ⟨_, frames, hsits.frames, hmet.starts hnode hentry hstart, hlower⟩
    | ready a =>
      rw [Run.visit_of_ready harrive]
      exact suits_answer (Run.sits_of_ready h harrive) hlower a

/-- **A turn.** -/
theorem Met.suits_turn (hmet : X.Met E) {input : Input} (h : X.Suits (.resume r input)) :
    X.Suits (r.turn E input) := by
  obtain ⟨frame, rest, hitems, hframe, hrest⟩ := h
  rcases r.turn_acts (E := E) hitems input with
    ⟨-, hstopped, -⟩ | ⟨step, after, shared, hstep, hacts⟩
  · exact suits_of_stopped hstopped
  generalize r.remarks E input = said at hacts
  generalize r.turn E input = next at hacts ⊢
  cases hacts with
  | ends result sits => exact suits_answer sits hrest _
  | answered visits _ _ sits =>
    have hlistens := (hmet.asks hframe hstep).listens visits
    exact suits_answer sits (List.forall_mem_cons.2 ⟨hlistens, hrest⟩) _
  | @starts r₀ r₁ _ _ id fresh _ _ visits before visit_eq =>
    have hlistens := (hmet.asks hframe hstep).listens visits
    have hvisit := hmet.suits_visit before (List.forall_mem_cons.2 ⟨hlistens, hrest⟩) id
      r.scope.depth fresh
    rwa [visit_eq] at hvisit
  | waits await sits => exact ⟨_, rest, sits.frames, hmet.asks hframe hstep, hrest⟩

/-- **The end of a wait.** -/
theorem Suits.wake {await : Await} {ends : Job → Conclusion → Prop} {wake : Wake}
    (h : X.Suits (.wait r await)) (world : World P) (hcomes : await.Comes ends wake) :
    X.Suits (r.wake world wake) := by
  obtain ⟨frame, rest, hitems, hframe, hrest⟩ := h
  have hgoes := hframe wake (hcomes.mono fun _ _ _ _ => trivial)
  cases wake with
  | elapsed => exact ⟨frame, rest, hitems, hgoes, hrest⟩
  | settled c =>
    exact suits_of_handed (Run.Sits.settled ⟨hitems, rfl, rfl⟩ world c) hgoes hrest

end Expectation

/-- **A run that waits** waits for what its top frame has asked for. -/
theorem Run.exists_waits_of_turn {E : Engine P} {r r' : Run P} {frame : Frame P}
    {rest : List (Frame P)} (hitems : r.frames.items = frame :: rest) {input : Input} {await : Await}
    (h : r.turn E input = .wait r' await) :
    ∃ (after : Task P) (shared : P.Shared),
      frame.task.resume ⟨frame.node, r.scope⟩ input r.world.shared =
        ((.wait await, after), shared) ∧
      r'.Sits ({ frame with task := after } :: rest) r.scope r.world.clock := by
  rcases r.turn_acts (E := E) hitems input with
    ⟨-, ⟨o, e, hfinish, -⟩, -⟩ | ⟨step, after, shared, hstep, hacts⟩
  · rw [h] at hfinish
    cases hfinish
  rw [h] at hacts
  generalize r.remarks E input = said at hacts
  generalize hnext : Next.wait r' await = next at hacts
  have hawait : next.await? = some await := by rw [← hnext]; rfl
  cases hacts with
  | ends => exact absurd (hawait.symm.trans (await?_answer _ _)) nofun
  | answered => exact absurd (hawait.symm.trans (await?_answer _ _)) nofun
  | starts => cases hnext
  | waits await sits =>
    cases hnext
    exact ⟨after, shared, hstep, sits⟩

/-- **All that a job passes through is as expected,** by induction on how it gets there. -/
theorem Passes.suits {X : Expectation P} {E : Engine P} {W : World P → Prop} {m : Memo} {job : Job}
    {next : Next P} (hmet : X.Met E) (h : Passes E W m job next) : X.Suits next := by
  have hnone : X.Lower [] := List.forall_mem_nil _
  induction h with
  | begin _ => exact hmet.suits_visit ⟨rfl, rfl, rfl⟩ hnone _ _ _
  | turn _ ih => exact hmet.suits_turn ih
  | wake _ _ _ hcomes ih _ => exact ih.wake _ hcomes

/-- **Whatever an evaluation attends to is as expected.** -/
theorem Engine.AttendsTo.suits {X : Expectation P} {E : Engine P} {root : NodeId} {memo : Memo}
    {scope : Scope} {shared : P.Shared} {next : Next P} (hmet : X.Met E)
    (h : E.AttendsTo root memo scope shared next) : X.Suits next := by
  rcases h.exists_passes (Schedule.closed_true E memo) trivial trivial with
    hpasses | ⟨job, -, hpasses⟩
  · exact hpasses.suits hmet
  · exact hpasses.suits hmet

/-- **Every task is resumed as expected.** -/
theorem Engine.AttendsTo.expects {X : Expectation P} {E : Engine P} {root : NodeId} {memo : Memo}
    {scope : Scope} {shared : P.Shared} {r : Run P} {input : Input} {frame : Frame P}
    {rest : List (Frame P)} (hmet : X.Met E)
    (h : E.AttendsTo root memo scope shared (.resume r input))
    (hitems : r.frames.items = frame :: rest) : X frame.node frame.task input := by
  obtain ⟨top, below, hitems', htop, -⟩ := h.suits hmet
  rw [hitems] at hitems'
  cases hitems'
  exact htop

end ProgramGraph
