import ProgramGraph.Engine.Limits
import ProgramGraph.Graph.Root
import ProgramGraph.Registry.Basic
import ProgramGraph.Memo
/-!
# Runs

A run evaluates a node with an explicit stack of frames, one per task that
has started and not ended. It goes turn by turn: a turn resumes the task of
the top frame once and serves what the task asks for, which may push a
frame, pop one, or start a wait. `turn` is one such turn and calls nothing
that recurs, so all that a run does is the iteration of one function.

The result of an untainted node is kept in the memo under the node's
handle. A node is tainted if it read a parameter or has a volatile handler,
or if a child of it is tainted. A child asked for afresh is evaluated
against an overlay, an empty memo that is dropped when the child ends.
The counters are always those of the memo below all overlays.

The runs of one fold take place in one world: they read one clock, use the
same data of the plug-ins and write into one journal. A run takes the world
over while it is going on, and a run that waits is handed the world as it
has become when its wait is over.

A failure unwinds one frame and is handed to the frame below. A fatal
error ends the run, whatever frames there are.
-/

namespace ProgramGraph

variable {P : Plugins}

/-- What evaluates: a graph, the handlers and the limits. -/
structure Engine (P : Plugins) where
  graph : Graph
  registry : Registry P
  limits : Limits := {}

/-- Something that a run did. -/
inductive Event
  /-- The handler of a node was asked for a task, and gave one or refused. -/
  | started (node : NodeId) (fresh accepted : Bool)
  /-- A request for a node was answered from a memo. -/
  | served (node : NodeId)
  /-- A parameter node was looked up. -/
  | lookedUp (node : NodeId)
  /-- The task of a node was resumed. -/
  | resumed (node : NodeId) (input : Input)
  /-- A failure was handed to the task of a node. -/
  | injected (node : NodeId)

/-- A task that has started and not ended. -/
structure Frame (P : Plugins) where
  /-- The node that the task evaluates. -/
  node : NodeId
  task : Task P
  /-- Whether the handler is volatile. -/
  volatile : Bool
  /-- Whether some child was tainted. -/
  tainted : Bool := false
  /-- The depth of the scope to go back to at the end. -/
  scopeDepth : Nat
  /-- Whether the frame has an overlay of its own. -/
  fresh : Bool

/-- What all evaluations of one fold have in common. -/
structure World (P : Plugins) where
  /-- The milliseconds that have passed. -/
  clock : Nat := 0
  /-- The data of the plug-ins. -/
  shared : P.Shared
  /-- What has been done, last things first. -/
  journal : List Event := []

/-- An evaluation under way. -/
structure Run (P : Plugins) where
  /-- The memo below all overlays. -/
  memo : Memo := .empty
  /-- The overlays, innermost first. -/
  overlays : List Memo := []
  scope : Scope := .empty
  /-- The frames. -/
  frames : Stack (Frame P) := .empty
  /-- The resumptions so far. -/
  steps : Nat := 0
  /-- The world as the run sees it. -/
  world : World P

/-- What a request comes to: a value or an error, and whether it is
tainted. -/
structure Answer where
  result : Except EvalError Value
  tainted : Bool

/-- The end of a run. -/
structure Outcome (P : Plugins) where
  result : Except EvalError Value
  tainted : Bool
  /-- The run as it was left. -/
  run : Run P

/-- The outcome as the one who waited for it sees it. -/
def Outcome.conclusion (o : Outcome P) : Conclusion := ⟨o.result, o.tainted, o.run.memo.tally⟩

/-- What comes next in a run. -/
inductive Next (P : Plugins)
  /-- The top frame is resumed. -/
  | resume (run : Run P) (input : Input)
  /-- The run waits. -/
  | wait (run : Run P) (await : Await)
  /-- The run has ended. -/
  | finish (outcome : Outcome P)

namespace Run

/-- The memo that requests are answered from: the innermost overlay, or
the memo below. -/
def innermost (r : Run P) : Memo :=
  match r.overlays with
  | [] => r.memo
  | overlay :: _ => overlay

/-- Changes the memo that requests are answered from. -/
def mapInnermost (r : Run P) (f : Memo → Memo) : Run P :=
  match r.overlays with
  | [] => { r with memo := f r.memo }
  | overlay :: rest => { r with overlays := f overlay :: rest }

/-- Changes the counters. -/
def mapTally (r : Run P) (f : Tally → Tally) : Run P :=
  { r with memo := r.memo.mapTally f }

/-- Cuts the scope back. -/
def truncate (r : Run P) (depth : Nat) : Run P := { r with scope := r.scope.truncate depth }

/-- Writes an event down. -/
def note (r : Run P) (event : Event) : Run P :=
  { r with world := { r.world with journal := event :: r.world.journal } }

/-- The run with other data of the plug-ins. -/
def withShared (r : Run P) (shared : P.Shared) : Run P :=
  { r with world := { r.world with shared } }

/-! ## The beginning and the end of a frame -/

/-- What a visit to a node comes to. -/
inductive Arrival
  /-- There is a new frame on top. -/
  | pushed
  /-- There is an answer without a frame. -/
  | ready (answer : Answer)

/-- **Visits a node.** A parameter is looked up; a result that is kept is
served, unless the node is asked for afresh; otherwise the handler of the
node makes a task, which gets a frame. Whenever there is no frame the scope
goes back to the depth `restore`, which a frame would keep for its end. -/
def arrive (E : Engine P) (r : Run P) (id : NodeId) (restore : Nat) (fresh : Bool) :
    Run P × Arrival :=
  match E.graph.get? id with
  | none => (r.truncate restore, .ready ⟨.error (.invalidNode id "not in graph"), false⟩)
  | some node =>
    match node.param? with
    | some p =>
      let result := match r.scope.lookup? p with
        | some value => .ok value
        | none => .error (.unboundParameter p)
      let r := ((r.truncate restore).mapTally .countLookup).mapInnermost (·.setTainted id)
      (r.note (.lookedUp id), .ready ⟨result, true⟩)
    | none =>
      match if fresh then none else r.innermost.kept? id with
      | some value =>
        let r := (r.truncate restore).mapTally .countHit
        (r.note (.served id), .ready ⟨.ok value, false⟩)
      | none =>
        match E.registry.get node.tag with
        | .error error => (r.truncate restore, .ready ⟨.error error, false⟩)
        | .ok entry =>
          match entry.handler.start id node r.world.shared with
          | (.error error, shared) =>
            let r := (r.truncate restore).withShared shared
            (r.note (.started id fresh false), .ready ⟨.error error, entry.volatile⟩)
          | (.ok task, shared) =>
            let frame : Frame P :=
              { node := id, task, volatile := entry.volatile, scopeDepth := restore, fresh }
            let depth := r.frames.size + 1
            let r := { r.withShared shared with
              frames := r.frames.push frame
              overlays := if fresh then .empty :: r.overlays else r.overlays }
            let r := r.mapTally fun tally => tally.countStart.reachDepth depth
            (r.note (.started id fresh true), .pushed)

/-- **Ends the top frame with a value,** which is kept if nothing tainted
went into it. -/
def succeed (r : Run P) (value : Value) : Run P × Answer :=
  match r.frames.items with
  | [] => (r, ⟨.error (.internal "completed with no active frame"), true⟩)
  | frame :: _ =>
    let tainted := frame.volatile || frame.tainted
    let r := { r.truncate frame.scopeDepth with frames := r.frames.pop }
    let r :=
      if frame.fresh then { r with overlays := r.overlays.tail }
      else r.mapInnermost (·.put frame.node value tainted)
    (r, ⟨.ok value, tainted⟩)

/-- **Ends the top frame with an error.** Nothing is recorded. -/
def fail (r : Run P) (error : EvalError) : Run P × Answer :=
  match r.frames.items with
  | [] => (r, ⟨.error error, true⟩)
  | frame :: _ =>
    let r := { r.truncate frame.scopeDepth with frames := r.frames.pop }
    let r := if frame.fresh then { r with overlays := r.overlays.tail } else r
    (r, ⟨.error error, frame.volatile || frame.tainted⟩)

/-- **Ends the run with an error,** whatever frames there are. -/
def stop (r : Run P) (error : EvalError) : Next P :=
  let scope := r.frames.items.foldl (fun scope frame => scope.truncate frame.scopeDepth) r.scope
  .finish ⟨.error error, true, { r with scope, frames := .empty, overlays := [] }⟩

/-! ## Turns -/

/-- Hands a result to the top frame. A failure becomes an input of its
task; a fatal error ends the run. -/
def handOver (r : Run P) (result : Except EvalError Value) : Next P :=
  match result with
  | .ok value => .resume r (.value value)
  | .error error =>
    match error.errorValue with
    | .error fatal => r.stop fatal
    | .ok value =>
      let r := r.mapTally .countInjection
      let r := match r.frames.items with
        | [] => r
        | frame :: _ => r.note (.injected frame.node)
      .resume r (.error value)

/-- Marks the top frame if what it is given is tainted. -/
def observe (r : Run P) (tainted : Bool) : Run P :=
  { r with
    frames := r.frames.mapTop fun frame => { frame with tainted := frame.tainted || tainted } }

/-- Gives an answer to the frame that asked. Without one it is the end of
the run. -/
def answer (r : Run P) (a : Answer) : Next P :=
  match r.frames.items with
  | [] => .finish ⟨a.result, a.tainted, r⟩
  | _ :: _ => (r.observe a.tainted).handOver a.result

/-- Visits a node, and goes on with the frame or the answer. -/
def visit (E : Engine P) (r : Run P) (id : NodeId) (restore : Nat) (fresh : Bool) : Next P :=
  match r.arrive E id restore fresh with
  | (r, .pushed) => .resume r .start
  | (r, .ready a) => r.answer a

/-- Serves what a task does. -/
def serve (E : Engine P) (r : Run P) : Step → Next P
  | .done value =>
    let (r, a) := r.succeed value
    r.answer a
  | .fail error =>
    let (r, a) := r.fail error
    r.answer a
  | .request (.child id) => r.visit E id r.scope.depth false
  | .request (.under id bindings) =>
    { r with scope := r.scope.push bindings }.visit E id r.scope.depth false
  | .request (.fresh id) => r.visit E id r.scope.depth true
  | .request (.await await) => .wait r await

/-- Resumes the task of the top frame, and gives its step. -/
def resumeFrame (r : Run P) (input : Input) : Run P × Step :=
  match r.frames.items with
  | [] => (r, .fail (.internal "resumed with no active frame"))
  | frame :: _ =>
    let ((step, task), shared) := frame.task.resume ⟨frame.node, r.scope⟩ input r.world.shared
    let r := { r.withShared shared with frames := r.frames.mapTop ({ · with task }) }
    (r.note (.resumed frame.node input), step)

/-- Counts a resumption. -/
def countTurn (r : Run P) : Run P := { r with steps := r.steps + 1 }.mapTally .countResumption

/-- The limit that the resumptions so far exceed. -/
def exceeded? (limits : Limits) (r : Run P) : Option Nat :=
  limits.maxSteps.filter fun limit => limit < r.steps

/-- **One turn of a run.** -/
def turn (E : Engine P) (r : Run P) (input : Input) : Next P :=
  let r := r.countTurn
  match r.exceeded? E.limits with
  | some limit => r.stop (.stepLimitExceeded limit)
  | none =>
    let (r, step) := r.resumeFrame input
    r.serve E step

/-- The beginning of a run: the visit to its root. -/
def begin (E : Engine P) (r : Run P) (root : NodeId) : Next P :=
  r.visit E root r.scope.depth false

end Run

end ProgramGraph
