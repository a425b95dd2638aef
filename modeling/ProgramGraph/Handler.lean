import ProgramGraph.Task.Structure
import ProgramGraph.Task.Concurrency
import ProgramGraph.Task.Recovery
/-!
# Handlers

A handler makes a task for a node, or refuses the node because its payload
does not fit. The handlers of the library are listed here; further ones
come from plug-ins, which the rest of the library takes as a parameter. A
plug-in may keep data of its own between two calls, and nothing is assumed
of what its tasks do.
-/

namespace ProgramGraph

/-- Handlers from outside, with their tasks and the data they share. -/
structure Plugins where
  /-- What tells the handlers apart. -/
  Handler : Type
  /-- Their tasks. -/
  Task : Type
  /-- The data that lives from call to call. -/
  Shared : Type
  /-- Makes a task for a node, or refuses it. -/
  start : Handler → NodeId → Node → Shared → Except EvalError Task × Shared
  /-- Resumes a task. -/
  resume : Context → Input → Task → Shared → (Step × Task) × Shared

/-- No handlers from outside. -/
def Plugins.none : Plugins where
  Handler := Empty
  Task := Empty
  Shared := Unit
  start h := h.elim
  resume _ _ task := task.elim

/-- The handlers of the library. -/
inductive Builtin
  /-- A value found from the node alone. -/
  | leaf (outcome : NodeId → Node → Except EvalError Value)
  /-- A function of the values of the children. -/
  | args (combine : List Value → Except EvalError Value)
  | record
  | apply
  | parMap (concurrent : Bool)
  | race
  | timeout
  | retry
  | fail
  | tryCatch
  | attempt
  | guard
  | settle

namespace Builtin

/-- The tasks of the handlers of the library. -/
inductive Task
  | leaf (task : Leaf)
  | collect (task : Collection)
  | record (task : Assembly)
  | apply (task : Application)
  | parMap (task : ParallelMap)
  | race (task : Race)
  | timeout (task : Timeout)
  | retry (task : Retry)
  | fail (task : Failing)
  | tryCatch (task : Recovery)
  | attempt (task : Attempt)
  | guard (task : Guarded)
  | settle (task : Partition)

/-- The task of a constant. -/
def literal : Builtin := .leaf fun id node =>
  match node.payload with
  | .literal value => .ok value
  | payload => .error (.invalidNode id ("expected literal, found " ++ payload.inspect))

/-- The list of the values of the children. -/
def list : Builtin := .args fun values => .ok (.array values)

/-- The only child of a node. -/
def onlyChild (id : NodeId) (node : Node) : Except EvalError NodeId :=
  match node.payload with
  | .child child => .ok child
  | _ => .error (.invalidNode id "expected a single child")

/-- Makes a task for a node, or refuses it. At least one element, one
branch and one attempt make a parallel map, a race and a retry. -/
def start : Builtin → NodeId → Node → Except EvalError Task
  | leaf outcome, id, node => .ok (.leaf ⟨some (outcome id node)⟩)
  | args combine, id, node => (Collection.start combine id node.payload).map .collect
  | record, id, node =>
    match node.payload with
    | .fields fields _ => .ok (.record { fields := fields.toArray })
    | _ => .error (.invalidNode id "expected fields")
  | apply, id, node =>
    match node.payload with
    | .apply arg lambda => .ok (.apply { arg, lambda })
    | _ => .error (.invalidNode id "expected apply")
  | parMap concurrent, id, node =>
    match node.payload with
    | .parMap collection concurrency lambda =>
      .ok (.parMap { collection, lambda, batch := max concurrency 1, concurrent })
    | _ => .error (.invalidNode id "expected par_map")
  | race, id, node =>
    match node.payload with
    | .args (branch :: others) => .ok (.race ⟨branch, others⟩)
    | _ => .error (.invalidNode id "race needs at least one branch")
  | timeout, id, node =>
    match node.payload with
    | .timeout expr ms fallback => .ok (.timeout ⟨expr, ms, fallback⟩)
    | _ => .error (.invalidNode id "expected timeout")
  | retry, id, node =>
    match node.payload with
    | .retry expr attempts delayMs => .ok (.retry { expr, attempts := max attempts 1, delayMs })
    | _ => .error (.invalidNode id "expected retry")
  | fail, id, node => (onlyChild id node).map fun child => .fail ⟨child⟩
  | tryCatch, id, node =>
    match node.payload with
    | .tryCatch expr catcher branches cleanup =>
      .ok (.tryCatch { expr, catcher, branches, cleanup })
    | _ => .error (.invalidNode id "expected try")
  | attempt, id, node => (onlyChild id node).map fun child => .attempt ⟨child⟩
  | guard, id, node =>
    match node.payload with
    | .guard condition error => .ok (.guard { condition, error })
    | _ => .error (.invalidNode id "expected guard")
  | settle, id, node =>
    match node.payload with
    | .args exprs => .ok (.settle { exprs := exprs.toArray })
    | _ => .error (.invalidNode id "expected arguments")

/-- Resumes a task. -/
def Task.resume (cx : Context) (input : Input) : Task → Step × Task
  | leaf task => wrap leaf (task.resume cx input)
  | collect task => wrap collect (task.resume cx input)
  | record task => wrap record (task.resume cx input)
  | apply task => wrap apply (task.resume cx input)
  | parMap task => wrap parMap (task.resume cx input)
  | race task => wrap race (task.resume cx input)
  | timeout task => wrap timeout (task.resume cx input)
  | retry task => wrap retry (task.resume input)
  | fail task => wrap fail (task.resume cx input)
  | tryCatch task => wrap tryCatch (task.resume cx input)
  | attempt task => wrap attempt (task.resume cx input)
  | guard task => wrap guard (task.resume cx input)
  | settle task => wrap settle (task.resume cx input)
where
  /-- Turns a task of one kind into a task. -/
  wrap {τ : Type} (make : τ → Task) (answer : Step × τ) : Step × Task :=
    (answer.1, make answer.2)

end Builtin

variable {P : Plugins}

/-- A handler: one of the library or one of a plug-in. -/
inductive Handler (P : Plugins)
  | builtin (handler : Builtin)
  | plugin (handler : P.Handler)

/-- A task: one of the library or one of a plug-in. -/
inductive Task (P : Plugins)
  | builtin (task : Builtin.Task)
  | plugin (task : P.Task)

/-- Makes a task for a node, or refuses it. -/
def Handler.start (handler : Handler P) (id : NodeId) (node : Node) (shared : P.Shared) :
    Except EvalError (Task P) × P.Shared :=
  match handler with
  | builtin handler => ((handler.start id node).map .builtin, shared)
  | plugin handler =>
    let (made, shared) := P.start handler id node shared
    (made.map .plugin, shared)

/-- Resumes a task. -/
def Task.resume (cx : Context) (input : Input) (task : Task P) (shared : P.Shared) :
    (Step × Task P) × P.Shared :=
  match task with
  | builtin task =>
    let (step, task) := task.resume cx input
    ((step, .builtin task), shared)
  | plugin task =>
    let ((step, task), shared) := P.resume cx input task shared
    ((step, .plugin task), shared)

end ProgramGraph
