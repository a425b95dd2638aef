import ProgramGraph.Task.Protocol
/-!
# Tasks of the structural handlers

Constants and other leaves, nodes that combine the values of their
children, records, and the application of a lambda. A failure of a child
ends each of these tasks with the same failure.
-/

namespace ProgramGraph

/-- A leaf: its outcome is known from the start and given once. -/
structure Leaf where
  /-- The outcome, until it has been given. -/
  outcome : Option (Except EvalError Value)

/-- Gives the outcome at the first resumption. -/
def Leaf.resume (task : Leaf) (cx : Context) (input : Input) : Step × Leaf :=
  let step :=
    match input, task.outcome with
    | .start, some result => .ofResult result
    | _, _ => .outOfOrder cx.node input
  (step, ⟨none⟩)

/-- Children from left to right, and a function of their values. -/
structure Collection where
  /-- The children. -/
  children : Array NodeId
  /-- What becomes of their values. -/
  combine : List Value → Except EvalError Value
  /-- The values so far. -/
  values : Array Value := #[]

namespace Collection

/-- The children that a payload gives by position: one, several or none. -/
def children? : Payload → Option (List NodeId)
  | .child node => some [node]
  | .args nodes => some nodes
  | .empty => some []
  | _ => none

/-- A task over the children of a payload. -/
def start (combine : List Value → Except EvalError Value) (id : NodeId) (payload : Payload) :
    Except EvalError Collection :=
  match children? payload with
  | some children => .ok { children := children.toArray, combine }
  | none => .error (.invalidNode id ("expected arguments, found " ++ payload.inspect))

/-- Asks for the next child, or ends when there is none. -/
def proceed (task : Collection) : Step × Collection :=
  match task.children[task.values.size]? with
  | some child => (.child child, task)
  | none => (.ofResult (task.combine task.values.toList), { task with values := #[] })

/-- Takes in the value of a child. -/
def resume (task : Collection) (cx : Context) (input : Input) : Step × Collection :=
  match input with
  | .start => task.proceed
  | .value value => { task with values := task.values.push value }.proceed
  | .error value => (.failure value, task)
  | .elapsed => (.outOfOrder cx.node input, task)

end Collection

/-- The children of a record, and the object of their values. -/
structure Assembly where
  /-- The children under their keys. -/
  fields : Array (String × NodeId)
  /-- The fields so far. -/
  object : Keyed String Value := []

namespace Assembly

/-- Asks for the next child, or ends when there is none. -/
def proceed (task : Assembly) : Step × Assembly :=
  match task.fields[task.object.length]? with
  | some (_, child) => (.child child, task)
  | none => (.done (.object task.object), { task with object := [] })

/-- Takes in the value of a child. -/
def resume (task : Assembly) (cx : Context) (input : Input) : Step × Assembly :=
  match input with
  | .start => task.proceed
  | .value value =>
    match task.fields[task.object.length]? with
    | some (key, _) => { task with object := Keyed.insert task.object key value }.proceed
    | none => task.proceed
  | .error value => (.failure value, task)
  | .elapsed => (.outOfOrder cx.node input, task)

end Assembly

/-- An argument and the lambda it is given to. -/
structure Application where
  arg : NodeId
  lambda : Lambda
  /-- Whether the argument has been evaluated. -/
  bound : Bool := false

/-- Evaluates the argument, and then the body under its binding. -/
def Application.resume (task : Application) (cx : Context) (input : Input) : Step × Application :=
  match input, task.bound with
  | .start, false => (.child task.arg, task)
  | .value value, false =>
    (.under task.lambda.body [(task.lambda.param, value)], { task with bound := true })
  | .value value, true => (.done value, task)
  | .error value, _ => (.failure value, task)
  | _, _ => (.outOfOrder cx.node input, task)

end ProgramGraph
