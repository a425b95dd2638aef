import ProgramGraph.EvalError
import ProgramGraph.Scope
import ProgramGraph.Tally
/-!
# The protocol between tasks and the engine

A task is one invocation of a handler on a node. The engine resumes it
with an input, and the task answers with a step: it asks for something and
waits for the next input, or it ends with a value or an error. A task never
calls the engine, so the depth of a graph is a matter of frames on a list.

What a task may wait for besides its children is described by an `Await`:
time to pass, or jobs to settle. A job is an evaluation on its own, with a
memo of its own and a copy of the bindings that are visible where it is
made. Evaluating takes no time; waiting takes as long as it says, in
milliseconds, up to a bound that the engine sets.
-/

namespace ProgramGraph

/-- What a task is resumed with. -/
inductive Input
  /-- The first resumption. -/
  | start
  /-- The value of what was asked for. -/
  | value (value : Value)
  /-- The error value with which it failed. -/
  | error (value : Value)
  /-- The time that was waited for has passed. -/
  | elapsed

/-- How an evaluation ended. -/
structure Conclusion where
  /-- The value or the error. -/
  result : Except EvalError Value
  /-- Whether it depended on a binding or a volatile handler. -/
  tainted : Bool
  /-- The counters of the evaluation, if they have to be added. -/
  tally : Tally := .zero

/-- What comes of a wait. -/
inductive Wake
  | settled (conclusion : Conclusion)
  | elapsed

/-- An evaluation on its own: a node under a scope. -/
structure Job where
  node : NodeId
  scope : Scope

/-- Something to wait for. -/
inductive Await
  /-- Some time, and the answer after it. -/
  | timer (ms : Nat) (answer : Wake)
  /-- A job. -/
  | job (job : Job)
  /-- All of some jobs. The answer is the list of their values or the
  first error in order. -/
  | all (jobs : List Job)
  /-- The job that settles first. -/
  | first (job : Job) (others : List Job)
  /-- A job, for less than some time. -/
  | deadline (ms : Nat) (job : Job)

/-- What a task asks the engine for. -/
inductive Request
  /-- The value of a child. -/
  | child (node : NodeId)
  /-- The value of a child under one more frame of bindings. -/
  | under (node : NodeId) (bindings : Bindings)
  /-- The value of a child that is evaluated against an empty memo. -/
  | fresh (node : NodeId)
  /-- A wait. -/
  | await (await : Await)

/-- What a task does when it is resumed. -/
inductive Step
  /-- It asks for something. -/
  | request (request : Request)
  /-- It ends with a value. -/
  | done (value : Value)
  /-- It ends with an error. -/
  | fail (error : EvalError)

/-- What a task sees of the evaluation around it. -/
structure Context where
  /-- The node that the task evaluates. -/
  node : NodeId
  /-- The scope. -/
  scope : Scope

/-- **A job made in a context** sees the bindings that are visible there,
and some more inside them. -/
def Context.job (cx : Context) (node : NodeId) (bindings : Bindings) : Job :=
  let scope := Scope.ofBindings cx.scope.flatten
  ⟨node, if bindings.isEmpty then scope else scope.push bindings⟩

namespace Step

/-- Asks for the value of a child. -/
def child (node : NodeId) : Step := request (.child node)

/-- Asks for the value of a child under more bindings. -/
def under (node : NodeId) (bindings : Bindings) : Step := request (.under node bindings)

/-- Asks for the value of a child that is evaluated anew. -/
def fresh (node : NodeId) : Step := request (.fresh node)

/-- Waits. -/
def wait (await : Await) : Step := request (.await await)

/-- Ends with a handler failure. -/
def failure (value : Value) : Step := fail (.failed value)

/-- Ends with a handler failure that says what is wrong. -/
def complaint (text : String) : Step := failure (.text text)

/-- Ends as a value or an error does. -/
def ofResult : Except EvalError Value → Step
  | .ok value => done value
  | .error error => fail error

end Step

/-! ## Structural text -/

open Text

/-- The structural text of an input. -/
def Input.inspect : Input → String
  | start => "Start"
  | value v => applied "Value" [v.compact]
  | error v => applied "Error" [v.compact]
  | elapsed => "Elapsed"

/-- The structural text of some bindings. -/
def Bindings.inspect (bindings : Bindings) : String :=
  bracketed (bindings.map fun (p, v) => applied "" [p.inspect, v.compact])

/-- The structural text of a request. A wait is not looked into. -/
def Request.inspect : Request → String
  | child node => applied "Child" [node.inspect]
  | under node bindings =>
    fielded "Scoped" [("node", node.inspect), ("bindings", bindings.inspect)]
  | fresh node => applied "Fresh" [node.inspect]
  | await _ => "Await(..)"

/-- The structural text of a step. -/
def Step.inspect : Step → String
  | request r => applied "Request" [r.inspect]
  | done v => applied "Done" [v.compact]
  | fail e => applied "Fail" [e.inspect]

/-- Ends a task that was resumed with an input it never asked for. -/
def Step.outOfOrder (node : NodeId) (input : Input) : Step :=
  fail (.internal (toString node ++ " resumed with unexpected input " ++ input.inspect))

end ProgramGraph
