import ProgramGraph.Task.Protocol
/-!
# Tasks of the error handlers

Failing, recovering from a failure, and turning failures into data. Only
handler failures get here; a fatal error ends an evaluation without any
task being asked.

A recovery is chosen by the kind of the error: a text is its own kind, an
object has it in its field `kind`, and any other error has none.
-/

namespace ProgramGraph

/-- The kind of an error, by which a recovery is chosen. -/
def errorKind? : Value → Option String
  | .text kind => some kind
  | .object fields => (Keyed.find? fields "kind").bind Value.toText?
  | _ => none

/-- The key of the recovery for errors without one of their own. -/
def defaultBranch : String := "_"

/-- Fails with the value of a child. -/
structure Failing where
  child : NodeId

/-- A failure of the child is passed on. -/
def Failing.resume (task : Failing) (cx : Context) (input : Input) : Step × Failing :=
  match input with
  | .start => (.child task.child, task)
  | .value value | .error value => (.failure value, task)
  | .elapsed => (.outOfOrder cx.node input, task)

/-- How far an evaluation with recoveries has come. -/
inductive RecoveryStage
  /-- The expression is being evaluated. -/
  | body
  /-- A recovery is being evaluated. -/
  | recovering
  /-- The end is being evaluated; afterwards the node ends as given. -/
  | finishing (outcome : Except Value Value)

/-- An expression with its recoveries. -/
structure Recovery where
  expr : NodeId
  /-- The recovery from every error. -/
  catcher : Option Lambda
  /-- The recoveries by kind of error. -/
  branches : Option (Keyed String Lambda)
  /-- What is evaluated at the end in any case. -/
  cleanup : Option NodeId
  phase : RecoveryStage := .body

namespace Recovery

/-- **The recovery from an error:** the one from every error if there is
one, else the branch of its kind, else the default branch. -/
def recoveryFrom? (task : Recovery) (error : Value) : Option Lambda :=
  match task.catcher with
  | some lambda => some lambda
  | none => do
    let branches ← task.branches
    ((errorKind? error).bind fun kind => branches.find? kind) <|> branches.find? defaultBranch

/-- The step that ends a task as given. -/
def ending : Except Value Value → Step
  | .ok value => .done value
  | .error value => .failure value

/-- Ends as given, after the cleanup if there is one. -/
def finish (task : Recovery) (outcome : Except Value Value) : Step × Recovery :=
  match task.cleanup with
  | some cleanup => (.fresh cleanup, { task with phase := .finishing outcome })
  | none => (ending outcome, task)

/-- Goes from the expression to the recovery to the cleanup. A failure of
the cleanup takes precedence over what came before. -/
def resume (task : Recovery) (cx : Context) (input : Input) : Step × Recovery :=
  let reset := { task with phase := .body }
  match task.phase, input with
  | .body, .start => (.child task.expr, reset)
  | .body, .value value => reset.finish (.ok value)
  | .body, .error value =>
    match task.recoveryFrom? value with
    | some lambda =>
      (.under lambda.body [(lambda.param, value)], { task with phase := .recovering })
    | none => reset.finish (.error value)
  | .recovering, .value value => reset.finish (.ok value)
  | .recovering, .error value => reset.finish (.error value)
  | .finishing outcome, .value _ => (ending outcome, reset)
  | .finishing _, .error value => (.failure value, reset)
  | _, _ => (.outOfOrder cx.node input, reset)

end Recovery

/-- Gives the outcome of a child as data. -/
structure Attempt where
  child : NodeId

/-- An object with the value under `ok`, or the error under `err`. -/
def Attempt.resume (task : Attempt) (cx : Context) (input : Input) : Step × Attempt :=
  match input with
  | .start => (.child task.child, task)
  | .value value => (.done (.object [("ok", value), ("err", .null)]), task)
  | .error value => (.done (.object [("ok", .null), ("err", value)]), task)
  | .elapsed => (.outOfOrder cx.node input, task)

/-- Fails with an error unless a condition holds. -/
structure Guarded where
  condition : NodeId
  error : NodeId
  /-- Whether the condition did not hold. -/
  failing : Bool := false

/-- The error is evaluated only if it is needed. -/
def Guarded.resume (task : Guarded) (cx : Context) (input : Input) : Step × Guarded :=
  match task.failing, input with
  | false, .start => (.child task.condition, task)
  | false, .value (.bool true) => (.done .null, task)
  | false, .value (.bool false) => (.child task.error, { task with failing := true })
  | false, .value value =>
    (.complaint ("guard condition must be a boolean, found " ++ value.kindName), task)
  | true, .value value => (.failure value, task)
  | _, .error value => (.failure value, task)
  | _, _ => (.outOfOrder cx.node input, task)

/-- Evaluates all of some expressions, and keeps values and errors apart. -/
structure Partition where
  exprs : Array NodeId
  /-- The position of the next expression. -/
  next : Nat := 0
  fulfilled : Array Value := #[]
  rejected : Array Value := #[]

namespace Partition

/-- Asks for the next expression, or ends when there is none. -/
def proceed (task : Partition) : Step × Partition :=
  match task.exprs[task.next]? with
  | some expr => (.child expr, { task with next := task.next + 1 })
  | none =>
    (.done (.object [("fulfilled", .array task.fulfilled.toList),
      ("rejected", .array task.rejected.toList)]),
      { task with fulfilled := #[], rejected := #[] })

/-- Takes in the outcome of an expression. -/
def resume (task : Partition) (cx : Context) (input : Input) : Step × Partition :=
  match input with
  | .start => task.proceed
  | .value value => { task with fulfilled := task.fulfilled.push value }.proceed
  | .error value => { task with rejected := task.rejected.push value }.proceed
  | .elapsed => (.outOfOrder cx.node input, task)

end Partition

end ProgramGraph
