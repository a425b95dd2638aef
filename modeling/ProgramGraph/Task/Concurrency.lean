import ProgramGraph.Task.Protocol
/-!
# Tasks of the concurrency handlers

A parallel map gives each element of a collection to a lambda, in batches:
a batch is a wait for one job per element, and the next batch starts when
all jobs of the one before have succeeded. The sequential variant asks for
the elements one by one instead. A race waits for the first of its
branches, and a timeout for its expression as long as the deadline allows.
A retry asks for its expression afresh until it succeeds or the attempts
are used up.
-/

namespace ProgramGraph

/-- A lambda over a collection. -/
structure ParallelMap where
  collection : NodeId
  lambda : Lambda
  /-- How many elements make a batch. -/
  batch : Nat
  /-- Whether the elements of a batch are jobs. -/
  concurrent : Bool
  /-- The elements, once the collection has been evaluated. -/
  items : Option (Array Value) := none
  /-- The results so far. -/
  results : Array Value := #[]

namespace ParallelMap

/-- Asks for the collection, starts the next elements, or ends. -/
def proceed (task : ParallelMap) (cx : Context) (input : Input) : Step × ParallelMap :=
  match task.items with
  | none => (.child task.collection, task)
  | some items =>
    let finished := task.results.size
    if finished = items.size then
      (.done (.array task.results.toList), { task with results := #[] })
    else if task.concurrent then
      let next := items.extract finished (min (finished + task.batch) items.size)
      let jobs := next.toList.map fun item =>
        cx.job task.lambda.body [(task.lambda.param, item)]
      (.wait (.all jobs), task)
    else
      match items[finished]? with
      | some item => (.under task.lambda.body [(task.lambda.param, item)], task)
      | none => (.outOfOrder cx.node input, task)

/-- Takes in the collection, or results. -/
def resume (task : ParallelMap) (cx : Context) (input : Input) : Step × ParallelMap :=
  match input with
  | .start => task.proceed cx input
  | .value value =>
    match task.items with
    | none =>
      match value with
      | .array items => { task with items := some items.toArray }.proceed cx input
      | _ => (.complaint ("par_map expects an array, found " ++ value.kindName), task)
    | some _ =>
      if task.concurrent then
        match value with
        | .array values => { task with results := task.results ++ values }.proceed cx input
        | _ => (.outOfOrder cx.node input, task)
      else { task with results := task.results.push value }.proceed cx input
  | .error value => (.failure value, task)
  | .elapsed => (.outOfOrder cx.node input, task)

end ParallelMap

/-- Branches of which the first to settle wins. -/
structure Race where
  branch : NodeId
  others : List NodeId

/-- Starts all branches, and ends as the first of them does. -/
def Race.resume (task : Race) (cx : Context) (input : Input) : Step × Race :=
  match input with
  | .start => (.wait (.first (cx.job task.branch []) (task.others.map (cx.job · []))), task)
  | .value value => (.done value, task)
  | .error value => (.failure value, task)
  | .elapsed => (.outOfOrder cx.node input, task)

/-- An expression with a deadline. -/
structure Timeout where
  expr : NodeId
  ms : Nat
  fallback : NodeId

/-- Starts the expression, and asks for the fallback after the deadline. -/
def Timeout.resume (task : Timeout) (cx : Context) (input : Input) : Step × Timeout :=
  match input with
  | .start => (.wait (.deadline task.ms (cx.job task.expr [])), task)
  | .elapsed => (.child task.fallback, task)
  | .value value => (.done value, task)
  | .error value => (.failure value, task)

/-- An expression that may be tried several times. -/
structure Retry where
  expr : NodeId
  /-- How often it may be tried; at least once. -/
  attempts : Nat
  /-- How long to wait between two attempts. -/
  delayMs : Nat
  /-- The attempts made so far. -/
  attempt : Nat := 0

namespace Retry

/-- Asks for the expression once more. -/
def again (task : Retry) : Step × Retry :=
  (.fresh task.expr, { task with attempt := task.attempt + 1 })

/-- Tries again after a failure, if an attempt is left. -/
def resume (task : Retry) (input : Input) : Step × Retry :=
  match input with
  | .start | .elapsed => task.again
  | .value value => (.done value, task)
  | .error value =>
    if task.attempts ≤ task.attempt then (.failure value, task)
    else if task.delayMs = 0 then task.again
    else (.wait (.timer task.delayMs .elapsed), task)

end Retry

end ProgramGraph
