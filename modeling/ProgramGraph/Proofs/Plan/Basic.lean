import ProgramGraph.Handler
/-!
# Plans

A task answers one input at a time and keeps what it has learnt in fields of
its own. A plan says the same thing at a stretch: what is asked for, and for
each reply what follows. Plans are finite trees, so a plan comes to its end
whatever the replies are, although no bound on their number can be told from
the plan alone: how often a map asks hangs on the collection.

`Builtin.Task.plan` gives the plan of every task of the library as it is when
it starts. That tasks do what their plans say is shown in `Plan.Follow`.
-/

namespace ProgramGraph

/-- What a request comes back with: a value, or the value of a failure. -/
abbrev Reply := Except Value Value

namespace Reply

/-- The input that a task is resumed with. -/
def toInput : Reply → Input
  | .ok value => .value value
  | .error value => .error value

@[simp] theorem toInput_ok (value : Value) : toInput (.ok value) = .value value := rfl

@[simp] theorem toInput_error (value : Value) : toInput (.error value) = .error value := rfl

/-- The reply to a request that came to a result. A fatal error is none. -/
def ofResult : Except EvalError Value → Except EvalError Reply
  | .ok value => .ok (.ok value)
  | .error error => error.errorValue.map .error

end Reply

/-- In which way a node is asked for. -/
inductive Manner
  /-- As it is. -/
  | plain
  /-- Under one more frame of bindings. -/
  | under (bindings : Bindings)
  /-- Against an empty memo. -/
  | fresh

namespace Manner

/-- The step that asks for a node in this way. -/
def step (id : NodeId) : Manner → Step
  | plain => .child id
  | under bindings => .under id bindings
  | fresh => .fresh id

/-- The scope in which the node is evaluated. -/
def scope (s : Scope) : Manner → Scope
  | plain | fresh => s
  | under bindings => s.push bindings

/-- Whether the memo is an empty one. -/
def isFresh : Manner → Bool
  | fresh => true
  | _ => false

end Manner

/-- **What a task is going to do.** -/
inductive Plan
  /-- It ends. -/
  | finish (result : Except EvalError Value)
  /-- It asks for a node, and goes on with the reply. -/
  | visit (id : NodeId) (manner : Manner) (next : Reply → Plan)
  /-- It waits for some time. -/
  | pause (ms : Nat) (next : Plan)
  /-- It waits for all of some jobs, each a node with its bindings. -/
  | all (jobs : List (NodeId × Bindings)) (next : Reply → Plan)
  /-- It waits for the first of some nodes. -/
  | first (id : NodeId) (others : List NodeId) (next : Reply → Plan)
  /-- It waits for a node, for less than some time. -/
  | deadline (ms : Nat) (id : NodeId) (next : Reply → Plan) (late : Plan)

namespace Plan

/-- Ends with a handler failure. -/
def failure (value : Value) : Plan := finish (.error (.failed value))

/-- Ends as the reply does. -/
def ofReply : Reply → Plan
  | .ok value => finish (.ok value)
  | .error value => failure value

/-- Goes on with a value; a failure is passed on. -/
def onValue (next : Value → Plan) : Reply → Plan
  | .ok value => next value
  | .error value => failure value

/-! ## Structural handlers -/

/-- The children one by one, and a function of their values. -/
def collect (combine : List Value → Except EvalError Value) : List NodeId → List Value → Plan
  | [], values => finish (combine values)
  | child :: rest, values =>
    visit child .plain (onValue fun value => collect combine rest (values ++ [value]))

/-- The fields one by one, and the object of their values. -/
def assemble : List (String × NodeId) → Keyed String Value → Plan
  | [], object => finish (.ok (.object object))
  | (key, child) :: rest, object =>
    visit child .plain (onValue fun value => assemble rest (object ++ [(key, value)]))

/-- The argument, and the body under its binding. -/
def application (arg : NodeId) (lambda : Lambda) : Plan :=
  visit arg .plain (onValue fun value =>
    visit lambda.body (.under [(lambda.param, value)]) ofReply)

/-! ## Concurrency handlers -/

/-- The body once for each item, one after the other. -/
def mapEach (lambda : Lambda) : List Value → List Value → Plan
  | [], results => finish (.ok (.array results))
  | item :: rest, results =>
    visit lambda.body (.under [(lambda.param, item)])
      (onValue fun value => mapEach lambda rest (results ++ [value]))

/-- The jobs of some items. -/
def jobsOf (lambda : Lambda) (items : List Value) : List (NodeId × Bindings) :=
  items.map fun item => (lambda.body, [(lambda.param, item)])

/-- The body once for each item, a batch at a time. -/
def mapBatches (lambda : Lambda) (batch : Nat) : List Value → List Value → Plan
  | [], results => finish (.ok (.array results))
  | item :: rest, results =>
    all (jobsOf lambda ((item :: rest).take batch)) (onValue fun
      | .array values => mapBatches lambda batch (rest.drop (batch - 1)) (results ++ values)
      | value => failure value)
termination_by items => items.length

/-- The collection, and the body for its items. -/
def parMap (concurrent : Bool) (collection : NodeId) (batch : Nat) (lambda : Lambda) : Plan :=
  visit collection .plain (onValue fun
    | .array items =>
      if concurrent then mapBatches lambda batch items [] else mapEach lambda items []
    | value => failure (.text ("par_map expects an array, found " ++ value.kindName)))

/-- The expression, tried again at most `more` times. -/
def retry (expr : NodeId) (delayMs : Nat) : (more : Nat) → Plan
  | 0 => visit expr .fresh ofReply
  | more + 1 => visit expr .fresh fun
    | .ok value => finish (.ok value)
    | .error _ =>
      if delayMs = 0 then retry expr delayMs more else pause delayMs (retry expr delayMs more)

/-! ## Error handlers -/

/-- The child, whose outcome is the error. -/
def fail (child : NodeId) : Plan :=
  visit child .plain fun
    | .ok value => failure value
    | .error value => failure value

/-- The cleanup if there is one, and then the outcome unless it failed. -/
def cleanUp (cleanup : Option NodeId) (outcome : Reply) : Plan :=
  match cleanup with
  | some cleanup => visit cleanup .fresh (onValue fun _ => ofReply outcome)
  | none => ofReply outcome

/-- The expression, the recovery from its error, and the cleanup. -/
def tryCatch (task : Recovery) : Plan :=
  visit task.expr .plain fun
    | .ok value => cleanUp task.cleanup (.ok value)
    | .error value =>
      match task.recoveryFrom? value with
      | some lambda =>
        visit lambda.body (.under [(lambda.param, value)]) (cleanUp task.cleanup)
      | none => cleanUp task.cleanup (.error value)

/-- The child, whose outcome becomes data. -/
def attempt (child : NodeId) : Plan :=
  visit child .plain fun
    | .ok value => finish (.ok (.object [("ok", value), ("err", .null)]))
    | .error value => finish (.ok (.object [("ok", .null), ("err", value)]))

/-- The condition, and the error if it does not hold. -/
def guard (condition error : NodeId) : Plan :=
  visit condition .plain (onValue fun
    | .bool true => finish (.ok .null)
    | .bool false => fail error
    | value =>
      failure (.text ("guard condition must be a boolean, found " ++ value.kindName)))

/-- The expressions one by one, values and errors apart. -/
def settle : List NodeId → List Value → List Value → Plan
  | [], fulfilled, rejected =>
    finish (.ok (.object [("fulfilled", .array fulfilled), ("rejected", .array rejected)]))
  | expr :: rest, fulfilled, rejected => visit expr .plain fun
    | .ok value => settle rest (fulfilled ++ [value]) rejected
    | .error value => settle rest fulfilled (rejected ++ [value])

/-! ## What a plan asks for -/

/-- All nodes that the plan may ask for satisfy `p`, and it asks which of two
things comes first only if `timed` holds. -/
def Within (p : NodeId → Prop) (timed : Prop) : Plan → Prop
  | finish _ => True
  | visit id _ next => p id ∧ ∀ reply, (next reply).Within p timed
  | pause _ next => next.Within p timed
  | all jobs next => (∀ job ∈ jobs, p job.1) ∧ ∀ reply, (next reply).Within p timed
  | first id others next =>
    timed ∧ p id ∧ (∀ other ∈ others, p other) ∧ ∀ reply, (next reply).Within p timed
  | deadline _ id next late =>
    timed ∧ p id ∧ (∀ reply, (next reply).Within p timed) ∧ late.Within p timed

end Plan

/-- **The plan of a task that has just been made.** -/
def Builtin.Task.plan : Builtin.Task → Plan
  | leaf task => .finish (task.outcome.getD (.ok .null))
  | collect task => .collect task.combine task.children.toList []
  | record task => .assemble task.fields.toList []
  | apply task => .application task.arg task.lambda
  | parMap task => .parMap task.concurrent task.collection task.batch task.lambda
  | race task => .first task.branch task.others .ofReply
  | timeout task => .deadline task.ms task.expr .ofReply (.visit task.fallback .plain .ofReply)
  | retry task => .retry task.expr task.delayMs (task.attempts - 1)
  | fail task => .fail task.child
  | tryCatch task => .tryCatch task
  | attempt task => .attempt task.child
  | guard task => .guard task.condition task.error
  | settle task => .settle task.exprs.toList [] []

namespace Builtin

/-- The tasks that a handler makes for a node whose payload fits. -/
inductive Makes (id : NodeId) (node : Node) : Builtin → Builtin.Task → Prop
  | leaf (outcome) : Makes id node (.leaf outcome) (.leaf ⟨some (outcome id node)⟩)
  | args (combine) {children} (h : Collection.children? node.payload = some children) :
    Makes id node (.args combine) (.collect { children := children.toArray, combine })
  | record {fields distinct} (h : node.payload = .fields fields distinct) :
    Makes id node .record (.record { fields := fields.toArray })
  | apply {arg lambda} (h : node.payload = .apply arg lambda) :
    Makes id node .apply (.apply { arg, lambda })
  | parMap (concurrent) {collection concurrency lambda}
      (h : node.payload = .parMap collection concurrency lambda) :
    Makes id node (.parMap concurrent)
      (.parMap { collection, lambda, batch := max concurrency 1, concurrent })
  | race {branch others} (h : node.payload = .args (branch :: others)) :
    Makes id node .race (.race ⟨branch, others⟩)
  | timeout {expr ms fallback} (h : node.payload = .timeout expr ms fallback) :
    Makes id node .timeout (.timeout ⟨expr, ms, fallback⟩)
  | retry {expr attempts delayMs} (h : node.payload = .retry expr attempts delayMs) :
    Makes id node .retry (.retry { expr, attempts := max attempts 1, delayMs })
  | fail {child} (h : node.payload = .child child) : Makes id node .fail (.fail ⟨child⟩)
  | tryCatch {expr catcher branches cleanup}
      (h : node.payload = .tryCatch expr catcher branches cleanup) :
    Makes id node .tryCatch (.tryCatch { expr, catcher, branches, cleanup })
  | attempt {child} (h : node.payload = .child child) :
    Makes id node .attempt (.attempt ⟨child⟩)
  | guard {condition error} (h : node.payload = .guard condition error) :
    Makes id node .guard (.guard { condition, error })
  | settle {exprs} (h : node.payload = .args exprs) :
    Makes id node .settle (.settle { exprs := exprs.toArray })

/-- A refusal is a fatal error. -/
theorem invalid_of_start {handler : Builtin} {id : NodeId} {node : Node} {error : EvalError}
    (h : handler.start id node = .error error) : ∃ reason, error = .invalidNode id reason := by
  cases handler <;> simp only [start, Collection.start, onlyChild] at h
  case leaf => cases h
  all_goals
    split at h
    next => cases h
    next =>
      cases h
      exact ⟨_, rfl⟩

/-- A handler that does not refuse a node makes one of these tasks. -/
theorem makes_of_start {h : Builtin} {id : NodeId} {node : Node} {task : Builtin.Task}
    (hstart : h.start id node = .ok task) : Makes id node h task := by
  cases h <;> simp only [start, Collection.start, onlyChild] at hstart
  case leaf outcome =>
    cases hstart
    exact .leaf outcome
  all_goals
    split at hstart
    next =>
      cases hstart
      constructor
      assumption
    next => cases hstart

/-- Whether how a task of the handler ends may hang on time. -/
def isTimed : Builtin → Bool
  | race | timeout => true
  | _ => false

end Builtin

namespace Handler

variable {P : Plugins} {h : Handler P} {handler : Builtin} {id : NodeId} {node : Node}
  {shared shared' : P.Shared}

/-- A handler of the library makes a task of the library. -/
theorem exists_task_of_start (hbuiltin : h = .builtin handler) {task : Task P}
    (hstart : h.start id node shared = (.ok task, shared')) :
    ∃ own, task = .builtin own ∧ handler.start id node = .ok own := by
  rw [hbuiltin, start] at hstart
  cases hmade : handler.start id node with
  | error error =>
    rw [hmade] at hstart
    cases hstart
  | ok own =>
    rw [hmade] at hstart
    cases hstart
    exact ⟨own, rfl, rfl⟩

/-- A handler of the library refuses a node whatever the data of the plug-ins are. -/
theorem refuses_of_start (hbuiltin : h = .builtin handler) {error : EvalError}
    (hstart : h.start id node shared = (.error error, shared')) :
    handler.start id node = .error error := by
  rw [hbuiltin, start] at hstart
  cases hmade : handler.start id node with
  | error error =>
    rw [hmade] at hstart
    cases hstart
    rfl
  | ok own =>
    rw [hmade] at hstart
    cases hstart

end Handler

end ProgramGraph
