import ProgramGraph.EvalError.Format
import ProgramGraph.Task.Protocol
/-!
# Scripts

A script is a task that is written out: a list of moves, one for each
resumption. It keeps a log of the inputs that it was resumed with, which is
its value when it has no move left. So a script shows what the engine
answers to any sequence of requests.
-/

namespace ProgramGraph

/-- What a script does when it is resumed. -/
inductive Move
  /-- Asks for the value of a child. -/
  | child (node : NodeId)
  /-- Asks for the value of a child under more bindings. -/
  | under (node : NodeId) (bindings : Bindings)
  /-- Asks for the value of a child that is evaluated anew. -/
  | fresh (node : NodeId)
  /-- Waits for some time. -/
  | sleep (ms : Nat)
  /-- Waits for a job. -/
  | detach (node : NodeId) (bindings : Bindings)
  /-- Waits for an outcome that is there at once. -/
  | settle (result : Except EvalError Value) (tainted : Bool)
  /-- Ends with a value. -/
  | done (value : Value)
  /-- Ends with an error. -/
  | fail (error : EvalError)
  /-- Ends with the handle of the node. -/
  | handle
  /-- Ends as a task that does not know its input. -/
  | outOfOrder
  /-- Ends because the move is none of these. -/
  | unknown

/-- The bindings of a spelling, which is a list of pairs. -/
def Bindings.ofSpelling? : Spelling → Option Bindings :=
  Spelling.list? fun
    | .array [p, value] => return (← ParamId.ofSpelling? p, ← Value.ofSpelling? value)
    | _ => none

namespace Move

/-- A handle and bindings. -/
def target? : Spelling → Option (NodeId × Bindings)
  | .array [node, bindings] =>
    return (← NodeId.ofSpelling? node, ← Bindings.ofSpelling? bindings)
  | _ => none

/-- The outcome of a spelling: a value, an error value, or any
error. -/
def result? : Spelling → Option (Except EvalError Value)
  | .object [("value", value)] => (Value.ofSpelling? value).map .ok
  | .object [("error", value)] => (Value.ofSpelling? value).map fun value => .error (.failed value)
  | spelling => (EvalError.ofSpelling? spelling).map .error

/-- The move of the form that a key names. -/
def ofForm? (form : String) (spelling : Spelling) : Option Move :=
  match form with
  | "child" => (NodeId.ofSpelling? spelling).map .child
  | "scoped" => (target? spelling).map fun (node, bindings) => .under node bindings
  | "fresh" => (NodeId.ofSpelling? spelling).map .fresh
  | "sleep" => spelling.nat64?.map .sleep
  | "spawn" => (target? spelling).map fun (node, bindings) => .detach node bindings
  | "settle" =>
    match spelling with
    | .array [result, .bool tainted] => (result? result).map (.settle · tainted)
    | _ => none
  | "done" => (Value.ofSpelling? spelling).map .done
  | "fail" => (Value.ofSpelling? spelling).map fun value => .fail (.failed value)
  | "fatal" => (EvalError.ofSpelling? spelling).map .fail
  | _ => none

/-- The move of a spelling. -/
def ofSpelling : Spelling → Move
  | .text "node" => handle
  | .text "unexpected" => outOfOrder
  | .object [(form, spelling)] => (ofForm? form spelling).getD unknown
  | _ => unknown

/-- The step that a move comes to. -/
def step (cx : Context) (input : Input) : Move → Step
  | child id => .child id
  | under id bindings => .under id bindings
  | fresh id => .fresh id
  | sleep ms => .wait (.timer ms .elapsed)
  | detach id bindings => .wait (.job (cx.job id bindings))
  | settle result tainted => .wait (.timer 0 (.settled { result, tainted }))
  | done value => .done value
  | fail error => .fail error
  | handle => .done cx.node.toValue
  | outOfOrder => .outOfOrder cx.node input
  | unknown => .complaint "bad script"

end Move

/-- An input as a script logs it. -/
def Input.toValue : Input → Value
  | start => .text "start"
  | value v => .object [("value", v)]
  | error v => .object [("error", v)]
  | elapsed => .text "elapsed"

/-- A script under way. -/
structure Playback where
  /-- The moves to come. -/
  moves : List Move
  /-- The inputs so far. -/
  log : Array Value := #[]

namespace Playback

/-- The script of a payload: the moves that its data lists. -/
def start (id : NodeId) (payload : Payload) : Except EvalError Playback :=
  match payload with
  | .custom (.array moves) => .ok { moves := moves.map fun move => Move.ofSpelling move.toSpelling }
  | .custom _ => .ok { moves := [] }
  | _ => .error (.invalidNode id "expected custom")

/-- Logs the input, and makes the next move. -/
def resume (task : Playback) (cx : Context) (input : Input) : Step × Playback :=
  let log := task.log.push input.toValue
  match task.moves with
  | [] => (.done (.array log.toList), { moves := [], log })
  | move :: rest => (move.step cx input, { moves := rest, log })

end Playback

end ProgramGraph
