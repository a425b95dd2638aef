import ProgramGraph.Handler
import ProgramGraph.Node.Format
import ProgramGraph.Probe.Script
/-!
# Probes

Handlers that make an evaluation visible from outside: they count how often
they are started, fail as often as they are told to, take time, or follow a
script. Some keep a count from one start to the next. Those that need
neither time nor a count are handlers of the library with a function of
their own.
-/

namespace ProgramGraph

namespace Builtin

/-- A value. -/
def constant (value : Value) : Builtin := .leaf fun _ _ => .ok value

/-- A failure. -/
def failing (value : Value) : Builtin := .leaf fun _ _ => .error (.failed value)

/-- The node and its handle as data. -/
def echo : Builtin := .leaf fun id node =>
  .ok (.object [("id", id.toValue), ("node", node.toValue)])

/-- The sum of some integers of 64 bits, which wraps around. -/
def wrappingSum (numbers : List Int) : Int :=
  (numbers.foldl (· + ·) 0).bmod Word.count64

/-- The sum of the values of the children. What is not an integer of the
signed range counts as zero. -/
def sum : Builtin := .args fun values =>
  .ok (.int (wrappingSum (values.map fun value => value.toSigned?.getD 0)))

/-- A failure with the list of the values of the children. -/
def failingList : Builtin := .args fun values => .error (.failed (.array values))

end Builtin

/-- A handler that probes an evaluation. Counts are kept in slots. -/
inductive Probe
  /-- The number of starts so far. -/
  | counter (slot : Nat)
  /-- Fails at its first starts and succeeds afterwards. -/
  | flaky (slot failures : Nat)
  /-- Refuses every node with an error. -/
  | refusing (error : EvalError)
  /-- Takes some time over the value of a child. Without a fixed time it is
  the value itself. -/
  | delay (ms : Option Nat)
  /-- Follows the script in the payload. -/
  | script

/-- A child, and time. -/
structure Pause where
  /-- The child, if there is one. -/
  child : Option NodeId
  /-- The time, if it is fixed. -/
  ms : Option Nat
  /-- Whether the wait has begun. -/
  held : Bool := false

namespace Pause

/-- Waits, and is then given the value. -/
def pause (task : Pause) (value : Value) : Step × Pause :=
  let ms := task.ms.getD (value.toUnsigned?.getD 0)
  let conclusion : Conclusion := { result := .ok value, tainted := false }
  (.wait (.timer ms (.settled conclusion)), { task with held := true })

/-- Asks for the child, waits, and ends with its value. -/
def resume (task : Pause) (input : Input) : Step × Pause :=
  match input with
  | .start =>
    match task.child with
    | some child => (.child child, task)
    | none => task.pause (.text "slow")
  | .value value => if task.held then (.done value, task) else task.pause value
  | .error value => (.failure value, task)
  | .elapsed => (.complaint "unexpected timer", task)

end Pause

namespace Probe

/-- The tasks of probes. -/
inductive Task
  | leaf (task : Leaf)
  | delay (task : Pause)
  | script (task : Playback)

/-- How often the probes with a slot have been started. -/
abbrev Counts := Keyed Nat Nat

/-- A leaf that depends on how often it has been started, this time
included. -/
def counted (slot : Nat) (outcome : Nat → Except EvalError Value) (counts : Counts) :
    Except EvalError Task × Counts :=
  let starts := (counts.find? slot).getD 0 + 1
  (.ok (.leaf ⟨some (outcome starts)⟩), counts.insert slot starts)

/-- Makes a task for a node, or refuses it. -/
def start (probe : Probe) (id : NodeId) (node : Node) (counts : Counts) :
    Except EvalError Task × Counts :=
  match probe with
  | counter slot => counted slot (fun starts => .ok (.nat starts)) counts
  | flaky slot failures =>
    let outcome (starts : Nat) : Except EvalError Value :=
      if starts ≤ failures then
        .error (.failed (.text ("attempt " ++ toString starts ++ " failed")))
      else .ok (.text "success")
    counted slot outcome counts
  | refusing error => (.error error, counts)
  | delay ms =>
    let child := match node.payload with
      | .child child => some child
      | _ => none
    (.ok (.delay { child, ms }), counts)
  | script => ((Playback.start id node.payload).map .script, counts)

/-- Resumes a task. -/
def Task.resume (cx : Context) (input : Input) : Task → Step × Task
  | leaf task =>
    let (step, task) := task.resume cx input
    (step, leaf task)
  | delay task =>
    let (step, task) := task.resume input
    (step, delay task)
  | script task =>
    let (step, task) := task.resume cx input
    (step, script task)

end Probe

/-- The probes as handlers from outside. -/
def Plugins.probes : Plugins where
  Handler := Probe
  Task := Probe.Task
  Shared := Probe.Counts
  start := Probe.start
  resume cx input task counts := (task.resume cx input, counts)

end ProgramGraph
