import ProgramGraph.Node.Inspect
import ProgramGraph.Value.Equality
/-!
# Errors of an evaluation

A handler failure carries a value, and the handlers of the enclosing nodes
may intercept it. Every other error is fatal: it ends the evaluation as it
is.
-/

namespace ProgramGraph

/-- Why an evaluation has no value. -/
inductive EvalError
  /-- A node was reached whose tag has no handler. -/
  | missingHandler (tag : String)
  /-- A handler failed with a value. -/
  | failed (value : Value)
  /-- A parameter was read outside of any binding. -/
  | unboundParameter (param : ParamId)
  /-- A node is not in the graph, or its payload does not fit its handler. -/
  | invalidNode (node : NodeId) (reason : String)
  /-- The evaluation took more resumptions than it may. -/
  | stepLimitExceeded (limit : Nat)
  /-- A task or the engine was used out of order. -/
  | internal (message : String)

namespace EvalError

open Text

/-- The message of an error. -/
def message : EvalError → String
  | missingHandler tag => "no handler registered for tag `" ++ tag ++ "`"
  | failed value => "handler failed: " ++ value.compact
  | unboundParameter param => "parameter " ++ toString param ++ " is not bound"
  | invalidNode node reason => "invalid node " ++ toString node ++ ": " ++ reason
  | stepLimitExceeded limit => "step limit of " ++ toString limit ++ " exceeded"
  | internal message => "internal error: " ++ message

/-- The structural text of an error. -/
def inspect : EvalError → String
  | missingHandler tag => fielded "MissingHandler" [("tag", quoted tag)]
  | failed value => applied "Failed" [value.compact]
  | unboundParameter param => fielded "UnboundParameter" [("param", param.inspect)]
  | invalidNode node reason =>
    fielded "InvalidNode" [("node", node.inspect), ("reason", quoted reason)]
  | stepLimitExceeded limit => fielded "StepLimitExceeded" [("limit", toString limit)]
  | internal message => fielded "Internal" [("message", quoted message)]

/-- Whether enclosing handlers may intercept the error. -/
def isInterceptable : EvalError → Bool
  | failed _ => true
  | _ => false

/-- The value of a handler failure; a fatal error is handed back. -/
def errorValue : EvalError → Except EvalError Value
  | failed value => .ok value
  | fatal => .error fatal

/-- Equality of errors. -/
def eqv : EvalError → EvalError → Bool
  | missingHandler a, missingHandler b => a == b
  | failed a, failed b => a == b
  | unboundParameter a, unboundParameter b => a == b
  | invalidNode a reason, invalidNode b other => a == b && reason == other
  | stepLimitExceeded a, stepLimitExceeded b => a == b
  | internal a, internal b => a == b
  | _, _ => false

instance : BEq EvalError := ⟨eqv⟩

end EvalError

end ProgramGraph
