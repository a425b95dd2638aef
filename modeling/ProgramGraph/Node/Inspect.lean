import ProgramGraph.Node.Basic
import ProgramGraph.Value.Text
import ProgramGraph.Text.Quoted
/-!
# The structural text of nodes

What a payload looks like from inside, constructor by constructor. The
reasons for which a handler refuses a node quote it.
-/

namespace ProgramGraph

open Text

/-- The structural text of a handle. -/
def NodeId.inspect (id : NodeId) : String := applied "NodeId" [toString id.index]

/-- The structural text of a parameter. -/
def ParamId.inspect (p : ParamId) : String := applied "ParamId" [toString p.raw]

/-- The structural text of a lambda. -/
def Lambda.inspect (lambda : Lambda) : String :=
  fielded "Lambda" [("param", lambda.param.inspect), ("body", lambda.body.inspect)]

/-- The structural text of a payload. -/
def Payload.inspect : Payload → String
  | empty => "Empty"
  | literal value => applied "Literal" [value.compact]
  | param p => applied "Param" [p.inspect]
  | child node => applied "Child" [node.inspect]
  | args nodes => applied "Args" [bracketed (nodes.map NodeId.inspect)]
  | fields nodes _ => applied "Fields" [braced (nodes.map fun (key, node) => (key, node.inspect))]
  | apply arg lambda => fielded "Apply" [("arg", arg.inspect), ("lambda", lambda.inspect)]
  | parMap collection concurrency lambda =>
    fielded "ParMap" [("collection", collection.inspect), ("concurrency", toString concurrency),
      ("lambda", lambda.inspect)]
  | timeout expr ms fallback =>
    fielded "Timeout" [("expr", expr.inspect), ("ms", toString ms), ("fallback", fallback.inspect)]
  | retry expr attempts delayMs =>
    fielded "Retry" [("expr", expr.inspect), ("attempts", toString attempts),
      ("delay_ms", toString delayMs)]
  | tryCatch expr catcher branches cleanup =>
    let inspectBranches (branches : Keyed String Lambda) : String :=
      braced (branches.map fun (key, lambda) => (key, lambda.inspect))
    fielded "Try" [("expr", expr.inspect), ("catch", optional Lambda.inspect catcher),
      ("matches", optional inspectBranches branches), ("finally", optional NodeId.inspect cleanup)]
  | guard condition error =>
    fielded "Guard" [("condition", condition.inspect), ("error", error.inspect)]
  | custom value => applied "Custom" [value.compact]

end ProgramGraph
