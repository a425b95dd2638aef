import ProgramGraph.EvalError
import ProgramGraph.Json.Record
/-!
# The written form of errors

An error can be spelled as an object with one key, which names the kind of
the error.
-/

namespace ProgramGraph.EvalError

/-- A handle and a reason. -/
def invalid? : Spelling → Option EvalError
  | .array [node, reason] => return .invalidNode (← NodeId.ofSpelling? node) (← reason.text?)
  | _ => none

/-- The error of the kind that a key names. -/
def ofKind? (kind : String) (spelling : Spelling) : Option EvalError :=
  match kind with
  | "failed" => (Value.ofSpelling? spelling).map .failed
  | "missing" => spelling.text?.map .missingHandler
  | "unbound" => (ParamId.ofSpelling? spelling).map .unboundParameter
  | "invalid" => invalid? spelling
  | "steps" => spelling.nat64?.map .stepLimitExceeded
  | "internal" => spelling.text?.map .internal
  | _ => none

/-- The error of a spelling. -/
def ofSpelling? : Spelling → Option EvalError
  | .object [(kind, spelling)] => ofKind? kind spelling
  | _ => none

end ProgramGraph.EvalError
