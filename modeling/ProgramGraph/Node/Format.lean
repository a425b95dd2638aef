import ProgramGraph.Node.Basic
import ProgramGraph.Json.Record
/-!
# The written form of nodes

A payload is written as an object with one key that names its form; the
payload that holds nothing is the bare name. Writing gives every field, in
order; reading also takes the other spellings of records.
-/

namespace ProgramGraph

open Spelling (required nullable nat32? nat64? text? keyed?)

/-- What an optional part is written as. -/
def Value.ofOption {α : Type} (toValue : α → Value) : Option α → Value
  | none => .null
  | some a => toValue a

namespace Lambda

/-- A lambda as a record. -/
def toValue (lambda : Lambda) : Value :=
  .object [("param", lambda.param.toValue), ("body", lambda.body.toValue)]

/-- The lambda of a record. -/
def ofSpelling? (spelling : Spelling) : Option Lambda := do
  let [param, body] ← spelling.record? ["param", "body"] | none
  return ⟨← required ParamId.ofSpelling? param, ← required NodeId.ofSpelling? body⟩

end Lambda

namespace Payload

/-- The list of some handles. -/
def handles (nodes : List NodeId) : Value := .array (nodes.map NodeId.toValue)

/-- A payload as it is written. -/
def toValue : Payload → Value
  | empty => .text "empty"
  | literal value => .object [("literal", value)]
  | param p => .object [("param", p.toValue)]
  | child node => .object [("child", node.toValue)]
  | args nodes => .object [("args", handles nodes)]
  | fields nodes _ =>
    .object [("fields", .object (nodes.map fun (key, node) => (key, node.toValue)))]
  | apply arg lambda =>
    .object [("apply", .object [("arg", arg.toValue), ("lambda", lambda.toValue)])]
  | parMap collection concurrency lambda =>
    .object [("par_map", .object [("collection", collection.toValue),
      ("concurrency", .nat concurrency), ("lambda", lambda.toValue)])]
  | timeout expr ms fallback =>
    .object [("timeout", .object [("expr", expr.toValue), ("ms", .nat ms),
      ("fallback", fallback.toValue)])]
  | retry expr attempts delayMs =>
    .object [("retry", .object [("expr", expr.toValue), ("attempts", .nat attempts),
      ("delay_ms", .nat delayMs)])]
  | tryCatch expr catcher branches cleanup =>
    let ofBranches (branches : Keyed String Lambda) : Value :=
      .object (branches.map fun (key, lambda) => (key, lambda.toValue))
    .object [("try", .object [("expr", expr.toValue), ("catch", .ofOption Lambda.toValue catcher),
      ("matches", .ofOption ofBranches branches), ("finally", .ofOption NodeId.toValue cleanup)])]
  | guard condition error =>
    .object [("guard", .object [("condition", condition.toValue), ("error", error.toValue)])]
  | custom value => .object [("custom", value)]

/-- The payload of the form that a key names. -/
def ofForm? (form : String) (spelling : Spelling) : Option Payload :=
  match form with
  | "empty" =>
    match spelling with
    | .null => some .empty
    | _ => none
  | "literal" => (Value.ofSpelling? spelling).map .literal
  | "param" => (ParamId.ofSpelling? spelling).map .param
  | "child" => (NodeId.ofSpelling? spelling).map .child
  | "args" => (spelling.list? NodeId.ofSpelling?).map .args
  | "fields" => (spelling.keyed? NodeId.ofSpelling?).map .ofFields
  | "apply" => do
    let [arg, lambda] ← spelling.record? ["arg", "lambda"] | none
    return .apply (← required NodeId.ofSpelling? arg) (← required Lambda.ofSpelling? lambda)
  | "par_map" => do
    let [collection, concurrency, lambda] ←
      spelling.record? ["collection", "concurrency", "lambda"] | none
    return .parMap (← required NodeId.ofSpelling? collection)
      (← required nat64? concurrency) (← required Lambda.ofSpelling? lambda)
  | "timeout" => do
    let [expr, ms, fallback] ← spelling.record? ["expr", "ms", "fallback"] | none
    return .timeout (← required NodeId.ofSpelling? expr) (← required nat64? ms)
      (← required NodeId.ofSpelling? fallback)
  | "retry" => do
    let [expr, attempts, delayMs] ← spelling.record? ["expr", "attempts", "delay_ms"] | none
    return .retry (← required NodeId.ofSpelling? expr) (← required nat32? attempts)
      (← required nat64? delayMs)
  | "try" => do
    let [expr, catcher, branches, cleanup] ←
      spelling.record? ["expr", "catch", "matches", "finally"] | none
    return .tryCatch (← required NodeId.ofSpelling? expr) (← nullable Lambda.ofSpelling? catcher)
      (← nullable (keyed? Lambda.ofSpelling?) branches)
      (← nullable NodeId.ofSpelling? cleanup)
  | "guard" => do
    let [condition, error] ← spelling.record? ["condition", "error"] | none
    return .guard (← required NodeId.ofSpelling? condition) (← required NodeId.ofSpelling? error)
  | "custom" => (Value.ofSpelling? spelling).map .custom
  | _ => none

/-- The payload of a spelling. -/
def ofSpelling? : Spelling → Option Payload
  | .text "empty" => some .empty
  | .object [(form, spelling)] => ofForm? form spelling
  | _ => none

end Payload

namespace Node

/-- A node as a record. -/
def toValue (node : Node) : Value :=
  .object [("tag", .text node.tag), ("payload", node.payload.toValue)]

/-- The node of a record. -/
def ofSpelling? (spelling : Spelling) : Option Node := do
  let [tag, payload] ← spelling.record? ["tag", "payload"] | none
  return ⟨← required text? tag, ← required Payload.ofSpelling? payload⟩

/-- The node that a text spells. -/
def read (source : String) : Except ReadError Node := Spelling.readText ofSpelling? source

end Node

end ProgramGraph
