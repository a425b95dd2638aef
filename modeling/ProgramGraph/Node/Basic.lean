import ProgramGraph.Ident
/-!
# Nodes

A node is a tag, which selects its handler, and a payload, which holds the
handles of its children and whatever else the handler needs.
-/

namespace ProgramGraph

/-- A lambda: its body is evaluated under a binding of its parameter. -/
structure Lambda where
  param : ParamId
  body : NodeId
  deriving DecidableEq

/-- What a node holds besides its tag. -/
inductive Payload
  /-- Nothing. -/
  | empty
  /-- A constant. -/
  | literal (value : Value)
  /-- A parameter, to be looked up in the scope. -/
  | param (param : ParamId)
  /-- One child. -/
  | child (node : NodeId)
  /-- Children by position. -/
  | args (nodes : List NodeId)
  /-- Children by name, each name once. -/
  | fields (nodes : Keyed String NodeId) (distinct : nodes.keys.Nodup)
  /-- A lambda and its argument. -/
  | apply (arg : NodeId) (lambda : Lambda)
  /-- A lambda over a collection, in batches. -/
  | parMap (collection : NodeId) (concurrency : Nat) (lambda : Lambda)
  /-- An expression under a deadline, and what stands in for it afterwards. -/
  | timeout (expr : NodeId) (ms : Nat) (fallback : NodeId)
  /-- An expression to be tried several times, with a delay in between. -/
  | retry (expr : NodeId) (attempts : Nat) (delayMs : Nat)
  /-- An expression with its recoveries: one for every error, one for each
  kind of error, and what is evaluated at the end in any case. -/
  | tryCatch (expr : NodeId) (catcher : Option Lambda) (branches : Option (Keyed String Lambda))
      (cleanup : Option NodeId)
  /-- A condition, and the error if it does not hold. -/
  | guard (condition error : NodeId)
  /-- Data for a handler outside the library. -/
  | custom (value : Value)

namespace Payload

/-- Children by name, from pairs in which a name may be repeated. -/
def ofFields (pairs : List (String × NodeId)) : Payload :=
  .fields (Keyed.ofPairs pairs) (Keyed.nodup_keys_ofPairs pairs)

/-- The handles a payload holds, bodies of lambdas included, in the order
of its fields. -/
def children : Payload → List NodeId
  | empty | literal _ | param _ | custom _ => []
  | child node => [node]
  | args nodes => nodes
  | fields nodes _ => nodes.map Prod.snd
  | apply arg lambda => [arg, lambda.body]
  | parMap collection _ lambda => [collection, lambda.body]
  | timeout expr _ fallback => [expr, fallback]
  | retry expr _ _ => [expr]
  | tryCatch expr catcher branches cleanup =>
    expr :: catcher.toList.map Lambda.body ++
      (branches.getD []).map (fun branch => branch.2.body) ++ cleanup.toList
  | guard condition error => [condition, error]

/-- Whether the payload holds nothing. -/
def isEmpty : Payload → Bool
  | empty => true
  | _ => false

end Payload

/-- A node. -/
structure Node where
  tag : String
  payload : Payload

namespace Node

/-- The tag of a parameter node. -/
def paramTag : String := "core/param"

/-- A reference to a parameter. -/
def ofParam (p : ParamId) : Node := ⟨paramTag, .param p⟩

/-- The parameter that the node refers to. The payload decides, whatever
the tag. -/
def param? (node : Node) : Option ParamId :=
  match node.payload with
  | .param p => some p
  | _ => none

/-- The handles that the node holds. -/
def children (node : Node) : List NodeId := node.payload.children

end Node

end ProgramGraph
