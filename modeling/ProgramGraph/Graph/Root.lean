import ProgramGraph.Graph.Basic
/-!
# Roots

What an evaluation starts from: a handle, or an envelope around one. An
envelope carries further data at two levels, which is kept as it is and
never looked at.
-/

namespace ProgramGraph

/-- The body of an envelope. -/
structure Ast where
  /-- The node whose value is the result. -/
  result : NodeId
  /-- Whatever else the body holds. -/
  extra : Keyed String Value := []

/-- An envelope around a handle. -/
structure Envelope where
  /-- The body. -/
  ast : Ast
  /-- Whatever else the envelope holds. -/
  extra : Keyed String Value := []

/-- Where an evaluation starts. -/
inductive Root
  | node (id : NodeId)
  | envelope (e : Envelope)

/-- The node to evaluate. -/
def Root.target : Root → NodeId
  | node id => id
  | envelope e => e.ast.result

end ProgramGraph
