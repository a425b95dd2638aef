import ProgramGraph.EvalError
/-!
# Program graphs

A graph is a growing list of nodes. A node may only refer to nodes that
stand before it, so a graph made by `add` has no cycles. A graph that was
read may have any references; `validate` checks that they all point
backwards, too.
-/

namespace ProgramGraph

/-- A program graph. A handle is an index into the nodes. -/
structure Graph where
  nodes : Array Node := #[]

namespace Graph

/-- The graph without nodes. -/
def empty : Graph := {}

instance : Inhabited Graph := ⟨empty⟩

/-- How many nodes a graph may have: one for every handle. -/
def capacity : Nat := Word.count32

/-- The number of nodes. -/
def size (g : Graph) : Nat := g.nodes.size

/-- Whether the graph has no nodes. -/
def isEmpty (g : Graph) : Bool := g.nodes.isEmpty

/-- The node of a handle. -/
def get? (g : Graph) (id : NodeId) : Option Node := g.nodes[id.index]?

/-- The nodes with their handles, in order. -/
def toList (g : Graph) : List (NodeId × Node) :=
  g.nodes.toList.zipIdx.map fun (node, index) => (⟨index⟩, node)

/-- The first child that does not stand before a handle. -/
def firstForward? (id : NodeId) (node : Node) : Option NodeId :=
  node.children.find? fun child => id ≤ child

/-- **Adds a node,** which may only refer to nodes that are there. -/
def add (g : Graph) (node : Node) : Except EvalError (NodeId × Graph) :=
  if g.size < capacity then
    match firstForward? ⟨g.size⟩ node with
    | some child =>
      .error (.invalidNode ⟨g.size⟩
        ("references " ++ toString child ++ " which is not in the graph yet"))
    | none => .ok (⟨g.size⟩, ⟨g.nodes.push node⟩)
  else .error (.internal "graph arena exhausted")

/-- The first node with a child that does not stand before it, and the
first such child of it. -/
def firstOffence? (g : Graph) : Option (NodeId × NodeId) :=
  g.toList.findSome? fun (id, node) => (firstForward? id node).map fun child => (id, child)

/-- **Checks that every child stands before its parent.** -/
def validate (g : Graph) : Except EvalError Unit :=
  match g.firstOffence? with
  | some (id, child) =>
    .error (.invalidNode id ("child " ++ toString child ++ " does not precede its parent"))
  | none => .ok ()

end Graph

end ProgramGraph
