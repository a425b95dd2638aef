import ProgramGraph.Engine.Fold
import ProgramGraph.Graph.Format
import ProgramGraph.Registry.Standard
/-!
# Programs

A program is a graph with the root to evaluate. It is written as a record
of the two, and is only accepted if the graph is valid and holds the root.
-/

namespace ProgramGraph

/-- A program. -/
structure Program where
  graph : Graph
  entry : Root

namespace Program

/-- A program as a record. -/
def toValue (program : Program) : Value :=
  .object [("graph", program.graph.toValue), ("entry", program.entry.toValue)]

/-- The program of a record. -/
def ofSpelling? (spelling : Spelling) : Option Program := do
  let [graph, entry] ← spelling.record? ["graph", "entry"] | none
  return ⟨← Spelling.required Graph.ofSpelling? graph,
    ← Spelling.required Root.ofSpelling? entry⟩

/-- The program that a text spells. -/
def read (source : String) : Except ReadError Program := Spelling.readText ofSpelling? source

/-- The node to evaluate. -/
def target (program : Program) : NodeId := program.entry.target

/-- Whether the node to evaluate is in the graph. -/
def hasTarget (program : Program) : Bool := (program.graph.get? program.target).isSome

/-- **The tags without a handler,** each once, in order. Parameters need no
handler. -/
def uncoveredTags (program : Program) (registry : Registry .none) : List String :=
  let tags := program.graph.nodes.toList.map Node.tag
  let unknown := tags.filter fun tag => tag != Node.paramTag && !registry.contains tag
  unknown.eraseDups.mergeSort fun a b => decide (a ≤ b)

/-- The engine that evaluates a program. -/
def engine (program : Program) (registry : Registry .none) (limits : Limits) :
    Engine .none where
  graph := program.graph
  registry := registry
  limits := limits

end Program

end ProgramGraph
