import ProgramGraph.Graph.Root
import ProgramGraph.Node.Format
/-!
# The written form of graphs and roots

A graph is a record of its nodes. A root is a bare handle, or an object
with the body under `ast`; the fields besides `ast`, and besides `result`
in the body, are the further data of the envelope. Such an object is never
given as an array.
-/

namespace ProgramGraph

namespace Graph

/-- A graph as a record. -/
def toValue (g : Graph) : Value :=
  .object [("nodes", .array (g.nodes.toList.map Node.toValue))]

/-- The graph of a record. -/
def ofSpelling? (spelling : Spelling) : Option Graph := do
  let [nodes] ← spelling.record? ["nodes"] | none
  return ⟨(← Spelling.required (Spelling.list? Node.ofSpelling?) nodes).toArray⟩

/-- The graph that a text spells. -/
def read (source : String) : Except ReadError Graph := Spelling.readText ofSpelling? source

end Graph

/-- The value of each of some fields. A repeated key keeps its first
position and its last value. -/
def Spelling.values? (fields : List (String × Spelling)) : Option (Keyed String Value) :=
  Spelling.keyed? Value.ofSpelling? (.object fields)

/-- Splits the fields of an object into the one of a key, which has to be
there once, and the values of the others. -/
def Spelling.splitEntry? (key : String) : Spelling → Option (Spelling × Keyed String Value)
  | .object fields => do
    let spelling ← (← lookupOnce? fields key)
    let others := fields.filter fun field => field.1 != key
    return (spelling, ← values? others)
  | _ => none

namespace Ast

/-- The body of an envelope as it is written. -/
def toValue (ast : Ast) : Value := .object (("result", ast.result.toValue) :: ast.extra)

/-- The body of an envelope, of the object that spells it. -/
def ofSpelling? (spelling : Spelling) : Option Ast := do
  let (result, extra) ← spelling.splitEntry? "result"
  return ⟨← NodeId.ofSpelling? result, extra⟩

end Ast

namespace Envelope

/-- An envelope as it is written. -/
def toValue (envelope : Envelope) : Value :=
  .object (("ast", envelope.ast.toValue) :: envelope.extra)

/-- The envelope of the object that spells it. -/
def ofSpelling? (spelling : Spelling) : Option Envelope := do
  let (ast, extra) ← spelling.splitEntry? "ast"
  return ⟨← Ast.ofSpelling? ast, extra⟩

end Envelope

namespace Root

/-- A root as it is written. -/
def toValue : Root → Value
  | node id => id.toValue
  | envelope e => e.toValue

/-- The root of a spelling: a handle if it spells one, else an
envelope. -/
def ofSpelling? (spelling : Spelling) : Option Root :=
  match NodeId.ofSpelling? spelling with
  | some id => some (node id)
  | none => (Envelope.ofSpelling? spelling).map envelope

/-- The root that a text spells. -/
def read (source : String) : Except ReadError Root := Spelling.readText ofSpelling? source

end Root

end ProgramGraph
