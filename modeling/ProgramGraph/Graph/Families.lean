import ProgramGraph.Graph.Basic
import ProgramGraph.Tag
/-!
# Families of graphs

Graphs of any size in a few shapes in which sharing matters: a chain as
deep as it is long, lists that double with every node, lambdas that apply
one another, and rows of lists that share the row before them.
-/

namespace ProgramGraph.Graph

/-- A constant node. -/
def literalNode (value : Value) : Node := ⟨Tag.literal, .literal value⟩

/-- A list of some nodes. -/
def listNode (items : List NodeId) : Node := ⟨Tag.list, .args items⟩

/-- A constant, and `length` nodes above it, each with the one before as
its child. -/
def chain (tag : String) (length : Nat) : Graph :=
  let link (index : Nat) : Node := ⟨tag, .child ⟨index⟩⟩
  ⟨(literalNode (.nat 0) :: (List.range length).map link).toArray⟩

/-- A constant, and `length` lists that hold the node before twice. -/
def doubling (length : Nat) : Graph :=
  let link (index : Nat) : Node := listNode [⟨index⟩, ⟨index⟩]
  ⟨(literalNode (.nat 0) :: (List.range length).map link).toArray⟩

/-- A lambda, and `length` applications, each of the one before to the list
of the parameter; the last is applied to a constant. -/
def applications (length : Nat) : Graph :=
  let p : ParamId := ⟨1⟩
  let link (index : Nat) : Node :=
    ⟨Tag.apply, .apply ⟨1⟩ ⟨p, if index = 0 then ⟨0⟩ else ⟨index + 1⟩⟩⟩
  let body := [Node.ofParam p, ⟨Tag.list, .child ⟨0⟩⟩] ++ (List.range length).map link
  let last := if length = 0 then 0 else length + 1
  let ends := [literalNode (.nat 0), ⟨Tag.apply, .apply ⟨length + 2⟩ ⟨p, ⟨last⟩⟩⟩]
  ⟨(body ++ ends).toArray⟩

/-- A row of constants, `rows` rows of lists of the whole row before, and a
list of the first node of the last row. -/
def lattice (width rows : Nat) : Graph :=
  let constants := (List.range width).map fun index => literalNode (.nat index)
  let row (index : Nat) : List Node :=
    let before := (List.range width).map fun column => (⟨index * width + column⟩ : NodeId)
    List.replicate width (listNode before)
  let lists := (List.range rows).flatMap row
  ⟨(constants ++ lists ++ [listNode [⟨rows * width⟩]]).toArray⟩

end ProgramGraph.Graph
