import ProgramGraph.Json.Record
/-!
# Node handles and parameters

A node is addressed by its index in a graph. A parameter is a number of
its own, so that two lambdas whose parameters share a name never share a
parameter.
-/

namespace ProgramGraph

/-- The handle of a node: its index in the graph. -/
structure NodeId where
  /-- The index. -/
  index : Nat
  deriving DecidableEq, Hashable, Inhabited

/-- A parameter of a lambda. -/
structure ParamId where
  /-- The number that identifies it. -/
  raw : Nat
  deriving DecidableEq, Hashable, Inhabited

namespace NodeId

instance : ToString NodeId := ⟨fun id => "node_" ++ toString id.index⟩

/-- Handles are ordered by index. -/
instance : LT NodeId := ⟨fun a b => a.index < b.index⟩

instance : LE NodeId := ⟨fun a b => a.index ≤ b.index⟩

instance (a b : NodeId) : Decidable (a < b) := inferInstanceAs (Decidable (a.index < b.index))

instance (a b : NodeId) : Decidable (a ≤ b) := inferInstanceAs (Decidable (a.index ≤ b.index))

/-- A handle is written as its index. -/
def toValue (id : NodeId) : Value := .nat id.index

/-- A handle is a natural of 32 bits. -/
def ofSpelling? (spelling : Spelling) : Option NodeId := spelling.nat32?.map NodeId.mk

end NodeId

namespace ParamId

instance : ToString ParamId := ⟨fun p => "param_" ++ toString p.raw⟩

/-- A parameter is written as its number. -/
def toValue (p : ParamId) : Value := .nat p.raw

/-- A parameter is a natural of 64 bits. -/
def ofSpelling? (spelling : Spelling) : Option ParamId := spelling.nat64?.map ParamId.mk

end ParamId

/-- The parameters not handed out yet: those from `next` on. -/
structure ParamSupply where
  /-- The number of the next parameter. -/
  next : Nat := 1

/-- A parameter never handed out before, and the supply without it. -/
def ParamSupply.fresh (supply : ParamSupply) : ParamId × ParamSupply :=
  (⟨supply.next⟩, ⟨supply.next + 1⟩)

end ProgramGraph
