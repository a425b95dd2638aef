import ProgramGraph.Ident
import ProgramGraph.Tally
import Std.Data.HashMap
import Std.Data.HashSet
/-!
# Memos

A memo keeps the results of nodes that are the same under all bindings. A
node that depends on a binding or on a volatile handler is marked as
tainted instead, and evaluated anew at every visit. A memo can be handed
from one evaluation of a graph to the next, and counts what they do.
-/

namespace ProgramGraph

/-- Results, marks and counters. -/
structure Memo where
  /-- The results kept. -/
  results : Std.HashMap NodeId Value := {}
  /-- The nodes marked as tainted. -/
  tainted : Std.HashSet NodeId := {}
  /-- The counters. -/
  tally : Tally := .zero

namespace Memo

/-- The memo before any evaluation. -/
def empty : Memo := {}

instance : Inhabited Memo := ⟨empty⟩

/-- Whether a node is marked as tainted. -/
def isTainted (s : Memo) (id : NodeId) : Bool := s.tainted.contains id

/-- The result kept for a node that is not tainted. -/
def kept? (s : Memo) (id : NodeId) : Option Value :=
  if s.isTainted id then none else s.results[id]?

/-- Whether there is a result to be served for a node. -/
def keeps (s : Memo) (id : NodeId) : Bool := (s.kept? id).isSome

/-- Marks a node as tainted, and drops its result. -/
def setTainted (s : Memo) (id : NodeId) : Memo :=
  { s with results := s.results.erase id, tainted := s.tainted.insert id }

/-- Keeps the result of a node, or marks the node as tainted. -/
def put (s : Memo) (id : NodeId) (value : Value) (tainted : Bool) : Memo :=
  if tainted then s.setTainted id
  else { s with results := s.results.insert id value, tainted := s.tainted.erase id }

/-- The number of results kept. -/
def size (s : Memo) : Nat := s.results.size

/-- The number of nodes marked as tainted. -/
def taintedSize (s : Memo) : Nat := s.tainted.size

/-- Drops results and marks, but keeps the counters. -/
def clear (s : Memo) : Memo := { s with results := {}, tainted := {} }

/-- Sets the counters to zero. -/
def resetTally (s : Memo) : Memo := { s with tally := .zero }

/-- Changes the counters. -/
def mapTally (s : Memo) (f : Tally → Tally) : Memo := { s with tally := f s.tally }

/-! ## What the operations do to the status of a node -/

@[simp] theorem kept?_empty (id : NodeId) : empty.kept? id = none := by
  simp [kept?, empty]

@[simp] theorem isTainted_empty (id : NodeId) : empty.isTainted id = false := by
  simp [isTainted, empty]

@[simp] theorem kept?_clear (s : Memo) (id : NodeId) : s.clear.kept? id = none := by
  simp [kept?, clear]

@[simp] theorem isTainted_clear (s : Memo) (id : NodeId) : s.clear.isTainted id = false := by
  simp [isTainted, clear]

@[simp] theorem kept?_mapTally (s : Memo) (f : Tally → Tally) (id : NodeId) :
    (s.mapTally f).kept? id = s.kept? id := rfl

@[simp] theorem isTainted_mapTally (s : Memo) (f : Tally → Tally) (id : NodeId) :
    (s.mapTally f).isTainted id = s.isTainted id := rfl

theorem isTainted_setTainted (s : Memo) (id other : NodeId) :
    (s.setTainted id).isTainted other = (id == other || s.isTainted other) := by
  simp [isTainted, setTainted]

theorem kept?_setTainted (s : Memo) (id other : NodeId) :
    (s.setTainted id).kept? other = if id = other then none else s.kept? other := by
  by_cases h : id = other
  · simp [kept?, isTainted_setTainted, h]
  · have hb : (id == other) = false := by simpa using h
    simp only [kept?, isTainted_setTainted, hb, Bool.false_or, h, if_false]
    simp [setTainted, Std.HashMap.getElem?_erase, hb]

theorem isTainted_put (s : Memo) (id other : NodeId) (value : Value) (tainted : Bool) :
    (s.put id value tainted).isTainted other =
      if id = other then tainted else s.isTainted other := by
  by_cases h : id = other
  · subst h
    cases tainted <;> simp [put, isTainted, setTainted]
  · have hb : (id == other) = false := by simpa using h
    cases tainted <;> simp [put, isTainted, setTainted, h, hb]

theorem kept?_put (s : Memo) (id other : NodeId) (value : Value) (tainted : Bool) :
    (s.put id value tainted).kept? other =
      if id = other then (if tainted then none else some value) else s.kept? other := by
  cases tainted with
  | true => simp [put, kept?_setTainted]
  | false =>
    by_cases h : id = other
    · subst h
      simp [kept?, isTainted_put]
      simp [put]
    · have hb : (id == other) = false := by simpa using h
      simp only [kept?, isTainted_put, h, if_false]
      simp [put, Std.HashMap.getElem?_insert, hb]

end Memo

end ProgramGraph
