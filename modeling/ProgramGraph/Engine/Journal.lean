import ProgramGraph.Engine.Run
/-!
# Journals

What can be told from the journal of a fold: which handlers were started,
and how often.
-/

namespace ProgramGraph

/-- The node whose handler was started. -/
def Event.started? : Event → Option NodeId
  | started node _ _ => some node
  | _ => none

/-- How often each of some handles occurs, in the order of the handles. -/
def NodeId.tally (ids : List NodeId) : List (NodeId × Nat) :=
  let count (id : NodeId) : List (NodeId × Nat) → List (NodeId × Nat)
    | (other, n) :: rest =>
      if other = id then (id, n + 1) :: rest else (id, 1) :: (other, n) :: rest
    | [] => [(id, 1)]
  (ids.mergeSort fun a b => decide (a ≤ b)).foldr count []

/-- **How often the handler of each node was started,** refusals
included. -/
def Event.starts (journal : List Event) : List (NodeId × Nat) :=
  NodeId.tally (journal.filterMap started?)

end ProgramGraph
