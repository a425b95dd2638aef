import ProgramGraph.Engine.Schedule
/-!
# Folds

A fold evaluates the node that a root names: it begins a run there and
follows the schedule of that run until it ends. A fold may go on for ever
in a graph with cycles, so it is given a number of steps; every fold that
ends at all ends within enough of them, and more change nothing.
-/

namespace ProgramGraph

variable {P : Plugins}

/-- **Takes steps until the fold has ended.** -/
def Schedule.follow (E : Engine P) : (fuel : Nat) → Schedule P → Option (Outcome P)
  | 0, _ => none
  | fuel + 1, s =>
    match s.step E with
    | .going s => follow E fuel s
    | .ended outcome => some outcome
    | .stuck => none

/-- **More steps change nothing** about a fold that has ended. -/
theorem Schedule.follow_of_le {E : Engine P} {fuel more : Nat} {s : Schedule P} {o : Outcome P}
    (h : follow E fuel s = some o) (hle : fuel ≤ more) : follow E more s = some o := by
  induction fuel generalizing s more with
  | zero => simp [follow] at h
  | succ fuel ih =>
    obtain ⟨more, rfl⟩ : ∃ n, more = n + 1 := ⟨more - 1, by omega⟩
    simp only [follow] at h ⊢
    split at h
    · exact ih h (by omega)
    · exact h
    · cases h

namespace Engine

/-- Enough steps for everything that can be waited for. -/
def plenty : Nat := 0x4000000000000000

/-- Evaluates a node under a scope, from a memo and the data of the
plug-ins, in at most `fuel` steps. -/
def evaluate? (E : Engine P) (fuel : Nat) (root : NodeId) (memo : Memo) (scope : Scope)
    (shared : P.Shared) : Option (Outcome P) :=
  (Schedule.start (Run.begin E { memo, scope, world := { shared } } root)).follow E fuel

/-- **Folds a root** with a memo. -/
def fold? (E : Engine P) (fuel : Nat) (root : Root) (memo : Memo) (shared : P.Shared) :
    Option (Outcome P) :=
  E.evaluate? fuel root.target memo .empty shared

/-- Folds a root with a memo that nothing else uses. -/
def foldAnew? (E : Engine P) (fuel : Nat) (root : Root) (shared : P.Shared) :
    Option (Outcome P) :=
  E.fold? fuel root .empty shared

/-- Folds a root for a caller that waits for the end. Such a caller must
not be part of an evaluation itself. -/
def foldWaiting? (E : Engine P) (fuel : Nat) (insideEvaluation : Bool) (root : Root)
    (memo : Memo) (shared : P.Shared) : Option (Outcome P) :=
  if insideEvaluation then
    some ⟨.error (.internal "fold_blocking called from within an async runtime"), true,
      { memo, world := { shared } }⟩
  else E.fold? fuel root memo shared

end Engine

end ProgramGraph
