import ProgramGraph.Engine.Fold
import ProgramGraph.Engine.Journal
/-!
# Sessions

A session folds one root after the other and keeps what one fold leaves
for the next: the memo, the data of the plug-ins and the journal. A fold
can also be made anew, without the memo.
-/

namespace ProgramGraph

variable {P : Plugins}

/-- Folds of one graph that share a memo. -/
structure Session (P : Plugins) where
  engine : Engine P
  memo : Memo := .empty
  /-- The data of the plug-ins. -/
  shared : P.Shared
  /-- What the folds did, last things first. -/
  journal : List Event := []

/-- How a fold ended. -/
structure Ending where
  result : Except EvalError Value
  /-- How many milliseconds it took. -/
  duration : Nat

namespace Session

/-- The ending of a fold that is not over after all the turns it was
given. -/
def unfinished : Ending := ⟨.error (.internal "the evaluation does not end"), 0⟩

/-- The session after a fold whose memo is kept. -/
def absorb (s : Session P) (outcome : Option (Outcome P)) : Ending × Session P :=
  match outcome with
  | none => (unfinished, s)
  | some o =>
    let world := o.run.world
    (⟨o.result, world.clock⟩,
      { s with memo := o.run.memo, shared := world.shared, journal := world.journal ++ s.journal })

/-- Folds a root. -/
def fold (s : Session P) (root : Root) : Ending × Session P :=
  s.absorb (s.engine.fold? Engine.plenty root s.memo s.shared)

/-- Folds a root with a memo of its own. -/
def foldAnew (s : Session P) (root : Root) : Ending × Session P :=
  let (ending, after) := s.absorb (s.engine.foldAnew? Engine.plenty root s.shared)
  (ending, { after with memo := s.memo })

/-- Folds a root for a caller that waits. -/
def foldWaiting (s : Session P) (insideEvaluation : Bool) (root : Root) : Ending × Session P :=
  s.absorb (s.engine.foldWaiting? Engine.plenty insideEvaluation root s.memo s.shared)

/-- Changes the memo. -/
def mapMemo (s : Session P) (f : Memo → Memo) : Session P :=
  { s with memo := f s.memo }

/-- Goes on with other limits. -/
def withLimits (s : Session P) (limits : Limits) : Session P :=
  { s with engine := { s.engine with limits } }

end Session

end ProgramGraph
