import ProgramGraph.Number.Double
/-!
# Tallies

Counters of what evaluations do. They add up over all evaluations that
share a memo, so that the use of it can be seen.
-/

namespace ProgramGraph

/-- The counters. -/
structure Tally where
  /-- Tasks started. -/
  starts : Nat := 0
  /-- Requests answered from a memo. -/
  hits : Nat := 0
  /-- Parameters looked up. -/
  lookups : Nat := 0
  /-- Resumptions of tasks. -/
  steps : Nat := 0
  /-- Failures handed to a parent. -/
  injections : Nat := 0
  /-- The greatest number of frames on one stack. -/
  depth : Nat := 0
  deriving DecidableEq, Inhabited

namespace Tally

/-- All counters at zero. -/
def zero : Tally := {}

/-- Counts a started task. -/
def countStart (s : Tally) : Tally := { s with starts := s.starts + 1 }

/-- Counts an answer from a memo. -/
def countHit (s : Tally) : Tally := { s with hits := s.hits + 1 }

/-- Counts a look-up of a parameter. -/
def countLookup (s : Tally) : Tally := { s with lookups := s.lookups + 1 }

/-- Counts a resumption. -/
def countResumption (s : Tally) : Tally := { s with steps := s.steps + 1 }

/-- Counts a failure handed to a parent. -/
def countInjection (s : Tally) : Tally := { s with injections := s.injections + 1 }

/-- Takes note of a number of frames. -/
def reachDepth (s : Tally) (depth : Nat) : Tally := { s with depth := max s.depth depth }

/-- The counters of two evaluations together. Counts add up; each
evaluation has a stack of its own, so the depth is the greater one. -/
def merge (s other : Tally) : Tally where
  starts := s.starts + other.starts
  hits := s.hits + other.hits
  lookups := s.lookups + other.lookups
  steps := s.steps + other.steps
  injections := s.injections + other.injections
  depth := max s.depth other.depth

/-- The share of visits that a memo answered; zero without visits. -/
def hitRate (s : Tally) : Double :=
  let rate := do
    (← Double.ofNat? s.hits).div? (← Double.ofNat? (s.hits + s.starts))
  rate.getD .zero

@[simp] theorem zero_merge (s : Tally) : zero.merge s = s := by
  cases s; simp [merge, zero]

@[simp] theorem merge_zero (s : Tally) : s.merge zero = s := by
  cases s; simp [merge, zero]

theorem merge_comm (s t : Tally) : s.merge t = t.merge s := by
  simp [merge, Nat.add_comm, Nat.max_comm]

theorem merge_assoc (s t u : Tally) : (s.merge t).merge u = s.merge (t.merge u) := by
  simp [merge, Nat.add_assoc, Nat.max_assoc]

end Tally

end ProgramGraph
