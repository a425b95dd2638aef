import ProgramGraph.Engine.Agenda
import ProgramGraph.Task.Protocol
/-!
# Waits

What a run waits for, once the jobs it asked for have been put on the
schedule: a time, or jobs by their numbers. A wait is over as soon as what
it is for has come; whoever looks at it is told so, or is given the wait
that is left. A deadline is looked at from both sides: a job that has
settled counts, even if the time is up as well.
-/

namespace ProgramGraph

/-- What a run waits for. -/
inductive Wait
  /-- A time, and the answer then. -/
  | timer (due : Nat) (answer : Wake)
  /-- A job. -/
  | job (id : JobId)
  /-- All of some jobs. The first of them have been found settled; their
  conclusions stand last first. -/
  | all (found : List Conclusion) (rest : List JobId)
  /-- One of some jobs. -/
  | first (ids : List JobId)
  /-- A job, until some time. -/
  | deadline (due : Nat) (id : JobId)

/-- The conclusion of some jobs together: their values as a list or the
first error in order, tainted if one of them is, with all their counters. -/
def Conclusion.gather (conclusions : List Conclusion) : Conclusion where
  result := (conclusions.mapM Conclusion.result).map .array
  tainted := conclusions.any Conclusion.tainted
  tally := (conclusions.map Conclusion.tally).foldl Tally.merge .zero

namespace Wait

/-- The longest time that can be waited for, in milliseconds: thirty years
of 365 days. What should take longer takes as long. -/
def longest : Nat := 946080000000

/-- When a time that begins now is over. -/
def dueAfter (now ms : Nat) : Nat := now + min ms longest

/-- The time at which the wait has to be looked at again, if there is
one. -/
def due? : Wait → Option Nat
  | timer due _ => some due
  | deadline due _ => some due
  | _ => none

/-- How many jobs can be waited for together without a second look. -/
def fewJobs : Nat := 30

/-- Whether the wait is looked at again before any of its jobs has come to
anything, as is done when there are many. -/
def isLarge : Wait → Bool
  | all _ rest => fewJobs < rest.length
  | _ => false

/-- Puts the time of a wait on the agenda, if it has one, and gives its
place. -/
def alarm (wait : Wait) (id : JobId) (agenda : Agenda) : Option Place × Agenda :=
  match wait.due? with
  | some due =>
    let (place, agenda) := agenda.add due id
    (some place, agenda)
  | none => (none, agenda)

/-- Puts a second look at a wait on the agenda, if there are many jobs. -/
def secondLook (wait : Wait) (now : Nat) (id : JobId) (agenda : Agenda) : Agenda :=
  if wait.isLarge then (agenda.add now id).2 else agenda

/-- Takes out the jobs in front that have settled. -/
def collect (conclusion? : JobId → Option Conclusion) :
    List Conclusion → List JobId → List Conclusion × List JobId
  | found, [] => (found, [])
  | found, id :: rest =>
    match conclusion? id with
    | some conclusion => collect conclusion? (conclusion :: found) rest
    | none => (found, id :: rest)

/-- **Looks at a wait:** the answer if it is over, else what is left of
it. -/
def look (conclusion? : JobId → Option Conclusion) (now : Nat) (wait : Wait) : Wake ⊕ Wait :=
  match wait with
  | timer due answer => if due ≤ now then .inl answer else .inr wait
  | job id =>
    match conclusion? id with
    | some conclusion => .inl (.settled conclusion)
    | none => .inr wait
  | all found rest =>
    match collect conclusion? found rest with
    | (found, []) => .inl (.settled (.gather found.reverse))
    | (found, rest) => .inr (.all found rest)
  | first ids =>
    match ids.findSome? conclusion? with
    | some conclusion => .inl (.settled conclusion)
    | none => .inr wait
  | deadline due id =>
    match conclusion? id with
    | some conclusion => .inl (.settled conclusion)
    | none => if due ≤ now then .inl .elapsed else .inr wait

end Wait

end ProgramGraph
