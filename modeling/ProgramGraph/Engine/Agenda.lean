import Std.Data.TreeMap
/-!
# Agendas

What a fold has to attend to, and when. An entry of an agenda is a job with
a place: a time, and a ticket that tells it from the other entries of that
time. Tickets are given out in ascending order, so of two entries with the
same time the one that was made first comes first.
-/

namespace ProgramGraph

/-- The number of a job on a schedule. Jobs are numbered in the order in
which they are made. -/
abbrev JobId := Nat

/-- A place on an agenda. -/
structure Place where
  /-- When the entry is due, in milliseconds from the start. -/
  time : Nat
  ticket : Nat
  deriving DecidableEq

namespace Place

/-- By time, and at one time by ticket. -/
instance : Ord Place :=
  ⟨fun a b => (compare a.time b.time).then (compare a.ticket b.ticket)⟩

theorem compare_def (a b : Place) :
    compare a b = (compare a.time b.time).then (compare a.ticket b.ticket) := rfl

theorem compare_isLE_iff (a b : Place) :
    (compare a b).isLE ↔ a.time < b.time ∨ a.time = b.time ∧ a.ticket ≤ b.ticket := by
  rw [compare_def]
  cases h : compare a.time b.time with
  | lt =>
    rw [Nat.compare_eq_lt] at h
    simp [h]
  | eq =>
    rw [Nat.compare_eq_eq] at h
    simp [h, Nat.isLE_compare]
  | gt =>
    rw [Nat.compare_eq_gt] at h
    simp
    omega

instance : Std.TransOrd Place where
  eq_swap {a b} := by
    simp only [compare_def, Ordering.swap_then]
    rw [Nat.compare_swap, Nat.compare_swap]
  isLE_trans {a b c} := by
    simp only [compare_isLE_iff]
    omega

instance : Std.LawfulEqOrd Place where
  eq_of_compare {a b} h := by
    have hab : (compare a b).isLE := by simp [h]
    have hba : (compare b a).isLE := by
      rw [Std.OrientedOrd.eq_swap (a := b), h]
      rfl
    rw [compare_isLE_iff] at hab hba
    obtain ⟨time, ticket⟩ := a
    obtain ⟨time', ticket'⟩ := b
    simp only [mk.injEq] at *
    omega

end Place

/-- Jobs with places, in the order of the places. -/
structure Agenda where
  entries : Std.TreeMap Place JobId := {}
  /-- The next ticket. -/
  ticket : Nat := 0

namespace Agenda

/-- The agenda without entries. -/
def empty : Agenda := {}

instance : Inhabited Agenda := ⟨empty⟩

/-- The agenda with one entry more, and its place: behind all that is due
by the same time. -/
def add (a : Agenda) (time : Nat) (id : JobId) : Place × Agenda :=
  let place : Place := ⟨time, a.ticket⟩
  (place, { entries := a.entries.insert place id, ticket := a.ticket + 1 })

/-- The agenda without the entry of a place. -/
def remove (a : Agenda) (place : Place) : Agenda :=
  { a with entries := a.entries.erase place }

/-- The first entry, and the agenda without it. -/
def next? (a : Agenda) : Option ((Place × JobId) × Agenda) :=
  a.entries.minKey?.bind fun place =>
    a.entries[place]?.map fun id => ((place, id), a.remove place)

end Agenda

end ProgramGraph
