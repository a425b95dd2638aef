import ProgramGraph.Engine.Agenda
/-!
# What is on an agenda

An agenda is looked at through its entries only: which job stands at which
place. Every ticket is given out once, so a place that an agenda gives is new,
and nothing that stands there is lost.
-/

namespace ProgramGraph

namespace Agenda

variable {a : Agenda} {place other : Place} {id : JobId}

/-- The job stands at the place. -/
def Has (a : Agenda) (place : Place) (id : JobId) : Prop := a.entries[place]? = some id

/-- All tickets on the agenda have been given out by it. -/
def Issued (a : Agenda) : Prop := ∀ place id, a.Has place id → place.ticket < a.ticket

/-- The number of entries. -/
def size (a : Agenda) : Nat := a.entries.size

theorem not_has_empty : ¬ empty.Has place id := by
  simp [Has, empty]

theorem issued_empty : empty.Issued := fun _ _ h => absurd h not_has_empty

/-- No place has two jobs. -/
theorem Has.unique {id' : JobId} (h : a.Has place id) (h' : a.Has place id') : id = id' := by
  rw [Has, h] at h'
  exact Option.some.inj h'

/-- What stands on an agenda is one of its entries. -/
theorem Has.mem (h : a.Has place id) : place ∈ a.entries := by
  rw [Std.TreeMap.mem_iff_isSome_getElem?, h]
  rfl

/-! ## Adding -/

theorem ticket_add (time : Nat) : (a.add time id).2.ticket = a.ticket + 1 := rfl

theorem place_add (time : Nat) : (a.add time id).1 = ⟨time, a.ticket⟩ := rfl

/-- **What stands on an agenda with one entry more.** -/
theorem has_add (ha : a.Issued) (time : Nat) {job : JobId} :
    (a.add time id).2.Has place job ↔
      (place = (a.add time id).1 ∧ job = id) ∨ a.Has place job := by
  have hget : (a.add time id).2.entries[place]? =
      if place = ⟨time, a.ticket⟩ then some id else a.entries[place]? := by
    simp only [Agenda.add, Std.TreeMap.getElem?_insert, Std.LawfulEqCmp.compare_eq_iff_eq,
      eq_comm (a := place)]
  rw [Has, hget, place_add]
  split
  next h =>
    have hnew : ¬ a.Has place job := by
      intro hhas
      have := ha place job hhas
      rw [h] at this
      exact Nat.lt_irrefl _ this
    simp only [Option.some.injEq, h, true_and]
    constructor
    · rintro rfl
      exact .inl rfl
    · rintro (rfl | hhas)
      · rfl
      · exact absurd (h ▸ hhas) hnew
  next h => simp only [h, false_and, false_or, Has]

theorem has_add_self (ha : a.Issued) (time : Nat) : (a.add time id).2.Has (a.add time id).1 id :=
  (has_add ha time).2 (.inl ⟨rfl, rfl⟩)

theorem Has.add (h : a.Has place id) (ha : a.Issued) (time : Nat) (job : JobId) :
    (a.add time job).2.Has place id :=
  (has_add ha time).2 (.inr h)

theorem Issued.add (ha : a.Issued) (time : Nat) (id : JobId) : (a.add time id).2.Issued := by
  intro place job h
  rw [ticket_add]
  rcases (has_add ha time).1 h with ⟨rfl, -⟩ | h
  · exact Nat.lt_succ_self _
  · exact Nat.lt_succ_of_lt (ha place job h)

theorem size_add_le (time : Nat) (id : JobId) : (a.add time id).2.size ≤ a.size + 1 :=
  Std.TreeMap.size_insert_le

/-! ## Removing -/

/-- **What stands on an agenda without an entry.** -/
theorem has_remove : (a.remove place).Has other id ↔ other ≠ place ∧ a.Has other id := by
  have hget : (a.remove place).entries[other]? =
      if place = other then none else a.entries[other]? := by
    simp only [Agenda.remove, Std.TreeMap.getElem?_erase, Std.LawfulEqCmp.compare_eq_iff_eq]
  rw [Has, hget]
  split
  next h => simp [h]
  next h => simp [Has, Ne.symm h]

theorem Issued.remove (ha : a.Issued) (place : Place) : (a.remove place).Issued :=
  fun other id h => ha other id (has_remove.1 h).2

theorem size_remove_le (place : Place) : (a.remove place).size ≤ a.size :=
  Std.TreeMap.size_erase_le

theorem size_remove_lt (h : a.Has place id) : (a.remove place).size < a.size := by
  have hpos : a.entries.size ≠ 0 := by
    intro hzero
    have hempty : a.entries.isEmpty := by simp [Std.TreeMap.isEmpty_eq_size_eq_zero, hzero]
    have := Std.TreeMap.getElem?_of_isEmpty (a := place) hempty
    rw [h] at this
    cases this
  have hsize : (a.remove place).size = a.entries.size - 1 := by
    simp only [size, Agenda.remove, Std.TreeMap.size_erase]
    rw [if_pos (Std.TreeMap.mem_iff_contains.1 h.mem)]
  rw [hsize, size]
  omega

/-! ## The first entry -/

/-- **The first entry comes before all others.** -/
theorem isLE_of_next? {rest : Agenda} {job : JobId} (h : a.next? = some ((place, id), rest))
    (hother : a.Has other job) : (compare place other).isLE := by
  obtain ⟨first, hfirst, hrest⟩ := Option.bind_eq_some_iff.1 h
  obtain ⟨_, -, hpair⟩ := Option.map_eq_some_iff.1 hrest
  cases hpair
  exact (Std.TreeMap.minKey?_eq_some_iff_mem_and_forall.1 hfirst).2 other hother.mem

/-- **The first entry stands on the agenda** and is not later than any
other. -/
theorem next?_eq_some {rest : Agenda} (h : a.next? = some ((place, id), rest)) :
    a.Has place id ∧ rest = a.remove place ∧ ∀ other job, a.Has other job →
      place.time ≤ other.time := by
  have hle : ∀ other job, a.Has other job → (compare place other).isLE :=
    fun _ _ => isLE_of_next? h
  obtain ⟨first, -, hrest⟩ := Option.bind_eq_some_iff.1 h
  obtain ⟨job, hjob, hpair⟩ := Option.map_eq_some_iff.1 hrest
  cases hpair
  refine ⟨hjob, rfl, fun other job hother => ?_⟩
  have hfirst := hle other job hother
  rw [Place.compare_isLE_iff] at hfirst
  omega

/-- **An entry that comes before all others** is the first one. -/
theorem next?_of_isLE (h : a.Has place id)
    (hfirst : ∀ other job, a.Has other job → (compare place other).isLE) :
    a.next? = some ((place, id), a.remove place) := by
  have hmin : a.entries.minKey? = some place := by
    refine Std.TreeMap.minKey?_eq_some_iff_mem_and_forall.2 ⟨h.mem, fun other hother => ?_⟩
    rw [Std.TreeMap.mem_iff_isSome_getElem?] at hother
    obtain ⟨job, hjob⟩ := Option.isSome_iff_exists.1 hother
    exact hfirst other job hjob
  have hid : a.entries[place]? = some id := h
  simp only [next?, hmin, Option.bind_some, hid, Option.map_some]

/-- An agenda with an entry has a first one. -/
theorem next?_ne_none (h : a.Has place id) : a.next? ≠ none := by
  obtain ⟨first, hfirst⟩ := Option.isSome_iff_exists.1 (Std.TreeMap.isSome_minKey?_of_mem h.mem)
  have hin := (Std.TreeMap.minKey?_eq_some_iff_mem_and_forall.1 hfirst).1
  rw [Std.TreeMap.mem_iff_isSome_getElem?] at hin
  obtain ⟨job, hjob⟩ := Option.isSome_iff_exists.1 hin
  simp [next?, hfirst, hjob]

end Agenda

end ProgramGraph
