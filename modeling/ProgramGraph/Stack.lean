/-!
# Stacks

A list with its length at hand. The items stand top first. Stacks are used
where a depth is asked for at every step, for which counting the items
anew would take too long.
-/

namespace ProgramGraph

/-- A stack. -/
structure Stack (α : Type) where
  /-- The items, top first. -/
  items : List α := []
  /-- The number of items. -/
  size : Nat := 0
  size_eq : size = items.length := by rfl

namespace Stack

variable {α : Type}

/-- The stack without items. -/
def empty : Stack α := {}

instance : Inhabited (Stack α) := ⟨empty⟩

@[ext] theorem ext {s t : Stack α} (h : s.items = t.items) : s = t := by
  obtain ⟨items, size, hs⟩ := s
  obtain ⟨items', size', ht⟩ := t
  subst hs ht
  simp only at h
  subst h
  rfl

/-- The stack with one more item on top. -/
def push (s : Stack α) (a : α) : Stack α := ⟨a :: s.items, s.size + 1, by simp [s.size_eq]⟩

/-- The stack without its top. -/
def pop (s : Stack α) : Stack α := ⟨s.items.tail, s.size - 1, by simp [s.size_eq]⟩

/-- The stack with its top changed. -/
def mapTop (s : Stack α) (f : α → α) : Stack α :=
  ⟨s.items.modifyHead f, s.size, by simp [s.size_eq]⟩

/-- The stack cut back to its lowest `size` items. -/
def truncate (s : Stack α) (size : Nat) : Stack α :=
  if h : size < s.size then
    ⟨s.items.drop (s.size - size), size, by have := s.size_eq; simp; omega⟩
  else s

@[simp] theorem items_empty : (empty : Stack α).items = [] := rfl

@[simp] theorem size_empty : (empty : Stack α).size = 0 := rfl

@[simp] theorem items_push (s : Stack α) (a : α) : (s.push a).items = a :: s.items := rfl

@[simp] theorem size_push (s : Stack α) (a : α) : (s.push a).size = s.size + 1 := rfl

@[simp] theorem items_pop (s : Stack α) : s.pop.items = s.items.tail := rfl

@[simp] theorem size_pop (s : Stack α) : s.pop.size = s.size - 1 := rfl

@[simp] theorem items_mapTop (s : Stack α) (f : α → α) :
    (s.mapTop f).items = s.items.modifyHead f := rfl

@[simp] theorem size_mapTop (s : Stack α) (f : α → α) : (s.mapTop f).size = s.size := rfl

@[simp] theorem pop_push (s : Stack α) (a : α) : (s.push a).pop = s := Stack.ext rfl

theorem size_eq_zero_iff (s : Stack α) : s.size = 0 ↔ s.items = [] := by
  rw [s.size_eq, List.length_eq_zero_iff]

theorem items_truncate (s : Stack α) (size : Nat) :
    (s.truncate size).items = s.items.drop (s.size - size) := by
  unfold truncate
  split
  · rfl
  · rename_i h
    have : s.size - size = 0 := by omega
    simp [this]

theorem size_truncate (s : Stack α) (size : Nat) : (s.truncate size).size = min size s.size := by
  unfold truncate
  split
  · simp only; omega
  · omega

/-- **A pushed item is taken off again** by cutting back to the size before
it. -/
@[simp] theorem truncate_push (s : Stack α) (a : α) : (s.push a).truncate s.size = s := by
  apply Stack.ext
  simp [items_truncate]

@[simp] theorem truncate_size (s : Stack α) : s.truncate s.size = s := by
  apply Stack.ext
  simp [items_truncate]

end Stack

end ProgramGraph
