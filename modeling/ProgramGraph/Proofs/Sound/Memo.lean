import ProgramGraph.Proofs.Course.Sound
/-!
# Memos grow

A run changes a memo in two ways. It keeps a value that its node is worth under
every scope, or it marks a node that is not pure; and whether a node is pure does
not change. So the status that a memo gives to a node is never taken back: what is
kept stays kept with its value, and what is marked stays marked (`Memo.Grows`).
-/

namespace ProgramGraph

variable {P : Plugins}

/-- The node can be evaluated: it is a parameter, or there is a task for it. -/
def Role.Evaluable : Role → Prop
  | .param _ | .planned _ _ => True
  | .absent | .refused _ _ => False

namespace Memo

/-- **Every node that is marked is rightly so.** -/
def Marked (g : Graph) (reg : Registry P) (m : Memo) : Prop :=
  ∀ id, m.isTainted id = true → ¬ g.Pure reg id ∧ (g.role reg id).Evaluable

/-- **What a memo may come to:** values are kept of nodes that are worth them, and
nodes are marked that are not pure. -/
inductive Grows (g : Graph) (reg : Registry P) (m : Memo) : Memo → Prop
  | refl : Grows g reg m m
  | keep {m' : Memo} {id : NodeId} {value : Value} : Grows g reg m m' →
    (∀ s, g.evaluate reg id s = ⟨.ok value, false⟩) → Grows g reg m (m'.put id value false)
  | mark {m' : Memo} {id : NodeId} : Grows g reg m m' → ¬ g.Pure reg id →
    (g.role reg id).Evaluable → Grows g reg m (m'.setTainted id)
  | mapTally {m' : Memo} (f : Tally → Tally) : Grows g reg m m' → Grows g reg m (m'.mapTally f)

variable {g : Graph} {reg : Registry P} {m m' m'' : Memo} {id : NodeId} {value : Value}

theorem marked_empty : Memo.empty.Marked g reg := by
  intro id h
  rw [isTainted_empty] at h
  cases h

/-- What is kept of a node is kept of a pure one. -/
theorem Sound.pure (h : m.Sound g reg) (hkept : m.kept? id = some value) : g.Pure reg id :=
  fun s => congrArg Answer.tainted (h id value hkept s)

/-- A node is not kept and marked at once. -/
theorem kept?_of_isTainted (h : m.isTainted id = true) : m.kept? id = none := by
  simp [kept?, h]

namespace Grows

theorem trans (h : m.Grows g reg m') (h' : m'.Grows g reg m'') : m.Grows g reg m'' := by
  induction h' with
  | refl => exact h
  | keep _ hworth ih => exact ih.keep hworth
  | mark _ hpure hrole ih => exact ih.mark hpure hrole
  | mapTally f _ ih => exact ih.mapTally f

/-- The counters play no part. -/
theorem of_resetTally (h : m.Grows g reg m'.resetTally) : m.Grows g reg m' :=
  h.mapTally fun _ => m'.tally

theorem resetTally (h : m.Grows g reg m') : m.Grows g reg m'.resetTally :=
  h.mapTally fun _ => .zero

/-- **A sound memo stays sound.** -/
theorem sound (h : m.Grows g reg m') (hm : m.Sound g reg) : m'.Sound g reg := by
  induction h with
  | refl => exact hm
  | keep _ hworth ih => exact ih.put .empty fun _ => hworth .empty
  | mark _ _ _ ih => exact ih.setTainted _
  | mapTally _ _ ih => exact ih

/-- **No node is marked wrongly.** -/
theorem marked (h : m.Grows g reg m') (hm : m.Marked g reg) : m'.Marked g reg := by
  induction h with
  | refl => exact hm
  | @keep m' id value _ _ ih =>
    intro other hother
    rw [isTainted_put] at hother
    split at hother
    · cases hother
    · exact ih other hother
  | @mark m' id _ hpure hrole ih =>
    intro other hother
    rw [isTainted_setTainted, Bool.or_eq_true, beq_iff_eq] at hother
    rcases hother with rfl | hother
    · exact ⟨hpure, hrole⟩
    · exact ih other hother
  | mapTally _ _ ih => exact ih

/-- **What is kept stays kept,** with its value. -/
theorem kept (h : m.Grows g reg m') (hm : m.Sound g reg) (hkept : m.kept? id = some value) :
    m'.kept? id = some value := by
  have hpure := hm.pure hkept
  have hworth := hm id value hkept .empty
  induction h with
  | refl => exact hkept
  | @keep m' other value' _ hworth' ih =>
    rw [kept?_put]
    split
    next heq =>
      subst heq
      rw [hworth'] at hworth
      cases hworth
      rfl
    next => exact ih
  | @mark m' other _ hother _ ih =>
    have hne : other ≠ id := fun heq => hother (heq ▸ hpure)
    rw [kept?_setTainted, if_neg hne]
    exact ih
  | mapTally _ _ ih => exact ih

/-- **What is marked stays marked.** -/
theorem isTainted (h : m.Grows g reg m') (hm : m.Marked g reg) (hid : m.isTainted id = true) :
    m'.isTainted id = true := by
  induction h with
  | refl => exact hid
  | @keep m' other value _ hworth ih =>
    have hne : other ≠ id := by
      rintro rfl
      exact (hm other hid).1 fun s => congrArg Answer.tainted (hworth s)
    rw [isTainted_put, if_neg hne]
    exact ih
  | @mark m' other _ _ _ ih =>
    rw [isTainted_setTainted, ih, Bool.or_true]
  | mapTally _ _ ih => exact ih

end Grows

end Memo

end ProgramGraph
