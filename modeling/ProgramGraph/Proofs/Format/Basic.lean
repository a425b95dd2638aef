import ProgramGraph.Value.Basic
/-!
# What spellings are like

Three things matter to whether what has been read can be written and read again: whether
its integers fit into 64 bits and its containers are not too deep inside one another
(`Spelling.Within`), whether some key is used in it (`Spelling.Avoids`), and whether all
its numbers are integers (`Value.Integral`).
-/

namespace ProgramGraph

/-- An integer fits into 64 bits, signed or unsigned. -/
def Number.Fits : Number → Prop
  | int n => -Word.half64 ≤ n ∧ n < Word.count64
  | double _ => True

namespace Spelling

mutual

/-- **Containers are on so many levels at most,** and integers fit. -/
def Within : Nat → Spelling → Prop
  | _, number n => n.Fits
  | levels + 1, array items => ItemsWithin levels items
  | levels + 1, object fields => FieldsWithin levels fields
  | 0, array _ => False
  | 0, object _ => False
  | _, _ => True

/-- So it is in every item. -/
def ItemsWithin (levels : Nat) : List Spelling → Prop
  | [] => True
  | item :: rest => item.Within levels ∧ ItemsWithin levels rest

/-- So it is in every field. -/
def FieldsWithin (levels : Nat) : List (String × Spelling) → Prop
  | [] => True
  | (_, item) :: rest => item.Within levels ∧ FieldsWithin levels rest

end

mutual

/-- **No object has a field with the key.** -/
def Avoids (key : String) : Spelling → Prop
  | array items => ItemsAvoid key items
  | object fields => FieldsAvoid key fields
  | _ => True

/-- So it is in every item. -/
def ItemsAvoid (key : String) : List Spelling → Prop
  | [] => True
  | item :: rest => item.Avoids key ∧ ItemsAvoid key rest

/-- It is the key of no field, and so it is in every field. -/
def FieldsAvoid (key : String) : List (String × Spelling) → Prop
  | [] => True
  | (k, item) :: rest => k ≠ key ∧ item.Avoids key ∧ FieldsAvoid key rest

end

variable {levels : Nat} {key : String} {items : List Spelling} {fields : List (String × Spelling)}

@[simp] theorem within_null : null.Within levels := by cases levels <;> trivial

@[simp] theorem within_bool {b : Bool} : (bool b).Within levels := by cases levels <;> trivial

@[simp] theorem within_text {s : String} : (text s).Within levels := by cases levels <;> trivial

@[simp] theorem within_unreadable : unreadable.Within levels := by cases levels <;> trivial

@[simp] theorem within_number {n : Number} : (number n).Within levels ↔ n.Fits := by
  cases levels <;> exact Iff.rfl

theorem itemsWithin_iff : ItemsWithin levels items ↔ ∀ item ∈ items, item.Within levels := by
  induction items with
  | nil => simp [ItemsWithin]
  | cons item rest ih => simp [ItemsWithin, ih]

theorem fieldsWithin_iff :
    FieldsWithin levels fields ↔ ∀ field ∈ fields, field.2.Within levels := by
  induction fields with
  | nil => simp [FieldsWithin]
  | cons field rest ih => simp [FieldsWithin, ih]

theorem itemsAvoid_iff : ItemsAvoid key items ↔ ∀ item ∈ items, item.Avoids key := by
  induction items with
  | nil => simp [ItemsAvoid]
  | cons item rest ih => simp [ItemsAvoid, ih]

theorem fieldsAvoid_iff :
    FieldsAvoid key fields ↔ ∀ field ∈ fields, field.1 ≠ key ∧ field.2.Avoids key := by
  induction fields with
  | nil => simp [FieldsAvoid]
  | cons field rest ih => simp [FieldsAvoid, ih, and_assoc]

/-- An array is within some levels if its items are within one less. -/
theorem within_array_iff : (array items).Within levels ↔
    ∃ less, levels = less + 1 ∧ ∀ item ∈ items, item.Within less := by
  cases levels with
  | zero => simp [Within]
  | succ levels => simp [Within, itemsWithin_iff]

/-- So is an object if its fields are. -/
theorem within_object_iff : (object fields).Within levels ↔
    ∃ less, levels = less + 1 ∧ ∀ field ∈ fields, field.2.Within less := by
  cases levels with
  | zero => simp [Within]
  | succ levels => simp [Within, fieldsWithin_iff]

mutual

/-- Whether a key is used can be found out. -/
def decidableAvoids (key : String) : (s : Spelling) → Decidable (s.Avoids key)
  | null => .isTrue trivial
  | bool _ => .isTrue trivial
  | number _ => .isTrue trivial
  | text _ => .isTrue trivial
  | array items => decidableItemsAvoid key items
  | object fields => decidableFieldsAvoid key fields
  | unreadable => .isTrue trivial

/-- In some items. -/
def decidableItemsAvoid (key : String) : (items : List Spelling) → Decidable (ItemsAvoid key items)
  | [] => .isTrue trivial
  | item :: rest => @instDecidableAnd _ _ (decidableAvoids key item) (decidableItemsAvoid key rest)

/-- In some fields. -/
def decidableFieldsAvoid (key : String) :
    (fields : List (String × Spelling)) → Decidable (FieldsAvoid key fields)
  | [] => .isTrue trivial
  | (_, item) :: rest =>
    @instDecidableAnd _ _ inferInstance
      (@instDecidableAnd _ _ (decidableAvoids key item) (decidableFieldsAvoid key rest))

end

instance : DecidablePred (Avoids key) := decidableAvoids key

theorem avoids_array_iff : (array items).Avoids key ↔ ∀ item ∈ items, item.Avoids key := by
  rw [Avoids, itemsAvoid_iff]

theorem avoids_object_iff : (object fields).Avoids key ↔
    ∀ field ∈ fields, field.1 ≠ key ∧ field.2.Avoids key := by
  rw [Avoids, fieldsAvoid_iff]

end Spelling

namespace Value

mutual

/-- **Every number is an integer.** -/
def Integral : Value → Prop
  | number n => ∃ i, n = .int i
  | array items => ItemsIntegral items
  | object fields => FieldsIntegral fields
  | _ => True

/-- So it is in every item. -/
def ItemsIntegral : List Value → Prop
  | [] => True
  | item :: rest => item.Integral ∧ ItemsIntegral rest

/-- So it is in every field. -/
def FieldsIntegral : List (String × Value) → Prop
  | [] => True
  | (_, item) :: rest => item.Integral ∧ FieldsIntegral rest

end

mutual

/-- Whether every number is an integer can be found out. -/
def decidableIntegral : (v : Value) → Decidable v.Integral
  | null => .isTrue trivial
  | bool _ => .isTrue trivial
  | number (.int i) => .isTrue ⟨i, rfl⟩
  | number (.double _) => .isFalse fun ⟨_, h⟩ => Number.noConfusion h
  | text _ => .isTrue trivial
  | array items => decidableItemsIntegral items
  | object fields => decidableFieldsIntegral fields

/-- In some items. -/
def decidableItemsIntegral : (items : List Value) → Decidable (ItemsIntegral items)
  | [] => .isTrue trivial
  | item :: rest => @instDecidableAnd _ _ (decidableIntegral item) (decidableItemsIntegral rest)

/-- In some fields. -/
def decidableFieldsIntegral : (fields : List (String × Value)) → Decidable (FieldsIntegral fields)
  | [] => .isTrue trivial
  | (_, item) :: rest =>
    @instDecidableAnd _ _ (decidableIntegral item) (decidableFieldsIntegral rest)

end

instance : DecidablePred Integral := decidableIntegral

theorem spellItems_eq_map (items : List Value) : spellItems items = items.map toSpelling := by
  induction items with
  | nil => rfl
  | cons item rest ih => rw [spellItems, ih, List.map_cons]

theorem spellFields_eq_map (fields : List (String × Value)) :
    spellFields fields = fields.map fun field => (field.1, field.2.toSpelling) := by
  induction fields with
  | nil => rfl
  | cons field rest ih => rw [spellFields, ih, List.map_cons]

end Value

end ProgramGraph
