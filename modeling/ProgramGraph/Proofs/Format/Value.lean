import ProgramGraph.Proofs.Format.Basic
/-!
# Values survive being written

A value read from a spelling without embedded documents has each key once in every object
(`Value.writable_of_ofSpelling?`). The spelling of such a value is read as the value itself
(`Value.ofSpelling?_toSpelling`), so what a repeated key has come down to stays as it is.
-/

namespace ProgramGraph

namespace Keyed

variable {κ α : Type} [DecidableEq κ]

/-- Entries under new keys go to the end. -/
theorem union_of_nodup {entries more : Keyed κ α} (h : (keys (entries ++ more)).Nodup) :
    entries.union more = entries ++ more := by
  induction more generalizing entries with
  | nil => exact (List.append_nil entries).symm
  | cons entry rest ih =>
    have hkey : entry.1 ∉ keys entries := by
      intro hmem
      rw [keys, List.map_append, List.nodup_append] at h
      exact h.2.2 _ hmem _ List.mem_cons_self rfl
    have hunion : entries.union (entry :: rest) = (entries.insert entry.1 entry.2).union rest := rfl
    rw [hunion, insert_of_notMem hkey, ih, List.append_assoc]
    · rfl
    · rw [List.append_assoc]
      exact h

/-- **Pairs with unique keys** are kept as they are. -/
theorem ofPairs_of_nodup {pairs : List (κ × α)} (h : (keys pairs).Nodup) : ofPairs pairs = pairs :=
  @union_of_nodup _ _ _ [] pairs h

/-- Each entry is one of the pairs. -/
theorem mem_of_mem_ofPairs {pairs : List (κ × α)} {entry : κ × α} (h : entry ∈ ofPairs pairs) :
    entry ∈ pairs :=
  (mem_of_mem_union h).resolve_left List.not_mem_nil

end Keyed

/-- **Nothing in a spelling is out of the ordinary:** it embeds no document, its integers
fit, and its containers are on so many levels at most. -/
structure Spelling.Plain (levels : Nat) (s : Spelling) : Prop where
  avoids : s.Avoids Json.embeddingKey
  within : s.Within levels

namespace Spelling

variable {levels : Nat} {items : List Spelling} {fields : List (String × Spelling)}

theorem plain_array_iff : (array items).Plain levels ↔
    ∃ less, levels = less + 1 ∧ ∀ item ∈ items, item.Plain less := by
  constructor
  · rintro ⟨havoids, hwithin⟩
    obtain ⟨less, rfl, hless⟩ := within_array_iff.1 hwithin
    exact ⟨less, rfl, fun item hitem => ⟨avoids_array_iff.1 havoids item hitem, hless item hitem⟩⟩
  · rintro ⟨less, rfl, hless⟩
    exact ⟨avoids_array_iff.2 fun item hitem => (hless item hitem).avoids,
      within_array_iff.2 ⟨less, rfl, fun item hitem => (hless item hitem).within⟩⟩

theorem plain_object_iff : (object fields).Plain levels ↔
    ∃ less, levels = less + 1 ∧
      ∀ field ∈ fields, field.1 ≠ Json.embeddingKey ∧ field.2.Plain less := by
  constructor
  · rintro ⟨havoids, hwithin⟩
    obtain ⟨less, rfl, hless⟩ := within_object_iff.1 hwithin
    refine ⟨less, rfl, fun field hfield => ?_⟩
    obtain ⟨hkey, hfieldAvoids⟩ := avoids_object_iff.1 havoids field hfield
    exact ⟨hkey, hfieldAvoids, hless field hfield⟩
  · rintro ⟨less, rfl, hless⟩
    exact ⟨avoids_object_iff.2 fun field hfield =>
        ⟨(hless field hfield).1, (hless field hfield).2.avoids⟩,
      within_object_iff.2 ⟨less, rfl, fun field hfield => (hless field hfield).2.within⟩⟩

end Spelling

namespace Value

theorem allWellFormed_iff {items : List Value} :
    AllWellFormed items ↔ ∀ item ∈ items, item.WellFormed := by
  induction items with
  | nil => simp [AllWellFormed]
  | cons item rest ih => simp [AllWellFormed, ih]

theorem fieldsWellFormed_iff {fields : List (String × Value)} :
    FieldsWellFormed fields ↔ ∀ field ∈ fields, field.2.WellFormed := by
  induction fields with
  | nil => simp [FieldsWellFormed]
  | cons field rest ih => simp [FieldsWellFormed, ih]

/-- **What can be written and read again:** each key is in an object once, and what the
value is spelled as is plain. -/
structure Writable (levels : Nat) (v : Value) : Prop where
  wellFormed : v.WellFormed
  plain : v.toSpelling.Plain levels

variable {levels : Nat}

theorem writable_array_iff {items : List Value} : (array items).Writable levels ↔
    ∃ less, levels = less + 1 ∧ ∀ item ∈ items, item.Writable less := by
  have hspell : (array items).toSpelling = .array (items.map toSpelling) := by
    rw [toSpelling, spellItems_eq_map]
  constructor
  · rintro ⟨hformed, hplain⟩
    rw [hspell] at hplain
    obtain ⟨less, rfl, hless⟩ := Spelling.plain_array_iff.1 hplain
    exact ⟨less, rfl, fun item hitem =>
      ⟨allWellFormed_iff.1 hformed item hitem, List.forall_mem_map.1 hless item hitem⟩⟩
  · rintro ⟨less, rfl, hless⟩
    refine ⟨allWellFormed_iff.2 fun item hitem => (hless item hitem).wellFormed, ?_⟩
    rw [hspell]
    exact Spelling.plain_array_iff.2
      ⟨less, rfl, List.forall_mem_map.2 fun item hitem => (hless item hitem).plain⟩

theorem writable_object_iff {fields : Keyed String Value} : (object fields).Writable levels ↔
    fields.keys.Nodup ∧ ∃ less, levels = less + 1 ∧
      ∀ field ∈ fields, field.1 ≠ Json.embeddingKey ∧ field.2.Writable less := by
  have hspell : (object fields).toSpelling =
      .object (fields.map fun field => (field.1, field.2.toSpelling)) := by
    rw [toSpelling, spellFields_eq_map]
  constructor
  · rintro ⟨⟨hkeys, hformed⟩, hplain⟩
    rw [hspell] at hplain
    obtain ⟨less, rfl, hless⟩ := Spelling.plain_object_iff.1 hplain
    refine ⟨hkeys, less, rfl, fun field hfield => ?_⟩
    obtain ⟨hkey, hfieldPlain⟩ := List.forall_mem_map.1 hless field hfield
    exact ⟨hkey, fieldsWellFormed_iff.1 hformed field hfield, hfieldPlain⟩
  · rintro ⟨hkeys, less, rfl, hless⟩
    have hformed := fieldsWellFormed_iff.2 fun field hfield => (hless field hfield).2.wellFormed
    refine ⟨⟨hkeys, hformed⟩, ?_⟩
    rw [hspell]
    exact Spelling.plain_object_iff.2 ⟨less, rfl, List.forall_mem_map.2 fun field hfield =>
      ⟨(hless field hfield).1, (hless field hfield).2.plain⟩⟩

variable {read : String → Option Json}

/-- An object that embeds no document is read field by field. -/
theorem readWith?_object {fields : List (String × Spelling)}
    (h : ∀ field ∈ fields, field.1 ≠ Json.embeddingKey) :
    Json.readWith? read (.object fields) = (Json.readFields? read fields).map .object := by
  have hembedding : Json.isEmbedding fields = false := by
    cases fields with
    | nil => rfl
    | cons field rest => exact beq_false_of_ne (h field List.mem_cons_self)
  rw [Json.readWith?.eq_def]
  simp only [hembedding, Bool.false_eq_true, if_false]

mutual

/-- What is read from a plain spelling can be written. -/
theorem writable_of_readWith? : (s : Spelling) → {levels : Nat} → s.Plain levels → {j : Json} →
    Json.readWith? read s = some j → (ofJson j).Writable levels
  | .null, _, hs, _, h => by
    cases h
    exact ⟨trivial, hs⟩
  | .bool _, _, hs, _, h => by
    cases h
    exact ⟨trivial, hs⟩
  | .number _, _, hs, _, h => by
    cases h
    exact ⟨trivial, hs⟩
  | .text _, _, hs, _, h => by
    cases h
    exact ⟨trivial, hs⟩
  | .array items, _, hs, _, h => by
    obtain ⟨less, rfl, hitems⟩ := Spelling.plain_array_iff.1 hs
    obtain ⟨read, hread, rfl⟩ := Option.map_eq_some_iff.1 h
    exact writable_array_iff.2 ⟨less, rfl, writable_of_readItems? items hitems hread⟩
  | .object fields, _, hs, _, h => by
    obtain ⟨less, rfl, hfields⟩ := Spelling.plain_object_iff.1 hs
    rw [readWith?_object fun field hfield => (hfields field hfield).1] at h
    obtain ⟨read, hread, rfl⟩ := Option.map_eq_some_iff.1 h
    refine writable_object_iff.2 ⟨Keyed.nodup_keys_ofPairs _, less, rfl, fun field hfield => ?_⟩
    exact writable_of_readFields? fields hfields hread field (Keyed.mem_of_mem_ofPairs hfield)

/-- So can the items of an array. -/
theorem writable_of_readItems? : (items : List Spelling) → {levels : Nat} →
    (∀ item ∈ items, item.Plain levels) → {js : List Json} →
    Json.readItems? read items = some js → ∀ item ∈ ofItems js, item.Writable levels
  | [], _, _, _, h => by
    cases h
    exact List.forall_mem_nil _
  | item :: rest, _, hitems, _, h => by
    rw [List.forall_mem_cons] at hitems
    obtain ⟨j, hj, h⟩ := Option.bind_eq_some_iff.1 h
    obtain ⟨js, hjs, heq⟩ := Option.bind_eq_some_iff.1 h
    cases heq
    exact List.forall_mem_cons.2
      ⟨writable_of_readWith? item hitems.1 hj, writable_of_readItems? rest hitems.2 hjs⟩

/-- So can the fields of an object. -/
theorem writable_of_readFields? : (fields : List (String × Spelling)) → {levels : Nat} →
    (∀ field ∈ fields, field.1 ≠ Json.embeddingKey ∧ field.2.Plain levels) →
    {js : List (String × Json)} → Json.readFields? read fields = some js →
    ∀ field ∈ ofFields js, field.1 ≠ Json.embeddingKey ∧ field.2.Writable levels
  | [], _, _, _, h => by
    cases h
    exact List.forall_mem_nil _
  | (key, item) :: rest, _, hfields, _, h => by
    rw [List.forall_mem_cons] at hfields
    obtain ⟨j, hj, h⟩ := Option.bind_eq_some_iff.1 h
    obtain ⟨js, hjs, heq⟩ := Option.bind_eq_some_iff.1 h
    cases heq
    exact List.forall_mem_cons.2
      ⟨⟨hfields.1.1, writable_of_readWith? item hfields.1.2 hj⟩,
        writable_of_readFields? rest hfields.2 hjs⟩

end

mutual

/-- The spelling of a value that can be written is read as a document of the value. -/
theorem exists_readWith?_toSpelling : (v : Value) → {levels : Nat} → v.Writable levels →
    ∃ j, Json.readWith? read v.toSpelling = some j ∧ ofJson j = v
  | .null, _, _ => ⟨.null, rfl, rfl⟩
  | .bool b, _, _ => ⟨.bool b, rfl, rfl⟩
  | .number n, _, _ => ⟨.number n, rfl, rfl⟩
  | .text s, _, _ => ⟨.text s, rfl, rfl⟩
  | .array items, _, h => by
    obtain ⟨less, rfl, hitems⟩ := writable_array_iff.1 h
    obtain ⟨js, hread, hvalue⟩ := exists_readItems?_spellItems items hitems
    refine ⟨.array js, ?_, congrArg array hvalue⟩
    rw [toSpelling, Json.readWith?, hread]
    rfl
  | .object fields, _, h => by
    obtain ⟨hkeys, less, rfl, hfields⟩ := writable_object_iff.1 h
    obtain ⟨js, hread, hvalue⟩ := exists_readFields?_spellFields fields fun field hfield =>
      (hfields field hfield).2
    refine ⟨.object js, ?_, ?_⟩
    · rw [toSpelling, readWith?_object, hread]
      · rfl
      · rw [spellFields_eq_map, List.forall_mem_map]
        exact fun field hfield => (hfields field hfield).1
    · rw [ofJson, hvalue, Keyed.ofPairs_of_nodup hkeys]

/-- So are the spellings of some items. -/
theorem exists_readItems?_spellItems : (items : List Value) → {levels : Nat} →
    (∀ item ∈ items, item.Writable levels) →
    ∃ js, Json.readItems? read (spellItems items) = some js ∧ ofItems js = items
  | [], _, _ => ⟨[], rfl, rfl⟩
  | item :: rest, _, h => by
    rw [List.forall_mem_cons] at h
    obtain ⟨j, hj, hitem⟩ := exists_readWith?_toSpelling item h.1
    obtain ⟨js, hjs, hrest⟩ := exists_readItems?_spellItems rest h.2
    refine ⟨j :: js, ?_, ?_⟩
    · rw [spellItems, Json.readItems?, hj, hjs]
      rfl
    · rw [ofItems, hitem, hrest]

/-- So are the spellings of some fields. -/
theorem exists_readFields?_spellFields : (fields : List (String × Value)) → {levels : Nat} →
    (∀ field ∈ fields, field.2.Writable levels) →
    ∃ js, Json.readFields? read (spellFields fields) = some js ∧ ofFields js = fields
  | [], _, _ => ⟨[], rfl, rfl⟩
  | (key, item) :: rest, _, h => by
    rw [List.forall_mem_cons] at h
    obtain ⟨j, hj, hitem⟩ := exists_readWith?_toSpelling item h.1
    obtain ⟨js, hjs, hrest⟩ := exists_readFields?_spellFields rest h.2
    refine ⟨(key, j) :: js, ?_, ?_⟩
    · rw [spellFields, Json.readFields?, hj, hjs]
      rfl
    · rw [ofFields, hitem, hrest]

end

/-- **A value read from a plain spelling can be written.** -/
theorem writable_of_ofSpelling? {s : Spelling} (hs : s.Plain levels) {v : Value}
    (h : ofSpelling? s = some v) : v.Writable levels := by
  obtain ⟨j, hj, rfl⟩ := Option.map_eq_some_iff.1 h
  exact writable_of_readWith? s hs hj

/-- **A value that can be written is read from its spelling.** -/
theorem ofSpelling?_toSpelling {v : Value} (h : v.Writable levels) :
    ofSpelling? v.toSpelling = some v := by
  obtain ⟨j, hj, rfl⟩ := exists_readWith?_toSpelling v h
  exact Option.map_eq_some_iff.2 ⟨j, hj, rfl⟩

end Value

end ProgramGraph
