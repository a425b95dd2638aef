import ProgramGraph.Graph.Format
import ProgramGraph.Proofs.Format.Value
/-!
# Forms that survive being written

A form is a way to read something from a spelling, and a way to write it. What has been read
survives (`Survives`) if it is written within the levels it was read from, and read from
there again as the same. Numbers, texts and values do; so do lists, entries under keys,
records (`Survives.record`) and objects around an entry (`Survives.entry`) made of parts that
do. How the parts were spelled is lost in between, and does not matter.
-/

namespace ProgramGraph

/-- **Whatever is read survives being written.** -/
def Survives {α : Type} (decode : Spelling → Option α) (toValue : α → Value) : Prop :=
  ∀ ⦃levels s a⦄, s.Plain levels → decode s = some a →
    (toValue a).toSpelling.Within levels ∧ decode (toValue a).toSpelling = some a

/-- So does what is read from a field that may be missing. It is always there once it has
been written. -/
def FieldSurvives {α : Type} (decode : Option Spelling → Option α) (toValue : α → Value) : Prop :=
  ∀ ⦃levels field a⦄, (∀ s ∈ field, s.Plain levels) → decode field = some a →
    (toValue a).toSpelling.Within levels ∧ decode (some (toValue a).toSpelling) = some a

variable {α β γ : Type} {decode : Spelling → Option α} {toValue : α → Value}

/-! ## Lists of what can be read -/

section List

variable {f : α → Option β} {items : List α} {read : List β}

theorem mapM_cons_eq_some {item : α} :
    (item :: items).mapM f = some read ↔
      ∃ b rest, f item = some b ∧ items.mapM f = some rest ∧ read = b :: rest := by
  rw [List.mapM_cons]
  cases f item <;> cases items.mapM f <;> simp [eq_comm]

theorem length_of_mapM_eq_some (h : items.mapM f = some read) : read.length = items.length := by
  induction items generalizing read with
  | nil =>
    cases h
    rfl
  | cons item rest ih =>
    obtain ⟨b, others, -, hothers, rfl⟩ := mapM_cons_eq_some.1 h
    rw [List.length_cons, List.length_cons, ih hothers]

/-- Each of what is read is read from one of the items. -/
theorem exists_of_mem_mapM (h : items.mapM f = some read) {b : β} (hb : b ∈ read) :
    ∃ item ∈ items, f item = some b := by
  induction items generalizing read with
  | nil =>
    cases h
    exact absurd hb List.not_mem_nil
  | cons item rest ih =>
    obtain ⟨b', others, hitem, hothers, rfl⟩ := mapM_cons_eq_some.1 h
    rcases List.mem_cons.1 hb with rfl | hrest
    · exact ⟨item, List.mem_cons_self, hitem⟩
    · obtain ⟨other, hmem, hother⟩ := ih hothers hrest
      exact ⟨other, List.mem_cons_of_mem _ hmem, hother⟩

/-- What is given for each of some things is read if it is read for each. -/
theorem mapM_map_eq_some {things : List γ} {given : γ → α} {result : γ → β}
    (h : ∀ x ∈ things, f (given x) = some (result x)) :
    (things.map given).mapM f = some (things.map result) := by
  induction things with
  | nil => rfl
  | cons x rest ih =>
    rw [List.forall_mem_cons] at h
    exact mapM_cons_eq_some.2 ⟨result x, rest.map result, h.1, ih h.2, rfl⟩

/-- What is written for each is read back from what is written for all. -/
theorem mapM_map_eq_some_self {write : β → α} (h : ∀ b ∈ read, f (write b) = some b) :
    (read.map write).mapM f = some read := by
  have hmap := @mapM_map_eq_some _ _ _ f read write id h
  rwa [List.map_id] at hmap

end List

/-! ## Simple forms -/

namespace Survives

/-- **Something made of what survives,** and written as it is. -/
theorem map (h : Survives decode toValue) (made : α → β) {toValue' : β → Value}
    (hvalue : ∀ a, toValue' (made a) = toValue a) :
    Survives (fun s => (decode s).map made) toValue' := by
  intro levels s b hs hread
  obtain ⟨a, ha, rfl⟩ := Option.map_eq_some_iff.1 hread
  obtain ⟨hwithin, hagain⟩ := h hs ha
  rw [hvalue]
  exact ⟨hwithin, Option.map_eq_some_iff.2 ⟨a, hagain, rfl⟩⟩

theorem natBelow {bound : Nat} (h : bound ≤ Word.count64) :
    Survives (Spelling.natBelow? bound) Value.nat := by
  intro levels s n _ hread
  unfold Spelling.natBelow? at hread
  split at hread
  next i _ =>
    obtain ⟨⟨hnonneg, hlt⟩, rfl⟩ : (0 ≤ i ∧ i < bound) ∧ i.toNat = n := by simpa using hread
    have hvalue : (Value.nat i.toNat).toSpelling = .number (.int i) := by
      rw [Value.nat, Int.toNat_of_nonneg hnonneg]
      rfl
    rw [hvalue]
    refine ⟨Spelling.within_number.2 ⟨?_, ?_⟩, ?_⟩
    · exact Int.le_trans (by decide) hnonneg
    · exact Int.lt_of_lt_of_le hlt (Int.ofNat_le.2 h)
    · rw [Spelling.natBelow?, if_pos ⟨hnonneg, hlt⟩]
  next => cases hread

theorem text : Survives Spelling.text? Value.text := by
  intro levels s a hs hread
  unfold Spelling.text? at hread
  split at hread
  next =>
    cases hread
    exact ⟨hs.within, rfl⟩
  next => cases hread

theorem value : Survives Value.ofSpelling? id := by
  intro levels s v hs hread
  have hwritable := Value.writable_of_ofSpelling? hs hread
  exact ⟨hwritable.plain.within, Value.ofSpelling?_toSpelling hwritable⟩

/-- **A list** of what survives. -/
theorem list (h : Survives decode toValue) :
    Survives (Spelling.list? decode) fun read => .array (read.map toValue) := by
  intro levels s read hs hread
  unfold Spelling.list? at hread
  split at hread
  next items =>
    obtain ⟨less, rfl, hplain⟩ := Spelling.plain_array_iff.1 hs
    have hitems : ∀ a ∈ read, (toValue a).toSpelling.Within less ∧
        decode (toValue a).toSpelling = some a := by
      intro a ha
      obtain ⟨item, hitem, hread⟩ := exists_of_mem_mapM hread ha
      exact h (hplain item hitem) hread
    have hspell : (Value.array (read.map toValue)).toSpelling =
        .array (read.map fun a => (toValue a).toSpelling) := by
      rw [Value.toSpelling, Value.spellItems_eq_map, List.map_map]
      rfl
    rw [hspell]
    refine ⟨Spelling.within_array_iff.2 ⟨less, rfl, List.forall_mem_map.2 fun a ha => ?_⟩, ?_⟩
    · exact (hitems a ha).1
    · exact mapM_map_eq_some_self fun a ha => (hitems a ha).2
  next => cases hread

end Survives

namespace Spelling

variable {fields : List (String × Spelling)} {entries : Keyed String α}

/-- Decodes the entry of a field. -/
def decodeField? (decode : Spelling → Option α) (field : String × Spelling) : Option (String × α) :=
  (decode field.2).bind fun a => some (field.1, a)

theorem keyed?_object :
    keyed? decode (object fields) = (fields.mapM (decodeField? decode)).bind fun pairs =>
      some (Keyed.ofPairs pairs) := rfl

/-- **Each entry is decoded from a field of its key.** -/
theorem exists_of_mem_keyed? (h : keyed? decode (object fields) = some entries)
    {entry : String × α} (hentry : entry ∈ entries) :
    ∃ field ∈ fields, field.1 = entry.1 ∧ decode field.2 = some entry.2 := by
  rw [keyed?_object] at h
  obtain ⟨pairs, hpairs, heq⟩ := Option.bind_eq_some_iff.1 h
  cases heq
  obtain ⟨field, hfield, hdecode⟩ := exists_of_mem_mapM hpairs (Keyed.mem_of_mem_ofPairs hentry)
  obtain ⟨a, ha, heq⟩ := Option.bind_eq_some_iff.1 hdecode
  cases heq
  exact ⟨field, hfield, rfl, ha⟩

theorem nodup_keys_of_keyed? {s : Spelling} (h : keyed? decode s = some entries) :
    entries.keys.Nodup := by
  cases s with
  | object fields =>
    rw [keyed?_object] at h
    obtain ⟨pairs, -, heq⟩ := Option.bind_eq_some_iff.1 h
    cases heq
    exact Keyed.nodup_keys_ofPairs pairs
  | _ => cases h

/-- The spelling of entries under keys. -/
theorem toSpelling_object (entries : Keyed String α) (toValue : α → Value) :
    (Value.object (entries.map fun entry => (entry.1, toValue entry.2))).toSpelling =
      object (entries.map fun entry => (entry.1, (toValue entry.2).toSpelling)) := by
  rw [Value.toSpelling, Value.spellFields_eq_map, List.map_map]
  rfl

end Spelling

/-- **Entries under keys,** each of which survives. A repeated key is there once when it is
written, in its first position and with its last entry, and that is how it is read again. -/
theorem Survives.keyed (h : Survives decode toValue) :
    Survives (Spelling.keyed? decode) fun entries =>
      .object (entries.map fun entry => (entry.1, toValue entry.2)) := by
  intro levels s entries hs hread
  cases s with
  | object fields =>
    obtain ⟨less, rfl, hplain⟩ := Spelling.plain_object_iff.1 hs
    have hentries : ∀ entry ∈ entries, (toValue entry.2).toSpelling.Within less ∧
        decode (toValue entry.2).toSpelling = some entry.2 := by
      intro entry hentry
      obtain ⟨field, hfield, -, hdecode⟩ := Spelling.exists_of_mem_keyed? hread hentry
      exact h (hplain field hfield).2 hdecode
    rw [Spelling.toSpelling_object]
    refine ⟨Spelling.within_object_iff.2 ⟨less, rfl, List.forall_mem_map.2 ?_⟩, ?_⟩
    · exact fun entry hentry => (hentries entry hentry).1
    · have hpairs : (entries.map fun entry => (entry.1, (toValue entry.2).toSpelling)).mapM
          (Spelling.decodeField? decode) = some entries := by
        refine mapM_map_eq_some_self fun entry hentry => ?_
        rw [Spelling.decodeField?, (hentries entry hentry).2, Option.bind_some]
      rw [Spelling.keyed?_object, hpairs, Option.bind_some,
        Keyed.ofPairs_of_nodup (Spelling.nodup_keys_of_keyed? hread)]
  | _ => cases hread

/-! ## Fields -/

/-- A field that must be there. -/
theorem Survives.required (h : Survives decode toValue) :
    FieldSurvives (Spelling.required decode) toValue := by
  intro levels field a hplain hread
  obtain ⟨s, rfl, ha⟩ := Option.bind_eq_some_iff.1 hread
  exact h (hplain s rfl) ha

theorem Spelling.nullable_some {s : Spelling} (h : s ≠ .null) :
    Spelling.nullable decode (some s) = (decode s).map some := by
  cases s <;> first | rfl | exact absurd rfl h

/-- **A field that may be missing or null** is null when it is written, and so it is null
again, provided that nothing else is written as null. -/
theorem Survives.nullable (h : Survives decode toValue)
    (hnull : ∀ a, (toValue a).toSpelling ≠ .null) :
    FieldSurvives (Spelling.nullable decode) (Value.ofOption toValue) := by
  intro levels field a hplain hread
  match a with
  | none => exact ⟨Spelling.within_null, rfl⟩
  | some a =>
    obtain ⟨s, rfl, ha⟩ : ∃ s, field = some s ∧ decode s = some a := by
      cases field with
      | none => cases hread
      | some s =>
        refine ⟨s, rfl, ?_⟩
        cases s with
        | null => cases hread
        | _ => simpa [Spelling.nullable] using hread
    obtain ⟨hwithin, hagain⟩ := h (hplain s rfl) ha
    refine ⟨hwithin, ?_⟩
    rw [Value.ofOption, Spelling.nullable_some (hnull a), hagain]
    rfl

end ProgramGraph
