import ProgramGraph.Proofs.Format.Survival
/-!
# Records survive being written

The fields of a record are decoded one after the other and then put together. `RowSurvives`
says of such fields what `FieldSurvives` says of each of them, and is built up field by
field (`RowSurvives.nil`, `FieldSurvives.cons`), for records with any number of fields. A
record whose row survives does, too, whether it was an object or an array.
-/

namespace ProgramGraph

/-! ## Rows -/

/-- So many things in a row. -/
def Row (τ : Type) : Nat → Type
  | 0 => Unit
  | n + 1 => τ × Row τ n

namespace Row

variable {τ σ : Type}

/-- The things in a row as a list. -/
def toList : {n : Nat} → Row τ n → List τ
  | 0, _ => []
  | _ + 1, row => row.1 :: row.2.toList

/-- A function of each. -/
def map (f : τ → σ) : {n : Nat} → Row τ n → Row σ n
  | 0, _ => ()
  | _ + 1, row => (f row.1, row.2.map f)

theorem toList_map (f : τ → σ) : {n : Nat} → (row : Row τ n) → (row.map f).toList = row.toList.map f
  | 0, _ => rfl
  | _ + 1, row => congrArg (f row.1 :: ·) (toList_map f row.2)

theorem length_toList : {n : Nat} → (row : Row τ n) → row.toList.length = n
  | 0, _ => rfl
  | _ + 1, row => congrArg (· + 1) (length_toList row.2)

/-- A list of so many things is a row. -/
theorem exists_toList : (items : List τ) → ∃ row : Row τ items.length, row.toList = items
  | [] => ⟨(), rfl⟩
  | item :: rest =>
    have ⟨row, hrow⟩ := exists_toList rest
    ⟨(item, row), congrArg (item :: ·) hrow⟩

end Row

variable {α β γ : Type} {n : Nat}

/-- **Whatever is read from a row of fields survives being written.** What the fields hold is
handed to `made`, which puts the record together. -/
def RowSurvives (decode : (α → γ) → Row (Option Spelling) n → Option γ)
    (toValues : α → Row Value n) : Prop :=
  ∀ ⦃levels made row c⦄, (∀ field ∈ row.toList, ∀ s ∈ field, s.Plain levels) →
    decode made row = some c →
    ∃ a, c = made a ∧ (∀ v ∈ (toValues a).toList, v.toSpelling.Within levels) ∧
      decode made ((toValues a).map fun v => some v.toSpelling) = some c

/-- No fields hold nothing. -/
theorem RowSurvives.nil :
    RowSurvives (fun (made : Unit → γ) (_ : Row (Option Spelling) 0) => some (made ()))
      fun _ => () := by
  intro levels made row c _ h
  cases h
  exact ⟨(), rfl, List.forall_mem_nil _, rfl⟩

/-- **A field before others.** -/
theorem FieldSurvives.cons {first : Option Spelling → Option α} {toValue : α → Value}
    (hfirst : FieldSurvives first toValue)
    {others : (β → γ) → Row (Option Spelling) n → Option γ} {toValues : β → Row Value n}
    (hothers : RowSurvives others toValues) :
    RowSurvives
      (fun (made : α × β → γ) (row : Row (Option Spelling) (n + 1)) =>
        (first row.1).bind fun a => others (fun b => made (a, b)) row.2)
      fun held => (toValue held.1, toValues held.2) := by
  intro levels made row c hplain h
  rw [Row.toList, List.forall_mem_cons] at hplain
  obtain ⟨a, ha, h⟩ := Option.bind_eq_some_iff.1 h
  obtain ⟨hwithin, hagain⟩ := hfirst hplain.1 ha
  obtain ⟨b, rfl, hwithins, hagains⟩ := hothers hplain.2 h
  refine ⟨(a, b), rfl, List.forall_mem_cons.2 ⟨hwithin, hwithins⟩, ?_⟩
  exact Option.bind_eq_some_iff.2 ⟨a, hagain, hagains⟩

/-! ## Records -/

namespace Spelling

variable {names : List String} {fields : List (String × Spelling)} {found : List (Option Spelling)}

/-- What is found under a name is in a field of the name. -/
theorem mem_of_lookupOnce? {name : String} {s : Spelling}
    (h : lookupOnce? fields name = some (some s)) : (name, s) ∈ fields := by
  unfold lookupOnce? at h
  split at h
  next => cases h
  next k s' hfilter =>
    cases h
    have hmem : (k, s) ∈ fields.filter fun field => field.1 == name := by
      rw [hfilter]
      exact List.mem_singleton_self _
    obtain ⟨hmem, hname⟩ := List.mem_filter.1 hmem
    have hk : k = name := eq_of_beq hname
    exact hk ▸ hmem
  next => cases h

/-- If names are unique, what is in a field of a name is found under the name. -/
theorem lookupOnce?_of_mem (hnames : (fields.map Prod.fst).Nodup) {name : String} {s : Spelling}
    (h : (name, s) ∈ fields) : lookupOnce? fields name = some (some s) := by
  have hfilter : fields.filter (fun field => field.1 == name) = [(name, s)] := by
    induction fields with
    | nil => exact absurd h List.not_mem_nil
    | cons field rest ih =>
      obtain ⟨hnew, hrest⟩ := List.nodup_cons.1 hnames
      rcases List.mem_cons.1 h with rfl | hmem
      · have hnone : rest.filter (fun field => field.1 == name) = [] := by
          refine List.filter_eq_nil_iff.2 fun other hother heq => hnew ?_
          exact List.mem_map.2 ⟨other, hother, eq_of_beq heq⟩
        rw [List.filter_cons, if_pos (beq_self_eq_true name), hnone]
      · have hname : field.1 ≠ name := fun heq => hnew (heq ▸ List.mem_map_of_mem hmem)
        rw [List.filter_cons, if_neg (fun heq => hname (eq_of_beq heq)), ih hrest hmem]
  rw [lookupOnce?, hfilter]

/-- **Each field of a plain record is plain.** -/
theorem exists_of_record? {s : Spelling} {levels : Nat} (hs : s.Plain levels)
    (h : s.record? names = some found) :
    ∃ less, levels = less + 1 ∧ found.length = names.length ∧
      ∀ field ∈ found, ∀ s ∈ field, s.Plain less := by
  cases s with
  | object fields =>
    obtain ⟨less, rfl, hplain⟩ := plain_object_iff.1 hs
    refine ⟨less, rfl, length_of_mapM_eq_some h, fun field hfield s hs => ?_⟩
    obtain ⟨name, -, hlookup⟩ := exists_of_mem_mapM h hfield
    cases hs
    exact (hplain _ (mem_of_lookupOnce? hlookup)).2
  | array items =>
    obtain ⟨less, rfl, hplain⟩ := plain_array_iff.1 hs
    obtain ⟨hlength, rfl⟩ : items.length = names.length ∧ items.map some = found := by
      simpa [record?] using h
    refine ⟨less, rfl, by rw [List.length_map, hlength], List.forall_mem_map.2 ?_⟩
    rintro item hitem _ ⟨⟩
    exact hplain item hitem
  | _ => cases h

/-- **A record has all its fields once it is written.** -/
theorem record?_zip (hnames : names.Nodup) {spellings : List Spelling}
    (hlength : spellings.length = names.length) :
    record? names (object (names.zip spellings)) = some (spellings.map some) := by
  have hkeys : ((names.zip spellings).map Prod.fst).Nodup := by
    rwa [List.map_fst_zip (Nat.le_of_eq hlength.symm)]
  have hfound : ((names.zip spellings).map Prod.fst).mapM (lookupOnce? (names.zip spellings)) =
      some ((names.zip spellings).map fun field => some field.2) :=
    mapM_map_eq_some fun field hfield => lookupOnce?_of_mem hkeys hfield
  have hspellings : (names.zip spellings).map (fun field => some field.2) =
      ((names.zip spellings).map Prod.snd).map some := by rw [List.map_map]; rfl
  rw [List.map_fst_zip (Nat.le_of_eq hlength.symm), hspellings,
    List.map_snd_zip (Nat.le_of_eq hlength)] at hfound
  rw [record?, hfound]

end Spelling

/-- **A record** of fields that survive. -/
theorem Survives.record (names : List String) (hnames : names.Nodup)
    {decode : (α → γ) → Row (Option Spelling) names.length → Option γ}
    {toValues : α → Row Value names.length} (hrow : RowSurvives decode toValues) (made : α → γ)
    {parse : List (Option Spelling) → Option γ} (hparse : ∀ row, parse row.toList = decode made row)
    {toValue : γ → Value}
    (hvalue : ∀ a, toValue (made a) = .object (names.zip (toValues a).toList)) :
    Survives (fun s => (s.record? names).bind parse) toValue := by
  intro levels s c hs hread
  obtain ⟨found, hfound, hread⟩ := Option.bind_eq_some_iff.1 hread
  obtain ⟨less, rfl, hlength, hplain⟩ := Spelling.exists_of_record? hs hfound
  obtain ⟨row, rfl⟩ : ∃ row : Row (Option Spelling) names.length, row.toList = found :=
    hlength ▸ Row.exists_toList found
  rw [hparse] at hread
  obtain ⟨a, rfl, hwithin, hagain⟩ := hrow hplain hread
  have hspell : (toValue (made a)).toSpelling =
      .object (names.zip ((toValues a).toList.map Value.toSpelling)) := by
    rw [hvalue, Value.toSpelling, Value.spellFields_eq_map, List.zip_map_right]
    rfl
  rw [hspell]
  refine ⟨Spelling.within_object_iff.2 ⟨less, rfl, fun field hfield => ?_⟩, ?_⟩
  · exact List.forall_mem_map.2 hwithin _ (List.of_mem_zip hfield).2
  · refine Option.bind_eq_some_iff.2 ⟨_, Spelling.record?_zip hnames ?_, ?_⟩
    · rw [List.length_map, Row.length_toList]
    · rw [← hagain, ← hparse, Row.toList_map, List.map_map]
      rfl

/-! ## Objects around an entry -/

namespace Spelling

variable {key : String} {fields : List (String × Spelling)} {s : Spelling}
variable {extra : Keyed String Value}

theorem splitEntry?_object_eq_some : splitEntry? key (object fields) = some (s, extra) ↔
    lookupOnce? fields key = some (some s) ∧
      values? (fields.filter fun field => field.1 != key) = some extra := by
  unfold splitEntry?
  simp only [Option.bind_eq_bind, Option.bind_eq_some_iff]
  constructor
  · rintro ⟨_, hlookup, _, rfl, _, hvalues, heq⟩
    cases heq
    exact ⟨hlookup, hvalues⟩
  · rintro ⟨hlookup, hvalues⟩
    exact ⟨_, hlookup, _, rfl, _, hvalues, rfl⟩

/-- The entry of a key before others is split off again. -/
theorem splitEntry?_cons (hkey : ∀ field ∈ fields, field.1 ≠ key)
    (hextra : values? fields = some extra) :
    splitEntry? key (object ((key, s) :: fields)) = some (s, extra) := by
  refine splitEntry?_object_eq_some.2 ⟨?_, ?_⟩
  · have hnone : fields.filter (fun field => field.1 == key) = [] :=
      List.filter_eq_nil_iff.2 fun field hfield heq => hkey field hfield (eq_of_beq heq)
    rw [lookupOnce?, List.filter_cons, if_pos (beq_self_eq_true key), hnone]
  · have hall : fields.filter (fun field => field.1 != key) = fields :=
      List.filter_eq_self.2 fun field hfield => bne_iff_ne.2 (hkey field hfield)
    rw [List.filter_cons, if_neg (by simp), hall, hextra]

end Spelling

/-- **An object around an entry,** with further data that is kept as it is. -/
theorem Survives.entry {decode : Spelling → Option α} {toValue : α → Value}
    (h : Survives decode toValue) (key : String) (made : α → Keyed String Value → γ)
    {whole : γ → Value}
    (hvalue : ∀ a extra, whole (made a extra) = .object ((key, toValue a) :: extra)) :
    Survives (fun s => do
      let entry ← s.splitEntry? key
      return made (← decode entry.1) entry.2) whole := by
  intro levels s c hs hread
  obtain ⟨⟨entry, extra⟩, hsplit, hread⟩ := Option.bind_eq_some_iff.1 hread
  obtain ⟨a, ha, heq⟩ := Option.bind_eq_some_iff.1 hread
  cases heq
  cases s with
  | object fields =>
    obtain ⟨less, rfl, hplain⟩ := Spelling.plain_object_iff.1 hs
    obtain ⟨hlookup, hextra⟩ := Spelling.splitEntry?_object_eq_some.1 hsplit
    obtain ⟨hwithin, hagain⟩ := h (hplain _ (Spelling.mem_of_lookupOnce? hlookup)).2 ha
    -- The further data is plain, since it is part of what was spelled.
    have hothers : (Spelling.object (fields.filter fun field => field.1 != key)).Plain (less + 1) :=
      Spelling.plain_object_iff.2
        ⟨less, rfl, fun field hfield => hplain field (List.mem_filter.1 hfield).1⟩
    obtain ⟨hextraWithin, hextraAgain⟩ := Survives.value.keyed hothers hextra
    rw [Spelling.toSpelling_object] at hextraWithin hextraAgain
    have hkey : ∀ field ∈ extra.map fun entry => (entry.1, entry.2.toSpelling), field.1 ≠ key := by
      refine List.forall_mem_map.2 fun entry hentry heq => ?_
      obtain ⟨field, hfield, hname, -⟩ := Spelling.exists_of_mem_keyed? hextra hentry
      exact bne_iff_ne.1 (List.mem_filter.1 hfield).2 (hname.trans heq)
    have hspell : (whole (made a extra)).toSpelling =
        .object ((key, (toValue a).toSpelling) ::
          extra.map fun entry => (entry.1, entry.2.toSpelling)) := by
      rw [hvalue, Value.toSpelling, Value.spellFields_eq_map]
      rfl
    rw [hspell]
    refine ⟨Spelling.within_object_iff.2 ⟨less, rfl, List.forall_mem_cons.2 ⟨hwithin, ?_⟩⟩, ?_⟩
    · obtain ⟨less', hless, hwithins⟩ := Spelling.within_object_iff.1 hextraWithin
      cases hless
      exact hwithins
    · exact Option.bind_eq_some_iff.2
        ⟨_, Spelling.splitEntry?_cons hkey hextraAgain, Option.bind_eq_some_iff.2 ⟨a, hagain, rfl⟩⟩
  | _ => cases hsplit

end ProgramGraph
