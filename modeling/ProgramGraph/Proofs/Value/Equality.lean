import Mathlib.Data.List.Perm.Subperm
import ProgramGraph.Proofs.Format.Value
import ProgramGraph.Value.Equality
/-!
# Values that are the same

Objects are compared by the number of their fields and by a look-up for each field of one of
them. This is enough only because keys are unique: then as many keys as the other has, all of
which the other has, are all its keys. So what a comparison finds does not hang on the order in
which fields stand or on which of the two values comes first. It finds whether the values are
the same (`Value.eqv_iff_same`), and to be the same is an equivalence.

A comparison may do less than it says, or do it in another way. Containers that share their
storage need not be looked into (`Value.Compares`), and a document can be compared as it stands
(`Value.eqvJson_eq`). Neither makes a difference.
-/

namespace ProgramGraph

/-! ## Keys and entries -/

namespace Keyed

variable {κ α β : Type} [DecidableEq κ] {entries more : Keyed κ α} {key : κ} {a : α}

/-- A key is one under which something is found. -/
theorem mem_keys_iff : key ∈ entries.keys ↔ ∃ a, entries.find? key = some a := by
  constructor
  · intro hmem
    cases hfind : entries.find? key with
    | some a => exact ⟨a, rfl⟩
    | none =>
      induction entries with
      | nil => cases hmem
      | cons entry rest ih =>
        obtain ⟨k, b⟩ := entry
        rw [find?_cons] at hfind
        split at hfind
        next => cases hfind
        next hne => exact ih ((List.mem_cons.1 hmem).resolve_left hne) hfind
  · rintro ⟨a, hfind⟩
    exact List.mem_map_of_mem (mem_of_find? hfind)

/-- **Each entry is found under its key,** if keys are unique. -/
theorem find?_of_mem (hkeys : entries.keys.Nodup) (hmem : (key, a) ∈ entries) :
    entries.find? key = some a := by
  induction entries with
  | nil => cases hmem
  | cons entry rest ih =>
    obtain ⟨k, b⟩ := entry
    obtain ⟨hk, hrest⟩ := List.nodup_cons.1 hkeys
    rw [find?_cons]
    rcases List.mem_cons.1 hmem with heq | hmem
    · cases heq
      rw [if_pos rfl]
    · have hkey : key ∈ keys rest := List.mem_map_of_mem hmem
      have hne : key ≠ k := fun heq => hk (heq ▸ hkey)
      rw [if_neg hne, ih hrest hmem]

omit [DecidableEq κ] in
/-- **Keys that are all among as many others are all of those,** if they are unique. -/
theorem keys_subset_of_length_eq (hkeys : entries.keys.Nodup)
    (hsubset : entries.keys ⊆ more.keys) (hlength : entries.length = more.length) :
    more.keys ⊆ entries.keys := by
  have hle : more.keys.length ≤ entries.keys.length := by
    rw [keys, keys, List.length_map, List.length_map]
    exact Nat.le_of_eq hlength.symm
  exact ((List.subperm_of_subset hkeys hsubset).perm_of_length_le hle).symm.subset

omit [DecidableEq κ] in
/-- Unique keys that are among others are not more than those. -/
theorem length_le_of_keys_subset (hkeys : entries.keys.Nodup)
    (hsubset : entries.keys ⊆ more.keys) : entries.length ≤ more.length := by
  have hle := (List.subperm_of_subset hkeys hsubset).length_le
  rwa [keys, keys, List.length_map, List.length_map] at hle

/-! Entries that are changed one by one, their keys left alone. -/

theorem find?_map (f : α → β) (entries : Keyed κ α) (key : κ) :
    find? (entries.map (Prod.map id f)) key = (entries.find? key).map f := by
  induction entries with
  | nil => rfl
  | cons entry rest ih =>
    obtain ⟨k, b⟩ := entry
    rw [List.map_cons, Prod.map_apply, id, find?_cons, find?_cons, ih]
    split <;> rfl

theorem insert_map (f : α → β) (entries : Keyed κ α) (key : κ) (a : α) :
    insert (entries.map (Prod.map id f)) key (f a) = (entries.insert key a).map (Prod.map id f) := by
  induction entries with
  | nil => rfl
  | cons entry rest ih =>
    obtain ⟨k, b⟩ := entry
    rw [List.map_cons, Prod.map_apply, id, insert, insert, ih]
    split <;> rfl

theorem union_map (f : α → β) (entries more : Keyed κ α) :
    union (entries.map (Prod.map id f)) (more.map (Prod.map id f)) =
      (entries.union more).map (Prod.map id f) := by
  induction more generalizing entries with
  | nil => rfl
  | cons entry rest ih =>
    obtain ⟨k, b⟩ := entry
    have hcons : ∀ {γ : Type} (entries rest : Keyed κ γ) (c : γ),
        entries.union ((k, c) :: rest) = (entries.insert k c).union rest := fun _ _ _ => rfl
    rw [List.map_cons, Prod.map_apply, id, hcons, hcons, insert_map, ih]

/-- **Repeated keys come down to the same entries** before and after. -/
theorem ofPairs_map (f : α → β) (pairs : List (κ × α)) :
    ofPairs (pairs.map (Prod.map id f)) = (ofPairs pairs).map (Prod.map id f) :=
  union_map f [] pairs

end Keyed

namespace Value

/-- **Induction on all that is inside a value.** -/
@[elab_as_elim]
theorem induction_inside {motive : Value → Prop} (null : motive null) (bool : ∀ b, motive (bool b))
    (number : ∀ n, motive (number n)) (text : ∀ s, motive (text s))
    (array : ∀ items, (∀ item ∈ items, motive item) → motive (array items))
    (object : ∀ fields : Keyed String Value, (∀ field ∈ fields, motive field.2) →
      motive (object fields)) (v : Value) : motive v :=
  @Value.rec motive (fun items => ∀ item ∈ items, motive item)
    (fun fields => ∀ field ∈ fields, motive field.2) (fun field => motive field.2)
    null bool number text array object (List.forall_mem_nil _)
    (fun _ _ hitem hrest => List.forall_mem_cons.2 ⟨hitem, hrest⟩) (List.forall_mem_nil _)
    (fun _ _ hfield hrest => List.forall_mem_cons.2 ⟨hfield, hrest⟩) (fun _ _ hitem => hitem) v

/-! ## To be the same -/

/-- **The values are the same:** numbers of one class and one value, the two zeros being one;
items that are the same at the same places; and fields that are the same under the same keys,
wherever they stand. -/
inductive Same : Value → Value → Prop
  | null : Same null null
  | bool (b : Bool) : Same (bool b) (bool b)
  | int (n : Int) : Same (number (.int n)) (number (.int n))
  | double {x y : Double} : x = y ∨ x.magnitude = 0 ∧ y.magnitude = 0 →
    Same (number (.double x)) (number (.double y))
  | text (s : String) : Same (text s) (text s)
  | array {as bs : List Value} : as.length = bs.length →
    (∀ (i : Nat) (a b : Value), as[i]? = some a → bs[i]? = some b → Same a b) →
    Same (array as) (array bs)
  | object {as bs : Keyed String Value} : (∀ key, key ∈ as.keys ↔ key ∈ bs.keys) →
    (∀ key a b, as.find? key = some a → bs.find? key = some b → Same a b) →
    Same (object as) (object bs)

namespace Same

variable {u v w : Value}

theorem refl (v : Value) : v.Same v := by
  induction v using induction_inside with
  | null => exact .null
  | bool b => exact .bool b
  | number n =>
    cases n with
    | int n => exact .int n
    | double x => exact .double (.inl rfl)
  | text s => exact .text s
  | array items ih =>
    refine .array rfl fun i a b ha hb => ?_
    obtain rfl : a = b := Option.some.inj (ha.symm.trans hb)
    exact ih a (List.mem_of_getElem? ha)
  | object fields ih =>
    refine .object (fun _ => Iff.rfl) fun key a b ha hb => ?_
    obtain rfl : a = b := Option.some.inj (ha.symm.trans hb)
    exact ih (key, a) (Keyed.mem_of_find? ha)

theorem symm (h : v.Same w) : w.Same v := by
  induction h with
  | null => exact .null
  | bool b => exact .bool b
  | int n => exact .int n
  | double h => exact .double (h.imp Eq.symm And.symm)
  | text s => exact .text s
  | array hlength _ ih => exact .array hlength.symm fun i a b ha hb => ih i b a hb ha
  | object hkeys _ ih =>
    exact .object (fun key => (hkeys key).symm) fun key a b ha hb => ih key b a hb ha

theorem trans (h : u.Same v) (h' : v.Same w) : u.Same w := by
  induction h generalizing w with
  | null => exact h'
  | bool b => exact h'
  | int n => exact h'
  | double h =>
    cases h' with
    | double h' =>
      rcases h with rfl | ⟨hx, hy⟩
      · exact .double h'
      · rcases h' with rfl | ⟨-, hz⟩
        · exact .double (.inr ⟨hx, hy⟩)
        · exact .double (.inr ⟨hx, hz⟩)
  | text s => exact h'
  | @array as bs hlength _ ih =>
    cases h' with
    | array hlength' hitems =>
      refine .array (hlength.trans hlength') fun i a c ha hc => ?_
      obtain ⟨hi, -⟩ := List.getElem?_eq_some_iff.1 ha
      have hb : bs[i]? = some bs[i] := List.getElem?_eq_getElem (hlength ▸ hi)
      exact ih i a bs[i] ha hb (hitems i bs[i] c hb hc)
  | object hkeys _ ih =>
    cases h' with
    | object hkeys' hfields =>
      refine .object (fun key => (hkeys key).trans (hkeys' key)) fun key a c ha hc => ?_
      obtain ⟨b, hb⟩ := Keyed.mem_keys_iff.1 ((hkeys key).1 (Keyed.mem_keys_iff.2 ⟨a, ha⟩))
      exact ih key a b ha hb (hfields key b c hb hc)

end Same

/-! ## What a comparison finds -/

variable {as bs : List Value} {v w : Value}

theorem eqvItems_iff : eqvItems as bs = true ↔ as.length = bs.length ∧
    ∀ (i : Nat) (a b : Value), as[i]? = some a → bs[i]? = some b → a.eqv b = true := by
  induction as generalizing bs with
  | nil => cases bs <;> simp [eqvItems]
  | cons a as ih =>
    cases bs with
    | nil => simp [eqvItems]
    | cons b bs =>
      rw [eqvItems, Bool.and_eq_true, ih, List.length_cons, List.length_cons, Nat.succ_inj]
      constructor
      · rintro ⟨hfirst, hlength, hrest⟩
        refine ⟨hlength, fun i x y hx hy => ?_⟩
        cases i with
        | zero =>
          cases hx
          cases hy
          exact hfirst
        | succ i => exact hrest i x y hx hy
      · rintro ⟨hlength, hall⟩
        exact ⟨hall 0 a b rfl rfl, hlength, fun i => hall (i + 1)⟩

theorem eqv_array_iff : (array as).eqv (array bs) = true ↔ as.length = bs.length ∧
    ∀ (i : Nat) (a b : Value), as[i]? = some a → bs[i]? = some b → a.eqv b = true := by
  rw [eqv]
  exact eqvItems_iff

variable {fields more : Keyed String Value}

theorem eqvFields_iff : eqvFields fields more = true ↔
    ∀ field ∈ fields, ∃ b, more.find? field.1 = some b ∧ field.2.eqv b = true := by
  induction fields with
  | nil => simp [eqvFields]
  | cons field rest ih =>
    obtain ⟨key, a⟩ := field
    rw [eqvFields, Bool.and_eq_true, ih, List.forall_mem_cons]
    refine and_congr_left' ?_
    cases hfind : Keyed.find? more key <;> simp

/-- **Objects are found equal** when they have the same keys and equal values under each. -/
theorem eqv_object_iff (hfields : fields.keys.Nodup) (hmore : more.keys.Nodup) :
    (object fields).eqv (object more) = true ↔ (∀ key, key ∈ fields.keys ↔ key ∈ more.keys) ∧
      ∀ key a b, fields.find? key = some a → more.find? key = some b → a.eqv b = true := by
  rw [eqv, Bool.and_eq_true, beq_iff_eq, eqvFields_iff]
  constructor
  · rintro ⟨hlength, hall⟩
    have hsubset : fields.keys ⊆ more.keys := by
      intro key hkey
      obtain ⟨a, ha⟩ := Keyed.mem_keys_iff.1 hkey
      obtain ⟨b, hb, -⟩ := hall _ (Keyed.mem_of_find? ha)
      exact Keyed.mem_keys_iff.2 ⟨b, hb⟩
    have hsuperset := Keyed.keys_subset_of_length_eq hfields hsubset hlength
    refine ⟨fun key => ⟨@hsubset key, @hsuperset key⟩, fun key a b ha hb => ?_⟩
    obtain ⟨b', hb', heqv⟩ := hall _ (Keyed.mem_of_find? ha)
    obtain rfl : b = b' := Option.some.inj (hb.symm.trans hb')
    exact heqv
  · rintro ⟨hkeys, hall⟩
    refine ⟨Nat.le_antisymm ?_ ?_, fun field hfield => ?_⟩
    · exact Keyed.length_le_of_keys_subset hfields fun key => (hkeys key).1
    · exact Keyed.length_le_of_keys_subset hmore fun key => (hkeys key).2
    · have ha := Keyed.find?_of_mem hfields hfield
      obtain ⟨b, hb⟩ := Keyed.mem_keys_iff.1 ((hkeys _).1 (Keyed.mem_keys_iff.2 ⟨_, ha⟩))
      exact ⟨b, hb, hall _ _ b ha hb⟩

theorem number_same_iff {n m : Number} : n.eqv m = true ↔ (number n).Same (number m) := by
  cases n with
  | int n =>
    cases m with
    | int m =>
      rw [Number.eqv, beq_iff_eq]
      exact ⟨fun h => h ▸ .int n, fun h => by cases h; rfl⟩
    | double y => exact iff_of_false (fun h => by cases h) fun h => by cases h
  | double x =>
    cases m with
    | int m => exact iff_of_false (fun h => by cases h) fun h => by cases h
    | double y =>
      rw [Number.eqv, Double.eqv, Bool.or_eq_true, Bool.and_eq_true, beq_iff_eq, or_comm]
      simp only [Double.isZero, beq_iff_eq]
      exact ⟨.double, fun h => by cases h; assumption⟩

theorem array_same_iff : (array as).Same (array bs) ↔ as.length = bs.length ∧
    ∀ (i : Nat) (a b : Value), as[i]? = some a → bs[i]? = some b → a.Same b :=
  ⟨fun | .array hlength hitems => ⟨hlength, hitems⟩, fun h => .array h.1 h.2⟩

theorem object_same_iff : (object fields).Same (object more) ↔
    (∀ key, key ∈ fields.keys ↔ key ∈ more.keys) ∧
      ∀ key a b, fields.find? key = some a → more.find? key = some b → a.Same b :=
  ⟨fun | .object hkeys hfields => ⟨hkeys, hfields⟩, fun h => .object h.1 h.2⟩

/-- **A comparison finds whether values are the same.** -/
theorem eqv_iff_same (hv : v.WellFormed) (hw : w.WellFormed) : v.eqv w = true ↔ v.Same w := by
  induction v using induction_inside generalizing w with
  | null =>
    cases w with
    | null => exact iff_of_true rfl .null
    | _ => exact iff_of_false (fun h => by cases h) fun h => by cases h
  | bool b =>
    cases w with
    | bool c =>
      rw [eqv, beq_iff_eq]
      exact ⟨fun h => h ▸ .bool b, fun h => by cases h; rfl⟩
    | _ => exact iff_of_false (fun h => by cases h) fun h => by cases h
  | number n =>
    cases w with
    | number m => rw [eqv, number_same_iff]
    | _ => exact iff_of_false (fun h => by cases h) fun h => by cases h
  | text s =>
    cases w with
    | text t =>
      rw [eqv, beq_iff_eq]
      exact ⟨fun h => h ▸ .text s, fun h => by cases h; rfl⟩
    | _ => exact iff_of_false (fun h => by cases h) fun h => by cases h
  | array as ih =>
    cases w with
    | array bs =>
      rw [eqv_array_iff, array_same_iff]
      refine and_congr_right fun _ => forall₅_congr fun i a b ha hb => ?_
      have ha := List.mem_of_getElem? ha
      exact ih a ha (allWellFormed_iff.1 hv a ha)
        (allWellFormed_iff.1 hw b (List.mem_of_getElem? hb))
    | _ => exact iff_of_false (fun h => by cases h) fun h => by cases h
  | object fields ih =>
    cases w with
    | object more =>
      obtain ⟨hkeys, hfields⟩ := hv
      obtain ⟨hkeys', hmore⟩ := hw
      rw [eqv_object_iff hkeys hkeys', object_same_iff]
      refine and_congr_right fun _ => forall₅_congr fun key a b ha hb => ?_
      have ha := Keyed.mem_of_find? ha
      exact ih (key, a) ha (fieldsWellFormed_iff.1 hfields (key, a) ha)
        (fieldsWellFormed_iff.1 hmore (key, b) (Keyed.mem_of_find? hb))
    | _ => exact iff_of_false (fun h => by cases h) fun h => by cases h

/-- An integer and the double of its value are not the same. -/
example : (int 1).eqv (number (.double ⟨false, 1023 * Double.binade, by decide⟩)) = false := rfl

theorem eqv_refl (hv : v.WellFormed) : v.eqv v = true :=
  (eqv_iff_same hv hv).2 (.refl v)

/-! ## Short cuts -/

/-- **What a comparison may find that takes short cuts.** A value that is compared with itself
may be found equal without a look inside: that is what is seen when storage is shared.
Otherwise the items and the fields are compared, and each of them in the same way. -/
inductive Compares : Value → Value → Bool → Prop
  | shared (v : Value) : Compares v v true
  | plain {v w : Value} : v.toItems? = none ∨ w.toItems? = none →
    v.toFields? = none ∨ w.toFields? = none → Compares v w (v.eqv w)
  | array {as bs : List Value} (found : Nat → Bool) :
    (∀ (i : Nat) (a b : Value), as[i]? = some a → bs[i]? = some b → Compares a b (found i)) →
    Compares (array as) (array bs)
      (as.length == bs.length && (List.range as.length).all found)
  | object {fields more : Keyed String Value} (found : String → Bool) :
    (∀ key a b, fields.find? key = some a → more.find? key = some b →
      Compares a b (found key)) →
    Compares (object fields) (object more) (fields.length == more.length &&
      fields.all fun field => more.has field.1 && found field.1)

/-- A comparison of all items. -/
theorem eqv_array_eq {found : Nat → Bool} (h : ∀ (i : Nat) (a b : Value), as[i]? = some a →
    bs[i]? = some b → found i = a.eqv b) :
    (as.length == bs.length && (List.range as.length).all found) =
      (array as).eqv (array bs) := by
  rw [Bool.eq_iff_iff, eqv_array_iff, Bool.and_eq_true, beq_iff_eq, List.all_eq_true]
  refine and_congr_right fun hlength => ⟨fun hall i a b ha hb => ?_, fun hall i hi => ?_⟩
  · rw [← h i a b ha hb]
    exact hall i (List.mem_range.2 (List.getElem?_eq_some_iff.1 ha).1)
  · have hi := List.mem_range.1 hi
    have ha : as[i]? = some as[i] := List.getElem?_eq_getElem hi
    have hb : bs[i]? = some bs[i] := List.getElem?_eq_getElem (hlength ▸ hi)
    rw [h i _ _ ha hb]
    exact hall i _ _ ha hb

/-- A comparison of all fields. -/
theorem eqv_object_eq (hkeys : fields.keys.Nodup) {found : String → Bool}
    (h : ∀ key a b, fields.find? key = some a → more.find? key = some b →
      found key = a.eqv b) :
    (fields.length == more.length && fields.all fun field => more.has field.1 && found field.1) =
      (object fields).eqv (object more) := by
  rw [Bool.eq_iff_iff, eqv, Bool.and_eq_true, Bool.and_eq_true, eqvFields_iff, List.all_eq_true]
  refine and_congr_right fun _ => forall₂_congr fun field hfield => ?_
  have ha := Keyed.find?_of_mem hkeys hfield
  cases hfind : more.find? field.1 with
  | none => simp [Keyed.has, hfind]
  | some b => simp [Keyed.has, hfind, h _ _ b ha hfind]

/-- **Short cuts make no difference** to what is found. -/
theorem Compares.eq_eqv {found : Bool} (h : v.Compares w found) (hv : v.WellFormed) :
    found = v.eqv w := by
  induction h with
  | shared v => exact (eqv_refl hv).symm
  | plain => rfl
  | array found _ ih =>
    exact eqv_array_eq fun i a b ha hb =>
      ih i a b ha hb (allWellFormed_iff.1 hv a (List.mem_of_getElem? ha))
  | object found _ ih =>
    exact eqv_object_eq hv.1 fun key a b ha hb =>
      ih key a b ha hb (fieldsWellFormed_iff.1 hv.2 (key, a) (Keyed.mem_of_find? ha))

/-- It may also be that none is taken. -/
theorem compares_eqv (hv : v.WellFormed) (w : Value) : v.Compares w (v.eqv w) := by
  induction v using induction_inside generalizing w with
  | array as ih =>
    cases w with
    | array bs =>
      let found (i : Nat) : Bool := (as[i]?.getD .null).eqv (bs[i]?.getD .null)
      have hfound : ∀ (i : Nat) (a b : Value), as[i]? = some a → bs[i]? = some b →
          found i = a.eqv b := by
        intro i a b ha hb
        simp only [found, ha, hb, Option.getD_some]
      rw [← eqv_array_eq hfound]
      refine .array found fun i a b ha hb => ?_
      have ha' := List.mem_of_getElem? ha
      rw [hfound i a b ha hb]
      exact ih a ha' (allWellFormed_iff.1 hv a ha') b
    | _ => exact .plain (.inr rfl) (.inl rfl)
  | object fields ih =>
    cases w with
    | object more =>
      let found (key : String) : Bool :=
        ((fields.find? key).getD .null).eqv ((Keyed.find? more key).getD .null)
      have hfound : ∀ key a b, fields.find? key = some a → Keyed.find? more key = some b →
          found key = a.eqv b := by
        intro key a b ha hb
        simp only [found, ha, hb, Option.getD_some]
      rw [← eqv_object_eq hv.1 hfound]
      refine .object found fun key a b ha hb => ?_
      have ha' := Keyed.mem_of_find? ha
      rw [hfound key a b ha hb]
      exact ih (key, a) ha' (fieldsWellFormed_iff.1 hv.2 (key, a) ha') b
    | _ => exact .plain (.inl rfl) (.inr rfl)
  | _ => exact .plain (.inl rfl) (.inl rfl)

/-! ## Documents -/

theorem ofItems_eq_map (items : List Json) : ofItems items = items.map ofJson := by
  induction items with
  | nil => rfl
  | cons item rest ih => rw [ofItems, ih, List.map_cons]

theorem ofFields_eq_map (fields : List (String × Json)) :
    ofFields fields = fields.map (Prod.map id ofJson) := by
  induction fields with
  | nil => rfl
  | cons field rest ih => rw [ofFields, ih, List.map_cons, Prod.map_apply, id]

/-- **A document can be compared as it stands.** -/
theorem eqvJson_eq (v : Value) (j : Json) : v.eqvJson j = v.eqv (ofJson j) := by
  induction v using induction_inside generalizing j with
  | array as ih =>
    cases j with
    | array js =>
      rw [eqvJson, ofJson, eqv, ofItems_eq_map]
      induction as generalizing js with
      | nil => cases js <;> rfl
      | cons a as ih' =>
        obtain ⟨ha, has⟩ := List.forall_mem_cons.1 ih
        cases js with
        | nil => rfl
        | cons j js => rw [eqvJsonItems, List.map_cons, eqvItems, ha, ih' has]
    | _ => rfl
  | object fields ih =>
    cases j with
    | object pairs =>
      rw [eqvJson, ofJson, eqv, ofFields_eq_map, Keyed.ofPairs_map, List.length_map]
      congr 1
      generalize Keyed.ofPairs pairs = entries
      induction fields with
      | nil => rfl
      | cons field rest ih' =>
        obtain ⟨hfield, hrest⟩ := List.forall_mem_cons.1 ih
        obtain ⟨key, a⟩ := field
        rw [eqvJsonFields, eqvFields, Keyed.find?_map, ih' hrest]
        cases Keyed.find? entries key with
        | none => rfl
        | some j => exact congrArg (· && _) (hfield j)
    | _ => rfl
  | _ => cases j <;> rfl

mutual

/-- **A document denotes a value in which keys are unique.** -/
theorem wellFormed_ofJson : (j : Json) → (ofJson j).WellFormed
  | .null | .bool _ | .number _ | .text _ => trivial
  | .array items => allWellFormed_iff.2 (wellFormed_ofItems items)
  | .object fields => ⟨Keyed.nodup_keys_ofPairs _, fieldsWellFormed_iff.2 fun field hfield =>
      wellFormed_ofFields fields field (Keyed.mem_of_mem_ofPairs hfield)⟩

/-- So it is for all items. -/
theorem wellFormed_ofItems : (items : List Json) → ∀ item ∈ ofItems items, item.WellFormed
  | [] => List.forall_mem_nil _
  | item :: rest => List.forall_mem_cons.2 ⟨wellFormed_ofJson item, wellFormed_ofItems rest⟩

/-- So it is for all fields. -/
theorem wellFormed_ofFields :
    (fields : List (String × Json)) → ∀ field ∈ ofFields fields, field.2.WellFormed
  | [] => List.forall_mem_nil _
  | (_, item) :: rest => List.forall_mem_cons.2 ⟨wellFormed_ofJson item, wellFormed_ofFields rest⟩

end

/-! ## All together -/

/-- **Equality of values** is an equivalence. It finds values equal that are the same up to the
order of fields, at every level; with short cuts for shared storage it finds the same; and a
document is equal to the values that the value is equal to which it denotes. -/
theorem eqv_lawful {u v w : Value} (hu : u.WellFormed) (hv : v.WellFormed) (hw : w.WellFormed) :
    v.eqv v = true ∧ v.eqv w = w.eqv v ∧
      (u.eqv v = true → v.eqv w = true → u.eqv w = true) ∧
      (v.eqv w = true ↔ v.Same w) ∧ (∀ found, v.Compares w found ↔ found = v.eqv w) ∧
      ∀ j, (ofJson j).WellFormed ∧ v.eqvJson j = v.eqv (ofJson j) := by
  refine ⟨eqv_refl hv, ?symm, ?trans, eqv_iff_same hv hw, ?shortCuts, ?documents⟩
  case symm =>
    rw [Bool.eq_iff_iff, eqv_iff_same hv hw, eqv_iff_same hw hv]
    exact ⟨.symm, .symm⟩
  case trans =>
    rw [eqv_iff_same hu hv, eqv_iff_same hv hw, eqv_iff_same hu hw]
    exact .trans
  case shortCuts =>
    exact fun found => ⟨fun h => h.eq_eqv hv, fun h => h ▸ compares_eqv hv w⟩
  case documents => exact fun j => ⟨wellFormed_ofJson j, eqvJson_eq v j⟩

/-- An object with another one inside. -/
def settings : Value :=
  .object [("ratio", .number (.double .zero)),
    ("modes", .array [.nat 1, .object [("on", .bool true), ("of", .text "x")]])]

/-- The same object, its fields in another order, and with the other zero. -/
def jumbledSettings : Value :=
  .object [("modes", .array [.nat 1, .object [("of", .text "x"), ("on", .bool true)]]),
    ("ratio", .number (.double (Double.zero.withSign true)))]

/-- Objects are the same whose fields are jumbled at two levels. -/
theorem eqv_lawful_settings : settings.WellFormed ∧ jumbledSettings.WellFormed ∧
    settings.eqv jumbledSettings = true ∧
    jumbledSettings.eqv jumbledSettings = true ∧
    jumbledSettings.eqv settings = settings.eqv jumbledSettings ∧
    (settings.eqv jumbledSettings = true → jumbledSettings.eqv settings = true →
      settings.eqv settings = true) ∧
    (jumbledSettings.eqv settings = true ↔ jumbledSettings.Same settings) ∧
    (∀ found, jumbledSettings.Compares settings found ↔ found = jumbledSettings.eqv settings) ∧
    ∀ j, (ofJson j).WellFormed ∧ jumbledSettings.eqvJson j = jumbledSettings.eqv (ofJson j) := by
  have hsettings : settings.WellFormed :=
    ⟨by decide, trivial, ⟨trivial, ⟨by decide, trivial, trivial, trivial⟩, trivial⟩, trivial⟩
  have hjumbled : jumbledSettings.WellFormed :=
    ⟨by decide, ⟨trivial, ⟨by decide, trivial, trivial, trivial⟩, trivial⟩, trivial, trivial⟩
  exact ⟨hsettings, hjumbled, by decide, eqv_lawful hsettings hjumbled hsettings⟩

end Value

end ProgramGraph
