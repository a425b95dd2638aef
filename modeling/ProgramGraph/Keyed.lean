/-!
# Keyed entries

A list of entries under keys, each key at most once. The order is the
order of insertion: writing to a key that is there replaces its entry
where it stands, and a new key goes to the end. So a list of pairs with
repeated keys comes down to the first position and the last entry of each
key.
-/

namespace ProgramGraph

/-- Entries under keys, in order of insertion. -/
abbrev Keyed (κ α : Type) := List (κ × α)

namespace Keyed

variable {κ α : Type} [DecidableEq κ]

/-- The keys, in order. -/
def keys (entries : Keyed κ α) : List κ := entries.map Prod.fst

/-- The entry of a key. -/
def find? : Keyed κ α → κ → Option α
  | [], _ => none
  | (k, b) :: rest, key => if key = k then some b else find? rest key

/-- Whether a key has an entry. -/
def has (entries : Keyed κ α) (key : κ) : Bool := (entries.find? key).isSome

/-- The entries with the entry of one key replaced, or added at the end. -/
def insert : Keyed κ α → κ → α → Keyed κ α
  | [], key, a => [(key, a)]
  | (k, b) :: rest, key, a => if k = key then (k, a) :: rest else (k, b) :: insert rest key a

/-- The entries without the one of a key; the others keep their order. -/
def erase : Keyed κ α → κ → Keyed κ α
  | [], _ => []
  | (k, b) :: rest, key => if k = key then rest else (k, b) :: erase rest key

/-- The entries of `more` written over those of `entries`, one by one. -/
def union (entries more : Keyed κ α) : Keyed κ α :=
  more.foldl (fun entries (key, a) => entries.insert key a) entries

/-- The entries of a list of pairs in which keys may be repeated. -/
def ofPairs (pairs : List (κ × α)) : Keyed κ α := union [] pairs

@[simp] theorem find?_nil (key : κ) : find? ([] : Keyed κ α) key = none := rfl

theorem find?_cons (k : κ) (b : α) (rest : Keyed κ α) (key : κ) :
    find? ((k, b) :: rest) key = if key = k then some b else find? rest key := rfl

/-- What is found under a key is one of the entries. -/
theorem mem_of_find? {entries : Keyed κ α} {key : κ} {a : α} (h : entries.find? key = some a) :
    (key, a) ∈ entries := by
  induction entries with
  | nil => cases h
  | cons entry rest ih =>
    obtain ⟨k, b⟩ := entry
    rw [find?_cons] at h
    split at h
    next hk =>
      cases h
      rw [hk]
      exact List.mem_cons_self
    next => exact List.mem_cons_of_mem _ (ih h)

/-- An insertion adds no other entry. -/
theorem mem_of_mem_insert {entries : Keyed κ α} {key : κ} {a : α} {entry : κ × α}
    (h : entry ∈ entries.insert key a) : entry ∈ entries ∨ entry = (key, a) := by
  induction entries with
  | nil => exact .inr (List.mem_singleton.1 h)
  | cons first rest ih =>
    obtain ⟨k, b⟩ := first
    rw [insert] at h
    split at h
    next hk =>
      subst hk
      rcases List.mem_cons.1 h with rfl | hrest
      · exact .inr rfl
      · exact .inl (List.mem_cons_of_mem _ hrest)
    next =>
      rcases List.mem_cons.1 h with rfl | hrest
      · exact .inl List.mem_cons_self
      · exact (ih hrest).imp_left (List.mem_cons_of_mem _)

/-- The entries of a union are entries of the one or the other. -/
theorem mem_of_mem_union {entries more : Keyed κ α} {entry : κ × α}
    (h : entry ∈ entries.union more) : entry ∈ entries ∨ entry ∈ more := by
  induction more generalizing entries with
  | nil => exact .inl h
  | cons first rest ih =>
    rcases ih h with hleft | hright
    · rcases mem_of_mem_insert hleft with hentries | rfl
      · exact .inl hentries
      · exact .inr List.mem_cons_self
    · exact .inr (List.mem_cons_of_mem _ hright)

/-- **What an insertion does to a look-up.** -/
theorem find?_insert (entries : Keyed κ α) (key : κ) (a : α) (other : κ) :
    (entries.insert key a).find? other = if other = key then some a else entries.find? other := by
  induction entries with
  | nil => simp [insert, find?_cons]
  | cons entry rest ih =>
    obtain ⟨k, b⟩ := entry
    by_cases hk : k = key
    · subst hk
      by_cases ho : other = k <;> simp [insert, find?_cons, ho]
    · by_cases ho : other = k
      · subst ho
        simp [insert, find?_cons, hk]
      · simp [insert, find?_cons, hk, ho, ih]

/-- Nothing is found under a key that is not there. -/
theorem find?_of_notMem {entries : Keyed κ α} {key : κ} (h : key ∉ entries.keys) :
    entries.find? key = none := by
  induction entries with
  | nil => rfl
  | cons entry rest ih =>
    obtain ⟨k, b⟩ := entry
    simp only [keys, List.map_cons, List.mem_cons, not_or] at h
    rw [find?_cons, if_neg h.1, ih h.2]

/-- **What is written over wins,** if its keys are unique. -/
theorem find?_union (entries : Keyed κ α) {more : Keyed κ α} (h : more.keys.Nodup) (key : κ) :
    (entries.union more).find? key = (more.find? key).or (entries.find? key) := by
  induction more generalizing entries with
  | nil => rfl
  | cons entry rest ih =>
    obtain ⟨k, a⟩ := entry
    obtain ⟨hk, hrest⟩ := List.nodup_cons.1 h
    have hunion : entries.union ((k, a) :: rest) = (entries.insert k a).union rest := rfl
    rw [hunion, ih _ hrest, find?_insert, find?_cons]
    by_cases heq : key = k
    · subst heq
      rw [find?_of_notMem hk, if_pos rfl, if_pos rfl, Option.none_or, Option.some_or]
    · rw [if_neg heq, if_neg heq]

/-- An insertion keeps the keys, but for a new one at the end. -/
theorem keys_insert (entries : Keyed κ α) (key : κ) (a : α) :
    (entries.insert key a).keys =
      if key ∈ entries.keys then entries.keys else entries.keys ++ [key] := by
  induction entries with
  | nil => simp [insert, keys]
  | cons entry rest ih =>
    obtain ⟨k, b⟩ := entry
    simp only [keys] at ih
    by_cases hk : k = key
    · subst hk
      simp [insert, keys]
    · have hk' : ¬ key = k := fun h => hk h.symm
      by_cases hmem : key ∈ rest.map Prod.fst <;>
        simp [insert, hk, keys, hk', ih, hmem]

/-- A new key goes to the end. -/
theorem insert_of_notMem {entries : Keyed κ α} {key : κ} (h : key ∉ entries.keys) (a : α) :
    entries.insert key a = entries ++ [(key, a)] := by
  induction entries with
  | nil => rfl
  | cons entry rest ih =>
    obtain ⟨k, b⟩ := entry
    simp only [keys, List.map_cons, List.mem_cons, not_or] at h
    have hk : ¬ k = key := fun hk => h.1 hk.symm
    simp [insert, hk, ih h.2]

/-- So a key stays unique. -/
theorem nodup_keys_insert {entries : Keyed κ α} (h : entries.keys.Nodup) (key : κ) (a : α) :
    (entries.insert key a).keys.Nodup := by
  rw [keys_insert]
  split
  · exact h
  · rename_i hk
    refine List.nodup_append.2 ⟨h, by simp, ?_⟩
    intro x hx y hy
    simp only [List.mem_singleton] at hy
    subst hy
    intro hxy
    exact hk (hxy ▸ hx)

theorem nodup_keys_union {entries : Keyed κ α} (h : entries.keys.Nodup) (more : Keyed κ α) :
    (entries.union more).keys.Nodup := by
  induction more generalizing entries with
  | nil => exact h
  | cons entry rest ih => exact ih (nodup_keys_insert h entry.1 entry.2)

/-- **A list of pairs comes down to unique keys.** -/
theorem nodup_keys_ofPairs (pairs : List (κ × α)) : (ofPairs pairs).keys.Nodup :=
  nodup_keys_union (show (keys ([] : Keyed κ α)).Nodup from List.nodup_nil) pairs

end Keyed

end ProgramGraph
