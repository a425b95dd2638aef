import ProgramGraph.Proofs.Format.Token
/-!
# The spelling of a written value

What a text spells is within as many levels as can be read, and its integers fit
(`Spelling.within_of_ofText?`). A value within so many levels whose numbers are integers
is written as a text that spells the value (`Spelling.ofText?_compact`).
-/

namespace ProgramGraph.Spelling

open Json (Token)
open Json.Token (Fits fits_of_ofText?)

/-! ## What a text spells -/

/-- What some fields hold so far is within some levels. -/
def Fields.Within (levels : Nat) (fields : Fields) : Prop :=
  ∀ held ∈ fields, ∀ field ∈ held, field.2.Within levels

/-- So is what an open container holds. -/
def Open.Within (levels : Nat) : Open → Prop
  | array items => ∀ item ∈ items, item.Within levels
  | object fields _ => fields.Within levels

/-- **Each open container holds** what is within the levels that are left inside it. -/
def OpensWithin : List Open → Prop
  | [] => True
  | container :: rest => container.Within (depthLimit - rest.length - 1) ∧ OpensWithin rest

/-- So does what has just been read, inside so many open containers. -/
def Phase.Within (size : Nat) : Phase → Prop
  | after item => item.Within (depthLimit - size)
  | key fields => fields.Within (depthLimit - size - 1)
  | colon fields _ => fields.Within (depthLimit - size - 1)
  | _ => True

theorem Phase.within_after {value : Spelling} {size : Nat} :
    (after value).Within size ↔ value.Within (depthLimit - size) := Iff.rfl

variable {stack stack' : Stack Open} {phase phase' : Phase} {token : Token} {tokens : List Token}

/-- An array that does not end at once begins with a value. -/
theorem step?_firstItem (h : token ≠ .closeArray) :
    step? .firstItem stack token = step? .value (stack.push (.array [])) token := by
  cases token <;> first | rfl | exact absurd rfl h

/-- An object that does not end at once begins with a key. -/
theorem step?_firstKey (h : token ≠ .closeObject) :
    step? .firstKey stack token = step? (.key (some [])) stack token := by
  cases token <;> first | rfl | exact absurd rfl h

/-- A token is taken off. -/
theorem build?_cons (phase : Phase) (stack : Stack Open) (token : Token) (tokens : List Token) :
    build? phase stack (token :: tokens) =
      (step? phase stack token).bind fun (phase, stack) => build? phase stack tokens := by
  cases hstep : step? phase stack token <;> cases phase <;> simp [build?, hstep]

theorem Fields.Within.add {levels : Nat} {fields : Fields} (h : fields.Within levels) (key : String)
    {value : Spelling} (hvalue : value.Within levels) : (fields.add key value).Within levels := by
  intro held hheld
  obtain ⟨before, hbefore, rfl⟩ := Option.map_eq_some_iff.1 hheld
  exact List.forall_mem_cons.2 ⟨hvalue, h before hbefore⟩

/-- A container is closed. -/
theorem within_close {container : Spelling}
    (h : stack.size < depthLimit → container.Within (depthLimit - stack.size)) :
    (close stack container).Within stack.size := by
  unfold close
  split
  next hlt => exact h hlt
  next => exact Phase.within_after.2 within_unreadable

/-- An array inside so many containers that can be read. -/
theorem within_ofItems {items : List Spelling} {size : Nat} (hsize : size < depthLimit)
    (h : ∀ item ∈ items, item.Within (depthLimit - size - 1)) :
    (ofItems items).Within (depthLimit - size) := by
  refine within_array_iff.2 ⟨depthLimit - size - 1, by omega, fun item hitem => ?_⟩
  exact h item (List.mem_reverse.1 hitem)

/-- So it is with an object. -/
theorem within_ofFields {fields : Fields} {size : Nat} (hsize : size < depthLimit)
    (h : fields.Within (depthLimit - size - 1)) : (ofFields fields).Within (depthLimit - size) := by
  cases fields with
  | none => exact within_unreadable
  | some held =>
    refine within_object_iff.2 ⟨depthLimit - size - 1, by omega, fun field hfield => ?_⟩
    exact h held rfl field (List.mem_reverse.1 hfield)

theorem within_beginValue? (h : beginValue? stack token = some (phase', stack')) (ht : token.Fits)
    (hstack : OpensWithin stack.items) : phase'.Within stack'.size ∧ OpensWithin stack'.items := by
  cases token with
  | number n =>
    cases h
    exact ⟨Phase.within_after.2 (within_number.2 ht), hstack⟩
  | closeArray | closeObject | comma | colon => cases h
  | _ =>
    cases h
    exact ⟨trivial, hstack⟩

theorem within_beginField? {fields : Fields} (h : beginField? fields token = some phase')
    {size : Nat} (hfields : fields.Within (depthLimit - size - 1)) : phase'.Within size := by
  cases token with
  | text key =>
    cases h
    exact hfields
  | brokenText =>
    cases h
    exact nofun
  | _ => cases h

/-- **A value goes into the container on top,** and closes it if it is the last. -/
theorem within_afterValue? {value : Spelling}
    (h : afterValue? value stack token = some (phase', stack'))
    (hvalue : value.Within (depthLimit - stack.size)) (hstack : OpensWithin stack.items) :
    phase'.Within stack'.size ∧ OpensWithin stack'.items := by
  have hsize := stack.size_eq
  cases hitems : stack.items with
  | nil =>
    cases token <;> simp only [afterValue?, hitems] at h <;> cases h
  | cons container rest =>
    rw [hitems] at hstack hsize
    obtain ⟨hcontainer, hrest⟩ := hstack
    have hpop : stack.pop.size = rest.length := by rw [Stack.size_pop, hsize]; rfl
    have hlevels : depthLimit - stack.size = depthLimit - rest.length - 1 := by
      rw [hsize, List.length_cons]
      omega
    rw [hlevels] at hvalue
    have htail : stack.pop.items = rest := by rw [Stack.items_pop, hitems]; rfl
    cases container with
    | array items =>
      have hmore : ∀ item ∈ value :: items, item.Within (depthLimit - rest.length - 1) :=
        List.forall_mem_cons.2 ⟨hvalue, hcontainer⟩
      cases token with
      | closeArray =>
        simp only [afterValue?, hitems] at h
        cases h
        refine ⟨within_close fun hlt => ?_, htail ▸ hrest⟩
        rw [hpop] at hlt ⊢
        exact within_ofItems hlt hmore
      | comma =>
        simp only [afterValue?, hitems] at h
        cases h
        refine ⟨trivial, ?_⟩
        rw [Stack.items_push, htail]
        exact ⟨hmore, hrest⟩
      | _ =>
        simp only [afterValue?, hitems] at h
        cases h
    | object fields key =>
      have hmore : (fields.add key value).Within (depthLimit - rest.length - 1) :=
        hcontainer.add key hvalue
      cases token with
      | closeObject =>
        simp only [afterValue?, hitems] at h
        cases h
        refine ⟨within_close fun hlt => ?_, htail ▸ hrest⟩
        rw [hpop] at hlt ⊢
        exact within_ofFields hlt hmore
      | comma =>
        simp only [afterValue?, hitems] at h
        cases h
        refine ⟨?_, htail ▸ hrest⟩
        rw [hpop]
        exact hmore
      | _ =>
        simp only [afterValue?, hitems] at h
        cases h

/-- **A token more.** -/
theorem within_step? (h : step? phase stack token = some (phase', stack')) (ht : token.Fits)
    (hphase : phase.Within stack.size) (hstack : OpensWithin stack.items) :
    phase'.Within stack'.size ∧ OpensWithin stack'.items := by
  have hfield : ∀ {fields : Fields}, (beginField? fields token).map (·, stack) =
      some (phase', stack') → fields.Within (depthLimit - stack.size - 1) →
      phase'.Within stack'.size ∧ OpensWithin stack'.items := by
    intro fields h hfields
    obtain ⟨begun, hbegun, heq⟩ := Option.map_eq_some_iff.1 h
    cases heq
    exact ⟨within_beginField? hbegun hfields, hstack⟩
  have hnone : Fields.Within (depthLimit - stack.size - 1) (some []) := by
    rintro _ ⟨⟩
    exact nofun
  cases phase with
  | value => exact within_beginValue? h ht hstack
  | firstItem =>
    by_cases hclose : token = .closeArray
    · subst hclose
      cases h
      exact ⟨within_close fun hlt => @within_ofItems [] _ hlt (List.forall_mem_nil _), hstack⟩
    · rw [step?_firstItem hclose] at h
      exact within_beginValue? h ht ⟨nofun, hstack⟩
  | firstKey =>
    by_cases hclose : token = .closeObject
    · subst hclose
      cases h
      exact ⟨within_close fun hlt => within_ofFields hlt hnone, hstack⟩
    · rw [step?_firstKey hclose] at h
      exact hfield h hnone
  | key fields => exact hfield h hphase
  | colon fields key =>
    cases token with
    | colon =>
      cases h
      refine ⟨trivial, ?_⟩
      rw [Stack.items_push]
      exact ⟨stack.size_eq ▸ hphase, hstack⟩
    | _ => cases h
  | after value => exact within_afterValue? h hphase hstack

/-- So it is for the tokens that are left, by induction on them. -/
theorem within_build? {s : Spelling} (h : build? phase stack tokens = some s)
    (ht : ∀ t ∈ tokens, t.Fits) (hphase : phase.Within stack.size)
    (hstack : OpensWithin stack.items) : s.Within depthLimit := by
  induction tokens generalizing phase stack with
  | nil =>
    cases phase with
    | after value =>
      simp only [build?] at h
      split at h
      next hempty =>
        cases h
        have hsize : stack.size = 0 := by rw [stack.size_eq, List.isEmpty_iff.1 hempty]; rfl
        rw [hsize] at hphase
        exact hphase
      next => cases h
    | _ => cases h
  | cons token rest ih =>
    rw [List.forall_mem_cons] at ht
    rw [build?_cons] at h
    obtain ⟨⟨phase', stack'⟩, hstep, h⟩ := Option.bind_eq_some_iff.1 h
    obtain ⟨hphase', hstack'⟩ := within_step? hstep ht.1 hphase hstack
    exact ih h ht.2 hphase' hstack'

/-- **What a text spells** is within the levels that can be read. -/
theorem within_of_ofText? {text : String} {s : Spelling} (h : ofText? text = some s) :
    s.Within depthLimit := by
  obtain ⟨tokens, htokens, hbuild⟩ := Option.bind_eq_some_iff.1 h
  exact within_build? hbuild (fits_of_ofText? htokens) trivial trivial

/-! ## What a value spells -/

/-- The first item of an array is a value. -/
theorem build?_firstItem {items : List Value} (h : items ≠ []) (stack : Stack Open)
    (rest : List Token) :
    build? .firstItem stack (Value.tokensOfItems items ++ rest) =
      build? .value (stack.push (.array [])) (Value.tokensOfItems items ++ rest) := by
  match items with
  | [item] => cases item <;> rfl
  | item :: next :: more => cases item <;> rfl

/-- The first field of an object begins with a key. -/
theorem build?_firstKey {fields : List (String × Value)} (h : fields ≠ []) (stack : Stack Open)
    (rest : List Token) :
    build? .firstKey stack (Value.tokensOfFields fields ++ rest) =
      build? (.key (some [])) stack (Value.tokensOfFields fields ++ rest) := by
  match fields with
  | [field] => rfl
  | field :: next :: more => rfl

/-- The container on top is closed where it can be read. -/
theorem close_eq (h : stack.size < depthLimit) (container : Spelling) :
    close stack container = .after container := by
  rw [close, if_pos h]

mutual

/-- **The tokens of a value are put together as its spelling,** inside so many containers
that all of it can be read. -/
theorem build?_tokens : (v : Value) → (levels : Nat) → v.toSpelling.Within levels →
    (stack : Stack Open) → stack.size + levels ≤ depthLimit → (rest : List Token) →
    build? .value stack (v.tokens ++ rest) = build? (.after v.toSpelling) stack rest
  | .null, _, _, _, _, _ => rfl
  | .bool _, _, _, _, _, _ => rfl
  | .number _, _, _, _, _, _ => rfl
  | .text _, _, _, _, _, _ => rfl
  | .array [], levels + 1, _, stack, hlevels, rest => by
    have hsize : stack.size < depthLimit := by omega
    have hclose := close_eq hsize (.array [])
    have hbuild : build? .value stack ((Value.array []).tokens ++ rest) =
        build? (close stack (.array [])) stack rest := rfl
    rw [hbuild, hclose]
    rfl
  | .array (item :: more), levels + 1, hwithin, stack, hlevels, rest => by
    have hitems := build?_tokensOfItems (item :: more) (List.cons_ne_nil _ _) levels hwithin stack
      hlevels [] rest
    have hopen : build? .value stack ((Value.array (item :: more)).tokens ++ rest) =
        build? .firstItem stack (Value.tokensOfItems (item :: more) ++ .closeArray :: rest) := by
      rw [Value.tokens, List.cons_append, List.append_assoc]
      rfl
    rw [hopen, build?_firstItem (List.cons_ne_nil _ _), hitems]
    rfl
  | .object [], levels + 1, _, stack, hlevels, rest => by
    have hsize : stack.size < depthLimit := by omega
    have hclose := close_eq hsize (.object [])
    have hbuild : build? .value stack ((Value.object []).tokens ++ rest) =
        build? (close stack (.object [])) stack rest := rfl
    rw [hbuild, hclose]
    rfl
  | .object ((key, item) :: more), levels + 1, hwithin, stack, hlevels, rest => by
    have hfields := build?_tokensOfFields ((key, item) :: more) (List.cons_ne_nil _ _) levels
      hwithin stack hlevels [] rest
    have hopen : build? .value stack ((Value.object ((key, item) :: more)).tokens ++ rest) =
        build? .firstKey stack
          (Value.tokensOfFields ((key, item) :: more) ++ .closeObject :: rest) := by
      rw [Value.tokens, List.cons_append, List.append_assoc]
      rfl
    rw [hopen, build?_firstKey (List.cons_ne_nil _ _), hfields]
    rfl

/-- So are the items of an array, after some that stand in reverse. -/
theorem build?_tokensOfItems : (items : List Value) → items ≠ [] → (levels : Nat) →
    ItemsWithin levels (Value.spellItems items) → (stack : Stack Open) →
    stack.size + (levels + 1) ≤ depthLimit → (done : List Spelling) → (rest : List Token) →
    build? .value (stack.push (.array done)) (Value.tokensOfItems items ++ .closeArray :: rest) =
      build? (.after (.array (done.reverse ++ Value.spellItems items))) stack rest
  | [item], _, levels, hwithin, stack, hlevels, done, rest => by
    have hitem := build?_tokens item levels hwithin.1 (stack.push (.array done))
      (by rw [Stack.size_push]; omega) (.closeArray :: rest)
    have hstep : build? (.after item.toSpelling) (stack.push (.array done)) (.closeArray :: rest) =
        build? (close (stack.push (.array done)).pop (ofItems (item.toSpelling :: done)))
          (stack.push (.array done)).pop rest := rfl
    rw [Value.tokensOfItems, hitem, hstep, Stack.pop_push, close_eq (by omega), ofItems,
      List.reverse_cons]
    rfl
  | item :: next :: more, _, levels, hwithin, stack, hlevels, done, rest => by
    have hitem := build?_tokens item levels hwithin.1 (stack.push (.array done))
      (by rw [Stack.size_push]; omega)
      (.comma :: (Value.tokensOfItems (next :: more) ++ .closeArray :: rest))
    have hmore := build?_tokensOfItems (next :: more) (List.cons_ne_nil _ _) levels hwithin.2 stack
      hlevels (item.toSpelling :: done) rest
    have hstep : build? (.after item.toSpelling) (stack.push (.array done))
          (.comma :: (Value.tokensOfItems (next :: more) ++ .closeArray :: rest)) =
        build? .value ((stack.push (.array done)).pop.push (.array (item.toSpelling :: done)))
          (Value.tokensOfItems (next :: more) ++ .closeArray :: rest) := rfl
    rw [Value.tokensOfItems, List.append_assoc, List.cons_append, hitem, hstep, Stack.pop_push,
      hmore, List.reverse_cons, List.append_assoc]
    rfl

/-- So are the fields of an object, after some that stand in reverse. -/
theorem build?_tokensOfFields : (fields : List (String × Value)) → fields ≠ [] → (levels : Nat) →
    FieldsWithin levels (Value.spellFields fields) → (stack : Stack Open) →
    stack.size + (levels + 1) ≤ depthLimit → (done : List (String × Spelling)) →
    (rest : List Token) →
    build? (.key (some done)) stack (Value.tokensOfFields fields ++ .closeObject :: rest) =
      build? (.after (.object (done.reverse ++ Value.spellFields fields))) stack rest
  | [(key, item)], _, levels, hwithin, stack, hlevels, done, rest => by
    have hitem := build?_tokens item levels hwithin.1 (stack.push (.object (some done) key))
      (by rw [Stack.size_push]; omega) (.closeObject :: rest)
    have hkey : build? (.key (some done)) stack
          (Value.tokensOfFields [(key, item)] ++ .closeObject :: rest) =
        build? .value (stack.push (.object (some done) key))
          (item.tokens ++ .closeObject :: rest) := rfl
    have hstep : build? (.after item.toSpelling) (stack.push (.object (some done) key))
          (.closeObject :: rest) =
        build? (close (stack.push (.object (some done) key)).pop
          (ofFields (some ((key, item.toSpelling) :: done))))
          (stack.push (.object (some done) key)).pop rest := rfl
    rw [hkey, hitem, hstep, Stack.pop_push, close_eq (by omega), ofFields, List.reverse_cons]
    rfl
  | (key, item) :: next :: more, _, levels, hwithin, stack, hlevels, done, rest => by
    have hitem := build?_tokens item levels hwithin.1 (stack.push (.object (some done) key))
      (by rw [Stack.size_push]; omega)
      (.comma :: (Value.tokensOfFields (next :: more) ++ .closeObject :: rest))
    have hmore := build?_tokensOfFields (next :: more) (List.cons_ne_nil _ _) levels hwithin.2 stack
      hlevels ((key, item.toSpelling) :: done) rest
    have hkey : build? (.key (some done)) stack
          (Value.tokensOfFields ((key, item) :: next :: more) ++ .closeObject :: rest) =
        build? .value (stack.push (.object (some done) key)) (item.tokens ++
          .comma :: Value.tokensOfFields (next :: more) ++ .closeObject :: rest) := rfl
    have hstep : build? (.after item.toSpelling) (stack.push (.object (some done) key))
          (.comma :: (Value.tokensOfFields (next :: more) ++ .closeObject :: rest)) =
        build? (.key (some ((key, item.toSpelling) :: done)))
          (stack.push (.object (some done) key)).pop
          (Value.tokensOfFields (next :: more) ++ .closeObject :: rest) := rfl
    rw [hkey, List.append_assoc, List.cons_append, hitem, hstep, Stack.pop_push, hmore,
      List.reverse_cons, List.append_assoc]
    rfl

end

/-- **The compact text of a value spells the value,** if its numbers are integers. -/
theorem ofText?_compact {v : Value} (hintegral : v.Integral)
    (hwithin : v.toSpelling.Within depthLimit) :
    ofText? v.compact = some v.toSpelling := by
  have htokens := Value.ofText?_compact hintegral hwithin
  have hbuild := build?_tokens v depthLimit hwithin .empty (Nat.le_of_eq (Nat.zero_add _)) []
  rw [List.append_nil] at hbuild
  have hend : build? (.after v.toSpelling) .empty [] = some v.toSpelling := rfl
  rw [ofText?, htokens]
  exact hbuild.trans hend

end ProgramGraph.Spelling
