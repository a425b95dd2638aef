import ProgramGraph.Proofs.Format.Record
/-!
# Nodes and graphs survive being written

A payload is an object whose one key names its form. What stands under the key survives for
each of the forms (`Payload.survives_ofForm?`), and the key of what is written is the name of
the form that was read (`Payload.form_of_ofForm?`).
-/

namespace ProgramGraph

theorem NodeId.survives : Survives ofSpelling? toValue :=
  (Survives.natBelow (by decide)).map NodeId.mk fun _ => rfl

theorem ParamId.survives : Survives ofSpelling? toValue :=
  (Survives.natBelow (Nat.le_refl _)).map ParamId.mk fun _ => rfl

theorem Lambda.survives : Survives ofSpelling? toValue :=
  .record ["param", "body"] (by decide)
    (ParamId.survives.required.cons (NodeId.survives.required.cons .nil))
    (fun held => ⟨held.1, held.2.1⟩) (fun _ => rfl) fun _ => rfl

namespace Payload

/-- The name of the form of a payload. -/
def form : Payload → String
  | empty => "empty"
  | literal _ => "literal"
  | param _ => "param"
  | child _ => "child"
  | args _ => "args"
  | fields _ _ => "fields"
  | apply _ _ => "apply"
  | parMap _ _ _ => "par_map"
  | timeout _ _ _ => "timeout"
  | retry _ _ _ => "retry"
  | tryCatch _ _ _ _ => "try"
  | guard _ _ => "guard"
  | custom _ => "custom"

/-- What is written under the name of the form. -/
def content (payload : Payload) : Value :=
  match payload.toValue with
  | .object [(_, value)] => value
  | _ => .null

/-- **A payload that holds something** is its content under the name of its form. -/
theorem toValue_eq {payload : Payload} (h : payload.isEmpty = false) :
    payload.toValue = .object [(payload.form, payload.content)] := by
  cases payload <;> first | rfl | cases h

/-- What is read as a form is of the form. -/
theorem form_of_ofForm? {name : String} {s : Spelling} {payload : Payload}
    (h : ofForm? name s = some payload) : payload.form = name := by
  unfold ofForm? at h
  split at h
  case h_1 =>
    split at h
    next =>
      cases h
      rfl
    next => cases h
  case h_2 | h_3 | h_4 | h_5 | h_6 | h_13 =>
    obtain ⟨held, -, rfl⟩ := Option.map_eq_some_iff.1 h
    rfl
  case h_14 => cases h
  -- What is left are the records.
  all_goals
    obtain ⟨found, -, h⟩ := Option.bind_eq_some_iff.1 h
    split at h
    next =>
      simp only [Option.bind_eq_bind, Option.bind_eq_some_iff] at h
      grind [form]
    next => cases h

/-- **The content of each form survives.** -/
theorem survives_ofForm? (name : String) : Survives (ofForm? name) content := by
  have hnode := NodeId.survives
  have hlambda := Lambda.survives
  have hlong : Survives Spelling.nat64? Value.nat := .natBelow (Nat.le_refl _)
  have hshort : Survives Spelling.nat32? Value.nat := .natBelow (by decide)
  have hlambdaNull : ∀ lambda : Lambda, lambda.toValue.toSpelling ≠ .null := by
    intro lambda h
    cases h
  intro levels s payload hs hread
  unfold ofForm? at hread
  -- one case for each name, in the order of the forms
  split at hread
  case h_1 =>
    split at hread
    next =>
      cases hread
      exact ⟨Spelling.within_null, rfl⟩
    next => cases hread
  case h_2 => exact Survives.value.map literal (fun _ => rfl) hs hread
  case h_3 => exact ParamId.survives.map param (fun _ => rfl) hs hread
  case h_4 => exact hnode.map child (fun _ => rfl) hs hread
  case h_5 => exact hnode.list.map args (fun _ => rfl) hs hread
  case h_6 =>
    -- the names are unique from reading them, so `ofFields` has nothing left to do
    obtain ⟨nodes, hnodes, rfl⟩ := Option.map_eq_some_iff.1 hread
    obtain ⟨hwithin, hagain⟩ := hnode.keyed hs hnodes
    have hcontent : (ofFields nodes).content =
        .object (nodes.map fun entry => (entry.1, entry.2.toValue)) := by
      have hofPairs := Keyed.ofPairs_of_nodup (Spelling.nodup_keys_of_keyed? hnodes)
      exact congrArg (fun nodes : Keyed String NodeId =>
        Value.object (nodes.map fun entry => (entry.1, entry.2.toValue))) hofPairs
    rw [hcontent]
    exact ⟨hwithin, Option.map_eq_some_iff.2 ⟨nodes, hagain, rfl⟩⟩
  case h_7 =>
    exact Survives.record ["arg", "lambda"] (by decide)
      (hnode.required.cons (hlambda.required.cons .nil))
      (fun held => apply held.1 held.2.1) (fun _ => rfl) (fun _ => rfl) hs hread
  case h_8 =>
    exact Survives.record ["collection", "concurrency", "lambda"] (by decide)
      (hnode.required.cons (hlong.required.cons (hlambda.required.cons .nil)))
      (fun held => parMap held.1 held.2.1 held.2.2.1) (fun _ => rfl) (fun _ => rfl) hs hread
  case h_9 =>
    exact Survives.record ["expr", "ms", "fallback"] (by decide)
      (hnode.required.cons (hlong.required.cons (hnode.required.cons .nil)))
      (fun held => timeout held.1 held.2.1 held.2.2.1) (fun _ => rfl) (fun _ => rfl) hs hread
  case h_10 =>
    exact Survives.record ["expr", "attempts", "delay_ms"] (by decide)
      (hnode.required.cons (hshort.required.cons (hlong.required.cons .nil)))
      (fun held => retry held.1 held.2.1 held.2.2.1) (fun _ => rfl) (fun _ => rfl) hs hread
  case h_11 =>
    exact Survives.record ["expr", "catch", "matches", "finally"] (by decide)
      (hnode.required.cons <| (hlambda.nullable hlambdaNull).cons <|
        (hlambda.keyed.nullable (by intro _ h; cases h)).cons <|
        (hnode.nullable (by intro _ h; cases h)).cons .nil)
      (fun held => tryCatch held.1 held.2.1 held.2.2.1 held.2.2.2.1)
      (fun _ => rfl) (fun _ => rfl) hs hread
  case h_12 =>
    exact Survives.record ["condition", "error"] (by decide)
      (hnode.required.cons (hnode.required.cons .nil))
      (fun held => guard held.1 held.2.1) (fun _ => rfl) (fun _ => rfl) hs hread
  case h_13 => exact Survives.value.map custom (fun _ => rfl) hs hread
  case h_14 => cases hread

/-- **A payload survives.** The one that holds nothing is a bare name once it is written. -/
theorem survives : Survives ofSpelling? toValue := by
  intro levels s payload hs hread
  unfold ofSpelling? at hread
  split at hread
  next =>
    cases hread
    exact ⟨Spelling.within_text, rfl⟩
  next name spelling =>
    obtain ⟨less, rfl, hplain⟩ := Spelling.plain_object_iff.1 hs
    obtain ⟨hwithin, hagain⟩ := survives_ofForm? name (hplain _ List.mem_cons_self).2 hread
    cases hempty : payload.isEmpty with
    | true =>
      cases payload with
      | empty => exact ⟨Spelling.within_text, rfl⟩
      | _ => cases hempty
    | false =>
      rw [toValue_eq hempty, form_of_ofForm? hread]
      refine ⟨Spelling.within_object_iff.2 ⟨less, rfl, ?_⟩, hagain⟩
      exact List.forall_mem_singleton.2 hwithin
  next => cases hread

end Payload

theorem Node.survives : Survives ofSpelling? toValue :=
  .record ["tag", "payload"] (by decide)
    (Survives.text.required.cons (Payload.survives.required.cons .nil))
    (fun held => ⟨held.1, held.2.1⟩) (fun _ => rfl) fun _ => rfl

/-- **A graph survives,** node by node. -/
theorem Graph.survives : Survives ofSpelling? toValue :=
  .record ["nodes"] (by decide) (Node.survives.list.required.cons .nil)
    (fun held => ⟨held.1.toArray⟩) (fun _ => rfl) fun _ => rfl

end ProgramGraph
