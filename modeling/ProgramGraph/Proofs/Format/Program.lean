import ProgramGraph.Program
import ProgramGraph.Proofs.Format.Node
import ProgramGraph.Proofs.Format.Spelling
/-!
# Programs survive being written

A graph, a root or a whole program that a text spells is written as a text that is read as
the same. Whatever form the first text has — records as arrays, parts that are missing or
null, keys that are repeated, fields that nobody knows — the second one has the one form
that writing gives.
-/

namespace ProgramGraph

theorem Ast.survives : Survives ofSpelling? toValue :=
  NodeId.survives.entry "result" Ast.mk fun _ _ => rfl

theorem Envelope.survives : Survives ofSpelling? toValue :=
  Ast.survives.entry "ast" Envelope.mk fun _ _ => rfl

/-- **A root survives.** A handle is written as a number, and an envelope as an object, which
no handle is read from. -/
theorem Root.survives : Survives ofSpelling? toValue := by
  intro levels s root hs hread
  unfold ofSpelling? at hread
  split at hread
  next id hid =>
    cases hread
    obtain ⟨hwithin, hagain⟩ := NodeId.survives hs hid
    refine ⟨hwithin, ?_⟩
    rw [ofSpelling?, toValue, hagain]
  next =>
    obtain ⟨e, he, rfl⟩ := Option.map_eq_some_iff.1 hread
    obtain ⟨hwithin, hagain⟩ := Envelope.survives hs he
    have hnode : NodeId.ofSpelling? e.toValue.toSpelling = none := rfl
    refine ⟨hwithin, ?_⟩
    rw [ofSpelling?, toValue, hnode, hagain]
    rfl

theorem Program.survives : Survives ofSpelling? toValue :=
  .record ["graph", "entry"] (by decide)
    (Graph.survives.required.cons (Root.survives.required.cons .nil))
    (fun held => ⟨held.1, held.2.1⟩) (fun _ => rfl) fun _ => rfl

/-! ## Texts -/

/-- No object of a text has the key of an embedded document. -/
def Spelling.EmbedsNothing (text : String) : Prop :=
  ∀ s ∈ ofText? text, s.Avoids Json.embeddingKey

/-- **Whatever is read from a text is read back** from the text it is written as, provided
that all its numbers are integers. -/
def ReadsBack {α : Type} (read : String → Except ReadError α) (toValue : α → Value)
    (text : String) : Prop :=
  ∀ a, read text = .ok a → (toValue a).Integral → read (toValue a).compact = .ok a

variable {α : Type} {decode : Spelling → Option α} {toValue : α → Value} {text : String}

theorem Spelling.readText_eq_ok {a : α} :
    readText decode text = .ok a ↔ ∃ s, ofText? text = some s ∧ decode s = some a := by
  unfold readText
  cases ofText? text with
  | none => simp
  | some s => cases hs : decode s <;> simp [hs]

/-- **What survives as a spelling** is read back from its text. What a text spells is within
the levels that can be read, so what is written is, too. -/
theorem Survives.readsBack (h : Survives decode toValue) (hembeds : Spelling.EmbedsNothing text) :
    ReadsBack (Spelling.readText decode) toValue text := by
  intro a hread hintegral
  obtain ⟨s, hs, ha⟩ := Spelling.readText_eq_ok.1 hread
  obtain ⟨hwithin, hagain⟩ := h ⟨hembeds s hs, Spelling.within_of_ofText? hs⟩ ha
  exact Spelling.readText_eq_ok.2 ⟨_, Spelling.ofText?_compact hintegral hwithin, hagain⟩

/-- **Graphs, roots and programs are read back.** -/
theorem readsBack_of_embedsNothing (h : Spelling.EmbedsNothing text) :
    ReadsBack Graph.read Graph.toValue text ∧ ReadsBack Root.read Root.toValue text ∧
      ReadsBack Program.read Program.toValue text :=
  ⟨Graph.survives.readsBack h, Root.survives.readsBack h, Program.survives.readsBack h⟩

namespace Program

/-- A program as nobody would write it: records are arrays or have their fields in another
order, nothing is held at length, a key is repeated, parts are missing, and there is a field
that nobody knows. -/
def loose : Value :=
  .object [
    ("note", .null),
    ("graph", .array [.array [
      .array [.text "core/list", .object [("empty", .null)]],
      .object [
        ("payload", .object [("literal",
          .object [("k", .null), ("l", .array []), ("k", .int (-9223372036854775808))])]),
        ("tag", .text "core/lit")],
      .array [.text "core/try",
        .object [("try", .object [("expr", .nat 0), ("catch", .array [.nat 7, .nat 1])])]]]]),
    ("entry", .object [("by", .nat 18446744073709551615),
      ("ast", .object [("result", .nat 2), ("by", .text "")])])]

/-- What it is read as. -/
def ofLoose : Program where
  graph := ⟨#[⟨"core/list", .empty⟩,
    ⟨"core/lit", .literal (.object [("k", .int (-9223372036854775808)), ("l", .array [])])⟩,
    ⟨"core/try", .tryCatch ⟨0⟩ (some ⟨⟨7⟩, ⟨1⟩⟩) none none⟩]⟩
  entry := .envelope ⟨⟨⟨2⟩, [("by", .text "")]⟩, [("by", .nat 18446744073709551615)]⟩

theorem ofText?_loose : Spelling.ofText? loose.compact = some loose.toSpelling := by
  have hwithin : loose.toSpelling.Within Spelling.depthLimit := by
    simp [loose, Value.toSpelling, Value.spellItems, Value.spellFields, Value.nat, Value.int,
      Spelling.Within, Spelling.ItemsWithin, Spelling.FieldsWithin, Spelling.depthLimit,
      Number.Fits, Word.half64, Word.count64]
  exact Spelling.ofText?_compact (by decide) hwithin

/-- It is read back from the text it is written as. -/
theorem readsBack_loose : Spelling.EmbedsNothing loose.compact ∧
    Program.read loose.compact = .ok ofLoose ∧ ofLoose.toValue.Integral ∧
    Program.read ofLoose.toValue.compact = .ok ofLoose := by
  have hembeds : Spelling.EmbedsNothing loose.compact := by
    intro s hs
    cases ofText?_loose.symm.trans hs
    decide
  have hread : Program.read loose.compact = .ok ofLoose :=
    Spelling.readText_eq_ok.2 ⟨_, ofText?_loose, rfl⟩
  have hintegral : ofLoose.toValue.Integral := by decide
  obtain ⟨-, -, hprogram⟩ := readsBack_of_embedsNothing hembeds
  exact ⟨hembeds, hread, hintegral, hprogram ofLoose hread hintegral⟩

end Program

end ProgramGraph
