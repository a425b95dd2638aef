import ProgramGraph.Proofs.Fold.Inside
import ProgramGraph.Proofs.Format.Program
import ProgramGraph.Proofs.Passage.Blame
import ProgramGraph.Proofs.Passage.Fatal
/-!
# Tags without a handler

The tags of a program that its registry does not cover can be told without evaluating
anything, and are a warning: an evaluation fails where it meets one. The engine goes by
the payload, though. A node with a parameter is looked up whatever its tag, and every
other node needs a handler for its tag, that of parameters included. So the warning leaves
out that one tag, and it may name a tag that only parameters have; where the tag of
parameters and their payload go together, it is exact (`Program.foretells`).
-/

namespace ProgramGraph

variable {P : Plugins}

/-! ## Visits that fail for want of a handler -/

namespace Run

variable {E : Engine P} {id : NodeId} {tag : String}

/-- **A node that lacks a handler** fails every visit that is not answered from a memo. -/
theorem arrive_of_lacks (h : E.Lacks id tag) (r : Run P) (restore : Nat) {fresh : Bool}
    (hkept : (if fresh then none else r.innermost.kept? id) = none) :
    (r.arrive E id restore fresh).2 = .ready ⟨.error (.missingHandler tag), false⟩ := by
  obtain ⟨node, hnode, rfl, hparam, huncovered⟩ := h
  have hfind : E.registry.find? node.tag = none := by
    rw [Registry.contains, Option.isSome_eq_false_iff, Option.isNone_iff_eq_none] at huncovered
    exact huncovered
  simp only [arrive, hnode, hparam, hkept, Registry.get, hfind]

/-- So a run that begins at one is over. -/
theorem begin_of_lacks (h : E.Lacks id tag) (r : Run P) (hframes : r.frames.items = [])
    (hkept : r.innermost.kept? id = none) :
    ∃ o, r.begin E id = .finish o ∧ o.result = .error (.missingHandler tag) :=
  ⟨_, begin_of_ready hframes (Prod.ext rfl (arrive_of_lacks h r r.scope.depth hkept)), rfl⟩

/-- **No other node** fails a visit for want of a handler. -/
theorem lacks_of_arrive (hr : E.registry.Holds Builtin.Sober) {r : Run P} {restore : Nat}
    {fresh tainted : Bool}
    (h : (r.arrive E id restore fresh).2 = .ready ⟨.error (.missingHandler tag), tainted⟩) :
    E.Lacks id tag := by
  cases refuses_of_arrive h with
  | @missing node _ hnode hparam hmissing =>
    obtain ⟨htag, huncovered⟩ := Registry.missing_of_get hmissing
    cases htag
    exact ⟨node, hnode, rfl, hparam, huncovered⟩
  | @refused node entry _ _ _ _ hentry hstart =>
    obtain ⟨handler, hhandler, hsober⟩ := hr _ (Registry.mem_of_get hentry)
    exact False.elim (hsober.refuses id node _ (Handler.refuses_of_start hhandler hstart))

end Run

/-- An evaluation that is over when it has begun takes one step. -/
theorem Engine.evaluate?_of_begin {E : Engine P} {fuel : Nat} {root : NodeId} {memo : Memo}
    {scope : Scope} {shared : P.Shared} {o : Outcome P} (hfuel : fuel ≠ 0)
    (h : Run.begin E { memo, scope, world := { shared } } root = .finish o) :
    E.evaluate? fuel root memo scope shared = some o := by
  obtain ⟨more, rfl⟩ := Nat.exists_eq_succ_of_ne_zero hfuel
  rw [evaluate?, h]
  rfl

/-! ## What the tags foretell -/

namespace Program

variable {program : Program} {reg : Registry .none} {limits : Limits} {tag : String}

/-- **The tags without a handler** are those of nodes, but for that of parameters, which are
not in the registry. -/
theorem mem_uncoveredTags : tag ∈ program.uncoveredTags reg ↔ tag ≠ Node.paramTag ∧
    reg.contains tag = false ∧ ∃ id node, program.graph.get? id = some node ∧ node.tag = tag := by
  have hmem : tag ∈ program.graph.nodes.toList.map Node.tag ↔
      ∃ id node, program.graph.get? id = some node ∧ node.tag = tag := by
    rw [List.mem_map]
    constructor
    · rintro ⟨node, hnode, htag⟩
      obtain ⟨i, hi⟩ := List.mem_iff_getElem?.1 hnode
      exact ⟨⟨i⟩, node, by simpa [Graph.get?] using hi, htag⟩
    · rintro ⟨id, node, hnode, htag⟩
      exact ⟨node, List.mem_iff_getElem?.2 ⟨id.index, by simpa [Graph.get?] using hnode⟩, htag⟩
  simp only [uncoveredTags, List.mem_mergeSort, List.mem_eraseDups, List.mem_filter, hmem,
    Bool.and_eq_true, bne_iff_ne, ne_eq, Bool.not_eq_true']
  tauto

/-- **Parameters have their tag,** and nothing else has it. -/
def Tidy (program : Program) : Prop :=
  ∀ id node, program.graph.get? id = some node →
    (node.tag = Node.paramTag ↔ ∃ p, node.param? = some p)

/-- **What the tags without a handler foretell** of the evaluations of a program. -/
structure Foretells (program : Program) (reg : Registry .none) (limits : Limits) : Prop where
  /-- A visit fails for want of a handler for a tag at those nodes that have the tag, hold
  no parameter and are not covered. -/
  visits : ∀ id tag, (program.engine reg limits).Lacks id tag ↔
    ∃ r restore fresh tainted, (Run.arrive (program.engine reg limits) r id restore fresh).2 =
      .ready ⟨.error (.missingHandler tag), tainted⟩
  /-- It does so whenever the visit is not answered from a memo. -/
  always : ∀ id tag, (program.engine reg limits).Lacks id tag → ∀ r restore fresh,
    (if fresh then none else r.innermost.kept? id) = none →
    (Run.arrive (program.engine reg limits) r id restore fresh).2 =
      .ready ⟨.error (.missingHandler tag), false⟩
  /-- Of the tags that visits fail for, only that of parameters is left out. -/
  omits : ∀ id tag, (program.engine reg limits).Lacks id tag →
    tag ∈ program.uncoveredTags reg ∨ tag = Node.paramTag
  /-- Visits fail for every tag that is named, unless only parameters have it. -/
  names : ∀ tag ∈ program.uncoveredTags reg, (∃ id, (program.engine reg limits).Lacks id tag) ∨
    ∀ id node, program.graph.get? id = some node → node.tag = tag → ∃ p, node.param? = some p
  /-- An evaluation that ends for want of a handler has met such a node. -/
  ends : ∀ memo scope o tag, (program.engine reg limits).Evaluates program.target memo scope () o →
    o.result = .error (.missingHandler tag) → ∃ id, (program.engine reg limits).Lacks id tag
  /-- If the tag of parameters and their payload go together, exactly the tags are named
  that visits fail for. -/
  exact : program.Tidy → ∀ tag, tag ∈ program.uncoveredTags reg ↔
    ∃ id, (program.engine reg limits).Lacks id tag
  /-- If none is named then, no evaluation ends for want of a handler. -/
  safe : program.Tidy → program.uncoveredTags reg = [] → ∀ memo scope o tag,
    (program.engine reg limits).Evaluates program.target memo scope () o →
    o.result ≠ .error (.missingHandler tag)
  /-- Nor does the command that evaluates the program with these handlers and limits. -/
  runs : program.Tidy → program.uncoveredTags reg = [] → ∀ maxSteps sequential,
    reg = (if sequential then .standardSequential else .standard) → limits = { maxSteps } →
    ∀ tag, CommandLine.evaluate program maxSteps sequential ≠ .error (.fold (.missingHandler tag))

/-- A node that lacks a handler bears its tag. -/
theorem exists_of_lacks {id : NodeId} (h : (program.engine reg limits).Lacks id tag) :
    reg.contains tag = false ∧ ∃ id node, program.graph.get? id = some node ∧ node.tag = tag := by
  obtain ⟨node, hnode, htag, -, huncovered⟩ := h
  exact ⟨huncovered, id, node, hnode, htag⟩

/-- **Where parameters have their tag,** the tags named are those that visits fail for. -/
theorem Tidy.mem_uncoveredTags (h : program.Tidy) :
    tag ∈ program.uncoveredTags reg ↔ ∃ id, (program.engine reg limits).Lacks id tag := by
  rw [Program.mem_uncoveredTags]
  constructor
  · rintro ⟨hne, huncovered, id, node, hnode, rfl⟩
    refine ⟨id, node, hnode, rfl, ?_, huncovered⟩
    cases hparam : node.param? with
    | none => rfl
    | some p => exact absurd ((h id node hnode).2 ⟨p, hparam⟩) hne
  · rintro ⟨id, hlacks⟩
    obtain ⟨node, hnode, htag, hparam, huncovered⟩ := hlacks
    refine ⟨fun hparamTag => ?_, huncovered, id, node, hnode, htag⟩
    obtain ⟨p, hp⟩ := (h id node hnode).1 (htag.trans hparamTag)
    rw [hparam] at hp
    cases hp

/-- **What the command comes to** is what some evaluation does. -/
theorem exists_evaluates_of_run {maxSteps : Option Nat} {sequential : Bool} {error : EvalError}
    (h : CommandLine.evaluate program maxSteps sequential = .error (.fold error)) :
    ∃ o, (program.engine (if sequential then .standardSequential else .standard)
      { maxSteps }).Evaluates program.target .empty .empty () o ∧ o.result = .error error := by
  unfold CommandLine.evaluate at h
  dsimp only at h
  split at h
  next => cases h
  next o hfold =>
  split at h
  next => cases h
  next found hfound =>
    cases h
    exact ⟨o, ⟨Engine.plenty, hfold⟩, hfound⟩

/-- **The tags without a handler foretell evaluations** of any program, with either registry
of the library. -/
theorem foretells (program : Program) (hr : reg = .standard ∨ reg = .standardSequential)
    (limits : Limits) : program.Foretells reg limits := by
  have hsober : (program.engine reg limits).registry.Holds Builtin.Sober :=
    Registry.sober_of_standard_or hr
  have hn : (program.engine reg limits).registry.Native := Registry.native_of_standard_or hr
  have ho : (program.engine reg limits).registry.Ordinary := Registry.ordinary_of_standard_or hr
  have hends : ∀ memo scope o tag,
      (program.engine reg limits).Evaluates program.target memo scope () o →
      o.result = .error (.missingHandler tag) → ∃ id, (program.engine reg limits).Lacks id tag := by
    rintro memo scope o tag ⟨fuel, hfuel⟩ herror
    obtain ⟨hpasses, -⟩ :=
      Engine.passes_of_evaluate? (Schedule.closed_true _ memo) trivial trivial hfuel
    exact (hpasses.warranted hn ho hsober).2 _ herror
  have hsafe : program.Tidy → program.uncoveredTags reg = [] → ∀ memo scope o tag,
      (program.engine reg limits).Evaluates program.target memo scope () o →
      o.result ≠ .error (.missingHandler tag) := by
    intro htidy hnone memo scope o tag hevaluates herror
    obtain ⟨id, hlacks⟩ := hends memo scope o tag hevaluates herror
    have hmem := htidy.mem_uncoveredTags.2 ⟨id, hlacks⟩
    rw [hnone] at hmem
    cases hmem
  refine ⟨fun id tag => ⟨fun h => ?visits, ?lacks⟩, fun id tag h r restore fresh hkept =>
    Run.arrive_of_lacks h r restore hkept, fun id tag h => ?omits, fun tag htag => ?names, hends,
    fun htidy tag => htidy.mem_uncoveredTags, hsafe,
    fun htidy hnone maxSteps sequential hreg hlimits tag herror => ?runs⟩
  case visits =>
    exact ⟨{ world := { shared := () } }, 0, true, false, Run.arrive_of_lacks h _ 0 rfl⟩
  case lacks =>
    rintro ⟨r, restore, fresh, tainted, harrive⟩
    exact Run.lacks_of_arrive hsober harrive
  case omits =>
    obtain ⟨huncovered, hbears⟩ := exists_of_lacks h
    by_cases htag : tag = Node.paramTag
    · exact .inr htag
    · exact .inl (Program.mem_uncoveredTags.2 ⟨htag, huncovered, hbears⟩)
  case names =>
    obtain ⟨-, huncovered, -⟩ := Program.mem_uncoveredTags.1 htag
    by_cases hlacks : ∃ id, (program.engine reg limits).Lacks id tag
    · exact .inl hlacks
    · refine .inr fun id node hnode htag => ?_
      cases hparam : node.param? with
      | some p => exact ⟨p, rfl⟩
      | none => exact absurd ⟨id, node, hnode, htag, hparam, huncovered⟩ hlacks
  case runs =>
    obtain ⟨o, hevaluates, hresult⟩ := exists_evaluates_of_run herror
    rw [← hreg, ← hlimits] at hevaluates
    exact hsafe htidy hnone .empty .empty o tag hevaluates hresult

/-- A handler from elsewhere, used twice, and a parameter. -/
def extended : Program where
  graph := ⟨#[⟨"plugin/a", .empty⟩, ⟨"plugin/a", .empty⟩, .ofParam ⟨1⟩]⟩
  entry := .node ⟨0⟩

theorem tidy_extended : extended.Tidy := by
  rintro ⟨index⟩ node hnode
  match index with
  | 0 | 1 =>
    cases hnode
    exact ⟨fun h => absurd h (by decide), nofun⟩
  | 2 =>
    cases hnode
    exact ⟨fun _ => ⟨⟨1⟩, rfl⟩, fun _ => rfl⟩
  | index + 3 => cases hnode

theorem foretells_extended : extended.Tidy ∧
    extended.uncoveredTags .standard = ["plugin/a"] ∧
    ((.standard : Registry .none) = .standard ∨ (.standard : Registry .none) = .standardSequential) ∧
      extended.Foretells .standard {} :=
  ⟨tidy_extended, by decide +kernel, .inl rfl, foretells extended (.inl rfl) {}⟩

/-! ## A program whose tags and payloads are the wrong way round -/

/-- A constant under the tag of parameters, and a parameter under a tag of its own. -/
def swapped : Program where
  graph := ⟨#[⟨Node.paramTag, .literal (.nat 7)⟩, ⟨"plugin/x", .param ⟨1⟩⟩]⟩
  entry := .node ⟨0⟩

/-- How it is written. -/
def swappedFile : Value :=
  .object [
    ("graph", .object [("nodes", .array [
      .object [("tag", .text "core/param"), ("payload", .object [("literal", .nat 7)])],
      .object [("tag", .text "plugin/x"), ("payload", .object [("param", .nat 1)])]])]),
    ("entry", .nat 0)]

/-- It is a program that is accepted. -/
theorem load_swapped (file : String) :
    CommandLine.load file (some swappedFile.compact) = .ok swapped := by
  have hwithin : swappedFile.toSpelling.Within Spelling.depthLimit := by
    simp [swappedFile, Value.toSpelling, Value.spellItems, Value.spellFields, Value.nat,
      Spelling.Within, Spelling.ItemsWithin, Spelling.FieldsWithin, Spelling.depthLimit,
      Number.Fits, Word.count64]
  have hread : read swappedFile.compact = .ok swapped :=
    Spelling.readText_eq_ok.2 ⟨_, Spelling.ofText?_compact (by decide) hwithin, rfl⟩
  rw [CommandLine.load, hread]
  rfl

/-- **The tag that is missing is not named, and the one that is named is not missing:** the
evaluation fails for want of a handler for the tag of parameters, and no visit to a node
fails for want of one for the tag that is named. -/
theorem exists_loads_swapped : ∃ program,
    CommandLine.load "swapped.json" (some swappedFile.compact) = .ok program ∧
    program.uncoveredTags .standard = ["plugin/x"] ∧
    CommandLine.evaluate program none false = .error (.fold (.missingHandler Node.paramTag)) ∧
    ∀ r id restore fresh tainted, (Run.arrive (program.engine .standard {}) r id restore fresh).2 ≠
      .ready ⟨.error (.missingHandler "plugin/x"), tainted⟩ := by
  refine ⟨swapped, load_swapped _, by decide +kernel, ?_, fun r id restore fresh tainted harrive => ?_⟩
  · have hlacks : (swapped.engine .standard {}).Lacks ⟨0⟩ Node.paramTag := ⟨_, rfl, rfl, rfl, rfl⟩
    obtain ⟨o, hbegin, hresult⟩ :=
      Run.begin_of_lacks hlacks { world := { shared := () } } rfl (Memo.kept?_empty ⟨0⟩)
    have hfold : (swapped.engine .standard {}).foldAnew? Engine.plenty swapped.entry () = some o :=
      Engine.evaluate?_of_begin (by decide) hbegin
    simp only [CommandLine.evaluate, Bool.false_eq_true, if_false, hfold, hresult]
  · obtain ⟨node, hnode, htag, hparam, -⟩ :=
      Run.lacks_of_arrive (Registry.sober_of_standard_or (.inl rfl)) harrive
    obtain ⟨index⟩ := id
    match index with
    | 0 =>
      cases hnode
      exact absurd htag (by decide)
    | 1 =>
      cases hnode
      cases hparam
    | index + 2 => cases hnode

end Program

end ProgramGraph
