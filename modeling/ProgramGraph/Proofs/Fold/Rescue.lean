import ProgramGraph.Graph.Families
import ProgramGraph.Proofs.Transcript.Discourse
/-!
# Rescues

An expression may be guarded by a recovery from every error, by recoveries that go by the
kind of the error, and by a cleanup. `Rescue.Chosen` says which recovery an error calls for,
and `Trial` goes through what is said: the expression, the recovery if one is called for and
the cleanup if there is one, each once and in this order (`Engine.recounts_tryCatch`).
-/

namespace ProgramGraph

variable {P : Plugins}

/-! ## Which recovery is called for -/

/-- **The kind of an error:** a text is its own, and an object has it in a field. -/
inductive Value.IsKind : Value → String → Prop
  | text (kind : String) : IsKind (.text kind) kind
  | object {fields : Keyed String Value} {kind : String} :
    Keyed.find? fields "kind" = some (.text kind) → IsKind (.object fields) kind

theorem Value.errorKind?_eq_some_iff {error : Value} {kind : String} :
    errorKind? error = some kind ↔ error.IsKind kind := by
  constructor
  · intro h
    cases error with
    | text text =>
      obtain rfl : text = kind := Option.some.inj h
      exact .text text
    | object fields =>
      obtain ⟨value, hfind, htext⟩ := Option.bind_eq_some_iff.1 h
      cases value with
      | text text =>
        obtain rfl : text = kind := Option.some.inj htext
        exact .object hfind
      | _ => cases htext
    | _ => cases h
  · rintro (_ | hfind)
    · rfl
    · simp only [errorKind?, hfind]
      rfl

/-- **The recovery from an error:** the one from every error, or else the branch that is named
by its kind, or else the default branch. -/
inductive Rescue.Chosen (catcher : Option Lambda) (branches : Option (Keyed String Lambda))
    (error : Value) :
    Option Lambda → Prop
  | catcher {lambda : Lambda} : catcher = some lambda → Chosen catcher branches error (some lambda)
  | named {table : Keyed String Lambda} {kind : String} {lambda : Lambda} : catcher = none →
    branches = some table → error.IsKind kind → Keyed.find? table kind = some lambda →
    Chosen catcher branches error (some lambda)
  | default {table : Keyed String Lambda} : catcher = none → branches = some table →
    (∀ kind, error.IsKind kind → Keyed.find? table kind = none) →
    Chosen catcher branches error (Keyed.find? table "_")
  | none : catcher = none → branches = none → Chosen catcher branches error none

/-- The recovery that a task turns to is the one that is called for. -/
theorem Recovery.chosen_recoveryFrom? (task : Recovery) (error : Value) :
    Rescue.Chosen task.catcher task.branches error (task.recoveryFrom? error) := by
  obtain ⟨expr, catcher, branches, cleanup, phase⟩ := task
  cases catcher with
  | some lambda => exact .catcher rfl
  | none =>
    cases branches with
    | none => exact .none rfl rfl
    | some table =>
      cases hnamed : (errorKind? error).bind fun kind => Keyed.find? table kind with
      | some lambda =>
        obtain ⟨kind, hkind, hfind⟩ := Option.bind_eq_some_iff.1 hnamed
        have hchosen : recoveryFrom? ⟨expr, none, some table, cleanup, phase⟩ error =
            some lambda := by
          simp only [recoveryFrom?, Option.bind_eq_bind, Option.bind_some, hnamed]
          rfl
        rw [hchosen]
        exact .named rfl rfl (Value.errorKind?_eq_some_iff.1 hkind) hfind
      | none =>
        have hchosen : recoveryFrom? ⟨expr, none, some table, cleanup, phase⟩ error =
            Keyed.find? table "_" := by
          simp only [recoveryFrom?, Option.bind_eq_bind, Option.bind_some, hnamed]
          rfl
        rw [hchosen]
        refine .default rfl rfl fun kind hkind => ?_
        exact Option.bind_eq_none_iff.1 hnamed kind (Value.errorKind?_eq_some_iff.2 hkind)

/-! ## What is said -/

/-- A recovery from an error, and what has come of it. -/
structure Rescue extends Hearing where
  lambda : Lambda
  error : Value

/-- A cleanup, and what has come of it. -/
structure Cleaning extends Hearing where
  node : NodeId

/-- **Whether there is a rescue,** and which: from nothing but an error, by the recovery that
it calls for. -/
inductive Rescue.Called (catcher : Option Lambda) (branches : Option (Keyed String Lambda)) :
    Reply → Option Rescue → Prop
  | value (value : Value) : Called catcher branches (.ok value) none
  | rescue {error : Value} {lambda : Lambda} (heard : Hearing) :
    Chosen catcher branches error (some lambda) →
    Called catcher branches (.error error) (some ⟨heard, lambda, error⟩)
  | lost {error : Value} : Chosen catcher branches error none →
    Called catcher branches (.error error) none

/-- **What has come of an expression,** of its rescue and of the cleanup. -/
structure Trial where
  body : Hearing
  rescue : Option Rescue
  cleaning : Option Cleaning

namespace Trial

/-- The body of the recovery is asked for, with its parameter bound to the error. -/
def recovery (scope : Scope) : Option Rescue → List Utterance
  | some rescue => [.asks scope (.under rescue.lambda.body [(rescue.lambda.param, rescue.error)]),
      .hears rescue.answer]
  | none => []

/-- The cleanup is asked for afresh, and under the scope of the node itself. -/
def finale (scope : Scope) : Option Cleaning → List Utterance
  | some cleaning => [.asks scope (.fresh cleaning.node), .hears cleaning.answer]
  | none => []

/-- How it ends: as the cleanup if that fails, or else as the rescue, or else as the expression. -/
def outcome (body : Reply) : Option Rescue → Option Cleaning → Reply
  | _, some ⟨⟨.error value, _⟩, _⟩ => .error value
  | some rescue, _ => rescue.reply
  | none, _ => body

/-- Whether any of them is tainted. -/
def tainted (trial : Trial) : Bool :=
  trial.body.tainted || trial.rescue.any (·.tainted) || trial.cleaning.any (·.tainted)

/-- All that is said. -/
def dialogue (scope : Scope) (expr : NodeId) (volatile : Bool) (trial : Trial) : List Utterance :=
  [.asks scope (.child expr), .hears trial.body.answer] ++ recovery scope trial.rescue ++
    finale scope trial.cleaning ++
    [.ends ⟨(outcome trial.body.reply trial.rescue trial.cleaning).result,
      volatile || trial.tainted⟩]

end Trial

namespace Plan.Discourse

variable {node : NodeId} {volatile : Bool} {base : Scope} {now : Nat} {tainted : Bool}
  {whole : List (Nat × Utterance)}

/-- The discourse from the cleanup on, when it has come to some outcome. -/
theorem of_cleanUp {cleanup : Option NodeId} {outcome : Reply}
    (h : (Plan.cleanUp cleanup outcome).Discourse node volatile base now tainted whole) :
    ∃ cleaning : Option Cleaning, cleaning.map (·.node) = cleanup ∧
      whole.map Prod.snd = Trial.finale base cleaning ++
        [.ends ⟨(Trial.outcome outcome none cleaning).result,
          volatile || (tainted || cleaning.any (·.tainted))⟩] := by
  cases cleanup with
  | none =>
    rw [Plan.cleanUp, Plan.ofReply_eq] at h
    obtain rfl := h.of_finish
    refine ⟨none, rfl, ?_⟩
    simp [Trial.finale, Trial.outcome]
  | some cleanup =>
    obtain ⟨later, ⟨reply, taint⟩, after, -, rfl, hafter⟩ := h.of_visit
    refine ⟨some ⟨⟨reply, taint⟩, cleanup⟩, rfl, ?_⟩
    cases reply with
    | ok value =>
      rw [Plan.onValue, Plan.ofReply_eq] at hafter
      obtain rfl := hafter.of_finish
      rfl
    | error value =>
      obtain rfl := hafter.of_finish
      rfl

/-- **The discourse of a guarded expression.** -/
theorem of_tryCatch {task : Recovery}
    (h : (Plan.tryCatch task).Discourse node volatile base now false whole) :
    ∃ trial : Trial, Rescue.Called task.catcher task.branches trial.body.reply trial.rescue ∧
      trial.cleaning.map (·.node) = task.cleanup ∧
      whole.map Prod.snd = trial.dialogue base task.expr volatile := by
  obtain ⟨later, ⟨reply, taint⟩, after, -, rfl, hafter⟩ := h.of_visit
  cases reply with
  | ok value =>
    obtain ⟨cleaning, hcleaning, hsaid⟩ := hafter.of_cleanUp
    refine ⟨⟨⟨.ok value, taint⟩, none, cleaning⟩, .value value, hcleaning, ?_⟩
    rw [List.map_cons, List.map_cons, hsaid]
    simp [Trial.dialogue, Trial.recovery, Trial.tainted, Manner.request]
  | error error =>
    have hchosen := task.chosen_recoveryFrom? error
    dsimp only at hafter
    split at hafter
    next lambda hlambda =>
      obtain ⟨time, heard, after', -, rfl, hafter'⟩ := hafter.of_visit
      obtain ⟨cleaning, hcleaning, hsaid⟩ := hafter'.of_cleanUp
      rw [hlambda] at hchosen
      refine ⟨⟨⟨.error error, taint⟩, some ⟨heard, lambda, error⟩, cleaning⟩, .rescue heard hchosen,
        hcleaning, ?_⟩
      have houtcome : Trial.outcome heard.reply none cleaning =
          Trial.outcome (.error error) (some ⟨heard, lambda, error⟩) cleaning := by
        cases cleaning with
        | none => rfl
        | some cleaning =>
          obtain ⟨⟨reply, _⟩, _⟩ := cleaning
          cases reply <;> rfl
      simp only [List.map_cons, hsaid]
      simp [Trial.dialogue, Trial.recovery, Trial.tainted, Manner.request, houtcome]
    next hnone =>
      obtain ⟨cleaning, hcleaning, hsaid⟩ := hafter.of_cleanUp
      rw [hnone] at hchosen
      refine ⟨⟨⟨.error error, taint⟩, none, cleaning⟩, .lost hchosen, hcleaning, ?_⟩
      rw [List.map_cons, List.map_cons, hsaid]
      simp [Trial.dialogue, Trial.recovery, Trial.tainted, Manner.request]

end Plan.Discourse

/-- **A guarded expression is tried,** from the request `r` for it on: this is all that its
frame says, and so much of it has been said. -/
structure Run.Tries (r : Run P) (expr : NodeId) (catcher : Option Lambda)
    (branches : Option (Keyed String Lambda)) (cleanup : Option NodeId) (volatile : Bool)
    (log : Transcript) (next : Next P) (trial : Trial) (whole : List (Nat × Utterance)) : Prop where
  /-- There is a rescue if the expression fails and a recovery is called for. -/
  rescued : Rescue.Called catcher branches trial.body.reply trial.rescue
  /-- There is a cleanup in any case, if the node has one. -/
  cleaned : trial.cleaning.map (·.node) = cleanup
  discourse : whole.map Prod.snd = trial.dialogue r.scope expr volatile
  recited : next.Recites (r.frames.size + 1) (log.at (r.frames.size + 1)) whole

/-- **A guarded expression is tried, rescued and cleaned up after once,** wherever and whenever
it is evaluated. -/
theorem Engine.recounts_tryCatch {E : Engine P} {id : NodeId} {node : Node} {expr : NodeId}
    {catcher : Option Lambda} {branches : Option (Keyed String Lambda)} {cleanup : Option NodeId}
    {volatile : Bool} (hnode : E.graph.get? id = some node)
    (hpayload : node.payload = .tryCatch expr catcher branches cleanup)
    (hentry : E.registry.get node.tag = .ok ⟨.builtin .tryCatch, volatile⟩) :
    E.Recounts id fun r log next =>
      ∃ trial whole, r.Tries expr catcher branches cleanup volatile log next trial whole := by
  have hparam : node.param? = none := by simp only [Node.param?, hpayload]
  have htask : Builtin.tryCatch.start id node =
      .ok (.tryCatch { expr, catcher, branches, cleanup }) := by
    simp only [Builtin.start, hpayload]
  refine recounts_of_speaks hnode hparam hentry htask fun r log next hspeaks _ => ?_
  obtain ⟨whole, hwhole, hrecites⟩ := hspeaks.exists_discourse (Nat.succ_pos _)
  obtain ⟨trial, hrescued, hcleaned, hsaid⟩ := hwhole.of_tryCatch
  exact ⟨trial, whole, hrescued, hcleaned, hsaid, hrecites⟩

namespace Graph

/-- A default branch, and one that gives back the error. -/
def salvageBranches : Keyed String Lambda := [("_", ⟨⟨0⟩, ⟨0⟩⟩), ("odd", ⟨⟨0⟩, ⟨2⟩⟩)]

/-- A failure with a text, a parameter, and a guarded expression: the failure calls for the
branch of its name, and the cleanup is kept by then. -/
def salvage : Graph :=
  ⟨#[literalNode (.text "odd"), ⟨Tag.fail, .child ⟨0⟩⟩, .ofParam ⟨0⟩,
    ⟨Tag.tryCatch, .tryCatch ⟨1⟩ none (some salvageBranches) (some ⟨0⟩)⟩]⟩

end Graph

/-- So it is for an expression that fails, with a rescue and a cleanup. -/
theorem Engine.recounts_tryCatch_salvage :
    Graph.salvage.get? ⟨3⟩ =
        some ⟨Tag.tryCatch, .tryCatch ⟨1⟩ none (some Graph.salvageBranches) (some ⟨0⟩)⟩ ∧
      (Registry.standard : Registry .none).get Tag.tryCatch = .ok ⟨.builtin .tryCatch, false⟩ ∧
      Engine.Recounts (P := .none) ⟨.salvage, .standard, {}⟩ ⟨3⟩ fun r log next => ∃ trial whole,
        r.Tries ⟨1⟩ none (some Graph.salvageBranches) (some ⟨0⟩) false log next trial whole :=
  ⟨rfl, rfl, recounts_tryCatch rfl rfl rfl⟩

end ProgramGraph
