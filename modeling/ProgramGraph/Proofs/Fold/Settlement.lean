import ProgramGraph.Graph.Families
import ProgramGraph.Proofs.Transcript.Discourse
/-!
# Settlements

A settlement asks for each of its expressions, whatever comes of those before, and keeps
values and errors apart. Nothing is lost on the way: each expression gives a value or an
error, both in the order of the expressions, and the settlement is tainted as soon as one of
them is (`Engine.recounts_settle`).
-/

namespace ProgramGraph

variable {P : Plugins}

/-- What has come of an expression that is to be settled. -/
structure Settlement extends Hearing where
  expr : NodeId

namespace Settlement

/-- The values, in order. -/
def fulfilled (items : List Settlement) : List Value :=
  items.filterMap fun item => match item.reply with
    | .ok value => some value
    | .error _ => none

/-- The error values, in order. -/
def rejected (items : List Settlement) : List Value :=
  items.filterMap fun item => match item.reply with
    | .ok _ => none
    | .error value => some value

/-- Each expression is asked for, and there is an answer. -/
def dialogue (scope : Scope) (items : List Settlement) : List Utterance :=
  items.flatMap fun item => [.asks scope (.child item.expr), .hears item.answer]

/-- What they come to, after what has been kept before. -/
def ending (fulfilled rejected : List Value) (tainted : Bool) : Answer :=
  ⟨.ok (.object [("fulfilled", .array fulfilled), ("rejected", .array rejected)]), tainted⟩

/-- **Nothing is lost,** and nothing is kept twice. -/
theorem length_fulfilled_add (items : List Settlement) :
    (fulfilled items).length + (rejected items).length = items.length := by
  induction items with
  | nil => rfl
  | cons item items ih =>
    obtain ⟨⟨reply, tainted⟩, expr⟩ := item
    cases reply with
    | ok value =>
      show (value :: fulfilled items).length + (rejected items).length = items.length + 1
      rw [List.length_cons]
      omega
    | error value =>
      show (fulfilled items).length + (value :: rejected items).length = items.length + 1
      rw [List.length_cons]
      omega

/-- What fails is heard of as a failure. -/
theorem countP_dialogue (scope : Scope) (items : List Settlement) :
    (dialogue scope items).countP Utterance.isFailure = (rejected items).length := by
  induction items with
  | nil => rfl
  | cons item items ih =>
    obtain ⟨⟨reply, tainted⟩, expr⟩ := item
    have hcons : dialogue scope (⟨⟨reply, tainted⟩, expr⟩ :: items) =
        .asks scope (.child expr) :: .hears (Hearing.answer ⟨reply, tainted⟩) ::
          dialogue scope items := rfl
    rw [hcons, List.countP_cons, List.countP_cons, ih]
    cases reply <;> rfl

end Settlement

open Settlement

/-- **The discourse of a settlement,** from some expression on. -/
theorem Plan.Discourse.of_settle {node : NodeId} {base : Scope} {exprs : List NodeId}
    {kept errors : List Value} {now : Nat} {tainted : Bool} {whole : List (Nat × Utterance)}
    (h : (Plan.settle exprs kept errors).Discourse node false base now tainted whole) :
    ∃ items : List Settlement, items.map (·.expr) = exprs ∧
      whole.map Prod.snd = dialogue base items ++
        [.ends (ending (kept ++ fulfilled items) (errors ++ rejected items)
          (tainted || items.any (·.tainted)))] := by
  induction exprs generalizing kept errors now tainted whole with
  | nil =>
    obtain rfl := h.of_finish
    refine ⟨[], rfl, ?_⟩
    simp [dialogue, ending, fulfilled, rejected]
  | cons expr exprs ih =>
    obtain ⟨later, ⟨reply, taint⟩, after, -, rfl, hafter⟩ := h.of_visit
    cases reply with
    | ok value =>
      obtain ⟨items, hitems, hsaid⟩ := ih hafter
      refine ⟨⟨⟨.ok value, taint⟩, expr⟩ :: items, congrArg (expr :: ·) hitems, ?_⟩
      rw [List.map_cons, List.map_cons, hsaid]
      simp [dialogue, fulfilled, rejected, Manner.request, Bool.or_assoc]
    | error value =>
      obtain ⟨items, hitems, hsaid⟩ := ih hafter
      refine ⟨⟨⟨.error value, taint⟩, expr⟩ :: items, congrArg (expr :: ·) hitems, ?_⟩
      rw [List.map_cons, List.map_cons, hsaid]
      simp [dialogue, fulfilled, rejected, Manner.request, Bool.or_assoc]

/-- **All expressions are settled,** from the request `r` for the settlement on: this is all
that its frame says, and so much of it has been said. -/
structure Run.Settles (r : Run P) (exprs : List NodeId) (log : Transcript) (next : Next P)
    (items : List Settlement) (whole : List (Nat × Utterance)) : Prop where
  /-- There is one item for each expression, in order. -/
  each : items.map (·.expr) = exprs
  /-- Each is asked for once, whatever has come of those before, and then the frame ends. -/
  discourse : whole.map Prod.snd = dialogue r.scope items ++
    [.ends (ending (fulfilled items) (rejected items) (items.any (·.tainted)))]
  recited : next.Recites (r.frames.size + 1) (log.at (r.frames.size + 1)) whole
  /-- Nothing is lost. -/
  lengths : (fulfilled items).length + (rejected items).length = exprs.length
  /-- Every failure has been counted in the end. -/
  counted : log.at (r.frames.size + 1) = whole →
    r.injections + (rejected items).length ≤ next.run.injections

/-- **A settlement loses nothing,** wherever and whenever it is evaluated. -/
theorem Engine.recounts_settle {E : Engine P} {id : NodeId} {node : Node} {exprs : List NodeId}
    (hnode : E.graph.get? id = some node) (hpayload : node.payload = .args exprs)
    (hentry : E.registry.get node.tag = .ok ⟨.builtin .settle, false⟩) :
    E.Recounts id fun r log next => ∃ items whole, r.Settles exprs log next items whole := by
  have hparam : node.param? = none := by simp only [Node.param?, hpayload]
  have htask : Builtin.settle.start id node = .ok (.settle { exprs := exprs.toArray }) := by
    simp only [Builtin.start, hpayload]
  refine recounts_of_speaks hnode hparam hentry htask fun r log next hspeaks hcount => ?_
  have hplan : Builtin.Task.plan (.settle { exprs := exprs.toArray }) = .settle exprs [] [] := rfl
  rw [hplan] at hspeaks
  obtain ⟨whole, hwhole, hrecites⟩ := hspeaks.exists_discourse (Nat.succ_pos _)
  obtain ⟨items, hitems, hsaid⟩ := hwhole.of_settle
  refine ⟨items, whole, hitems, hsaid, hrecites, ?_, fun hall => ?_⟩
  · rw [length_fulfilled_add, ← hitems, List.length_map]
  · -- what fails has been heard of by the frame
    have hheard := Transcript.countP_at_le (Nat.succ_pos r.frames.size) log
    have hfailures : whole.countP (·.2.isFailure) = (rejected items).length := by
      have hmap : (whole.map Prod.snd).countP Utterance.isFailure = (rejected items).length := by
        rw [hsaid, List.countP_append, countP_dialogue]
        rfl
      rwa [List.countP_map] at hmap
    rw [hall, hfailures] at hheard
    exact Nat.le_trans (Nat.add_le_add_left hheard _) hcount

/-- A constant, a failure with it, and a settlement of both, the constant twice. -/
def Graph.verdicts : Graph :=
  ⟨#[literalNode (.nat 7), ⟨Tag.fail, .child ⟨0⟩⟩, ⟨Tag.settle, .args [⟨0⟩, ⟨1⟩, ⟨0⟩]⟩]⟩

/-- So it is for a settlement that has something of each. -/
theorem Engine.recounts_settle_verdicts :
    Graph.verdicts.get? ⟨2⟩ = some ⟨Tag.settle, .args [⟨0⟩, ⟨1⟩, ⟨0⟩]⟩ ∧
      (Registry.standard : Registry .none).get Tag.settle = .ok ⟨.builtin .settle, false⟩ ∧
      Engine.Recounts (P := .none) ⟨.verdicts, .standard, {}⟩ ⟨2⟩ fun r log next =>
        ∃ items whole, r.Settles [⟨0⟩, ⟨1⟩, ⟨0⟩] log next items whole :=
  ⟨rfl, rfl, recounts_settle rfl rfl rfl⟩

end ProgramGraph
