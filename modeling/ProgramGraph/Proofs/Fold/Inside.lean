import ProgramGraph.CommandLine.Report
import ProgramGraph.Proofs.Fold.Basic
import ProgramGraph.Proofs.Passage.Depth
/-!
# Folds stay inside the graph

A program that is accepted has a valid graph and its root in it, and that is enough:
an evaluation never leaves the graph (`CommandLine.inside_of_load`). What a task asks
for are children of its node, so nodes get smaller from frame to frame and from a
frame to the jobs that it waits for.
-/

namespace ProgramGraph

open Relation

variable {P : Plugins}

/-- **An evaluation stays inside the graph,** below its root. -/
structure Engine.Inside (E : Engine P) (root : NodeId) (memo : Memo) (scope : Scope)
    (shared : P.Shared) : Prop where
  /-- What a task asks for, for itself or for a job, is a child of its node. -/
  asks : ∀ r input request, E.AttendsTo root memo scope shared (.resume r input) →
    (r.countTurn.resumeFrame input).2 = .request request →
    ∃ frame rest, r.frames.items = frame :: rest ∧
      ∀ id ∈ request.nodes, ∃ node, E.graph.get? frame.node = some node ∧ id ∈ node.children
  /-- Nodes get smaller from each frame to the one above it. -/
  descends : ∀ next, E.AttendsTo root memo scope shared next →
    (next.run.frames.items.map Frame.node).Pairwise (· < ·)
  /-- No node is on one stack twice. -/
  distinct : ∀ next, E.AttendsTo root memo scope shared next →
    (next.run.frames.items.map Frame.node).Nodup
  /-- Jobs begin at smaller nodes than that of the frame that waits for them. -/
  spawns : ∀ r await, E.AttendsTo root memo scope shared (.wait r await) →
    ∃ frame rest, r.frames.items = frame :: rest ∧ ∀ job ∈ await.jobs, job.node < frame.node
  /-- No job ends because a node is missing. -/
  jobs : ∀ o, E.AttendsTo root memo scope shared (.finish o) →
    ∀ id, o.result ≠ .error (.invalidNode id "not in graph")
  /-- Nor does the evaluation. -/
  ends : ∀ o, E.Evaluates root memo scope shared o →
    ∀ id, o.result ≠ .error (.invalidNode id "not in graph")
  /-- From a new memo, no run of a job counts more frames than there are handles up to
  the root. -/
  depth : memo = .empty → ∀ next, E.AttendsTo root memo scope shared next →
    next.run.memo.tally.depth ≤ root.index + 1
  /-- Nor does the evaluation at its end. -/
  total : memo = .empty → ∀ o, E.Evaluates root memo scope shared o →
    o.run.memo.tally.depth ≤ root.index + 1

/-! ## Handles below the root -/

namespace Graph

variable {g : Graph} {root id : NodeId}

/-- Below a handle that is in the graph all handles are. -/
theorem isSome_get?_of_le (hroot : (g.get? root).isSome = true) (h : id ≤ root) :
    (g.get? id).isSome = true := by
  obtain ⟨node, hnode⟩ := Option.isSome_iff_exists.1 hroot
  obtain ⟨hlt, -⟩ := Array.getElem?_eq_some_iff.1 hnode
  have hle : id.index ≤ root.index := h
  have hid : id.index < g.nodes.size := by omega
  rw [get?, Array.getElem?_eq_getElem hid, Option.isSome_some]

end Graph

/-- **In a valid graph with the root nothing is missing.** -/
theorem EvalError.Explained.ne_missing {g : Graph} {root : NodeId} {error : EvalError}
    (h : error.Explained g root) (hg : g.validate = .ok ())
    (hroot : (g.get? root).isSome = true) (id : NodeId) : error ≠ .invalidNode id "not in graph" := by
  rintro rfl
  rcases h with hordinary | ⟨missing, -, hnone, hpath⟩
  · exact hordinary rfl
  · have hsome := Graph.isSome_get?_of_le hroot (Graph.le_of_path hg hpath)
    rw [hnone] at hsome
    cases hsome

namespace Engine

variable {E : Engine P} {root : NodeId} {memo : Memo} {scope : Scope} {shared : P.Shared}

/-- **Jobs are for nodes below the root** if the job that asks for them is. -/
theorem closed_le (hg : E.graph.validate = .ok ()) (hr : E.registry.Native)
    (ho : E.registry.Ordinary) (root : NodeId) (memo : Memo) :
    Schedule.Closed E (fun job => job.node ≤ root) (fun _ => True) memo where
  jobs {id job r await} hjob hpasses asked hasked := by
    obtain ⟨frame, rest, -, ⟨hjobs, -⟩, hline⟩ := hpasses.conducted hr ho
    have hlt : asked.node.index < frame.node.index := (hjobs asked hasked).lt hg
    have hle : frame.node.index ≤ job.node.index := (hline.pairwise hg).2 _ List.mem_cons_self
    have hroot : job.node.index ≤ root.index := hjob
    exact Nat.le_of_lt (Nat.lt_of_lt_of_le hlt (Nat.le_trans hle hroot))
  world _ _ := trivial
  clock _ _ := trivial

/-- **Whatever an evaluation attends to** some job below the root passes through. -/
theorem AttendsTo.exists_below (hg : E.graph.validate = .ok ()) (hr : E.registry.Native)
    (ho : E.registry.Ordinary) {next : Next P} (h : E.AttendsTo root memo scope shared next) :
    ∃ (m : Memo) (job : Job), (m = memo ∨ m = .empty) ∧ job.node ≤ root ∧
      Passes E (fun _ => True) m job next := by
  have hle : root ≤ root := Nat.le_refl root.index
  rcases h.exists_passes (closed_le hg hr ho root memo) hle trivial with hpasses | ⟨job, hjob, hpasses⟩
  · exact ⟨memo, ⟨root, scope⟩, .inl rfl, hle, hpasses⟩
  · exact ⟨.empty, job, .inr rfl, hjob, hpasses⟩

/-- **In a valid graph an evaluation stays below its root,** which is in the graph. -/
theorem inside_of_validate (hg : E.graph.validate = .ok ()) (hr : E.registry.Native)
    (ho : E.registry.Ordinary) (hroot : (E.graph.get? root).isSome = true) :
    E.Inside root memo scope shared := by
  have hpairwise : ∀ next, E.AttendsTo root memo scope shared next →
      (next.run.frames.items.map Frame.node).Pairwise (· < ·) := by
    intro next h
    obtain ⟨m, job, -, -, hpasses⟩ := h.exists_below hg hr ho
    exact ((hpasses.conducted hr ho).pairwise hg hpasses.manned).1
  have hempty : ∀ {m : Memo}, memo = .empty → m = memo ∨ m = .empty → m.tally.depth = 0 := by
    rintro m rfl (rfl | rfl) <;> rfl
  refine ⟨?asks, hpairwise, ?distinct, ?spawns, ?jobs, ?ends, ?depth, ?total⟩
  case asks =>
    intro r input request h hstep
    obtain ⟨m, job, -, -, hpasses⟩ := h.exists_below hg hr ho
    obtain ⟨frame, rest, hitems, hperforms, -⟩ := hpasses.conducted hr ho
    have hcount : r.countTurn.frames.items = frame :: rest := hitems
    obtain ⟨after, -, hasks⟩ := Run.resumeFrame_asks hcount hperforms
    rw [hstep] at hasks
    exact ⟨frame, rest, hitems, hasks.refers⟩
  case distinct =>
    intro next h
    exact (hpairwise next h).imp fun hlt heq => by
      rw [heq] at hlt
      exact Nat.lt_irrefl _ hlt
  case spawns =>
    intro r await h
    obtain ⟨m, job, -, -, hpasses⟩ := h.exists_below hg hr ho
    obtain ⟨frame, rest, hitems, ⟨hjobs, -⟩, -⟩ := hpasses.conducted hr ho
    exact ⟨frame, rest, hitems, fun asked hasked => (hjobs asked hasked).lt hg⟩
  case jobs =>
    intro o h id herror
    obtain ⟨m, job, -, hjob, hpasses⟩ := h.exists_below hg hr ho
    exact (hpasses.conducted hr ho _ herror).ne_missing hg
      (Graph.isSome_get?_of_le hroot hjob) id rfl
  case ends =>
    rintro o ⟨fuel, hfuel⟩ id herror
    obtain ⟨hpasses, -⟩ := passes_of_evaluate? (Schedule.closed_true E memo) trivial trivial hfuel
    exact (hpasses.conducted hr ho _ herror).ne_missing hg hroot id rfl
  case depth =>
    intro hmemo next h
    obtain ⟨m, job, hm, hjob, hpasses⟩ := h.exists_below hg hr ho
    have hdepth := hpasses.depth_le hg hr ho
    have hjob : job.node.index ≤ root.index := hjob
    rw [hempty hmemo hm] at hdepth
    omega
  case total =>
    rintro rfl o ⟨fuel, hfuel⟩
    obtain ⟨hpasses, -⟩ := passes_of_evaluate? (Schedule.closed_true E .empty) trivial trivial hfuel
    have hdepth : o.run.memo.tally.depth ≤ max 0 (root.index + 1) := hpasses.depth_le hg hr ho
    omega

end Engine

/-! ## Programs -/

namespace CommandLine

/-- **A program that is accepted** has a valid graph with its root. -/
theorem valid_of_load {file : String} {text : Option String} {program : Program}
    (h : load file text = .ok program) :
    program.graph.validate = .ok () ∧ program.hasTarget = true := by
  unfold load at h
  split at h
  next => cases h
  next =>
  split at h
  next => cases h
  next =>
  split at h
  next => cases h
  next hvalid =>
  split at h
  next htarget =>
    cases h
    exact ⟨hvalid, htarget⟩
  next => cases h

/-- **Validation is enough for an evaluation to stay inside the graph:** of any program
that is accepted, with the standard registry or the one with the sequential map, from
any memo, under any scope and with any limit. -/
theorem inside_of_load {file : String} {text : Option String} {program : Program}
    (hload : load file text = .ok program) {reg : Registry .none}
    (hr : reg = .standard ∨ reg = .standardSequential) (limits : Limits) (memo : Memo)
    (scope : Scope) : (program.engine reg limits).Inside program.target memo scope () := by
  obtain ⟨hg, htarget⟩ := valid_of_load hload
  exact Engine.inside_of_validate hg (Registry.native_of_standard_or hr)
    (Registry.ordinary_of_standard_or hr) htarget

/-- The text of a program with a race, whose only branch is an empty list. -/
def raceText : String :=
  "\x7b\"graph\":\x7b\"nodes\":[\x7b\"tag\":\"core/list\",\"payload\":\"empty\"\x7d," ++
  "\x7b\"tag\":\"async/race\",\"payload\":\x7b\"args\":[0]\x7d\x7d]\x7d,\"entry\":1\x7d"

/-- Its evaluation stays inside its graph. -/
theorem exists_inside_raceText : ∃ program, load "race.json" (some raceText) = .ok program ∧
    (program.engine .standard {}).Inside program.target .empty .empty () := by
  obtain ⟨program, hload⟩ : ∃ program, load "race.json" (some raceText) = .ok program := by
    cases h : load "race.json" (some raceText) with
    | ok program => exact ⟨program, rfl⟩
    | error failure =>
      have hok : (load "race.json" (some raceText)).isOk = true := by decide +kernel
      rw [h] at hok
      cases hok
  exact ⟨program, hload, inside_of_load hload (.inl rfl) {} .empty .empty⟩

end CommandLine

end ProgramGraph
