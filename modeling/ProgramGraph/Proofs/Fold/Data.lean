import ProgramGraph.Graph.Families
import ProgramGraph.Proofs.Course.Data
import ProgramGraph.Proofs.Fold.Inside
/-!
# Folds of data

A graph of constants, lists and records may share its parts, and the tree that it unfolds
to may be exponentially larger. A fold comes to this tree, but what it does is told by the
graph: every node below the root is started once, and every other request for it is
answered from the memo (`Engine.exists_folds_sharing`). What is left in the memo is just
what is below the root, so to fold the root once more is one more answer from the memo.
-/

namespace ProgramGraph

open Relation (ReflTransGen)

variable {P : Plugins}

namespace Memo.Holds

variable {m : Memo} {g : Graph} {ids : Finset NodeId}

/-- Just so many results are kept. -/
theorem size_eq (h : m.Holds g ids) : m.size = ids.card := by
  have hmem : ∀ id, id ∈ m.results.keys ↔ id ∈ ids := by
    intro id
    have hkept : m.results[id]? = if id ∈ ids then some (g.tree id) else none := by
      rw [← h.kept id, kept?, h.untainted id]
      rfl
    rw [Std.HashMap.mem_keys, Std.HashMap.mem_iff_isSome_getElem?, hkept]
    split <;> simp [*]
  have hids : m.results.keys.toFinset = ids := by
    ext id
    rw [List.mem_toFinset, hmem]
  rw [← hids, List.toFinset_card_of_nodup Std.HashMap.nodup_keys, Std.HashMap.length_keys]
  rfl

/-- Nothing is marked. -/
theorem taintedSize_eq (h : m.Holds g ids) : m.taintedSize = 0 := by
  have hempty : m.tainted.isEmpty = true :=
    Std.HashSet.isEmpty_iff_forall_contains.2 h.untainted
  rw [Std.HashSet.isEmpty_eq_size_eq_zero, beq_iff_eq] at hempty
  exact hempty

end Memo.Holds

/-- **A fold of data** comes to the tree of its root, and does no more for it than the graph
has nodes and slots below the root. -/
structure Engine.Shares (E : Engine P) (root : NodeId) (o : Outcome P) : Prop where
  result : o.result = .ok (E.graph.tree root)
  untainted : o.tainted = false
  /-- Every node below the root is started once. -/
  starts : o.run.memo.tally.starts = (E.graph.below root).card
  /-- Requests through all slots are answered from the memo, but for the first one for each
  node. No slot is needed for the root. -/
  hits : o.run.memo.tally.hits + ((E.graph.below root).card - 1) =
    E.graph.slots (E.graph.below root)
  /-- Every node is resumed at its start and after each of its slots. -/
  steps : o.run.memo.tally.steps =
    (E.graph.below root).card + E.graph.slots (E.graph.below root)
  lookups : o.run.memo.tally.lookups = 0
  injections : o.run.memo.tally.injections = 0
  /-- What can be reached from the root is kept, and nothing else. -/
  kept : ∀ id, o.run.memo.kept? id ≠ none ↔ ReflTransGen E.graph.Refers root id
  size : o.run.memo.size = (E.graph.below root).card
  unmarked : (∀ id, o.run.memo.isTainted id = false) ∧ o.run.memo.taintedSize = 0
  /-- If the root is folded again, it is answered from the memo, and this is all. -/
  again : ∀ shared : P.Shared, ∃ o', E.Evaluates root o.run.memo .empty shared o' ∧
    o'.result = o.result ∧ o'.tainted = false ∧ o'.run.memo = o.run.memo.mapTally .countHit

namespace Engine

variable {E : Engine P} {root : NodeId}

/-- **What is kept is served,** and nothing else happens. -/
theorem exists_evaluates_served (hg : E.graph.validate = .ok ()) (hr : E.registry.Native)
    (hlimit : E.limits.maxSteps = none) {plan : Plan} {volatile : Bool}
    (hrole : E.graph.role E.registry root = .planned plan volatile) {memo : Memo} {value : Value}
    (hkept : memo.kept? root = some value) (scope : Scope) (shared : P.Shared) :
    ∃ o, E.Evaluates root memo scope shared o ∧ o.result = .ok value ∧ o.tainted = false ∧
      o.run.memo = memo.mapTally .countHit := by
  have hserved : (if false then none else memo.resetTally.kept? root) = some value := hkept
  have hcourse : E.graph.course E.registry root scope false 0 memo.resetTally = _ :=
    Graph.course_kept (by rw [hrole]; exact nofun) (by rw [hrole]; exact nofun) hserved
  obtain ⟨o, ho, hreport, -⟩ := evaluates_of_course hg hr hlimit root memo scope shared
    hcourse.symm rfl
  refine ⟨o, ho, congrArg Report.result hreport, congrArg Report.tainted hreport, ?_⟩
  refine (congrArg Report.memo hreport).trans (congrArg (Memo.mk memo.results memo.tainted) ?_)
  simp [Tally.merge, Tally.countHit, Tally.zero]

/-- **A fold of data does what the graph takes,** and not what its tree takes. -/
theorem exists_folds_sharing (hg : E.graph.validate = .ok ()) (hr : E.registry.Native)
    (hs : E.registry.Structural) (hlimit : E.limits.maxSteps = none) (root : Root)
    (hdata : E.graph.DataFrom root.target) (shared : P.Shared) :
    ∃ o, E.Folds root .empty shared o ∧ E.Shares root.target o := by
  have hfills := Graph.fills_course hg hr hs root.target hdata .empty 0 (Memo.holds_empty E.graph)
  rw [Finset.empty_union] at hfills
  obtain ⟨hanswer, hholds, htally, htied⟩ := hfills
  obtain ⟨o, ho, hreport, -⟩ := evaluates_of_course hg hr hlimit root.target .empty .empty shared
    rfl htied
  obtain ⟨plan, hrole, -⟩ := Graph.gathers_role hg hs hdata
  have hmemo : o.run.memo = _ := congrArg Report.memo hreport
  have hheld : o.run.memo.Holds E.graph (E.graph.below root.target) := by
    rw [hmemo]
    exact ⟨hholds.kept, hholds.untainted, hholds.closed⟩
  have hfilled : o.run.memo.tally.Fills E.graph ∅ (E.graph.below root.target) 1 0 := by
    have htotal : o.run.memo.tally = _ :=
      (congrArg Memo.tally hmemo).trans (Tally.zero_merge _)
    rw [htotal]
    exact htally
  obtain ⟨hstarts, hanswers, hsteps, hlookups, hinjections⟩ := hfilled
  have hnone : E.graph.slots ∅ = 0 := rfl
  rw [hnone] at hanswers hsteps
  rw [Finset.card_empty] at hstarts hsteps
  have hroot := Graph.mem_below_self hg root.target
  have hpositive : 0 < (E.graph.below root.target).card := Finset.card_pos.2 ⟨_, hroot⟩
  have hresult : o.result = .ok (E.graph.tree root.target) :=
    (congrArg Report.result hreport).trans (congrArg Answer.result hanswer)
  have hkept : o.run.memo.kept? root.target = some (E.graph.tree root.target) :=
    (hheld.kept _).trans (if_pos hroot)
  refine ⟨o, ho, ?_⟩
  exact {
    result := hresult
    untainted := (congrArg Report.tainted hreport).trans (congrArg Answer.tainted hanswer)
    starts := by omega
    hits := by omega
    steps := by omega
    lookups := hlookups
    injections := hinjections
    kept := fun id => by
      rw [hheld.kept, ← Graph.mem_below_iff hg root.target]
      simp
    size := hheld.size_eq
    unmarked := ⟨hheld.untainted, hheld.taintedSize_eq⟩
    again := fun shared => by
      rw [hresult]
      exact exists_evaluates_served hg hr hlimit hrole hkept .empty shared }

end Engine

/-! ## Lists that double -/

namespace Graph

/-- If all nodes describe data, so do those below any of them. -/
theorem dataFrom_of_forall_mem {g : Graph} (hg : g.validate = .ok ())
    (h : ∀ node ∈ g.nodes.toList, node.Data) {root : NodeId}
    (hroot : (g.get? root).isSome = true) : g.DataFrom root := by
  intro id hpath
  obtain ⟨node, hnode⟩ :=
    Option.isSome_iff_exists.1 (isSome_get?_of_le hroot (le_of_path hg hpath))
  exact ⟨node, hnode, h node (Array.mem_toList_iff.2 (Array.mem_of_getElem? hnode))⟩

theorem data_doubling (length : Nat) : ∀ node ∈ (doubling length).nodes.toList, node.Data := by
  intro node hnode
  simp only [doubling, List.toList_toArray, List.mem_cons, List.mem_map] at hnode
  rcases hnode with rfl | ⟨index, -, rfl⟩
  · exact .literal _
  · exact .list rfl

/-- Below the second list there are three nodes. -/
theorem below_doubling : (doubling 2).below ⟨2⟩ = {⟨2⟩, ⟨1⟩, ⟨0⟩} := by
  have hg : (doubling 2).validate = .ok () := rfl
  have hconstant : (doubling 2).below ⟨0⟩ = {⟨0⟩} := below_eq hg _
  have hlist (index : Nat) (h : (doubling 2).childrenOf ⟨index + 1⟩ = [⟨index⟩, ⟨index⟩]) :
      (doubling 2).below ⟨index + 1⟩ = insert ⟨index + 1⟩ ((doubling 2).below ⟨index⟩) := by
    rw [below_eq hg, h]
    simp
  rw [hlist 1 rfl, hlist 0 rfl, hconstant]

end Graph

/-- The tree of the second list has four leaves, and three starts are enough for it. -/
theorem Engine.exists_folds_sharing_doubling :
    (Graph.doubling 2).validate = .ok () ∧ (Registry.standard : Registry .none).Native ∧
    (Registry.standard : Registry .none).Structural ∧ (Graph.doubling 2).DataFrom ⟨2⟩ ∧
    ∃ o : Outcome .none, Engine.Folds ⟨.doubling 2, .standard, {}⟩ (.node ⟨2⟩) .empty () o ∧
      Engine.Shares ⟨.doubling 2, .standard, {}⟩ ⟨2⟩ o ∧ o.run.memo.tally.starts = 3 ∧
      o.run.memo.tally.hits = 2 ∧ o.run.memo.tally.steps = 7 := by
  have hg : (Graph.doubling 2).validate = .ok () := rfl
  have hdata : (Graph.doubling 2).DataFrom ⟨2⟩ :=
    Graph.dataFrom_of_forall_mem hg (Graph.data_doubling 2) rfl
  obtain ⟨o, ho, hshares⟩ := exists_folds_sharing (P := .none) (E := ⟨.doubling 2, .standard, {}⟩) hg
    Registry.native_standard Registry.structural_standard rfl (.node ⟨2⟩) hdata ()
  have hstarts := hshares.starts
  have hhits := hshares.hits
  have hsteps := hshares.steps
  have hbelow : (Graph.doubling 2).below (Root.node ⟨2⟩).target = _ := Graph.below_doubling
  have hcard : ({⟨2⟩, ⟨1⟩, ⟨0⟩} : Finset NodeId).card = 3 := rfl
  have hslots : (Graph.doubling 2).slots {⟨2⟩, ⟨1⟩, ⟨0⟩} = 4 := rfl
  rw [hbelow, hcard] at hstarts hhits hsteps
  rw [hslots] at hhits hsteps
  exact ⟨hg, Registry.native_standard, Registry.structural_standard, hdata, o, ho, hshares,
    hstarts, by omega, hsteps⟩

end ProgramGraph
