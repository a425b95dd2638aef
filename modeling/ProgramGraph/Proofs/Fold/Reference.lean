import ProgramGraph.Graph.Families
import ProgramGraph.Proofs.Evaluator.Interchange
import ProgramGraph.Proofs.Fold.Basic
/-!
# Folds without races and timeouts

Where nothing in a graph hangs on time, the engine comes to what the plain
evaluator says, and neither frames nor memo nor jobs can be told from the
result. So it makes no difference either whether the elements of a parallel map
are jobs of their own or are evaluated one at a time.

Both are said of evaluations that start from an empty memo and without a limit,
and both say that the evaluation does end.
-/

namespace ProgramGraph

variable {P : Plugins} {g : Graph}

/-- A list of three constants, mapped by a list of the element, two elements at
a time. -/
def Graph.pairing : Graph :=
  ⟨#[literalNode (.array [.nat 1, .nat 2, .nat 3]), Node.ofParam ⟨0⟩, listNode [⟨1⟩, ⟨1⟩],
    ⟨Tag.parMap, .parMap ⟨0⟩ 2 ⟨⟨0⟩, ⟨2⟩⟩⟩]⟩

/-- **The engine comes to what the plain evaluator says,** under every scope. -/
theorem Engine.exists_evaluates_eq_evaluate (hg : g.validate = .ok ()) (hu : g.Untimed)
    (root : NodeId) (scope : Scope) (shared : P.Shared) :
    ∃ o, Engine.Evaluates ⟨g, .standardSequential, {}⟩ root .empty scope shared o ∧
      o.result = (g.evaluate (.standardSequential : Registry P) root scope).result := by
  have hr : (Registry.standardSequential : Registry P).Native := Registry.native_standardSequential
  exact Engine.evaluates_of_untimed (E := ⟨g, .standardSequential, {}⟩) hg hr rfl hu root
    Memo.sound_empty scope shared

/-- So it does for the list of pairs. -/
theorem Engine.exists_evaluates_pairing :
    Graph.pairing.validate = .ok () ∧ Graph.pairing.Untimed ∧
      ∃ o : Outcome .none,
        Engine.Evaluates ⟨.pairing, .standardSequential, {}⟩ ⟨3⟩ .empty .empty () o ∧
          o.result = (Graph.pairing.evaluate (.standardSequential : Registry .none) ⟨3⟩
            .empty).result := by
  have hg : Graph.pairing.validate = .ok () := rfl
  have hu : Graph.pairing.Untimed := by decide
  exact ⟨hg, hu, Engine.exists_evaluates_eq_evaluate (P := .none) hg hu ⟨3⟩ .empty ()⟩

/-- **Elements of a parallel map may be jobs or not:** a root folds to the same
either way. -/
theorem Engine.exists_folds_interchangeable (hg : g.validate = .ok ()) (hu : g.Untimed)
    (root : Root) (shared shared' : P.Shared) :
    ∃ o o', Engine.Folds ⟨g, .standard, {}⟩ root .empty shared o ∧
      Engine.Folds ⟨g, .standardSequential, {}⟩ root .empty shared' o' ∧
      o.result = o'.result := by
  have hr : (Registry.standard : Registry P).Native := Registry.native_standard
  have hr' : (Registry.standardSequential : Registry P).Native := Registry.native_standardSequential
  obtain ⟨o, ho, hresult⟩ := Engine.evaluates_of_untimed (E := ⟨g, .standard, {}⟩) hg hr rfl hu
    root.target Memo.sound_empty .empty shared
  obtain ⟨o', ho', hresult'⟩ := Engine.evaluates_of_untimed (E := ⟨g, .standardSequential, {}⟩) hg
    hr' rfl hu root.target Memo.sound_empty .empty shared'
  refine ⟨o, o', ho, ho', ?_⟩
  rw [hresult, hresult']
  exact Graph.result_evaluate_of_alike Registry.alike_standard g root.target .empty

/-- The list of pairs is the same either way. -/
theorem Engine.exists_folds_pairing :
    Graph.pairing.validate = .ok () ∧ Graph.pairing.Untimed ∧
      ∃ o o' : Outcome .none,
        Engine.Folds ⟨.pairing, .standard, {}⟩ (.node ⟨3⟩) .empty () o ∧
          Engine.Folds ⟨.pairing, .standardSequential, {}⟩ (.node ⟨3⟩) .empty () o' ∧
          o.result = o'.result := by
  have hg : Graph.pairing.validate = .ok () := rfl
  have hu : Graph.pairing.Untimed := by decide
  exact ⟨hg, hu, Engine.exists_folds_interchangeable (P := .none) hg hu (.node ⟨3⟩) () ()⟩

end ProgramGraph
