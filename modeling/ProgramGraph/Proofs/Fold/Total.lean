import ProgramGraph.Proofs.Fold.Reference
import ProgramGraph.Proofs.Total.Load
import ProgramGraph.Proofs.Total.Node
/-!
# Every fold comes to an end

In a graph that passes validation a fold takes finitely many steps, from any memo
and under any scope, with those of all jobs that it starts: each node comes after
its children, a task has only so much to do with what it hears, and a schedule is
as finite as its runs are. So what a fold ends with is a function of what it begins
with, and the number of steps it is given plays no part in it.
-/

namespace ProgramGraph

variable {P : Plugins} {g : Graph} {reg : Registry P}

/-- **An evaluation ends if its run cannot go on for ever,** with what it waits for. -/
theorem Engine.exists_evaluates_of_ceases {E : Engine P} {root : NodeId} {memo : Memo}
    {scope : Scope} {shared : P.Shared}
    (hceases : (Run.begin E { memo, scope, world := { shared } } root).Ceases E) :
    ∃ o, E.Evaluates root memo scope shared o := by
  let next := Run.begin E { memo, scope, world := { shared } } root
  -- the run of the root is all that there is at first
  have hload : (Schedule.start next).load = {.going next} := by
    have hpending : (Schedule.start next).pending = 0 := rfl
    rw [Schedule.load, hpending, zero_add]
    rfl
  have hacc : ∀ a ∈ (Schedule.start next).load, Acc (Item.Less E) a := by
    intro a ha
    rw [hload, Multiset.mem_singleton] at ha
    exact ha ▸ hceases
  have hpasses : Passes E (fun _ => True) memo ⟨root, scope⟩ next := .begin trivial
  have htracks : Schedule.TracksFocus E (fun _ => True) (fun _ => True) memo (fun _ => ⟨root, scope⟩)
      (.start next) (Schedule.start next).focus := Schedule.tracksFocus_start trivial hpasses
  obtain ⟨fuel, o, ho⟩ := htracks.exists_follow (Schedule.closed_true E memo) hacc
  exact ⟨o, fuel, ho⟩

/-- **A fold that begins at a node of a valid graph ends.** -/
theorem Engine.exists_evaluates {E : Engine P} (hg : E.graph.validate = .ok ())
    (hr : E.registry.Native) (root : NodeId) (memo : Memo) (scope : Scope) (shared : P.Shared) :
    ∃ o, E.Evaluates root memo scope shared o :=
  exists_evaluates_of_ceases (Run.ceases_begin hg hr root rfl)

/-- **The evaluator is total on valid graphs:** from any memo, under any scope and
within any limit on the steps of a run, an evaluation ends after finitely many
turns of its runs, in one way only. -/
theorem Engine.existsUnique_evaluates (hg : g.validate = .ok ())
    (hr : reg = .standard ∨ reg = .standardSequential) (limits : Limits) (root : NodeId)
    (memo : Memo) (scope : Scope) (shared : P.Shared) :
    ∃! o, Engine.Evaluates ⟨g, reg, limits⟩ root memo scope shared o := by
  have hnative : reg.Native := Registry.native_of_standard_or hr
  obtain ⟨o, ho⟩ := Engine.exists_evaluates (E := ⟨g, reg, limits⟩) hg hnative root memo scope shared
  exact ⟨o, ho, fun o' ho' => ho'.unique ho⟩

/-- So it is for the list of pairs, whatever the constant of the list is said to
be. -/
theorem Engine.existsUnique_evaluates_pairing :
    Graph.pairing.validate = .ok () ∧
      ∃! o : Outcome .none, Engine.Evaluates ⟨.pairing, .standard, {}⟩ ⟨3⟩
        (Memo.empty.put ⟨0⟩ (.array [.nat 4]) false) .empty () o := by
  have hg : Graph.pairing.validate = .ok () := rfl
  exact ⟨hg, Engine.existsUnique_evaluates (P := .none) hg (.inl rfl) {} ⟨3⟩ _ .empty ()⟩

end ProgramGraph
