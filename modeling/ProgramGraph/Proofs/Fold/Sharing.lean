import ProgramGraph.Graph.Families
import ProgramGraph.Proofs.Fold.Basic
/-!
# Sharing a memo

A memo that some folds have left may hold much or little, depending on where
they stopped. Whatever it holds, a fold that starts from it comes to what it
comes to from an empty memo, and whatever it holds is worth holding: the node
comes to the same under every scope, without a look-up of a parameter and
without a volatile handler.

Races and timeouts make no exception, although a result found in the memo makes
a branch faster: branches are jobs, and jobs start from empty memos.
-/

namespace ProgramGraph

variable {P : Plugins} {g : Graph} {reg : Registry P} {m : Memo}

/-! ## A graph with a timeout -/

namespace Graph

/-- A constant, and the constant under a deadline that it meets. -/
def punctual : Graph :=
  ⟨#[literalNode (.nat 7), ⟨Tag.timeout, .timeout ⟨0⟩ 5 ⟨0⟩⟩]⟩

theorem validate_punctual : punctual.validate = .ok () := rfl

theorem course_punctual (s : Scope) (height : Nat) :
    punctual.course (.standard : Registry .none) ⟨0⟩ s false height .empty =
      ⟨⟨.ok (.nat 7), false⟩, Memo.empty.put ⟨0⟩ (.nat 7) false, .start height + .turn⟩ := by
  have hr : (Registry.standard : Registry .none).Native := Registry.native_standard
  have hrole : punctual.role (.standard : Registry .none) ⟨0⟩ =
      .planned (.finish (.ok (.nat 7))) false := rfl
  have hnone : (if false then none else Memo.empty.kept? ⟨0⟩) = none := Memo.kept?_empty _
  exact course_planned validate_punctual hr hrole hnone rfl

/-- The constant takes no time at all, so it does not come just in time. -/
theorem untied_punctual : ¬ punctual.Tied (.standard : Registry .none) ⟨1⟩ .empty := by
  have hr : (Registry.standard : Registry .none).Native := Registry.native_standard
  have hrole : punctual.role (.standard : Registry .none) ⟨1⟩ =
      .planned (.deadline 5 ⟨0⟩ .ofReply (.visit ⟨0⟩ .plain .ofReply)) true := rfl
  have hnone : (if false then none else Memo.empty.kept? ⟨1⟩) = none := Memo.kept?_empty _
  rw [Tied, course_planned validate_punctual hr hrole hnone rfl]
  simp only [Plan.course, Visits.job, Context.job, course_punctual]
  decide

/-- A fold of the constant leaves it in the memo. -/
theorem exists_reached_punctual :
    ∃ m : Memo, m.Reached punctual (.standard : Registry .none) ∧
      m.kept? ⟨0⟩ = some (.nat 7) := by
  have hr : (Registry.standard : Registry .none).Native := Registry.native_standard
  obtain ⟨o, ho, hreport, -⟩ := Engine.evaluates_of_course (E := ⟨punctual, .standard, {}⟩)
    validate_punctual hr rfl ⟨0⟩ .empty .empty () (course_punctual .empty 0).symm rfl
  have hfold : Engine.Folds ⟨punctual, .standard, {}⟩ (.node ⟨0⟩) .empty () o := ho
  have hmemo := congrArg (fun e => e.memo.kept? ⟨0⟩) hreport
  refine ⟨o.run.memo, .fold .empty hfold, hmemo.trans ?_⟩
  exact (Memo.kept?_put _ _ _ _ _).trans (if_pos rfl)

end Graph

/-! ## Results do not hang on the memo -/

/-- **Sharing a memo never changes a result,** if there are no ties. -/
theorem Memo.Reached.exists_folds_eq (hg : g.validate = .ok ())
    (hm : m.Reached g (.standard : Registry P)) (root : Root)
    (htied : ¬ g.Tied (.standard : Registry P) root.target .empty) (shared shared' : P.Shared) :
    ∃ o o', Engine.Folds ⟨g, .standard, {}⟩ root m shared o ∧
      Engine.Folds ⟨g, .standard, {}⟩ root .empty shared' o' ∧ o.result = o'.result := by
  have hr : (Registry.standard : Registry P).Native := Registry.native_standard
  have hsound : m.resetTally.Sound g (.standard : Registry P) := hm.sound hg hr
  have hempty : (g.course (.standard : Registry P) root.target .empty false 0
      Memo.empty.resetTally).cost.tied = false := Bool.eq_false_iff.2 htied
  -- both memos are sound, so neither answers nor ties differ between the two courses
  obtain ⟨hanswer, htieds⟩ := Graph.course_eq_of_sound hg hr root.target .empty false 0 0
    hsound Memo.sound_empty
  obtain ⟨o, ho, hreport, -⟩ := Engine.evaluates_of_course (E := ⟨g, .standard, {}⟩) hg hr rfl
    root.target m .empty shared rfl (htieds.trans hempty)
  obtain ⟨o', ho', hreport', -⟩ := Engine.evaluates_of_course (E := ⟨g, .standard, {}⟩) hg hr rfl
    root.target .empty .empty shared' rfl hempty
  refine ⟨o, o', ho, ho', ?_⟩
  have hresult := congrArg Report.result hreport
  have hresult' := congrArg Report.result hreport'
  exact hresult.trans ((congrArg Answer.result hanswer).trans hresult'.symm)

/-- The timeout comes to the same with the constant in the memo and without. -/
theorem Memo.Reached.exists_folds_punctual :
    Graph.punctual.validate = .ok () ∧
      ¬ Graph.punctual.Tied (.standard : Registry .none) ⟨1⟩ .empty ∧
      ∃ m : Memo, m.Reached .punctual (.standard : Registry .none) ∧ m.kept? ⟨0⟩ = some (.nat 7) ∧
        ∃ o o' : Outcome .none, Engine.Folds ⟨.punctual, .standard, {}⟩ (.node ⟨1⟩) m () o ∧
          Engine.Folds ⟨.punctual, .standard, {}⟩ (.node ⟨1⟩) .empty () o' ∧
          o.result = o'.result := by
  obtain ⟨m, hm, hkept⟩ := Graph.exists_reached_punctual
  exact ⟨Graph.validate_punctual, Graph.untied_punctual, m, hm, hkept,
    Memo.Reached.exists_folds_eq Graph.validate_punctual hm (.node ⟨1⟩) Graph.untied_punctual () ()⟩

/-! ## What is kept hangs on nothing -/

/-- **What is kept of a node is worth keeping:** under every scope the node comes
to it untainted, no parameter is looked up, and no volatile handler is started
by any job. -/
theorem Memo.Reached.exists_evaluates_of_kept (hg : g.validate = .ok ())
    (hr : reg = .standard ∨ reg = .standardSequential) (hm : m.Reached g reg) {id : NodeId}
    {value : Value} (hkept : m.kept? id = some value) (scope : Scope) (shared : P.Shared) :
    ∃ o, Engine.Evaluates ⟨g, reg, {}⟩ id .empty scope shared o ∧
      o.result = .ok value ∧ o.tainted = false ∧ o.run.memo.tally.lookups = 0 ∧
      (∀ p, .lookedUp p ∉ o.run.world.journal) ∧
      ∀ started fresh accepted, .started started fresh accepted ∈ o.run.world.journal →
        ∀ node, g.get? started = some node → reg.isVolatile node.tag = false := by
  have hnative : reg.Native := by
    rcases hr with rfl | rfl
    · exact Registry.native_standard
    · exact Registry.native_standardSequential
  -- a sound memo keeps what is the same under all scopes, so the node is pure
  have hworth : ∀ s, g.evaluate reg id s = ⟨.ok value, false⟩ := hm.sound hg hnative id value hkept
  have hpure : g.Pure reg id := fun s => congrArg Answer.tainted (hworth s)
  obtain ⟨hanswer, htied, hlookups⟩ := Graph.course_of_pure hg hnative hpure scope false 0
    Memo.sound_empty
  rw [hworth scope] at hanswer
  obtain ⟨o, ho, hreport, -⟩ := Engine.evaluates_of_course (E := ⟨g, reg, {}⟩) hg hnative rfl
    id .empty scope shared rfl htied
  have hresult := (congrArg Report.result hreport).trans (congrArg Answer.result hanswer)
  have htainted := (congrArg Report.tainted hreport).trans (congrArg Answer.tainted hanswer)
  have htally : o.run.memo.tally.lookups = 0 := by
    have hcount := congrArg (fun e => e.memo.tally.lookups) hreport
    exact hcount.trans ((Nat.zero_add _).trans hlookups)
  obtain ⟨fuel, hfuel⟩ := ho
  have hlimit : True → Limits.maxSteps {} = none := fun _ => rfl
  obtain ⟨-, -, hinnocent⟩ := Engine.evaluate?_sound hg hnative hlimit (fun _ => hpure)
    Memo.sound_empty hfuel
  have hjournal := hinnocent trivial
  refine ⟨o, ⟨fuel, hfuel⟩, hresult, htainted, htally, ?_, ?_⟩
  · intro p hp
    exact hjournal _ hp
  · intro started fresh accepted hstarted
    exact hjournal _ hstarted

/-- So it is with the constant. -/
theorem Memo.Reached.exists_evaluates_punctual :
    Graph.punctual.validate = .ok () ∧
      ∃ m : Memo, m.Reached .punctual (.standard : Registry .none) ∧ m.kept? ⟨0⟩ = some (.nat 7) ∧
        ∃ o : Outcome .none,
          Engine.Evaluates ⟨.punctual, .standard, {}⟩ ⟨0⟩ .empty .empty () o ∧
          o.result = .ok (.nat 7) ∧ o.tainted = false ∧ o.run.memo.tally.lookups = 0 ∧
          (∀ p, .lookedUp p ∉ o.run.world.journal) ∧
          ∀ started fresh accepted, .started started fresh accepted ∈ o.run.world.journal →
            ∀ node, Graph.punctual.get? started = some node →
              (.standard : Registry .none).isVolatile node.tag = false := by
  obtain ⟨m, hm, hkept⟩ := Graph.exists_reached_punctual
  exact ⟨Graph.validate_punctual, m, hm, hkept,
    Memo.Reached.exists_evaluates_of_kept Graph.validate_punctual (.inl rfl) hm hkept .empty ()⟩

end ProgramGraph
