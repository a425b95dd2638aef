import ProgramGraph.Proofs.Course.Commute
import ProgramGraph.Proofs.Fold.Reference
/-!
# Folds commute

Two roots that are folded with one memo, one after the other, may each find results
there that the other has left. Which of them finds what hangs on the order; how much
they find together does not, and neither does what they come to or what they leave.

The greatest depth is the exception among the counters. A node that is evaluated deep
inside one root may be found by the other at no depth at all.
-/

namespace ProgramGraph

variable {P : Plugins} {g : Graph} {reg : Registry P} {m : Memo}

/-- **Memos that cannot be told apart** but by the greatest depth: they keep the same
values of the same nodes, have the same nodes marked and have counted the same. -/
structure Memo.Matches (m m' : Memo) : Prop where
  kept : ∀ id, m.kept? id = m'.kept? id
  marked : ∀ id, m.isTainted id = m'.isTainted id
  starts : m.tally.starts = m'.tally.starts
  hits : m.tally.hits = m'.tally.hits
  lookups : m.tally.lookups = m'.tally.lookups
  steps : m.tally.steps = m'.tally.steps
  injections : m.tally.injections = m'.tally.injections

theorem Memo.matches_of_status {m m' : Memo} (h : ∀ id, m.status id = m'.status id)
    (hcounts : m.tally.counts = m'.tally.counts) : m.Matches m' where
  kept id := congrArg Prod.fst (h id)
  marked id := congrArg Prod.snd (h id)
  starts := (congrArg Tally.starts hcounts :)
  hits := (congrArg Tally.hits hcounts :)
  lookups := (congrArg Tally.lookups hcounts :)
  steps := (congrArg Tally.steps hcounts :)
  injections := (congrArg Tally.injections hcounts :)

/-- **A fold does what a visit to its root does,** and comes to what the root is
worth. -/
theorem Engine.exists_folds_deed (hg : g.validate = .ok ()) (hr : reg.Native) (hu : g.Untimed)
    (root : Root) (shared : P.Shared) {m' : Memo} (hm : m.Alike g reg (fun _ => True) m') :
    ∃ o, Engine.Folds ⟨g, reg, {}⟩ root m shared o ∧
      o.result = (g.evaluate reg root.target .empty).result ∧
      o.run.memo.Alike g reg (fun _ => True) (g.deed reg root.target .empty false 0 m').1 ∧
      o.run.memo.tally.counts =
        m.tally.counts.merge (g.deed reg root.target .empty false 0 m').2.counts := by
  have hreset : m.resetTally.Alike g reg (fun _ => True) m' := hm
  obtain ⟨halike, hcounts⟩ := (Graph.deed_on hg hr hu root.target .empty false 0).everywhere
    m.resetTally m' hreset
  obtain ⟨hanswer, htied⟩ := Graph.course_of_untimed hg hr hu root.target .empty false 0 hreset.1
  obtain ⟨o, ho, hreport, -⟩ := Engine.evaluates_of_course (E := ⟨g, reg, {}⟩) hg hr rfl
    root.target m .empty shared rfl htied
  have hresult := (congrArg Report.result hreport).trans (congrArg Answer.result hanswer)
  have hmemo : o.run.memo = (g.course reg root.target .empty false 0 m.resetTally).memo.mapTally
      fun _ => m.tally.merge (g.deed reg root.target .empty false 0 m.resetTally).2 :=
    congrArg Report.memo hreport
  refine ⟨o, ho, hresult, ?_, ?_⟩
  · rw [hmemo]
    exact halike
  · rw [hmemo, ← hcounts]
    exact Tally.counts_merge _ _

/-- **It makes no difference in which order two roots are folded.** Neither fold need
come to a value, nor even to a failure that could be recovered from. -/
theorem Memo.Reached.exists_folds_commute (hg : g.validate = .ok ())
    (hr : reg = .standard ∨ reg = .standardSequential) (hu : g.Untimed) (hm : m.Reached g reg)
    (a b : Root) (shared shared₁ shared' shared₁' : P.Shared) :
    ∃ oa ob ob' oa', Engine.Folds ⟨g, reg, {}⟩ a m shared oa ∧
      Engine.Folds ⟨g, reg, {}⟩ b oa.run.memo shared₁ ob ∧
      Engine.Folds ⟨g, reg, {}⟩ b m shared' ob' ∧
      Engine.Folds ⟨g, reg, {}⟩ a ob'.run.memo shared₁' oa' ∧
      oa.result = oa'.result ∧ ob.result = ob'.result ∧ ob.run.memo.Matches oa'.run.memo := by
  have hnative : reg.Native := Registry.native_of_standard_or hr
  have hsound := (hm.sound hg hnative).alike (p := fun _ => True)
  obtain ⟨oa, ha, hresulta, halikea, hcounta⟩ :=
    Engine.exists_folds_deed hg hnative hu a shared hsound
  obtain ⟨ob, hb, hresultb, halikeb, hcountb⟩ :=
    Engine.exists_folds_deed hg hnative hu b shared₁ halikea
  obtain ⟨ob', hb', hresultb', halikeb', hcountb'⟩ :=
    Engine.exists_folds_deed hg hnative hu b shared' hsound
  obtain ⟨oa', ha', hresulta', halikea', hcounta'⟩ :=
    Engine.exists_folds_deed hg hnative hu a shared₁' halikeb'
  obtain ⟨halike, hcounts⟩ :=
    Graph.deed_commute hg hnative hu a.target b.target .empty .empty false false 0 0 m m hsound
  refine ⟨oa, ob, ob', oa', ha, hb, hb', ha', hresulta.trans hresulta'.symm,
    hresultb.trans hresultb'.symm, matches_of_status (fun id => ?_) ?_⟩
  · exact ((halikeb.trans halike).trans halikea'.symm).2.2 id trivial
  · simp only [Deed.andThen, Tally.counts_merge] at hcounts
    rw [hcountb, hcounta, hcounta', hcountb', Tally.merge_assoc, hcounts, Tally.merge_assoc]

/-- The list of pairs and the list of the constants, in either order. -/
theorem Memo.Reached.exists_folds_commute_pairing :
    Graph.pairing.validate = .ok () ∧ Graph.pairing.Untimed ∧
      Memo.empty.Reached .pairing (.standard : Registry .none) ∧
      ∃ oa ob ob' oa' : Outcome .none,
        Engine.Folds ⟨.pairing, .standard, {}⟩ (.node ⟨3⟩) .empty () oa ∧
          Engine.Folds ⟨.pairing, .standard, {}⟩ (.node ⟨0⟩) oa.run.memo () ob ∧
          Engine.Folds ⟨.pairing, .standard, {}⟩ (.node ⟨0⟩) .empty () ob' ∧
          Engine.Folds ⟨.pairing, .standard, {}⟩ (.node ⟨3⟩) ob'.run.memo () oa' ∧
          oa.result = oa'.result ∧ ob.result = ob'.result ∧
          ob.run.memo.Matches oa'.run.memo := by
  have hg : Graph.pairing.validate = .ok () := rfl
  have hu : Graph.pairing.Untimed := by decide
  exact ⟨hg, hu, .empty, Memo.Reached.exists_folds_commute (P := .none) hg (.inl rfl) hu .empty
    (.node ⟨3⟩) (.node ⟨0⟩) () () () ()⟩

end ProgramGraph
