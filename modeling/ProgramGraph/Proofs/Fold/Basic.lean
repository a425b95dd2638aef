import ProgramGraph.Proofs.Schedule.Adequate
import ProgramGraph.Proofs.Solo.Course
import ProgramGraph.Proofs.Sound.Passage
/-!
# Folds and histories of folds

What two lines of proof come to: an evaluation without a limit ends as its course
says (`Engine.evaluates_of_course`), and a memo that any folds have left is sound
(`Memo.Reached.sound`), whether they came to an end, failed or were cut off.
-/

namespace ProgramGraph

variable {P : Plugins}

/-- **An evaluation ends** with an outcome, given enough steps. -/
def Engine.Evaluates (E : Engine P) (root : NodeId) (memo : Memo) (scope : Scope)
    (shared : P.Shared) (o : Outcome P) : Prop :=
  ∃ fuel, E.evaluate? fuel root memo scope shared = some o

/-- **A fold ends** with an outcome. -/
def Engine.Folds (E : Engine P) (root : Root) (memo : Memo) (shared : P.Shared)
    (o : Outcome P) : Prop :=
  ∃ fuel, E.fold? fuel root memo shared = some o

namespace Engine

variable {E : Engine P} {root : NodeId} {memo : Memo} {scope : Scope} {shared : P.Shared}
  {o o' : Outcome P}

/-- **An evaluation has one outcome.** -/
theorem Evaluates.unique (h : E.Evaluates root memo scope shared o)
    (h' : E.Evaluates root memo scope shared o') : o = o' := by
  obtain ⟨fuel, hfuel⟩ := h
  obtain ⟨fuel', hfuel'⟩ := h'
  have hmore := Schedule.follow_of_le hfuel (Nat.le_max_left fuel fuel')
  have hmore' := Schedule.follow_of_le hfuel' (Nat.le_max_right fuel fuel')
  rw [hmore] at hmore'
  exact Option.some.inj hmore'

/-- **An evaluation without a limit ends as its course says,** in a valid graph
and if there is no tie. -/
theorem evaluates_of_course (hg : E.graph.validate = .ok ()) (hr : E.registry.Native)
    (hlimit : E.limits.maxSteps = none) (root : NodeId) (memo : Memo) (scope : Scope)
    (shared : P.Shared) {c : Course}
    (hc : c = E.graph.course E.registry root scope false 0 memo.resetTally)
    (htied : c.cost.tied = false) :
    ∃ o, E.Evaluates root memo scope shared o ∧ o.report = c.report memo.tally ∧
      o.run.world.clock = c.cost.duration := by
  have hsolo := (takesCourse hg hr hlimit root).begin memo scope { shared } hc htied
  obtain ⟨fuel, o, hfollow, hreport, hclock⟩ := hsolo.follow
  rw [Run.world_begin_clock, Nat.zero_add] at hclock
  exact ⟨o, ⟨fuel, hfollow⟩, hreport, hclock⟩

/-- **From a sound memo an evaluation comes to what its root is worth** if
nothing in the graph hangs on time. -/
theorem evaluates_of_untimed (hg : E.graph.validate = .ok ()) (hr : E.registry.Native)
    (hlimit : E.limits.maxSteps = none) (hu : E.graph.Untimed) (root : NodeId) {memo : Memo}
    (hm : memo.Sound E.graph E.registry) (scope : Scope) (shared : P.Shared) :
    ∃ o, E.Evaluates root memo scope shared o ∧
      o.result = (E.graph.evaluate E.registry root scope).result := by
  have hm' : memo.resetTally.Sound E.graph E.registry := hm
  obtain ⟨hanswer, htied⟩ := Graph.course_of_untimed hg hr hu root scope false 0 hm'
  obtain ⟨o, ho, hreport, -⟩ := evaluates_of_course hg hr hlimit root memo scope shared rfl htied
  refine ⟨o, ho, (congrArg Report.result hreport).trans ?_⟩
  exact congrArg Answer.result hanswer

end Engine

/-- **The memo may be what some folds have left:** of any roots and with any
limits, with the memo cleared and its counters reset at any time in between. -/
inductive Memo.Reached (g : Graph) (reg : Registry P) : Memo → Prop
  /-- Nothing has been folded yet. -/
  | empty : Reached g reg .empty
  /-- A fold has ended, in whatever way. -/
  | fold {m : Memo} {limits : Limits} {root : Root} {shared : P.Shared} {o : Outcome P} :
    Reached g reg m → Engine.Folds ⟨g, reg, limits⟩ root m shared o → Reached g reg o.run.memo
  /-- The memo has been cleared. -/
  | clear {m : Memo} : Reached g reg m → Reached g reg m.clear
  /-- The counters have been reset. -/
  | resetTally {m : Memo} : Reached g reg m → Reached g reg m.resetTally

/-- **Folds leave sound memos,** by induction on what has been folded. -/
theorem Memo.Reached.sound {g : Graph} {reg : Registry P} (hg : g.validate = .ok ())
    (hr : reg.Native) {m : Memo} (h : m.Reached g reg) : m.Sound g reg := by
  induction h with
  | empty => exact sound_empty
  | @fold m limits root shared o _ hfold ih =>
    -- the fold may have been limited, so nothing is asked of its root
    have hlimit : False → limits.maxSteps = none := False.elim
    have hpure : False → g.Pure reg root.target := False.elim
    obtain ⟨fuel, ho⟩ := hfold
    exact (Engine.evaluate?_sound hg hr hlimit hpure ih ho).1.sound ih
  | clear _ ih =>
    refine ih.of_kept fun id value hkept => ?_
    rw [kept?_clear] at hkept
    cases hkept
  | resetTally _ ih => exact ih

end ProgramGraph
