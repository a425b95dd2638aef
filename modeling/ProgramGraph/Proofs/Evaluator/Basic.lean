import Mathlib.Data.List.Forall2
import ProgramGraph.Engine.Run
import ProgramGraph.Proofs.Evaluator.Role
/-!
# The plain evaluator

What a node is worth, by recursion on the graph: no frames, no memo, no
schedule and no limits. A parameter is looked up in the scope; any other node
does what its plan says, each child evaluated where it is asked for, in a
scope that is handed down and never cut back. A failure is a reply like any
other; a fatal error ends everything.

Beside the result the evaluator keeps track of taint, which has no part in
finding the result. It keeps no clock, though: where a plan asks which of two
things comes first it takes the one that stands first, and what it says of
such a plan is of no use. `Course` is the evaluator for those.
-/

namespace ProgramGraph

variable {P : Plugins}

/-! ## Answers -/

namespace Answer

@[ext] theorem ext {a b : Answer} (hr : a.result = b.result) (ht : a.tainted = b.tainted) :
    a = b := by
  cases a
  cases b
  simp_all

/-- The answer as it is after something tainted. -/
def taintedBy (a : Answer) (tainted : Bool) : Answer := ⟨a.result, tainted || a.tainted⟩

/-- **What follows on an answer.** A fatal error lets nothing follow. -/
def bind (a : Answer) (next : Reply → Answer) : Answer :=
  match Reply.ofResult a.result with
  | .ok reply => (next reply).taintedBy a.tainted
  | .error fatal => ⟨.error fatal, true⟩

/-- Some answers together: their values as a list or the first error in
order, tainted if one of them is. -/
def gather (answers : List Answer) : Answer :=
  ⟨(answers.mapM result).map .array, answers.any tainted⟩

@[simp] theorem result_taintedBy (a : Answer) (tainted : Bool) :
    (a.taintedBy tainted).result = a.result := rfl

@[simp] theorem tainted_taintedBy (a : Answer) (tainted : Bool) :
    (a.taintedBy tainted).tainted = (tainted || a.tainted) := rfl

@[simp] theorem taintedBy_false (a : Answer) : a.taintedBy false = a := rfl

theorem bind_of_reply {a : Answer} {reply : Reply} (h : Reply.ofResult a.result = .ok reply)
    (next : Reply → Answer) : a.bind next = (next reply).taintedBy a.tainted := by
  simp only [bind, h]

theorem bind_of_fatal {a : Answer} {fatal : EvalError}
    (h : Reply.ofResult a.result = .error fatal) (next : Reply → Answer) :
    a.bind next = ⟨.error fatal, true⟩ := by
  simp only [bind, h]

/-- **What follows is untainted only if the answer is,** and then the answer
is no fatal error. -/
theorem untainted_of_bind {a : Answer} {next : Reply → Answer}
    (h : (a.bind next).tainted = false) : a.tainted = false ∧
      ∃ reply, Reply.ofResult a.result = .ok reply ∧ (next reply).tainted = false ∧
        a.bind next = next reply := by
  cases hreply : Reply.ofResult a.result with
  | error fatal =>
    rw [bind_of_fatal hreply] at h
    cases h
  | ok reply =>
    rw [bind_of_reply hreply] at h ⊢
    simp only [tainted_taintedBy, Bool.or_eq_false_iff] at h
    exact ⟨h.1, reply, rfl, h.2, by rw [h.1]; rfl⟩

/-- What follows on a reply is untainted then. -/
theorem untainted_of_reply {a : Answer} {next : Reply → Answer} {reply : Reply}
    (hreply : Reply.ofResult a.result = .ok reply) (h : (a.bind next).tainted = false) :
    (next reply).tainted = false := by
  rw [bind_of_reply hreply, tainted_taintedBy, Bool.or_eq_false_iff] at h
  exact h.2

theorem untainted_of_gather {answers : List Answer} (h : (gather answers).tainted = false) :
    ∀ a ∈ answers, a.tainted = false := by
  simpa [gather] using h

end Answer

/-- **Some results are all values, or there is a first error.** -/
theorem forall₂_or_exists_of_mapM {α : Type} (result : α → Except EvalError Value)
    (items : List α) :
    (∃ values, items.mapM result = .ok values ∧
      List.Forall₂ (fun item value => result item = .ok value) items values) ∨
    ∃ before item after error, items = before ++ item :: after ∧
      (∀ earlier ∈ before, ∃ value, result earlier = .ok value) ∧ result item = .error error ∧
      items.mapM result = .error error := by
  induction items with
  | nil => exact .inl ⟨[], rfl, .nil⟩
  | cons item items ih =>
    rw [List.mapM_cons]
    cases hitem : result item with
    | error error => exact .inr ⟨[], item, items, error, rfl, nofun, hitem, rfl⟩
    | ok value =>
      rcases ih with ⟨values, hvalues, hall⟩ |
        ⟨before, other, after, error, rfl, hbefore, hother, herror⟩
      · rw [hvalues]
        exact .inl ⟨value :: values, rfl, .cons hitem hall⟩
      · rw [herror]
        refine .inr ⟨item :: before, other, after, error, rfl, ?_, hother, rfl⟩
        exact List.forall_mem_cons.2 ⟨⟨value, hitem⟩, hbefore⟩

/-- The reply to some results together is a failure, or as many values as there
are results. -/
theorem Reply.of_mapM {α : Type} {result : α → Except EvalError Value} {items : List α}
    {reply : Reply} (h : ofResult ((items.mapM result).map .array) = .ok reply) :
    (∃ value, reply = .error value) ∨
      ∃ values : List Value, values.length = items.length ∧ reply = .ok (.array values) := by
  rcases forall₂_or_exists_of_mapM result items with ⟨values, hvalues, hall⟩ |
    ⟨_, _, _, error, -, -, -, herror⟩
  · rw [hvalues] at h
    exact .inr ⟨values, hall.length_eq.symm, (Except.ok.inj h).symm⟩
  · rw [herror] at h
    cases error <;> cases h
    exact .inl ⟨_, rfl⟩

/-! ## Plans -/

/-- **Follows a plan** under a scope, given what the nodes are worth. -/
def Plan.evaluate (worth : NodeId → Scope → Answer) : Plan → Scope → Answer
  | finish result, _ => ⟨result, false⟩
  | visit id manner next, s =>
    (worth id (manner.scope s)).bind fun reply => (next reply).evaluate worth s
  | pause _ next, s => next.evaluate worth s
  | all jobs next, s =>
    (Answer.gather (jobs.map fun job => worth job.1 (s.push job.2))).bind
      fun reply => (next reply).evaluate worth s
  | first id _ next, s => (worth id s).bind fun reply => (next reply).evaluate worth s
  | deadline _ id next _, s => (worth id s).bind fun reply => (next reply).evaluate worth s

/-- What a plan is worth depends only on what the nodes are worth that it may
ask for. -/
theorem Plan.evaluate_congr {worth worth' : NodeId → Scope → Answer} {p : NodeId → Prop}
    {timed : Prop} (h : ∀ id, p id → ∀ s, worth id s = worth' id s) {plan : Plan}
    (hplan : plan.Within p timed) (s : Scope) : plan.evaluate worth s = plan.evaluate worth' s := by
  induction plan with
  | finish => rfl
  | visit id manner next ih =>
    simp only [evaluate, h id hplan.1, ih _ (hplan.2 _)]
  | pause ms next ih => exact ih hplan
  | all jobs next ih =>
    have hjobs : (jobs.map fun job => worth job.1 (s.push job.2)) =
        jobs.map fun job => worth' job.1 (s.push job.2) :=
      List.map_congr_left fun job hjob => h _ (hplan.1 job hjob) _
    simp only [evaluate, hjobs, ih _ (hplan.2 _)]
  | first id others next ih =>
    obtain ⟨-, hid, -, hnext⟩ := hplan
    simp only [evaluate, h id hid, ih _ (hnext _)]
  | deadline ms id next late ihn ihl =>
    obtain ⟨-, hid, hnext, -⟩ := hplan
    simp only [evaluate, h id hid, ihn _ (hnext _)]

/-! ## Nodes -/

namespace Graph

/-- The answer for a node that refers to one that does not stand before it.
There is no such node in a valid graph. -/
def misplaced (child : NodeId) : Answer :=
  ⟨.error (.invalidNode child "does not precede its parent"), false⟩

/-- The value of a parameter in a scope. -/
def resolve (s : Scope) (p : ParamId) : Except EvalError Value :=
  match s.lookup? p with
  | some value => .ok value
  | none => .error (.unboundParameter p)

/-- **What a node is worth** under a scope. -/
def evaluate (g : Graph) (reg : Registry P) (id : NodeId) (s : Scope) : Answer :=
  match g.role reg id with
  | .absent => ⟨.error (.invalidNode id "not in graph"), false⟩
  | .param p => ⟨resolve s p, true⟩
  | .refused error volatile => ⟨.error error, volatile⟩
  | .planned plan volatile =>
    (plan.evaluate (fun child s =>
      if child < id then g.evaluate reg child s else misplaced child) s).taintedBy volatile
termination_by id.index

variable {g : Graph} {reg : Registry P} {id : NodeId} {s : Scope}

theorem evaluate_absent (h : g.role reg id = .absent) :
    g.evaluate reg id s = ⟨.error (.invalidNode id "not in graph"), false⟩ := by
  rw [evaluate, h]

theorem evaluate_param {p : ParamId} (h : g.role reg id = .param p) :
    g.evaluate reg id s = ⟨resolve s p, true⟩ := by
  rw [evaluate, h]

theorem evaluate_refused {error : EvalError} {volatile : Bool}
    (h : g.role reg id = .refused error volatile) :
    g.evaluate reg id s = ⟨.error error, volatile⟩ := by
  rw [evaluate, h]

/-- **A node is worth what its plan is worth,** in a valid graph. -/
theorem evaluate_planned (hg : g.validate = .ok ()) (hr : reg.Native) {plan : Plan}
    {volatile : Bool} (h : g.role reg id = .planned plan volatile) :
    g.evaluate reg id s = (plan.evaluate (g.evaluate reg) s).taintedBy volatile := by
  rw [evaluate, h]
  simp only
  rw [Plan.evaluate_congr (fun child hchild s => if_pos hchild) (within_of_role hg hr h)]

end Graph

end ProgramGraph
