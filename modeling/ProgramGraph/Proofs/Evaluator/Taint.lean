import ProgramGraph.Proofs.Evaluator.Basic
/-!
# Untainted nodes are worth the same everywhere

Taint is kept track of beside the result, and it is enough: an evaluation that
comes out untainted has read no parameter on any way it went, so it would have
gone the same way under every other scope. This is what lets the result of an
untainted node be kept at all.
-/

namespace ProgramGraph

variable {P : Plugins}

/-- A node whose worth hangs on no binding and on nothing volatile. -/
def Graph.Pure (g : Graph) (reg : Registry P) (id : NodeId) : Prop :=
  ∀ s, (g.evaluate reg id s).tainted = false

/-- What nodes are worth does not hang on the scope where it is untainted. -/
def Steady (worth : NodeId → Scope → Answer) : Prop :=
  ∀ id s t, (worth id s).tainted = false → worth id t = worth id s

namespace Plan

variable {worth : NodeId → Scope → Answer}

/-- What follows on an answer that is the same under both scopes. -/
theorem bind_steady {a b : Answer} {next next' : Reply → Answer}
    (hab : a.tainted = false → b = a)
    (hnext : ∀ reply, (next reply).tainted = false → next' reply = next reply)
    (h : (a.bind next).tainted = false) : b.bind next' = a.bind next := by
  obtain ⟨ha, reply, hreply, hnextReply, -⟩ := Answer.untainted_of_bind h
  rw [hab ha, Answer.bind_of_reply hreply, Answer.bind_of_reply hreply, hnext reply hnextReply]

/-- **A plan that comes out untainted** comes out the same under every
scope. -/
theorem evaluate_steady (h : Steady worth) (plan : Plan) (s t : Scope)
    (hplan : (plan.evaluate worth s).tainted = false) :
    plan.evaluate worth t = plan.evaluate worth s := by
  induction plan with
  | finish => rfl
  | visit id manner next ih => exact bind_steady (h _ _ _) ih hplan
  | pause ms next ih => exact ih hplan
  | all jobs next ih =>
    refine bind_steady (fun hgather => ?_) ih hplan
    have hjobs : (jobs.map fun job => worth job.1 (t.push job.2)) =
        jobs.map fun job => worth job.1 (s.push job.2) := by
      refine List.map_congr_left fun job hjob => h _ _ _ ?_
      exact Answer.untainted_of_gather hgather _ (List.mem_map_of_mem hjob)
    rw [hjobs]
  | first id others next ih => exact bind_steady (h _ _ _) ih hplan
  | deadline ms id next late ihn ihl => exact bind_steady (h _ _ _) ihn hplan

end Plan

namespace Graph

/-- **An untainted node is worth the same under every scope.** -/
theorem evaluate_steady (g : Graph) (reg : Registry P) : Steady (g.evaluate reg) := by
  intro id s t h
  induction hn : id.index using Nat.strongRecOn generalizing id s t with
  | _ n ih =>
    rw [evaluate] at h
    rw [evaluate, evaluate]
    cases hrole : g.role reg id with
    | absent => rfl
    | param p =>
      rw [hrole] at h
      cases h
    | refused error volatile => rfl
    | planned plan volatile =>
      rw [hrole] at h
      simp only [Answer.tainted_taintedBy, Bool.or_eq_false_iff] at h ⊢
      congr 1
      refine Plan.evaluate_steady (fun child s t hchild => ?_) plan s t h.2
      by_cases hlt : child < id
      · simp only [if_pos hlt] at hchild ⊢
        exact ih child.index (hn ▸ hlt) child s t hchild rfl
      · simp only [if_neg hlt]

variable {g : Graph} {reg : Registry P} {id : NodeId}

/-- One untainted evaluation is enough for a node to be pure. -/
theorem pure_of_untainted {s : Scope} (h : (g.evaluate reg id s).tainted = false) :
    g.Pure reg id := by
  intro t
  rw [evaluate_steady g reg id s t h]
  exact h

/-- **A pure node is no parameter,** and its tag is not volatile. -/
theorem Pure.of_get? (h : g.Pure reg id) {node : Node} (hnode : g.get? id = some node) :
    node.param? = none ∧ reg.isVolatile node.tag = false := by
  have hworth := h .empty
  cases hp : node.param? with
  | some p =>
    have hrole : g.role reg id = .param p := by simp only [role, hnode, hp]
    rw [evaluate_param hrole] at hworth
    cases hworth
  | none =>
    refine ⟨rfl, ?_⟩
    unfold Registry.isVolatile
    cases hfind : reg.find? node.tag with
    | none => rfl
    | some entry =>
      have hentry : reg.get node.tag = .ok entry := by simp only [Registry.get, hfind]
      show entry.volatile = false
      cases hplan : entry.plan id node with
      | error error =>
        have hrole : g.role reg id = .refused error entry.volatile := by
          simp only [role, hnode, hp, hentry, hplan]
        rw [evaluate_refused hrole] at hworth
        exact hworth
      | ok plan =>
        have hrole : g.role reg id = .planned plan entry.volatile := by
          simp only [role, hnode, hp, hentry, hplan]
        rw [evaluate, hrole] at hworth
        exact (Bool.or_eq_false_iff.1 hworth).1

end Graph

end ProgramGraph
