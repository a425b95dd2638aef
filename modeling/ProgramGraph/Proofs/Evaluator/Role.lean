import ProgramGraph.Graph.Basic
import ProgramGraph.Registry.Standard
import ProgramGraph.Proofs.Plan.Follow
import ProgramGraph.Proofs.Plan.Reach
/-!
# Roles of nodes

What a visit to a node leads to is for the most part settled by the graph and
the registry: whether there is a node, whether it is a parameter, and if not
what its handler is going to do. `Graph.role` gathers this, so that evaluators
differ only in what they do with it.

A registry is native if its handlers are those of the library and everything
that may hang on time is volatile. The standard registries are.
-/

namespace ProgramGraph

variable {P : Plugins}

/-- What a handle stands for. -/
inductive Role
  /-- There is no such node. -/
  | absent
  /-- A parameter. -/
  | param (p : ParamId)
  /-- A node without a handler, or one that its handler refuses. -/
  | refused (error : EvalError) (volatile : Bool)
  /-- A node that is evaluated by a plan. -/
  | planned (plan : Plan) (volatile : Bool)

/-- The plan by which a node is evaluated, or why it is refused. -/
def Entry.plan (entry : Entry P) (id : NodeId) (node : Node) : Except EvalError Plan :=
  match entry.handler with
  | .builtin handler => (handler.start id node).map Builtin.Task.plan
  | .plugin _ => .error (.internal "no plan for a handler of a plug-in")

/-- A plan comes from a task of the library. -/
theorem Entry.makes_of_plan {entry : Entry P} {handler : Builtin} {id : NodeId} {node : Node}
    {plan : Plan} (hhandler : entry.handler = .builtin handler)
    (h : entry.plan id node = .ok plan) :
    ∃ task, handler.start id node = .ok task ∧ Builtin.Makes id node handler task ∧
      task.plan = plan := by
  simp only [Entry.plan, hhandler] at h
  cases hstart : handler.start id node with
  | error error =>
    rw [hstart] at h
    cases h
  | ok task =>
    rw [hstart] at h
    exact ⟨task, rfl, Builtin.makes_of_start hstart, Except.ok.inj h⟩

/-- A refusal comes from the handler. -/
theorem Entry.refuses_of_plan {entry : Entry P} {handler : Builtin} {id : NodeId} {node : Node}
    {error : EvalError} (hhandler : entry.handler = .builtin handler)
    (h : entry.plan id node = .error error) : handler.start id node = .error error := by
  simp only [Entry.plan, hhandler] at h
  cases hstart : handler.start id node with
  | error other =>
    rw [hstart] at h
    exact congrArg Except.error (Except.error.inj h)
  | ok task =>
    rw [hstart] at h
    cases h

/-- **The role of a handle** in a graph, under a registry. -/
def Graph.role (g : Graph) (reg : Registry P) (id : NodeId) : Role :=
  match g.get? id with
  | none => .absent
  | some node =>
    match node.param? with
    | some p => .param p
    | none =>
      match reg.get node.tag with
      | .error error => .refused error false
      | .ok entry =>
        match entry.plan id node with
        | .error error => .refused error entry.volatile
        | .ok plan => .planned plan entry.volatile

namespace Graph

/-- What it takes for a handle to have a role. -/
def Plays (g : Graph) (reg : Registry P) (id : NodeId) : Role → Prop
  | .absent => g.get? id = none
  | .param p => ∃ node, g.get? id = some node ∧ node.param? = some p
  | .refused error volatile => ∃ node, g.get? id = some node ∧ node.param? = none ∧
      (reg.get node.tag = .error error ∧ volatile = false ∨
        ∃ entry, reg.get node.tag = .ok entry ∧ entry.plan id node = .error error ∧
          entry.volatile = volatile)
  | .planned plan volatile => ∃ node entry, g.get? id = some node ∧ node.param? = none ∧
      reg.get node.tag = .ok entry ∧ entry.plan id node = .ok plan ∧ entry.volatile = volatile

/-- **A handle has the role that it is given.** -/
theorem plays_role (g : Graph) (reg : Registry P) (id : NodeId) :
    g.Plays reg id (g.role reg id) := by
  unfold role
  split
  next hnode => exact hnode
  next node hnode =>
  split
  next p hp => exact ⟨node, hnode, hp⟩
  next hp =>
  split
  next error he => exact ⟨node, hnode, hp, .inl ⟨he, rfl⟩⟩
  next entry he =>
  split
  next error hplan => exact ⟨node, hnode, hp, .inr ⟨entry, he, hplan, rfl⟩⟩
  next plan hplan => exact ⟨node, entry, hnode, hp, he, hplan, rfl⟩

theorem plays_of_role {g : Graph} {reg : Registry P} {id : NodeId} {role : Role}
    (h : g.role reg id = role) : g.Plays reg id role :=
  h ▸ g.plays_role reg id

variable {g : Graph} {id : NodeId} {node : Node}

/-! ## Graphs whose nodes refer backwards -/

/-- **In a valid graph children stand before their parents.** -/
theorem child_lt_of_validate (hg : g.validate = .ok ()) (hnode : g.get? id = some node)
    {child : NodeId} (hchild : child ∈ node.children) : child < id := by
  have hnone : g.firstOffence? = none := by
    unfold validate at hg
    split at hg
    · cases hg
    · assumption
  have hmem : (id, node) ∈ g.toList := by
    refine List.mem_map.2 ⟨(node, id.index), ?_, rfl⟩
    rw [List.mk_mem_zipIdx_iff_getElem?]
    simpa [get?] using hnode
  have hpair := List.findSome?_eq_none_iff.1 hnone (id, node) hmem
  have hforward : firstForward? id node = none := by simpa using hpair
  have := List.find?_eq_none.1 hforward child hchild
  simp only [decide_eq_true_eq] at this
  exact Nat.lt_of_not_le this

/-- A graph in which nothing hangs on which of two things comes first. -/
def Untimed (g : Graph) : Prop :=
  ∀ id node, g.get? id = some node → node.tag ≠ Tag.race ∧ node.tag ≠ Tag.timeout

/-- The nodes can be gone through one by one. -/
theorem untimed_iff_forall_mem (g : Graph) :
    g.Untimed ↔ ∀ node ∈ g.nodes.toList, node.tag ≠ Tag.race ∧ node.tag ≠ Tag.timeout := by
  constructor
  · intro h node hnode
    obtain ⟨index, hindex⟩ := List.getElem?_of_mem hnode
    rw [Array.getElem?_toList] at hindex
    exact h ⟨index⟩ node hindex
  · intro h id node hnode
    exact h node (Array.mem_toList_iff.2 (Array.mem_of_getElem? hnode))

instance (g : Graph) : Decidable g.Untimed :=
  decidable_of_iff' _ g.untimed_iff_forall_mem

end Graph

/-! ## Native registries -/

/-- An entry with a handler of the library. If what it does may hang on time,
it is volatile and stands under the tag of a race or a timeout. -/
def Entry.Native (tag : String) (entry : Entry P) : Prop :=
  ∃ handler : Builtin, entry.handler = .builtin handler ∧
    (handler.isTimed = true → entry.volatile = true ∧ (tag = Tag.race ∨ tag = Tag.timeout))

/-- **A registry of handlers of the library.** -/
def Registry.Native (reg : Registry P) : Prop :=
  ∀ item ∈ reg.entries, item.2.Native item.1

namespace Registry

variable {reg other : Registry P} {tag : String} {handler : Builtin}

theorem native_empty : (empty : Registry P).Native := by
  intro item h
  cases h

/-- What is true of every entry, and of one more. -/
theorem forall_mem_insert {p : String × Entry P → Prop} (hr : ∀ item ∈ reg.entries, p item)
    {entry : Entry P} (he : p (tag, entry)) : ∀ item ∈ (reg.insert tag entry).entries, p item := by
  intro item hitem
  rcases Keyed.mem_of_mem_insert hitem with hmem | rfl
  · exact hr item hmem
  · exact he

/-- What is true of every entry of two registries. -/
theorem forall_mem_union {p : String × Entry P → Prop} (hr : ∀ item ∈ reg.entries, p item)
    (ho : ∀ item ∈ other.entries, p item) : ∀ item ∈ (reg.union other).entries, p item := by
  intro item hitem
  rcases Keyed.mem_of_mem_union hitem with hmem | hmem
  · exact hr item hmem
  · exact ho item hmem

/-- An entry that is found is one of the entries. -/
theorem mem_of_get {entry : Entry P} (h : reg.get tag = .ok entry) : (tag, entry) ∈ reg.entries := by
  unfold get at h
  split at h
  next found hfound =>
    cases h
    exact Keyed.mem_of_find? hfound
  next => cases h

/-- A tag without an entry has no handler. -/
theorem missing_of_get {error : EvalError} (h : reg.get tag = .error error) :
    error = .missingHandler tag ∧ reg.contains tag = false := by
  unfold get at h
  split at h
  next => cases h
  next hnone =>
    cases h
    exact ⟨rfl, by rw [contains, hnone]; rfl⟩

theorem Native.insert (hr : reg.Native) {entry : Entry P} (he : entry.Native tag) :
    (reg.insert tag entry).Native :=
  forall_mem_insert hr he

theorem Native.register (hr : reg.Native) (h : handler.isTimed = false) :
    (reg.register tag (.builtin handler)).Native :=
  hr.insert ⟨handler, rfl, by simp [h]⟩

theorem Native.registerVolatile (hr : reg.Native) (h : tag = Tag.race ∨ tag = Tag.timeout) :
    (reg.registerVolatile tag (.builtin handler)).Native :=
  hr.insert ⟨handler, rfl, fun _ => ⟨rfl, h⟩⟩

theorem Native.union (hr : reg.Native) (ho : other.Native) : (reg.union other).Native :=
  forall_mem_union hr ho

theorem Native.of_get (hr : reg.Native) {entry : Entry P} (h : reg.get tag = .ok entry) :
    entry.Native tag :=
  hr _ (mem_of_get h)

theorem native_core : (core : Registry P).Native :=
  (((native_empty.register rfl).register rfl).register rfl).register rfl

theorem native_concurrencyWith (concurrent : Bool) :
    (concurrencyWith concurrent : Registry P).Native :=
  (((native_empty.registerVolatile (.inl rfl)).registerVolatile (.inr rfl)).register
    rfl).register rfl

theorem native_errors : (errors : Registry P).Native :=
  ((((native_empty.register rfl).register rfl).register rfl).register rfl).register rfl

/-- The standard registry is native. -/
theorem native_standard : (standard : Registry P).Native :=
  (native_core.union (native_concurrencyWith true)).union native_errors

/-- The registry with the sequential map is native. -/
theorem native_standardSequential : (standardSequential : Registry P).Native :=
  (native_core.union (native_concurrencyWith false)).union native_errors

/-- Either of the two is native. -/
theorem native_of_standard_or {reg : Registry P} (h : reg = standard ∨ reg = standardSequential) :
    reg.Native := by
  rcases h with rfl | rfl
  · exact native_standard
  · exact native_standardSequential

end Registry

namespace Graph

variable {g : Graph} {reg : Registry P} {id : NodeId}

/-- **A plan asks for smaller handles only,** and which of two things comes
first only if it is volatile and the graph is not untimed. -/
theorem within_of_role (hg : g.validate = .ok ()) (hr : reg.Native) {plan : Plan}
    {volatile : Bool} (h : g.role reg id = .planned plan volatile) :
    plan.Within (· < id) (volatile = true ∧ ¬ g.Untimed) := by
  obtain ⟨node, entry, hnode, -, hentry, hplan, rfl⟩ := plays_of_role h
  obtain ⟨handler, hhandler, hnative⟩ := hr.of_get hentry
  obtain ⟨task, -, hmade, rfl⟩ := Entry.makes_of_plan hhandler hplan
  refine hmade.within.mono (fun child hchild => child_lt_of_validate hg hnode hchild)
    fun htimed => ?_
  obtain ⟨hvolatile, htag⟩ := hnative htimed
  refine ⟨hvolatile, fun huntimed => ?_⟩
  rcases htag with htag | htag
  · exact (huntimed id node hnode).1 htag
  · exact (huntimed id node hnode).2 htag

end Graph

end ProgramGraph
