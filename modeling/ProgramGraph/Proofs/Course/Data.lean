import Mathlib.Algebra.BigOperators.Group.Finset.Basic
import Mathlib.Data.Finset.Union
import Mathlib.Logic.Relation
import ProgramGraph.Proofs.Course.Basic
import ProgramGraph.Proofs.Evaluator.Interchange
import ProgramGraph.Proofs.Plan.Ending
/-!
# Graphs of data

Constants, lists and records of them describe a value. The graph may share parts of it,
and so it may be much smaller than the tree that it unfolds to (`Graph.tree`).

The work of a course is not told by that tree but by the handles below the root
(`Graph.below`): whatever is kept has all that is below it kept as well, and a visit
makes it so for one handle more (`Graph.fills_course`). The counters follow what is
kept. A start and as many requests as the node has children go with each handle that
comes to be kept, whatever the order in which the handles are visited.
-/

namespace ProgramGraph

open Relation (ReflTransGen)

variable {P : Plugins}

/-! ## Handles below a handle -/

namespace Graph

variable {g : Graph} {id other : NodeId}

/-- The children of a handle, each as often as its node refers to it. -/
def childrenOf (g : Graph) (id : NodeId) : List NodeId :=
  match g.get? id with
  | some node => node.children
  | none => []

theorem childrenOf_eq {node : Node} (h : g.get? id = some node) :
    g.childrenOf id = node.children := by
  simp only [childrenOf, h]

theorem refers_iff_mem : g.Refers id other ↔ other ∈ g.childrenOf id := by
  unfold Refers childrenOf
  cases g.get? id with
  | none => simp
  | some node => simp

theorem lt_of_mem_childrenOf (hg : g.validate = .ok ()) (h : other ∈ g.childrenOf id) :
    other < id :=
  (refers_iff_mem.2 h).lt hg

/-- **The handles below a handle,** itself included. -/
def below (g : Graph) (id : NodeId) : Finset NodeId :=
  insert id ((g.childrenOf id).toFinset.biUnion fun child =>
    if child < id then g.below child else ∅)
termination_by id.index

theorem below_eq (hg : g.validate = .ok ()) (id : NodeId) :
    g.below id = insert id ((g.childrenOf id).toFinset.biUnion g.below) := by
  rw [below]
  congr 1
  refine Finset.biUnion_congr rfl fun child hchild => ?_
  exact if_pos (lt_of_mem_childrenOf hg (List.mem_toFinset.1 hchild))

/-- **They are those that can be reached** from it. -/
theorem mem_below_iff {g : Graph} (hg : g.validate = .ok ()) {other : NodeId} (id : NodeId) :
    other ∈ g.below id ↔ ReflTransGen g.Refers id other := by
  rw [below_eq hg, Finset.mem_insert, Finset.mem_biUnion, ReflTransGen.cases_head_iff]
  refine or_congr eq_comm (exists_congr fun child => ?_)
  rw [List.mem_toFinset, ← refers_iff_mem]
  refine and_congr_right fun hchild => ?_
  have := hchild.lt hg
  exact mem_below_iff hg child
termination_by id.index

theorem mem_below_self (hg : g.validate = .ok ()) (id : NodeId) : id ∈ g.below id :=
  (mem_below_iff hg id).2 .refl

theorem le_of_mem_below (hg : g.validate = .ok ()) (h : other ∈ g.below id) : other ≤ id :=
  le_of_path hg ((mem_below_iff hg id).1 h)

/-- **The number of child slots** of some handles. -/
def slots (g : Graph) (ids : Finset NodeId) : Nat := ∑ id ∈ ids, (g.childrenOf id).length

/-! ## The tree of a handle -/

/-- **The tree that a graph of data unfolds to** at a handle. -/
def tree (g : Graph) (id : NodeId) : Value :=
  match (g.get? id).map Node.payload with
  | some (.literal value) => value
  | some (.fields nodes _) =>
    .object (nodes.map fun (key, child) => (key, if child < id then g.tree child else .null))
  | some payload =>
    .array (payload.children.map fun child => if child < id then g.tree child else .null)
  | none => .null
termination_by id.index

theorem tree_eq (hg : g.validate = .ok ()) {node : Node} (hnode : g.get? id = some node) :
    g.tree id = match node.payload with
      | .literal value => value
      | .fields nodes _ => .object (nodes.map fun (key, child) => (key, g.tree child))
      | payload => .array (payload.children.map g.tree) := by
  have hchild : ∀ child ∈ node.children, (if child < id then g.tree child else .null) = g.tree child :=
    fun child hchild => if_pos (child_lt_of_validate hg hnode hchild)
  rw [tree, hnode, Option.map_some]
  unfold Node.children at hchild
  cases hpayload : node.payload <;> rw [hpayload] at hchild
  case fields nodes distinct =>
    refine congrArg Value.object (List.map_congr_left fun field hfield => ?_)
    exact congrArg (Prod.mk field.1) (hchild _ (List.mem_map_of_mem hfield))
  all_goals exact congrArg Value.array (List.map_congr_left hchild)

end Graph

/-- **The node describes data:** it is a constant, a list of its children, or a record of
them. -/
inductive Node.Data : Node → Prop
  | literal (value : Value) : Data ⟨Tag.literal, .literal value⟩
  | list {payload : Payload} {children : List NodeId}
    (h : Collection.children? payload = some children) : Data ⟨Tag.list, payload⟩
  | record (nodes : Keyed String NodeId) (distinct : nodes.keys.Nodup) :
    Data ⟨Tag.record, .fields nodes distinct⟩

/-- **All handles that can be reached** from this one are of nodes that describe data. -/
def Graph.DataFrom (g : Graph) (root : NodeId) : Prop :=
  ∀ id, ReflTransGen g.Refers root id → ∃ node, g.get? id = some node ∧ node.Data

/-- **The registry has the handlers of data** under their tags. -/
structure Registry.Structural (reg : Registry P) : Prop where
  literal : reg.get Tag.literal = .ok ⟨.builtin .literal, false⟩
  list : reg.get Tag.list = .ok ⟨.builtin .list, false⟩
  record : reg.get Tag.record = .ok ⟨.builtin .record, false⟩

namespace Registry

/-- The tags of data are those of core handlers only. -/
theorem structural_standard : (standard : Registry P).Structural := by
  constructor <;> rw [get, standard, concurrency, find?_standardWith] <;> rfl

end Registry

/-! ## Plans that gather -/

/-- **The plan asks for some nodes one by one,** and if each comes to what it is worth it
ends with this value. -/
inductive Plan.Gathers (worth : NodeId → Value) : List NodeId → Value → Plan → Prop
  | finish (value : Value) : Gathers worth [] value (.finish (.ok value))
  | visit {child : NodeId} {rest : List NodeId} {value : Value} {next : Reply → Plan}
    (h : Gathers worth rest value (next (.ok (worth child)))) :
    Gathers worth (child :: rest) value (.visit child .plain next)

namespace Plan

variable {worth : NodeId → Value}

theorem gathers_collect (children : List NodeId) (values : List Value) :
    (collect (fun values => .ok (.array values)) children values).Gathers worth children
      (.array (values ++ children.map worth)) := by
  induction children generalizing values with
  | nil =>
    rw [List.map_nil, List.append_nil]
    exact .finish _
  | cons child rest ih =>
    rw [List.map_cons, List.append_cons]
    exact .visit (ih _)

theorem gathers_assemble (fields : List (String × NodeId)) (object : Keyed String Value) :
    (assemble fields object).Gathers worth (fields.map Prod.snd)
      (.object (object ++ fields.map fun field => (field.1, worth field.2))) := by
  induction fields generalizing object with
  | nil =>
    rw [List.map_nil, List.map_nil, List.append_nil]
    exact .finish _
  | cons field rest ih =>
    rw [List.map_cons, List.map_cons, List.append_cons]
    exact .visit (ih _)

end Plan

namespace Graph

variable {g : Graph} {reg : Registry P} {root id : NodeId}

theorem DataFrom.child (h : g.DataFrom id) {child : NodeId} (hchild : child ∈ g.childrenOf id) :
    g.DataFrom child := fun other hpath => h other (.head (refers_iff_mem.2 hchild) hpath)

/-- **A node of data gathers its tree** from its children. -/
theorem gathers_role (hg : g.validate = .ok ()) (hs : reg.Structural) (h : g.DataFrom id) :
    ∃ plan, g.role reg id = .planned plan false ∧
      plan.Gathers g.tree (g.childrenOf id) (g.tree id) := by
  obtain ⟨node, hnode, hdata⟩ := h id .refl
  rw [childrenOf_eq hnode, tree_eq hg hnode]
  unfold role
  simp only [hnode]
  cases hdata with
  | literal value =>
    simp only [Node.param?, hs.literal]
    exact ⟨_, rfl, .finish value⟩
  | @list payload children hchildren =>
    cases payload <;> cases hchildren
    all_goals
      simp only [Node.param?, hs.list]
      exact ⟨_, rfl, Plan.gathers_collect _ []⟩
  | record nodes distinct =>
    simp only [Node.param?, hs.record]
    exact ⟨_, rfl, Plan.gathers_assemble nodes []⟩

end Graph

/-! ## Courses -/

/-- **The memo keeps the trees of some handles,** of all that are below them too, and
nothing is marked. -/
structure Memo.Holds (m : Memo) (g : Graph) (ids : Finset NodeId) : Prop where
  kept : ∀ id, m.kept? id = if id ∈ ids then some (g.tree id) else none
  untainted : ∀ id, m.isTainted id = false
  closed : ∀ id ∈ ids, g.below id ⊆ ids

/-- **What is counted until some more handles are kept:** one start for each of them, and
an answer for each of their slots and for each visit from outside. Besides there are some
more turns of the one who asks. -/
structure Tally.Fills (t : Tally) (g : Graph) (ids ids' : Finset NodeId) (visits turns : Nat) :
    Prop where
  starts : t.starts + ids.card = ids'.card
  answers : t.starts + t.hits + g.slots ids = visits + g.slots ids'
  steps : t.steps + (ids.card + g.slots ids) = turns + (ids'.card + g.slots ids')
  lookups : t.lookups = 0
  injections : t.injections = 0

/-- **The course comes to a value,** and keeps some more handles on the way. -/
structure Course.Fills (c : Course) (g : Graph) (value : Value) (ids ids' : Finset NodeId)
    (visits turns : Nat) : Prop where
  answer : c.answer = ⟨.ok value, false⟩
  memo : c.memo.Holds g ids'
  tally : c.cost.tally.Fills g ids ids' visits turns
  tied : c.cost.tied = false

theorem Memo.holds_empty (g : Graph) : Memo.empty.Holds g ∅ where
  kept id := by simp
  untainted := isTainted_empty
  closed := by simp

theorem Tally.Fills.merge {t t' : Tally} {g : Graph} {ids ids' ids'' : Finset NodeId}
    {visits visits' turns turns' : Nat} (h : t.Fills g ids ids' visits turns)
    (h' : t'.Fills g ids' ids'' visits' turns') :
    (t.merge t').Fills g ids ids'' (visits + visits') (turns + turns') := by
  obtain ⟨hstarts, hanswers, hsteps, hlookups, hinjections⟩ := h
  obtain ⟨hstarts', hanswers', hsteps', hlookups', hinjections'⟩ := h'
  constructor <;> simp only [Tally.merge] <;> omega

/-- A turn that ends a task. -/
theorem Tally.fills_turn (g : Graph) (ids : Finset NodeId) : Cost.turn.tally.Fills g ids ids 0 1 where
  starts := Nat.zero_add _
  answers := rfl
  steps := rfl
  lookups := rfl
  injections := rfl

/-- **A node that is kept once its children are:** its start goes with it, and what its
slots were answered with. -/
theorem Tally.Fills.start {t : Tally} {g : Graph} {ids ids' : Finset NodeId} {id : NodeId}
    (h : t.Fills g ids ids' (g.childrenOf id).length ((g.childrenOf id).length + 1))
    (hid : id ∉ ids') (height : Nat) :
    ((Cost.start height).tally.merge t).Fills g ids (insert id ids') 1 0 := by
  obtain ⟨hstarts, hanswers, hsteps, hlookups, hinjections⟩ := h
  have hcard : (insert id ids').card = ids'.card + 1 := Finset.card_insert_of_notMem hid
  have hslots : g.slots (insert id ids') = (g.childrenOf id).length + g.slots ids' :=
    Finset.sum_insert hid
  have hstart : (Cost.start height).tally = { starts := 1, depth := max 0 (height + 1) } := rfl
  rw [hstart]
  constructor <;> simp only [Tally.merge, hcard, hslots] <;> omega

/-- **What follows on a value** fills the memo further. -/
theorem Course.Fills.bind {c : Course} {g : Graph} {value value' : Value}
    {ids ids' ids'' : Finset NodeId} {visits visits' turns : Nat}
    (h : c.Fills g value ids ids' visits 0) (next : Reply → Memo → Course)
    (h' : (next (.ok value) c.memo).Fills g value' ids' ids'' visits' turns) :
    ((c.bind next).after .turn).Fills g value' ids ids'' (visits + visits') (1 + turns) := by
  obtain ⟨⟨result, tainted⟩, m, cost⟩ := c
  obtain ⟨⟨⟩, -, htally, htied⟩ := h
  obtain ⟨hanswer, hmemo, htally', htied'⟩ := h'
  have hturn := (Tally.fills_turn g ids).merge (htally.merge htally')
  rw [Nat.zero_add, Nat.zero_add] at hturn
  rw [Course.bind_ok]
  refine ⟨?_, hmemo, ?_, ?_⟩
  · show (next _ m).answer.taintedBy false = _
    rw [hanswer]
    rfl
  · show (Cost.turn.tally.merge ((cost.tally.merge .zero).merge (next _ m).cost.tally)).Fills
      g ids ids'' _ _
    rw [Tally.merge_zero]
    exact hturn
  · have hfirst : cost.tied = false := htied
    simp [Course.after, hfirst, htied']

namespace Graph

variable {g : Graph} {reg : Registry P} {root id : NodeId} {ids : Finset NodeId} {m : Memo}

/-- **A node is kept** when all that is below its children is. -/
theorem holds_put (hg : g.validate = .ok ()) (hm : m.Holds g ids)
    (hchildren : ∀ child ∈ g.childrenOf id, g.below child ⊆ ids) :
    (m.put id (g.tree id) false).Holds g (insert id ids) where
  kept other := by
    rw [Memo.kept?_put]
    by_cases h : id = other
    · simp [h]
    · simp [h, hm.kept, Ne.symm h]
  untainted other := by
    rw [Memo.isTainted_put, hm.untainted]
    exact ite_self _
  closed := by
    have hbelow : g.below id ⊆ insert id ids := by
      rw [below_eq hg]
      refine Finset.insert_subset_insert id (Finset.biUnion_subset.2 fun child hchild => ?_)
      exact hchildren child (List.mem_toFinset.1 hchild)
    intro other hother
    rcases Finset.mem_insert.1 hother with rfl | hother
    · exact hbelow
    · exact (hm.closed other hother).trans (Finset.subset_insert id ids)

/-- **A plan that gathers fills the memo** if visits to the nodes it asks for do. -/
theorem fills_plan {go : Visits} {plan : Plan} {children : List NodeId} {value : Value}
    (hplan : plan.Gathers g.tree children value)
    (hgo : ∀ child ∈ children, ∀ s height ids m, m.Holds g ids →
      (go child s false height m).Fills g (g.tree child) ids (ids ∪ g.below child) 1 0)
    (cx : Context) (height : Nat) (hm : m.Holds g ids) :
    (plan.course go cx height m).Fills g value ids
      (ids ∪ children.toFinset.biUnion g.below) children.length (children.length + 1) := by
  induction hplan generalizing m ids with
  | finish value =>
    have hids : ids ∪ (List.toFinset []).biUnion g.below = ids := Finset.union_empty ids
    rw [hids]
    exact ⟨rfl, hm, Tally.fills_turn g ids, rfl⟩
  | @visit child rest value next hplan ih =>
    rw [List.forall_mem_cons] at hgo
    have hchild := hgo.1 cx.scope height ids m hm
    have hids : ids ∪ (child :: rest).toFinset.biUnion g.below =
        ids ∪ g.below child ∪ rest.toFinset.biUnion g.below := by
      rw [List.toFinset_cons, Finset.biUnion_insert, Finset.union_assoc]
    rw [hids, List.length_cons, Nat.add_comm rest.length]
    exact hchild.bind (fun reply m => (next reply).course go cx height m) (ih hgo.2 hchild.memo)

/-- **The course of a visit fills the memo** up to its node: what is kept already is served,
and anything else is gathered from the children. By induction on the handle. -/
theorem fills_course {g : Graph} (hg : g.validate = .ok ()) (hr : reg.Native)
    (hs : reg.Structural) (id : NodeId) (hdata : g.DataFrom id) (s : Scope) (height : Nat)
    {ids : Finset NodeId} {m : Memo} (hm : m.Holds g ids) :
    (g.course reg id s false height m).Fills g (g.tree id) ids (ids ∪ g.below id) 1 0 := by
  obtain ⟨plan, hrole, hplan⟩ := gathers_role hg hs hdata
  have hkept : (if false then none else m.kept? id) = _ := hm.kept id
  by_cases hid : id ∈ ids
  · rw [if_pos hid] at hkept
    rw [Finset.union_eq_left.2 (hm.closed id hid),
      course_kept (by rw [hrole]; exact nofun) (by rw [hrole]; exact nofun) hkept]
    exact ⟨rfl, hm, ⟨Nat.zero_add _, rfl, rfl, rfl, rfl⟩, rfl⟩
  · rw [if_neg hid] at hkept
    have hchildren := fills_plan hplan (fun child hchild s height ids m hm =>
      have := lt_of_mem_childrenOf hg hchild
      fills_course hg hr hs child (hdata.child hchild) s height hm) ⟨id, s⟩ (height + 1) hm
    -- the node itself is not below any of its children
    have hfree : id ∉ ids ∪ (g.childrenOf id).toFinset.biUnion g.below := by
      rw [Finset.mem_union, Finset.mem_biUnion, not_or]
      refine ⟨hid, fun ⟨child, hchild, hbelow⟩ => ?_⟩
      have hlt := lt_of_mem_childrenOf hg (List.mem_toFinset.1 hchild)
      exact Nat.lt_irrefl _ (Nat.lt_of_le_of_lt (le_of_mem_below hg hbelow) hlt)
    have hids : ids ∪ g.below id =
        insert id (ids ∪ (g.childrenOf id).toFinset.biUnion g.below) := by
      rw [below_eq hg, Finset.union_insert]
    have hsubset : ∀ child ∈ g.childrenOf id,
        g.below child ⊆ ids ∪ (g.childrenOf id).toFinset.biUnion g.below := by
      intro child hchild
      refine Finset.Subset.trans ?_ Finset.subset_union_right
      exact Finset.subset_biUnion_of_mem g.below (List.mem_toFinset.2 hchild)
    rw [course_planned hg hr hrole hkept rfl, hids]
    simp only [Bool.false_eq_true, if_false, hchildren.answer]
    refine ⟨rfl, holds_put hg hchildren.memo hsubset, ?_, hchildren.tied⟩
    exact hchildren.tally.start hfree height
termination_by id.index

end Graph

end ProgramGraph
