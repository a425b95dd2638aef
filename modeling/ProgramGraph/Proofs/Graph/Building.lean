import ProgramGraph.Graph.Basic
import ProgramGraph.Tag
/-!
# Graphs built node by node

A graph can be checked in two ways: by adding its nodes one after another
to the empty graph, each looked at before it goes in, and by validating
the whole once it is there. Here both are shown to accept the graphs whose
handles all point backwards, wherever in a payload they stand, and to
blame the same node and the same child of it in all others. What the two
have in common is the first offence; adding meets it after the nodes that
stand before it, which it leaves in the graph.
-/

namespace ProgramGraph

/-! ## Where a payload holds handles -/

/-- **A payload holds a handle,** with a case for every position that can
hold one. -/
inductive Payload.Holds : Payload → NodeId → Prop
  | child (id : NodeId) : Holds (.child id) id
  | argument {nodes : List NodeId} {id : NodeId} (h : id ∈ nodes) : Holds (.args nodes) id
  | field {nodes : Keyed String NodeId} {distinct : nodes.keys.Nodup} {name : String} {id : NodeId}
      (h : (name, id) ∈ nodes) : Holds (.fields nodes distinct) id
  | operand (id : NodeId) (lambda : Lambda) : Holds (.apply id lambda) id
  | applied (arg : NodeId) (lambda : Lambda) : Holds (.apply arg lambda) lambda.body
  | collection (id : NodeId) (concurrency : Nat) (lambda : Lambda) :
      Holds (.parMap id concurrency lambda) id
  | mapped (collection : NodeId) (concurrency : Nat) (lambda : Lambda) :
      Holds (.parMap collection concurrency lambda) lambda.body
  | limited (id : NodeId) (ms : Nat) (fallback : NodeId) : Holds (.timeout id ms fallback) id
  | fallback (expr : NodeId) (ms : Nat) (id : NodeId) : Holds (.timeout expr ms id) id
  | retried (id : NodeId) (attempts delayMs : Nat) : Holds (.retry id attempts delayMs) id
  | tried (id : NodeId) (catcher : Option Lambda) (branches : Option (Keyed String Lambda))
      (cleanup : Option NodeId) : Holds (.tryCatch id catcher branches cleanup) id
  | catcher (expr : NodeId) (lambda : Lambda) (branches : Option (Keyed String Lambda))
      (cleanup : Option NodeId) : Holds (.tryCatch expr (some lambda) branches cleanup) lambda.body
  | branch (expr : NodeId) (catcher : Option Lambda) {branches : Keyed String Lambda}
      (cleanup : Option NodeId) {kind : String} {lambda : Lambda} (h : (kind, lambda) ∈ branches) :
      Holds (.tryCatch expr catcher (some branches) cleanup) lambda.body
  | cleanup (expr : NodeId) (catcher : Option Lambda) (branches : Option (Keyed String Lambda))
      (id : NodeId) : Holds (.tryCatch expr catcher branches (some id)) id
  | condition (id error : NodeId) : Holds (.guard id error) id
  | error (condition id : NodeId) : Holds (.guard condition id) id

/-- What is listed among the children is held somewhere. -/
theorem Payload.holds_of_mem {payload : Payload} {id : NodeId} (h : id ∈ payload.children) :
    payload.Holds id := by
  cases payload with
  | empty | literal _ | param _ | custom _ => exact absurd h List.not_mem_nil
  | child node =>
    cases List.mem_singleton.1 h
    exact .child _
  | args nodes => exact .argument h
  | fields nodes distinct =>
    obtain ⟨⟨name, _⟩, hmem, rfl⟩ := List.mem_map.1 h
    exact .field hmem
  | apply arg lambda =>
    simp only [children, List.mem_cons, List.not_mem_nil, or_false] at h
    rcases h with rfl | rfl
    · exact .operand _ _
    · exact .applied _ _
  | parMap collection concurrency lambda =>
    simp only [children, List.mem_cons, List.not_mem_nil, or_false] at h
    rcases h with rfl | rfl
    · exact .collection _ _ _
    · exact .mapped _ _ _
  | timeout expr ms fallback =>
    simp only [children, List.mem_cons, List.not_mem_nil, or_false] at h
    rcases h with rfl | rfl
    · exact .limited _ _ _
    · exact .fallback _ _ _
  | retry expr attempts delayMs =>
    cases List.mem_singleton.1 h
    exact .retried _ _ _
  | tryCatch expr catcher branches cleanup =>
    simp only [children, List.cons_append, List.mem_cons, List.mem_append, List.mem_map,
      Option.mem_toList] at h
    rcases h with rfl | (⟨lambda, rfl, rfl⟩ | ⟨⟨kind, lambda⟩, hmem, rfl⟩) | rfl
    · exact .tried _ _ _ _
    · exact .catcher _ _ _ _
    · cases branches with
      | none => exact absurd hmem List.not_mem_nil
      | some branches => exact .branch _ _ _ hmem
    · exact .cleanup _ _ _ _
  | guard condition error =>
    simp only [children, List.mem_cons, List.not_mem_nil, or_false] at h
    rcases h with rfl | rfl
    · exact .condition _ _
    · exact .error _ _

/-- **The children are the handles held,** in whatever position. -/
theorem Payload.mem_children_iff {payload : Payload} {id : NodeId} :
    id ∈ payload.children ↔ payload.Holds id := by
  refine ⟨holds_of_mem, fun h => ?_⟩
  cases h with
  | argument h => exact h
  | field h => exact List.mem_map_of_mem h
  | branch expr catcher cleanup h =>
    exact List.mem_append_left _ (List.mem_append_right _
      (List.mem_map_of_mem (f := fun branch : String × Lambda => branch.2.body) h))
  | _ => simp [children]

namespace Graph

variable {g : Graph} {node : Node} {nodes : List Node} {id child : NodeId}

/-! ## The first child that does not stand before -/

theorem firstForward?_eq_none :
    firstForward? id node = none ↔ ∀ child ∈ node.children, child < id := by
  simp only [firstForward?, List.find?_eq_none, decide_eq_true_eq]
  exact forall₂_congr fun child _ => Nat.not_le

/-- The child found does not stand before, and all children listed before
it do. -/
theorem firstForward?_eq_some :
    firstForward? id node = some child ↔ ∃ before after,
      node.children = before ++ child :: after ∧ id ≤ child ∧ ∀ c ∈ before, c < id := by
  simp only [firstForward?, List.find?_eq_some_iff_append, decide_eq_true_eq, Bool.not_eq_true',
    decide_eq_false_iff_not]
  constructor
  · rintro ⟨hle, before, after, hsplit, hbefore⟩
    exact ⟨before, after, hsplit, hle, fun c hc => Nat.lt_of_not_le (hbefore c hc)⟩
  · rintro ⟨before, after, hsplit, hle, hbefore⟩
    exact ⟨hle, before, after, hsplit, fun c hc => Nat.not_le_of_lt (hbefore c hc)⟩

/-! ## The first offence among nodes -/

/-- The first offence among nodes that stand from an index on. -/
def offenceFrom? (start : Nat) (nodes : List Node) : Option (NodeId × NodeId) :=
  (nodes.zipIdx start).findSome? fun (node, index) =>
    (firstForward? ⟨index⟩ node).map fun child => (⟨index⟩, child)

theorem firstOffence?_mk (nodes : List Node) :
    (Graph.mk nodes.toArray).firstOffence? = offenceFrom? 0 nodes := by
  simp [firstOffence?, toList, offenceFrom?, List.findSome?_map, Function.comp_def]

theorem offenceFrom?_cons (start : Nat) (node : Node) (nodes : List Node) :
    offenceFrom? start (node :: nodes) =
      ((firstForward? ⟨start⟩ node).map fun child => (⟨start⟩, child)).or
        (offenceFrom? (start + 1) nodes) := by
  unfold offenceFrom?
  rw [List.zipIdx_cons, List.findSome?_cons]
  dsimp only
  cases firstForward? ⟨start⟩ node <;> rfl

/-- No node offends if all children stand before their parents. -/
theorem offenceFrom?_eq_none {start : Nat} :
    offenceFrom? start nodes = none ↔ ∀ i node, nodes[i]? = some node →
      ∀ child ∈ node.children, child.index < start + i := by
  induction nodes generalizing start with
  | nil => simp [offenceFrom?]
  | cons node nodes ih =>
    rw [offenceFrom?_cons, Option.or_eq_none_iff, Option.map_eq_none_iff, firstForward?_eq_none, ih]
    constructor
    · rintro ⟨hnode, hnodes⟩ i other hother child hchild
      cases i with
      | zero =>
        cases hother
        exact hnode child hchild
      | succ i =>
        have := hnodes i other hother child hchild
        omega
    · refine fun h => ⟨fun child hchild => h 0 node rfl child hchild,
        fun i other hother child hchild => ?_⟩
      have := h (i + 1) other hother child hchild
      omega

/-- **The first offence** is the first child that does not stand before
the first node to have one. -/
theorem offenceFrom?_eq_some {start : Nat} (h : offenceFrom? start nodes = some (id, child)) :
    ∃ i node, nodes[i]? = some node ∧ id = ⟨start + i⟩ ∧ firstForward? id node = some child ∧
      offenceFrom? start (nodes.take i) = none := by
  induction nodes generalizing start with
  | nil => cases h
  | cons node nodes ih =>
    rw [offenceFrom?_cons] at h
    cases hnode : firstForward? ⟨start⟩ node with
    | some c =>
      rw [hnode] at h
      cases h
      exact ⟨0, node, rfl, rfl, hnode, rfl⟩
    | none =>
      rw [hnode] at h
      obtain ⟨i, other, hother, rfl, hchild, hbefore⟩ := ih h
      refine ⟨i + 1, other, hother, by rw [Nat.add_assoc, Nat.add_comm 1], hchild, ?_⟩
      rw [List.take_succ_cons, offenceFrom?_cons, hnode]
      exact hbefore

/-! ## Adding nodes one after another -/

/-- **Adds nodes one after another,** until one is refused: the handles
given out, or the refusal, and the graph that is there then. -/
def addAll (g : Graph) : List Node → Except EvalError (List NodeId) × Graph
  | [] => (.ok [], g)
  | node :: nodes =>
    match g.add node with
    | .error error => (.error error, g)
    | .ok (id, g') => ((g'.addAll nodes).1.map (id :: ·), (g'.addAll nodes).2)

theorem add_of_none (hsize : g.size < capacity) (h : firstForward? ⟨g.size⟩ node = none) :
    g.add node = .ok (⟨g.size⟩, ⟨g.nodes.push node⟩) := by
  rw [add, if_pos hsize, h]

theorem add_of_some (hsize : g.size < capacity) (h : firstForward? ⟨g.size⟩ node = some child) :
    g.add node = .error (.invalidNode ⟨g.size⟩
      ("references " ++ toString child ++ " which is not in the graph yet")) := by
  rw [add, if_pos hsize, h]

/-- **Nodes without an offence all go in,** under the handles that follow. -/
theorem addAll_of_none (hsize : g.size + nodes.length ≤ capacity)
    (h : offenceFrom? g.size nodes = none) :
    g.addAll nodes =
      (.ok ((List.range' g.size nodes.length).map NodeId.mk), ⟨g.nodes ++ nodes.toArray⟩) := by
  induction nodes generalizing g with
  | nil => simp [addAll]
  | cons node nodes ih =>
    rw [offenceFrom?_cons, Option.or_eq_none_iff, Option.map_eq_none_iff] at h
    have hlen : (node :: nodes).length = nodes.length + 1 := rfl
    have hpush : (Graph.mk (g.nodes.push node)).size = g.size + 1 := Array.size_push _
    have hrest := @ih ⟨g.nodes.push node⟩ (by rw [hpush]; omega) (by rw [hpush]; exact h.2)
    rw [hpush] at hrest
    simp [addAll, add_of_none (by omega : g.size < capacity) h.1, hrest, List.range'_succ, Except.map]

/-- **Adding stops at the first offence,** with the nodes before it in the
graph. -/
theorem addAll_of_some (hsize : g.size + nodes.length ≤ capacity)
    (h : offenceFrom? g.size nodes = some (id, child)) :
    g.addAll nodes =
      (.error (.invalidNode id
          ("references " ++ toString child ++ " which is not in the graph yet")),
        ⟨g.nodes ++ (nodes.take (id.index - g.size)).toArray⟩) := by
  induction nodes generalizing g with
  | nil => cases h
  | cons node nodes ih =>
    rw [offenceFrom?_cons] at h
    have hlen : (node :: nodes).length = nodes.length + 1 := rfl
    have hroom : g.size < capacity := by omega
    cases hnode : firstForward? ⟨g.size⟩ node with
    | some c =>
      rw [hnode] at h
      cases h
      simp [addAll, add_of_some hroom hnode]
    | none =>
      rw [hnode] at h
      have hpush : (Graph.mk (g.nodes.push node)).size = g.size + 1 := Array.size_push _
      have hrest := @ih ⟨g.nodes.push node⟩ (by rw [hpush]; omega) (by rw [hpush]; exact h)
      obtain ⟨i, _, _, rfl, _⟩ := offenceFrom?_eq_some h
      have htake : g.size + 1 + i - g.size = (g.size + 1 + i - (g.size + 1)) + 1 := by omega
      rw [hpush] at hrest
      simp only [addAll, add_of_none hroom hnode, hrest, Except.map]
      rw [htake, List.take_succ_cons]
      simp

/-! ## Both ways to check a graph -/

theorem validate_of_none (h : g.firstOffence? = none) : g.validate = .ok () := by
  rw [validate, h]

theorem validate_of_some (h : g.firstOffence? = some (id, child)) :
    g.validate = .error (.invalidNode id
      ("child " ++ toString child ++ " does not precede its parent")) := by
  rw [validate, h]

/-- **What adding nodes one by one and validating them all agree on.** -/
structure Concordant (nodes : List Node) : Prop where
  /-- The graph is valid if and only if every node can be added. -/
  builds : (Graph.mk nodes.toArray).validate = .ok () ↔ ∃ ids, (empty.addAll nodes).1 = .ok ids
  /-- Adding them all gives that graph, with the handles in order. -/
  rebuilds : ∀ ids, (empty.addAll nodes).1 = .ok ids →
    ids = (List.range nodes.length).map NodeId.mk ∧ (empty.addAll nodes).2 = ⟨nodes.toArray⟩
  /-- The graph is valid if and only if every handle that a payload holds,
  in whatever position, stands before the node. -/
  backwards : (Graph.mk nodes.toArray).validate = .ok () ↔ ∀ (i : Nat) (node : Node) (child : NodeId), nodes[i]? = some node →
    node.payload.Holds child → child.index < i
  /-- Where validating fails, both blame the first node with a child that
  does not stand before it and the first such child of it; the nodes before
  it are in the graph that adding leaves, and no other. -/
  blames : ∀ error, (Graph.mk nodes.toArray).validate = .error error →
    ∃ (i : Nat) (node : Node) (before : List NodeId) (child : NodeId) (after : List NodeId),
      nodes[i]? = some node ∧ node.children = before ++ child :: after ∧ i ≤ child.index ∧ (∀ c ∈ before, c.index < i) ∧
      (∀ (j : Nat) (other : Node), nodes[j]? = some other → j < i →
        ∀ c ∈ other.children, c.index < j) ∧
      error = .invalidNode ⟨i⟩ ("child " ++ toString child ++ " does not precede its parent") ∧
      empty.addAll nodes = (.error (.invalidNode ⟨i⟩
        ("references " ++ toString child ++ " which is not in the graph yet")),
        ⟨(nodes.take i).toArray⟩)

/-- **Adding and validating describe the same graphs.** -/
theorem concordant_of_length_le (hlen : nodes.length ≤ capacity) : Concordant nodes := by
  have hsize : empty.size + nodes.length ≤ capacity := by
    have : empty.size = 0 := rfl
    omega
  have hfirst := firstOffence?_mk nodes
  cases h : offenceFrom? 0 nodes with
  | none =>
    have hvalid := validate_of_none (hfirst.trans h)
    have hadd := addAll_of_none hsize h
    have hback := offenceFrom?_eq_none.1 h
    refine ⟨⟨fun _ => ⟨_, by rw [hadd]⟩, fun _ => hvalid⟩, fun ids hids => ?_,
      ⟨fun _ i node child hnode hchild => ?_, fun _ => hvalid⟩, fun error herror => ?_⟩
    · rw [hadd] at hids
      cases hids
      rw [hadd, List.range_eq_range']
      exact ⟨rfl, by simp [empty]⟩
    · have := hback i node hnode child (Payload.mem_children_iff.2 hchild)
      omega
    · rw [hvalid] at herror
      cases herror
  | some offence =>
    obtain ⟨id, child⟩ := offence
    have hinvalid := validate_of_some (hfirst.trans h)
    have hadd := addAll_of_some hsize h
    obtain ⟨i, node, hnode, rfl, hchild, hnone⟩ := offenceFrom?_eq_some h
    rw [Nat.zero_add] at hchild hinvalid hadd
    obtain ⟨before, after, hsplit, hle, hbefore⟩ := firstForward?_eq_some.1 hchild
    refine ⟨⟨fun hvalid => ?_, fun ⟨ids, hids⟩ => ?_⟩, fun ids hids => ?_,
      ⟨fun hvalid => ?_, fun hback => ?_⟩, fun error herror => ?_⟩
    · rw [hinvalid] at hvalid
      cases hvalid
    · rw [hadd] at hids
      cases hids
    · rw [hadd] at hids
      cases hids
    · rw [hinvalid] at hvalid
      cases hvalid
    · have hmem : child ∈ node.children := by simp [hsplit]
      have := hback i node child hnode (Payload.mem_children_iff.1 hmem)
      exact absurd this (Nat.not_lt_of_le hle)
    · refine ⟨i, node, before, child, after, hnode, hsplit, hle, hbefore,
        fun j other hother hlt c hc => ?_, ?_, ?_⟩
      · have := offenceFrom?_eq_none.1 hnone j other (by rw [List.getElem?_take_of_lt hlt, hother]) c hc
        omega
      · rw [hinvalid] at herror
        cases herror
        rfl
      · rw [hadd]
        simp [empty, size]

/-- A recovery that hides a reference to itself in the branch of one kind
of error. -/
def knot : List Node :=
  [⟨Tag.list, .args []⟩,
    ⟨Tag.tryCatch, .tryCatch ⟨0⟩ (some ⟨⟨1⟩, ⟨0⟩⟩) (some [("denied", ⟨⟨2⟩, ⟨1⟩⟩)]) (some ⟨0⟩)⟩]

theorem concordant_knot : knot.length ≤ capacity ∧ Concordant knot :=
  ⟨by decide, concordant_of_length_le (by decide)⟩

end Graph

end ProgramGraph
