import Mathlib.Logic.Relation
import ProgramGraph.Proofs.Evaluator.Role
/-!
# How plans end

An ordinary error says something about a node and its payload, its handler or its
parameter. Two errors are none: that something was used out of order, and that a
node is not in the graph. Only the engine finds those. A plan of the library ends
with an ordinary error if with any, and a handler of the library refuses a node for
an ordinary reason (`Registry.ordinary_of_standard_or`).
-/

namespace ProgramGraph

variable {P : Plugins}

/-- **The error is about a node that is there,** and not about how tasks are used. -/
def EvalError.Ordinary : EvalError → Prop
  | internal _ => False
  | invalidNode _ reason => reason ≠ "not in graph"
  | _ => True

/-- A fixed text that does not begin as another one is not that one, whatever
follows. -/
theorem EvalError.ordinary_of_head (id : NodeId) {reason : String}
    (h : reason.toList.head? ≠ some 'n') : (invalidNode id reason).Ordinary := by
  rintro rfl
  exact h rfl

namespace Plan

/-- Any error that the plan ends with satisfies `q`. -/
def Ends (q : EvalError → Prop) : Plan → Prop
  | finish result => ∀ error, result = .error error → q error
  | visit _ _ next => ∀ reply, (next reply).Ends q
  | pause _ next => next.Ends q
  | all _ next => ∀ reply, (next reply).Ends q
  | first _ _ next => ∀ reply, (next reply).Ends q
  | deadline _ _ next late => (∀ reply, (next reply).Ends q) ∧ late.Ends q

theorem ends_ok {q : EvalError → Prop} (value : Value) : (finish (.ok value)).Ends q := nofun

theorem ends_failure (value : Value) : (failure value).Ends EvalError.Ordinary := by
  rintro error ⟨⟩
  trivial

theorem ends_ofReply (reply : Reply) : (ofReply reply).Ends EvalError.Ordinary := by
  cases reply with
  | ok value => exact ends_ok value
  | error value => exact ends_failure value

theorem ends_onValue {next : Value → Plan} (h : ∀ value, (next value).Ends EvalError.Ordinary)
    (reply : Reply) : (onValue next reply).Ends EvalError.Ordinary := by
  cases reply with
  | ok value => exact h value
  | error value => exact ends_failure value

theorem ends_collect {combine : List Value → Except EvalError Value}
    (h : ∀ values error, combine values = .error error → error.Ordinary) (children : List NodeId)
    (values : List Value) : (collect combine children values).Ends EvalError.Ordinary := by
  induction children generalizing values with
  | nil => exact h values
  | cons child rest ih => exact ends_onValue fun value => ih _

theorem ends_assemble (fields : List (String × NodeId)) (object : Keyed String Value) :
    (assemble fields object).Ends EvalError.Ordinary := by
  induction fields generalizing object with
  | nil => exact ends_ok _
  | cons field rest ih => exact ends_onValue fun value => ih _

theorem ends_mapEach (lambda : Lambda) (items results : List Value) :
    (mapEach lambda items results).Ends EvalError.Ordinary := by
  induction items generalizing results with
  | nil => exact ends_ok _
  | cons item rest ih => exact ends_onValue fun value => ih _

theorem ends_mapBatches (lambda : Lambda) (batch : Nat) (items results : List Value) :
    (mapBatches lambda batch items results).Ends EvalError.Ordinary := by
  fun_induction mapBatches lambda batch items results with
  | case1 results => exact ends_ok _
  | case2 results item rest ih =>
    refine ends_onValue fun value => ?_
    cases value with
    | array values => exact ih values
    | _ => exact ends_failure _

theorem ends_parMap (concurrent : Bool) (collection : NodeId) (batch : Nat) (lambda : Lambda) :
    (parMap concurrent collection batch lambda).Ends EvalError.Ordinary := by
  refine ends_onValue fun value => ?_
  cases value with
  | array items =>
    cases concurrent with
    | false => exact ends_mapEach lambda items []
    | true => exact ends_mapBatches lambda batch items []
  | _ => exact ends_failure _

theorem ends_retry (expr : NodeId) (delayMs more : Nat) :
    (retry expr delayMs more).Ends EvalError.Ordinary := by
  induction more with
  | zero => exact ends_ofReply
  | succ more ih =>
    rintro (value | value)
    · simp only
      split
      · exact ih
      · exact ih
    · exact ends_ok value

theorem ends_fail (child : NodeId) : (fail child).Ends EvalError.Ordinary := by
  rintro (value | value) <;> exact ends_failure value

theorem ends_cleanUp (cleanup : Option NodeId) (outcome : Reply) :
    (cleanUp cleanup outcome).Ends EvalError.Ordinary := by
  cases cleanup with
  | none => exact ends_ofReply outcome
  | some cleanup => exact ends_onValue fun _ => ends_ofReply outcome

theorem ends_tryCatch (task : Recovery) : (tryCatch task).Ends EvalError.Ordinary := by
  rintro (value | value)
  · simp only
    split
    · exact ends_cleanUp task.cleanup
    · exact ends_cleanUp task.cleanup _
  · exact ends_cleanUp task.cleanup _

theorem ends_guard (condition error : NodeId) : (guard condition error).Ends EvalError.Ordinary := by
  refine ends_onValue fun value => ?_
  cases value with
  | bool condition =>
    cases condition with
    | false => exact ends_fail error
    | true => exact ends_ok _
  | _ => exact ends_failure _

theorem ends_settle (exprs : List NodeId) (fulfilled rejected : List Value) :
    (settle exprs fulfilled rejected).Ends EvalError.Ordinary := by
  induction exprs generalizing fulfilled rejected with
  | nil => exact ends_ok _
  | cons expr rest ih =>
    rintro (value | value)
    · exact ih _ _
    · exact ih _ _

end Plan

/-! ## Handlers -/

namespace Builtin

/-- **The handler brings about ordinary errors only,** whether it refuses a node or
its task fails. -/
structure Ordinary (h : Builtin) : Prop where
  refuses : ∀ id node error, h.start id node = .error error → error.Ordinary
  ends : ∀ id node task, Makes id node h task → task.plan.Ends EvalError.Ordinary

theorem ordinary_leaf {outcome : NodeId → Node → Except EvalError Value}
    (h : ∀ id node error, outcome id node = .error error → error.Ordinary) :
    (leaf outcome).Ordinary where
  refuses _ _ _ := nofun
  ends id node task hmade := by
    cases hmade
    exact h id node

theorem ordinary_args {combine : List Value → Except EvalError Value}
    (h : ∀ values error, combine values = .error error → error.Ordinary) :
    (args combine).Ordinary where
  refuses id node error hstart := by
    simp only [start, Collection.start] at hstart
    split at hstart
    next => cases hstart
    next =>
      cases hstart
      exact EvalError.ordinary_of_head id (by simp)
  ends id node task hmade := by
    cases hmade
    exact Plan.ends_collect h _ _

/-- Whether what the handler does is told by a function that it is given. -/
def isParametric : Builtin → Bool
  | leaf _ | args _ => true
  | _ => false

/-- So does every handler that is not given a function. -/
theorem ordinary_of_not_parametric {h : Builtin} (hh : h.isParametric = false) : h.Ordinary where
  refuses id node error hstart := by
    cases h with
    | leaf outcome => cases hh
    | args combine => cases hh
    | _ =>
      simp only [start, onlyChild] at hstart
      split at hstart
      next => cases hstart
      next =>
        cases hstart
        exact EvalError.ordinary_of_head id (by simp)
  ends id node task hmade := by
    cases hmade with
    | leaf outcome => cases hh
    | args combine => cases hh
    | record => exact Plan.ends_assemble _ _
    | apply => exact Plan.ends_onValue fun _ => Plan.ends_ofReply
    | parMap concurrent => exact Plan.ends_parMap _ _ _ _
    | race => exact Plan.ends_ofReply
    | timeout => exact ⟨Plan.ends_ofReply, Plan.ends_ofReply⟩
    | retry => exact Plan.ends_retry _ _ _
    | fail => exact Plan.ends_fail _
    | tryCatch => exact Plan.ends_tryCatch _
    | attempt => rintro (value | value) <;> exact Plan.ends_ok _
    | guard => exact Plan.ends_guard _ _
    | settle => exact Plan.ends_settle _ _ _

theorem ordinary_literal : literal.Ordinary := by
  refine ordinary_leaf fun id node error herror => ?_
  split at herror
  next => cases herror
  next =>
    cases herror
    exact EvalError.ordinary_of_head id (by simp)

theorem ordinary_list : list.Ordinary := ordinary_args fun _ _ => nofun

end Builtin

/-! ## Registries -/

namespace Registry

/-- **All handlers are of the library** and such as `q` says. -/
def Holds (q : Builtin → Prop) (reg : Registry P) : Prop :=
  ∀ item ∈ reg.entries, ∃ handler : Builtin, item.2.handler = .builtin handler ∧ q handler

/-- **All handlers are of the library** and bring about ordinary errors only. -/
def Ordinary (reg : Registry P) : Prop :=
  ∀ item ∈ reg.entries, ∃ handler : Builtin, item.2.handler = .builtin handler ∧ handler.Ordinary

variable {q : Builtin → Prop} {reg other : Registry P} {tag : String} {handler : Builtin}

theorem Holds.insert (hr : reg.Holds q) (h : q handler) (volatile : Bool) :
    (reg.insert tag ⟨.builtin handler, volatile⟩).Holds q :=
  forall_mem_insert hr ⟨handler, rfl, h⟩

theorem Holds.union (hr : reg.Holds q) (ho : other.Holds q) : (reg.union other).Holds q :=
  forall_mem_union hr ho

theorem holds_empty : (empty : Registry P).Holds q := nofun

section Standard

variable (hliteral : q .literal) (hlist : q .list)
  (hothers : ∀ handler : Builtin, handler.isParametric = false → q handler)

include hliteral hlist hothers

theorem holds_core : (core : Registry P).Holds q :=
  (((holds_empty.insert hliteral _).insert hlist _).insert (hothers .record rfl) _).insert
    (hothers .apply rfl) _

omit hliteral hlist in
theorem holds_concurrencyWith (concurrent : Bool) : (concurrencyWith concurrent : Registry P).Holds q :=
  (((holds_empty.insert (hothers .race rfl) _).insert (hothers .timeout rfl) _).insert
    (hothers .retry rfl) _).insert (hothers (.parMap concurrent) rfl) _

omit hliteral hlist in
theorem holds_errors : (errors : Registry P).Holds q :=
  ((((holds_empty.insert (hothers .fail rfl) _).insert (hothers .tryCatch rfl) _).insert
    (hothers .attempt rfl) _).insert (hothers .guard rfl) _).insert (hothers .settle rfl) _

/-- **What holds of the handlers of the library,** two of which are given functions, holds
in its registries. -/
theorem holds_of_standard_or (h : reg = standard ∨ reg = standardSequential) : reg.Holds q := by
  have hcore : (core : Registry P).Holds q := holds_core hliteral hlist hothers
  have herrors : (errors : Registry P).Holds q := holds_errors hothers
  rcases h with rfl | rfl
  · exact (hcore.union (holds_concurrencyWith hothers true)).union herrors
  · exact (hcore.union (holds_concurrencyWith hothers false)).union herrors

end Standard

/-- **The registries of the library** bring about ordinary errors only. -/
theorem ordinary_of_standard_or (h : reg = standard ∨ reg = standardSequential) : reg.Ordinary :=
  holds_of_standard_or Builtin.ordinary_literal Builtin.ordinary_list
    (fun _ => Builtin.ordinary_of_not_parametric) h

end Registry

namespace Graph

variable {g : Graph} {reg : Registry P} {id : NodeId}

/-- **A node refers to its children.** -/
def Refers (g : Graph) (id child : NodeId) : Prop :=
  ∃ node, g.get? id = some node ∧ child ∈ node.children

theorem Refers.lt (hg : g.validate = .ok ()) {child : NodeId} (h : g.Refers id child) : child < id := by
  obtain ⟨node, hnode, hchild⟩ := h
  exact child_lt_of_validate hg hnode hchild

/-- References lead to smaller handles. -/
theorem le_of_path (hg : g.validate = .ok ()) {root : NodeId}
    (h : Relation.ReflTransGen g.Refers root id) : id ≤ root := by
  induction h with
  | refl => exact Nat.le_refl root.index
  | tail _ hrefers ih => exact Nat.le_of_lt (Nat.lt_of_lt_of_le (hrefers.lt hg) ih)

/-- **The plan of a node** asks for children of the node, and ends with ordinary
errors. -/
theorem refers_of_role (hr : reg.Ordinary) {plan : Plan} {volatile : Bool}
    (h : g.role reg id = .planned plan volatile) :
    plan.Within (g.Refers id) True ∧ plan.Ends EvalError.Ordinary := by
  obtain ⟨node, entry, hnode, -, hentry, hplan, rfl⟩ := plays_of_role h
  obtain ⟨handler, hhandler, hordinary⟩ := hr _ (Registry.mem_of_get hentry)
  obtain ⟨task, -, hmade, rfl⟩ := Entry.makes_of_plan hhandler hplan
  refine ⟨?_, hordinary.ends id node task hmade⟩
  exact hmade.within.mono (fun child hchild => ⟨node, hnode, hchild⟩) fun _ => trivial

/-- **A node is refused** for an ordinary reason. -/
theorem ordinary_of_role (hr : reg.Ordinary) {error : EvalError} {volatile : Bool}
    (h : g.role reg id = .refused error volatile) : error.Ordinary := by
  obtain ⟨node, -, -, ⟨hmissing, -⟩ | ⟨entry, hentry, hplan, -⟩⟩ := plays_of_role h
  · obtain ⟨rfl, -⟩ := Registry.missing_of_get hmissing
    trivial
  · obtain ⟨handler, hhandler, hordinary⟩ := hr _ (Registry.mem_of_get hentry)
    exact hordinary.refuses id node error (Entry.refuses_of_plan hhandler hplan)

end Graph

end ProgramGraph
