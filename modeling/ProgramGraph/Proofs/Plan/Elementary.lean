import ProgramGraph.Proofs.Evaluator.Role
/-!
# Elementary graphs

The structural handlers and those for errors ask for their children one after another
and wait for nothing. Without parameters, and without cleanups, nothing in such a graph
is evaluated afresh either: all that a task ever asks for is a child, under more
bindings or not.
-/

namespace ProgramGraph

variable {P : Plugins}

/-- The tags of the structural handlers and of those for errors. -/
def Tag.elementary : List String :=
  [Tag.literal, Tag.list, Tag.record, Tag.apply, Tag.fail, Tag.tryCatch, Tag.attempt, Tag.guard,
    Tag.settle]

/-- The payload has a cleanup. -/
def Payload.cleansUp : Payload → Bool
  | .tryCatch _ _ _ cleanup => cleanup.isSome
  | _ => false

/-- **The node is elementary:** one of the structural handlers and those for errors
evaluates it, and it is no parameter and has no cleanup. -/
structure Node.Elementary (node : Node) : Prop where
  tag : node.tag ∈ Tag.elementary
  param : node.param? = none
  cleanup : node.payload.cleansUp = false

instance (node : Node) : Decidable node.Elementary :=
  decidable_of_iff (node.tag ∈ Tag.elementary ∧ node.param? = none ∧ node.payload.cleansUp = false)
    ⟨fun ⟨htag, hparam, hcleanup⟩ => ⟨htag, hparam, hcleanup⟩,
      fun h => ⟨h.tag, h.param, h.cleanup⟩⟩

/-- All nodes of the graph are elementary. -/
def Graph.Elementary (g : Graph) : Prop := ∀ node ∈ g.nodes.toList, node.Elementary

instance (g : Graph) : Decidable g.Elementary :=
  inferInstanceAs (Decidable (∀ node ∈ g.nodes.toList, node.Elementary))

theorem Graph.Elementary.of_get? {g : Graph} (h : g.Elementary) {id : NodeId} {node : Node}
    (hnode : g.get? id = some node) : node.Elementary :=
  h node (Array.mem_toList_iff.2 (Array.mem_of_getElem? hnode))

/-! ## Tasks -/

/-- **The step asks for a child,** or ends the task. -/
def Step.Direct : Step → Prop
  | .request (.fresh _) | .request (.await _) => False
  | _ => True

theorem Step.direct_ofResult (result : Except EvalError Value) : (Step.ofResult result).Direct := by
  cases result <;> trivial

namespace Builtin

/-- Tasks that ask for children only. -/
def Task.Direct : Task → Prop
  | .tryCatch task => task.cleanup = none
  | .parMap _ | .race _ | .timeout _ | .retry _ => False
  | _ => True

theorem direct_ending (outcome : Except Value Value) : (Recovery.ending outcome).Direct := by
  cases outcome <;> trivial

/-- Without a cleanup a recovery ends at once. -/
theorem direct_finish {task : Recovery} (h : task.cleanup = none) (outcome : Except Value Value) :
    (task.finish outcome).1.Direct ∧ (task.finish outcome).2.cleanup = none := by
  simp only [Recovery.finish, h]
  exact ⟨direct_ending outcome, trivial⟩

theorem direct_recovery {task : Recovery} (h : task.cleanup = none) (cx : Context) (input : Input) :
    (task.resume cx input).1.Direct ∧ (task.resume cx input).2.cleanup = none := by
  unfold Recovery.resume
  have hreset : ({ task with phase := .body } : Recovery).cleanup = none := h
  dsimp only
  split
  · exact ⟨trivial, h⟩
  · exact direct_finish hreset _
  · split
    · exact ⟨trivial, h⟩
    · exact direct_finish hreset _
  · exact direct_finish hreset _
  · exact direct_finish hreset _
  · exact ⟨direct_ending _, h⟩
  · exact ⟨trivial, h⟩
  · exact ⟨trivial, h⟩

/-- **A direct task does direct steps,** and stays direct. -/
theorem Task.Direct.resume {task : Task} (h : task.Direct) (cx : Context) (input : Input) :
    (task.resume cx input).1.Direct ∧ (task.resume cx input).2.Direct := by
  cases task with
  | leaf task =>
    refine ⟨?_, trivial⟩
    simp only [Task.resume, Task.resume.wrap, Leaf.resume]
    split
    · exact Step.direct_ofResult _
    · trivial
  | collect task =>
    refine ⟨?_, trivial⟩
    have hproceed : ∀ task : Collection, task.proceed.1.Direct := by
      intro task
      unfold Collection.proceed
      split
      · trivial
      · exact Step.direct_ofResult _
    cases input <;> first | trivial | exact hproceed _
  | record task =>
    refine ⟨?_, trivial⟩
    have hproceed : ∀ task : Assembly, task.proceed.1.Direct := by
      intro task
      unfold Assembly.proceed
      split <;> trivial
    cases input with
    | start => exact hproceed _
    | value value =>
      simp only [Task.resume, Task.resume.wrap, Assembly.resume]
      split <;> exact hproceed _
    | error value => trivial
    | elapsed => trivial
  | apply task =>
    refine ⟨?_, trivial⟩
    simp only [Task.resume, Task.resume.wrap, Application.resume]
    split <;> trivial
  | fail task => cases input <;> exact ⟨trivial, trivial⟩
  | tryCatch task => exact direct_recovery h cx input
  | attempt task => cases input <;> exact ⟨trivial, trivial⟩
  | guard task =>
    refine ⟨?_, trivial⟩
    simp only [Task.resume, Task.resume.wrap, Guarded.resume]
    split <;> trivial
  | settle task =>
    refine ⟨?_, trivial⟩
    have hproceed : ∀ task : Partition, task.proceed.1.Direct := by
      intro task
      unfold Partition.proceed
      split <;> trivial
    cases input <;> first | trivial | exact hproceed _
  | parMap | race | timeout | retry => exact h.elim

/-- The handlers of elementary nodes. -/
def isElementary : Builtin → Bool
  | parMap _ | race | timeout | retry => false
  | _ => true

/-- **A node without a cleanup gets a direct task** from such a handler. -/
theorem Makes.direct {handler : Builtin} {id : NodeId} {node : Node} {task : Task}
    (h : Makes id node handler task) (hhandler : handler.isElementary = true)
    (hcleanup : node.payload.cleansUp = false) : task.Direct := by
  cases h with
  | tryCatch hpayload =>
    rw [hpayload] at hcleanup
    exact Option.isSome_eq_false_iff.1 hcleanup |> Option.isNone_iff_eq_none.1
  | parMap | race | timeout | retry => cases hhandler
  | _ => trivial

end Builtin

/-! ## Registries -/

/-- The entry has the handler of elementary nodes, and it is not volatile. -/
def Entry.Elementary (entry : Entry P) : Prop :=
  entry.volatile = false ∧
    ∃ handler : Builtin, entry.handler = .builtin handler ∧ handler.isElementary = true

namespace Registry

/-- **The tags of elementary nodes have such entries.** -/
def Elementary (reg : Registry P) : Prop :=
  ∀ item ∈ reg.entries, item.1 ∈ Tag.elementary → item.2.Elementary

variable {reg other : Registry P} {tag : String} {handler : Builtin}

theorem Elementary.register (hr : reg.Elementary) (h : handler.isElementary = true) :
    (reg.register tag (.builtin handler)).Elementary :=
  forall_mem_insert hr fun _ => ⟨rfl, handler, rfl, h⟩

/-- Nothing is asked of the entries of other tags. -/
theorem Elementary.insert (hr : reg.Elementary) (h : tag ∉ Tag.elementary) (entry : Entry P) :
    (reg.insert tag entry).Elementary :=
  forall_mem_insert hr fun htag => absurd htag h

theorem Elementary.union (hr : reg.Elementary) (ho : other.Elementary) :
    (reg.union other).Elementary :=
  forall_mem_union hr ho

theorem elementary_empty : (empty : Registry P).Elementary := nofun

theorem elementary_core : (core : Registry P).Elementary :=
  (((elementary_empty.register rfl).register rfl).register rfl).register rfl

theorem elementary_concurrencyWith (concurrent : Bool) :
    (concurrencyWith concurrent : Registry P).Elementary :=
  (((elementary_empty.insert (by decide) _).insert (by decide) _).insert (by decide) _).insert
    (by decide) _

theorem elementary_errors : (errors : Registry P).Elementary :=
  ((((elementary_empty.register rfl).register rfl).register rfl).register rfl).register rfl

/-- The standard registries are such. -/
theorem elementary_of_standard_or (h : reg = standard ∨ reg = standardSequential) :
    reg.Elementary := by
  rcases h with rfl | rfl
  · exact (elementary_core.union (elementary_concurrencyWith true)).union elementary_errors
  · exact (elementary_core.union (elementary_concurrencyWith false)).union elementary_errors

end Registry

end ProgramGraph
