import ProgramGraph.Proofs.Plan.Basic
/-!
# What plans ask for

The plan of a task asks only for nodes that its own node refers to. In a graph
whose nodes refer backwards an evaluation therefore gets to smaller handles
with every request, which is what recursion over a graph rests on. Only races
and timeouts ask which of two things comes first.
-/

namespace ProgramGraph

namespace Plan

variable {p : NodeId → Prop} {timed : Prop}

/-- A plan within some nodes is within more of them. -/
theorem Within.mono {q : NodeId → Prop} {timed' : Prop} (hp : ∀ id, p id → q id)
    (ht : timed → timed') {plan : Plan} (h : plan.Within p timed) : plan.Within q timed' := by
  induction plan with
  | finish => trivial
  | visit id manner next ih => exact ⟨hp _ h.1, fun reply => ih reply (h.2 reply)⟩
  | pause ms next ih => exact ih h
  | all jobs next ih =>
    exact ⟨fun job hjob => hp _ (h.1 job hjob), fun reply => ih reply (h.2 reply)⟩
  | first id others next ih =>
    obtain ⟨htimed, hid, hothers, hnext⟩ := h
    exact ⟨ht htimed, hp _ hid, fun other ho => hp _ (hothers other ho),
      fun reply => ih reply (hnext reply)⟩
  | deadline ms id next late ihn ihl =>
    obtain ⟨htimed, hid, hnext, hlate⟩ := h
    exact ⟨ht htimed, hp _ hid, fun reply => ihn reply (hnext reply), ihl hlate⟩

theorem within_ofReply (reply : Reply) : (ofReply reply).Within p timed := by
  cases reply <;> trivial

theorem within_onValue {next : Value → Plan} (h : ∀ value, (next value).Within p timed)
    (reply : Reply) : (onValue next reply).Within p timed := by
  cases reply with
  | error => trivial
  | ok value => exact h value

/-! ## Structural handlers -/

theorem within_collect (combine : List Value → Except EvalError Value) {children : List NodeId}
    (h : ∀ child ∈ children, p child) (values : List Value) :
    (collect combine children values).Within p timed := by
  induction children generalizing values with
  | nil => trivial
  | cons child rest ih =>
    rw [List.forall_mem_cons] at h
    exact ⟨h.1, within_onValue fun value => ih h.2 _⟩

theorem within_assemble {fields : List (String × NodeId)} (h : ∀ field ∈ fields, p field.2)
    (object : Keyed String Value) : (assemble fields object).Within p timed := by
  induction fields generalizing object with
  | nil => trivial
  | cons field rest ih =>
    rw [List.forall_mem_cons] at h
    exact ⟨h.1, within_onValue fun value => ih h.2 _⟩

theorem within_application {arg : NodeId} {lambda : Lambda} (ha : p arg) (hb : p lambda.body) :
    (application arg lambda).Within p timed :=
  ⟨ha, within_onValue fun _ => ⟨hb, within_ofReply⟩⟩

/-! ## Concurrency handlers -/

theorem within_mapEach {lambda : Lambda} (h : p lambda.body) (items results : List Value) :
    (mapEach lambda items results).Within p timed := by
  induction items generalizing results with
  | nil => trivial
  | cons item rest ih => exact ⟨h, within_onValue fun value => ih _⟩

theorem within_mapBatches {lambda : Lambda} (h : p lambda.body) (batch : Nat)
    (items results : List Value) : (mapBatches lambda batch items results).Within p timed := by
  fun_induction mapBatches lambda batch items results with
  | case1 results => trivial
  | case2 results item rest ih =>
    refine ⟨?_, within_onValue fun value => ?_⟩
    · intro job hjob
      obtain ⟨item, -, rfl⟩ := List.mem_map.1 hjob
      exact h
    · cases value with
      | array values => exact ih values
      | _ => trivial

theorem within_parMap (concurrent : Bool) {collection : NodeId} (hc : p collection) (batch : Nat)
    {lambda : Lambda} (hb : p lambda.body) :
    (parMap concurrent collection batch lambda).Within p timed := by
  refine ⟨hc, within_onValue fun value => ?_⟩
  cases value with
  | array items =>
    cases concurrent with
    | false => exact within_mapEach hb _ _
    | true => exact within_mapBatches hb _ _ _
  | _ => trivial

theorem within_retry {expr : NodeId} (h : p expr) (delayMs more : Nat) :
    (retry expr delayMs more).Within p timed := by
  induction more with
  | zero => exact ⟨h, within_ofReply⟩
  | succ more ih =>
    refine ⟨h, ?_⟩
    rintro (value | value)
    · simp only
      split
      · exact ih
      · exact ih
    · trivial

/-! ## Error handlers -/

theorem within_fail {child : NodeId} (h : p child) : (fail child).Within p timed :=
  ⟨h, by rintro (value | value) <;> trivial⟩

theorem within_cleanUp {cleanup : Option NodeId} (h : ∀ id ∈ cleanup, p id) (outcome : Reply) :
    (cleanUp cleanup outcome).Within p timed := by
  cases cleanup with
  | none => exact within_ofReply outcome
  | some cleanup => exact ⟨h cleanup rfl, within_onValue fun _ => within_ofReply outcome⟩

theorem within_tryCatch {task : Recovery} (hexpr : p task.expr)
    (hrecovery : ∀ error lambda, task.recoveryFrom? error = some lambda → p lambda.body)
    (hcleanup : ∀ id ∈ task.cleanup, p id) : (tryCatch task).Within p timed := by
  refine ⟨hexpr, ?_⟩
  rintro (value | value)
  · simp only
    split
    next lambda hlambda => exact ⟨hrecovery _ _ hlambda, within_cleanUp hcleanup⟩
    next => exact within_cleanUp hcleanup _
  · exact within_cleanUp hcleanup _

theorem within_attempt {child : NodeId} (h : p child) : (attempt child).Within p timed :=
  ⟨h, by rintro (value | value) <;> trivial⟩

theorem within_guard {condition error : NodeId} (hc : p condition) (he : p error) :
    (guard condition error).Within p timed := by
  refine ⟨hc, within_onValue fun value => ?_⟩
  cases value with
  | bool condition =>
    cases condition with
    | false => exact within_fail he
    | true => trivial
  | _ => trivial

theorem within_settle {exprs : List NodeId} (h : ∀ expr ∈ exprs, p expr)
    (fulfilled rejected : List Value) : (settle exprs fulfilled rejected).Within p timed := by
  induction exprs generalizing fulfilled rejected with
  | nil => trivial
  | cons expr rest ih =>
    rw [List.forall_mem_cons] at h
    refine ⟨h.1, ?_⟩
    rintro (value | value)
    · exact ih h.2 _ _
    · exact ih h.2 _ _

end Plan

/-- The children that a payload gives by position are children. -/
theorem Collection.mem_of_children? {node : Node} {children : List NodeId}
    (h : Collection.children? node.payload = some children) :
    ∀ child ∈ children, child ∈ node.children := by
  unfold children? at h
  split at h
  next child hpayload => simp_all [Node.children, Payload.children]
  next nodes hpayload => simp_all [Node.children, Payload.children]
  next hpayload => simp_all
  next => cases h

/-- The recovery from an error is one of those that the task has. -/
theorem Recovery.mem_of_recoveryFrom? {task : Recovery} {error : Value} {lambda : Lambda}
    (h : task.recoveryFrom? error = some lambda) :
    lambda ∈ task.catcher ∨ lambda ∈ (task.branches.getD []).map Prod.snd := by
  unfold recoveryFrom? at h
  split at h
  next catcher hcatcher => exact .inl (by rw [hcatcher]; exact h)
  next =>
    cases hbranches : task.branches with
    | none => rw [hbranches] at h; cases h
    | some branches =>
      rw [hbranches] at h
      right
      have hfound : ((errorKind? error).bind fun kind => branches.find? kind) = some lambda ∨
          branches.find? defaultBranch = some lambda := by
        have h : (((errorKind? error).bind fun kind => branches.find? kind) <|>
            branches.find? defaultBranch) = some lambda := h
        cases hkind : (errorKind? error).bind fun kind => branches.find? kind with
        | some found => exact .inl (by simpa [hkind] using h)
        | none => exact .inr (by simpa [hkind] using h)
      rcases hfound with hfound | hfound
      · obtain ⟨kind, -, hkind⟩ := Option.bind_eq_some_iff.1 hfound
        exact List.mem_map_of_mem (Keyed.mem_of_find? hkind)
      · exact List.mem_map_of_mem (Keyed.mem_of_find? hfound)

namespace Builtin

/-- **A plan asks only for children** of its node, and which of two things
comes first only if its handler is timed. -/
theorem Makes.within {h : Builtin} {id : NodeId} {node : Node} {task : Builtin.Task}
    (hmade : Makes id node h task) :
    task.plan.Within (· ∈ node.children) (h.isTimed = true) := by
  cases hmade with
  | leaf outcome => trivial
  | args combine h => exact Plan.within_collect _ (Collection.mem_of_children? h) _
  | record h =>
    apply Plan.within_assemble
    intro field hfield
    simp only [Node.children, h, Payload.children]
    exact List.mem_map_of_mem hfield
  | apply h => apply Plan.within_application <;> simp [Node.children, h, Payload.children]
  | parMap concurrent h => apply Plan.within_parMap <;> simp [Node.children, h, Payload.children]
  | race h =>
    refine ⟨rfl, ?_, ?_, Plan.within_ofReply⟩
    · simp [Node.children, h, Payload.children]
    · simp +contextual [Node.children, h, Payload.children]
  | timeout h =>
    refine ⟨rfl, ?_, Plan.within_ofReply, ?_, Plan.within_ofReply⟩ <;>
      simp [Node.children, h, Payload.children]
  | retry h => apply Plan.within_retry; simp [Node.children, h, Payload.children]
  | fail h => apply Plan.within_fail; simp [Node.children, h, Payload.children]
  | tryCatch h =>
    simp only [Node.children, h, Payload.children]
    apply Plan.within_tryCatch
    · simp
    · intro error lambda hlambda
      rcases Recovery.mem_of_recoveryFrom? hlambda with hmem | hmem
      · obtain rfl : _ = some lambda := hmem
        simp
      · obtain ⟨branch, hbranch, rfl⟩ := List.mem_map.1 hmem
        have : branch.2.body ∈ List.map (fun branch => branch.2.body) (_ : List (String × Lambda)) :=
          List.mem_map_of_mem hbranch
        simp only [List.mem_append, List.mem_cons]
        exact .inl (.inr this)
    · rintro id rfl
      simp
  | attempt h => apply Plan.within_attempt; simp [Node.children, h, Payload.children]
  | guard h => apply Plan.within_guard <;> simp [Node.children, h, Payload.children]
  | settle h =>
    apply Plan.within_settle
    simp [Node.children, h, Payload.children]

end Builtin

end ProgramGraph
