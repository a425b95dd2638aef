import ProgramGraph.Proofs.Evaluator.Basic
/-!
# Parallel maps are worth the same

A parallel map takes its elements a batch at a time or one by one. Either way
it comes to the values of the body, or to the first error in the order of the
collection (`Plan.result_mapEach`, `Plan.result_mapBatches`). Taint may differ,
as a batch is tainted by elements after the one that failed, and so results are
all that is compared here.

What a plan comes to hangs on the results of what it asks for, so registries
that differ in their parallel maps alone give every node the same result.
-/

namespace ProgramGraph

variable {P : Plugins} {worth worth' : NodeId → Scope → Answer}

/-! ## Results of plans -/

/-- What follows on an answer comes to the same if the answer does. -/
theorem Answer.result_bind_congr {a b : Answer} {next next' : Reply → Answer}
    (hab : a.result = b.result) (hnext : ∀ reply, (next reply).result = (next' reply).result) :
    (a.bind next).result = (b.bind next').result := by
  cases hreply : Reply.ofResult a.result with
  | error fatal => rw [bind_of_fatal hreply, bind_of_fatal (hab ▸ hreply)]
  | ok reply =>
    rw [bind_of_reply hreply, bind_of_reply (hab ▸ hreply)]
    exact hnext reply

/-- An error is passed on as it is by what goes on with values only. -/
theorem Answer.result_bind_onValue (a : Answer) (next : Value → Plan) (s : Scope) :
    (a.bind fun reply => (Plan.onValue next reply).evaluate worth s).result =
      a.result >>= fun value => ((next value).evaluate worth s).result := by
  cases hresult : a.result with
  | ok value =>
    have hreply : Reply.ofResult a.result = .ok (.ok value) := by rw [hresult]; rfl
    rw [bind_of_reply hreply]
    rfl
  | error error =>
    cases error with
    | failed value =>
      have hreply : Reply.ofResult a.result = .ok (.error value) := by rw [hresult]; rfl
      rw [bind_of_reply hreply]
      rfl
    | _ =>
      rw [bind_of_fatal (by rw [hresult]; rfl)]
      rfl

/-- The results of some answers together are told by their results. -/
theorem Answer.result_gather_congr {α : Type} {jobs : List α} {f f' : α → Answer}
    (h : ∀ job ∈ jobs, (f job).result = (f' job).result) :
    (gather (jobs.map f)).result = (gather (jobs.map f')).result := by
  have hmap : (jobs.map f).map Answer.result = (jobs.map f').map Answer.result := by
    rw [List.map_map, List.map_map]
    exact List.map_congr_left h
  have hmapM : ∀ answers : List Answer, answers.mapM Answer.result =
      (answers.map Answer.result).mapM id := by
    intro answers
    rw [List.mapM_map]
    rfl
  simp only [gather, hmapM, hmap]

namespace Plan

/-- **What a plan comes to hangs on results only.** -/
theorem result_evaluate_congr (h : ∀ id s, (worth id s).result = (worth' id s).result)
    (plan : Plan) (s : Scope) :
    (plan.evaluate worth s).result = (plan.evaluate worth' s).result := by
  induction plan with
  | finish => rfl
  | visit id manner next ih => exact Answer.result_bind_congr (h id _) ih
  | pause ms next ih => exact ih
  | all jobs next ih =>
    exact Answer.result_bind_congr (Answer.result_gather_congr fun job _ => h job.1 _) ih
  | first id others next ih => exact Answer.result_bind_congr (h id s) ih
  | deadline ms id next late ihn ihl => exact Answer.result_bind_congr (h id s) ihn

/-! ## Parallel maps -/

/-- The values of a body for some items, or the first error in order. -/
def outcomes (worth : NodeId → Scope → Answer) (lambda : Lambda) (s : Scope)
    (items : List Value) : Except EvalError (List Value) :=
  items.mapM fun item => (worth lambda.body (s.push [(lambda.param, item)])).result

variable {lambda : Lambda} {s : Scope}

/-- The values of some items after those of others. -/
theorem map_outcomes_append (front rest results : List Value) :
    ((outcomes worth lambda s (front ++ rest)).map fun values => .array (results ++ values)) =
      outcomes worth lambda s front >>= fun found =>
        (outcomes worth lambda s rest).map fun values =>
          Value.array (results ++ found ++ values) := by
  have happend : outcomes worth lambda s (front ++ rest) = (do
      let found ← outcomes worth lambda s front
      let values ← outcomes worth lambda s rest
      return found ++ values) := List.mapM_append
  rw [happend]
  cases outcomes worth lambda s front with
  | error error => rfl
  | ok found =>
    cases outcomes worth lambda s rest with
    | error error => rfl
    | ok values =>
      show Except.ok (Value.array (results ++ (found ++ values))) = _
      rw [← List.append_assoc]
      rfl

/-- **One by one:** the results so far and those of the items that are left. -/
theorem result_mapEach (items results : List Value) :
    ((mapEach lambda items results).evaluate worth s).result =
      (outcomes worth lambda s items).map fun values => .array (results ++ values) := by
  induction items generalizing results with
  | nil =>
    show Except.ok (Value.array results) = Except.ok (Value.array (results ++ []))
    rw [List.append_nil]
  | cons item rest ih =>
    rw [← List.singleton_append, map_outcomes_append, List.singleton_append, mapEach, evaluate,
      Answer.result_bind_onValue, outcomes, List.mapM_cons, List.mapM_nil]
    show (worth lambda.body (s.push [(lambda.param, item)])).result >>= _ = _
    cases (worth lambda.body (s.push [(lambda.param, item)])).result with
    | error error => rfl
    | ok value => exact ih (results ++ [value])

/-- The jobs of a batch together come to what the body comes to. -/
theorem result_gather_jobsOf (items : List Value) :
    (Answer.gather ((jobsOf lambda items).map fun job => worth job.1 (s.push job.2))).result =
      (outcomes worth lambda s items).map .array := by
  rw [jobsOf, List.map_map, outcomes]
  show Except.map _ (List.mapM Answer.result (List.map _ items)) = _
  rw [List.mapM_map]
  rfl

/-- **A batch at a time:** the same, by induction on what each batch leaves. -/
theorem result_mapBatches {batch : Nat} (hbatch : 0 < batch) (items results : List Value) :
    ((mapBatches lambda batch items results).evaluate worth s).result =
      (outcomes worth lambda s items).map fun values => .array (results ++ values) := by
  fun_induction mapBatches lambda batch items results with
  | case1 results =>
    show Except.ok (Value.array results) = Except.ok (Value.array (results ++ []))
    rw [List.append_nil]
  -- the batch fails as a whole, or its values join the results and the rest follows
  | case2 item rest results ih =>
    have hsplit : item :: rest = (item :: rest).take batch ++ rest.drop (batch - 1) := by
      obtain ⟨more, rfl⟩ : ∃ more, batch = more + 1 := ⟨batch - 1, by omega⟩
      rw [List.take_succ_cons, Nat.add_sub_cancel, List.cons_append, List.take_append_drop]
    rw [evaluate, Answer.result_bind_onValue, result_gather_jobsOf]
    conv => rhs; rw [hsplit, map_outcomes_append]
    cases outcomes worth lambda s ((item :: rest).take batch) with
    | error error => rfl
    | ok values => exact ih values

/-- **A parallel map comes to the same** whether its elements are jobs or not. -/
theorem result_parMap {batch : Nat} (hbatch : 0 < batch) (concurrent concurrent' : Bool)
    (collection : NodeId) :
    ((parMap concurrent collection batch lambda).evaluate worth s).result =
      ((parMap concurrent' collection batch lambda).evaluate worth s).result := by
  have hitems : ∀ (concurrent : Bool) (items : List Value),
      ((if concurrent then mapBatches lambda batch items [] else mapEach lambda items []).evaluate
        worth s).result = (outcomes worth lambda s items).map .array := by
    intro concurrent items
    cases concurrent with
    | true => exact result_mapBatches hbatch items []
    | false => exact result_mapEach items []
  rw [parMap, parMap, evaluate, evaluate, Answer.result_bind_onValue, Answer.result_bind_onValue]
  congr 1
  funext value
  cases value with
  | array items => exact (hitems concurrent items).trans (hitems concurrent' items).symm
  | _ => rfl

end Plan

/-! ## Registries -/

namespace Registry

/-- **Registries that differ in their parallel maps alone:** in whether the
elements are jobs. -/
def Alike (reg reg' : Registry P) : Prop :=
  ∀ tag, reg.find? tag = reg'.find? tag ∨
    ∃ concurrent concurrent' volatile,
      reg.find? tag = some ⟨.builtin (.parMap concurrent), volatile⟩ ∧
        reg'.find? tag = some ⟨.builtin (.parMap concurrent'), volatile⟩

theorem nodup_concurrencyWith (concurrent : Bool) :
    (concurrencyWith concurrent : Registry P).entries.keys.Nodup := by
  refine Keyed.nodup_keys_insert (Keyed.nodup_keys_insert (Keyed.nodup_keys_insert
    (Keyed.nodup_keys_insert ?_ _ _) _ _) _ _) _ _
  exact List.nodup_nil

theorem nodup_errors : (errors : Registry P).entries.keys.Nodup := by
  refine Keyed.nodup_keys_insert (Keyed.nodup_keys_insert (Keyed.nodup_keys_insert
    (Keyed.nodup_keys_insert (Keyed.nodup_keys_insert ?_ _ _) _ _) _ _) _ _) _ _
  exact List.nodup_nil

/-- What the standard registries have for a tag, by family. -/
theorem find?_standardWith (concurrent : Bool) (tag : String) :
    ((core.union (concurrencyWith concurrent)).union errors : Registry P).find? tag =
      ((errors : Registry P).find? tag).or
        (((concurrencyWith concurrent : Registry P).find? tag).or
          ((core : Registry P).find? tag)) := by
  unfold find? union
  rw [Keyed.find?_union _ nodup_errors, Keyed.find?_union _ (nodup_concurrencyWith concurrent)]

/-- **The two standard registries are alike.** -/
theorem alike_standard : (standard : Registry P).Alike standardSequential := by
  intro tag
  rw [standard, standardSequential, concurrency, concurrencySequential, find?_standardWith,
    find?_standardWith]
  by_cases htag : tag = Tag.parMap
  -- only the concurrency handlers have this tag, so theirs is what is found
  · subst htag
    exact .inr ⟨true, false, false, rfl, rfl⟩
  · have hsame : ∀ concurrent, (concurrencyWith concurrent : Registry P).find? tag =
        (concurrencyWith true : Registry P).find? tag := by
      intro concurrent
      simp only [concurrencyWith, find?, register, insert, Keyed.find?_insert, if_neg htag]
    exact .inl (by rw [hsame false])

end Registry

namespace Graph

variable {reg reg' : Registry P}

/-- Under registries that are alike a handle has the same role, but for parallel
maps. -/
theorem role_of_alike (h : reg.Alike reg') (g : Graph) (id : NodeId) :
    g.role reg id = g.role reg' id ∨
      ∃ concurrent concurrent' collection batch lambda volatile, 0 < batch ∧
        g.role reg id = .planned (.parMap concurrent collection batch lambda) volatile ∧
        g.role reg' id = .planned (.parMap concurrent' collection batch lambda) volatile := by
  cases hnode : g.get? id with
  | none => exact .inl (by simp only [role, hnode])
  | some node =>
    cases hparam : node.param? with
    | some p => exact .inl (by simp only [role, hnode, hparam])
    | none =>
      rcases h node.tag with heq | ⟨concurrent, concurrent', volatile, hfind, hfind'⟩
      · refine .inl ?_
        simp only [role, hnode, hparam, Registry.get, heq]
      · simp only [role, hnode, hparam, Registry.get, hfind, hfind', Entry.plan, Builtin.start]
        cases hpayload : node.payload with
        | parMap collection concurrency lambda =>
          exact .inr ⟨concurrent, concurrent', collection, max concurrency 1, lambda, volatile,
            by omega, rfl, rfl⟩
        | _ => exact .inl rfl

/-- **A node comes to the same result** under registries that are alike. -/
theorem result_evaluate_of_alike (h : reg.Alike reg') (g : Graph) (id : NodeId) (s : Scope) :
    (g.evaluate reg id s).result = (g.evaluate reg' id s).result := by
  induction hn : id.index using Nat.strongRecOn generalizing id s with
  | _ n ih =>
    have hchildren : ∀ child s,
        (if child < id then g.evaluate reg child s else misplaced child).result =
          (if child < id then g.evaluate reg' child s else misplaced child).result := by
      intro child s
      by_cases hlt : child < id
      · rw [if_pos hlt, if_pos hlt]
        exact ih child.index (hn ▸ hlt) child s rfl
      · rw [if_neg hlt, if_neg hlt]
    rw [evaluate, evaluate]
    rcases role_of_alike h g id with
      heq | ⟨concurrent, concurrent', collection, batch, lambda, volatile, hbatch, hrole, hrole'⟩
    · rw [heq]
      cases g.role reg' id with
      | planned plan volatile => exact plan.result_evaluate_congr hchildren s
      | _ => rfl
    · rw [hrole, hrole']
      show (Plan.evaluate _ _ s).result = (Plan.evaluate _ _ s).result
      rw [Plan.result_evaluate_congr hchildren, Plan.result_parMap hbatch]

end Graph

end ProgramGraph
