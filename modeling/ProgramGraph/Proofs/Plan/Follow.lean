import ProgramGraph.Proofs.Plan.Basic
/-!
# Tasks follow their plans

`Plan.Follows` says that a task does what a plan says, for every course that
the replies can take. The replies quantified over are those that a request of
its kind can get: a wait for jobs gets as many values as there are jobs, a
pause only the end of the pause. `Builtin.follows_of_start` gives it for every
task that a handler of the library makes, so a proof about evaluations needs
no look at the fields of tasks.
-/

namespace ProgramGraph

/-- **The task follows the plan** when it is resumed with the input, for the
node and under whatever scope. The scope matters to the jobs of the task only. -/
def Plan.Follows (node : NodeId) : Plan → Builtin.Task → Input → Prop
  | finish result, task, input => ∀ scope, (task.resume ⟨node, scope⟩ input).1 = .ofResult result
  | visit id manner next, task, input => ∀ scope, ∃ after,
      task.resume ⟨node, scope⟩ input = (manner.step id, after) ∧
        ∀ reply, (next reply).Follows node after reply.toInput
  | pause ms next, task, input => ∀ scope, ∃ after,
      task.resume ⟨node, scope⟩ input = (.wait (.timer ms .elapsed), after) ∧
        next.Follows node after .elapsed
  | all jobs next, task, input => ∀ scope, ∃ after,
      task.resume ⟨node, scope⟩ input =
          (.wait (.all (jobs.map fun job => Context.job ⟨node, scope⟩ job.1 job.2)), after) ∧
        (∀ value, (next (.error value)).Follows node after (.error value)) ∧
        ∀ values, values.length = jobs.length →
          (next (.ok (.array values))).Follows node after (.value (.array values))
  | first id others next, task, input => ∀ scope, ∃ after,
      task.resume ⟨node, scope⟩ input =
          (.wait (.first (Context.job ⟨node, scope⟩ id [])
            (others.map (Context.job ⟨node, scope⟩ · []))), after) ∧
        ∀ reply, (next reply).Follows node after reply.toInput
  | deadline ms id next late, task, input => ∀ scope, ∃ after,
      task.resume ⟨node, scope⟩ input =
          (.wait (.deadline ms (Context.job ⟨node, scope⟩ id [])), after) ∧
        (∀ reply, (next reply).Follows node after reply.toInput) ∧
        late.Follows node after .elapsed

variable {node : NodeId}

/-- What stands at a position, and what is left after it. -/
theorem Array.getElem?_of_drop {α : Type} {items : Array α} {n : Nat} {a : α} {rest : List α}
    (h : items.toList.drop n = a :: rest) :
    items[n]? = some a ∧ items.toList.drop (n + 1) = rest := by
  constructor
  · have := congrArg List.head? h
    simpa [List.head?_drop] using this
  · have := congrArg List.tail h
    simpa [List.tail_drop] using this

/-- Nothing stands at a position if nothing is left from it on. -/
theorem Array.getElem?_of_drop_eq_nil {α : Type} {items : Array α} {n : Nat}
    (h : items.toList.drop n = []) : items[n]? = none := by
  rw [Array.getElem?_eq_none_iff]
  simpa using h

/-- A list is put at the end of an array. -/
theorem Array.size_appendList {α : Type} (items : Array α) (more : List α) :
    (items ++ more).size = items.size + more.length := by
  rw [← Array.length_toList, Array.toList_appendList, List.length_append, Array.length_toList]

namespace Builtin.Task

/-! ## Structural handlers -/

/-- A task over children asks for those that are left. -/
theorem follows_collect (before : Builtin.Task) (task : Collection) (input : Input)
    {rest : List NodeId}
    (hstep : ∀ scope, before.resume ⟨node, scope⟩ input = resume.wrap collect task.proceed)
    (hrest : task.children.toList.drop task.values.size = rest) :
    (Plan.collect task.combine rest task.values.toList).Follows node before input := by
  induction rest generalizing before task input with
  | nil =>
    have hnone := Array.getElem?_of_drop_eq_nil hrest
    intro scope
    simp only [hstep, resume.wrap, Collection.proceed, hnone]
  | cons child rest ih =>
    obtain ⟨hchild, hrest⟩ := Array.getElem?_of_drop hrest
    refine fun scope => ⟨collect task, ?_, ?_⟩
    · simp only [hstep, resume.wrap, Collection.proceed, hchild]
      rfl
    · rintro (value | value)
      · exact fun _ => rfl
      · have := ih (collect task) { task with values := task.values.push value } (.value value)
          (fun _ => rfl) (by simpa using hrest)
        simpa [Plan.onValue] using this

/-- A task over fields asks for those that are left. That the keys differ
makes the number of fields so far the position of the next one. -/
theorem follows_assemble (before : Builtin.Task) (task : Assembly) (input : Input)
    {rest : List (String × NodeId)}
    (hstep : ∀ scope, before.resume ⟨node, scope⟩ input = resume.wrap record task.proceed)
    (hrest : task.fields.toList.drop task.object.length = rest)
    (hkeys : (Keyed.keys task.object ++ Keyed.keys rest).Nodup) :
    (Plan.assemble rest task.object).Follows node before input := by
  induction rest generalizing before task input with
  | nil =>
    have hnone := Array.getElem?_of_drop_eq_nil hrest
    intro scope
    simp only [hstep, resume.wrap, Assembly.proceed, hnone]
    rfl
  | cons field rest ih =>
    obtain ⟨key, child⟩ := field
    obtain ⟨hfield, hrest⟩ := Array.getElem?_of_drop hrest
    refine fun scope => ⟨record task, ?_, ?_⟩
    · simp only [hstep, resume.wrap, Assembly.proceed, hfield]
      rfl
    · rintro (value | value)
      · exact fun _ => rfl
      · have hnew : key ∉ Keyed.keys task.object := by
          intro hmem
          rw [List.nodup_append] at hkeys
          exact hkeys.2.2 key hmem key (by simp [Keyed.keys]) rfl
        have hinsert : Keyed.insert task.object key value = task.object ++ [(key, value)] :=
          Keyed.insert_of_notMem hnew value
        have hkeys' : (Keyed.keys (task.object ++ [(key, value)]) ++ Keyed.keys rest).Nodup := by
          simpa [Keyed.keys] using hkeys
        refine ih (record task) { task with object := task.object ++ [(key, value)] } (.value value)
          ?_ (by simpa using hrest) hkeys'
        intro scope
        simp only [resume, Assembly.resume, hfield, hinsert]

/-- The application of a lambda. -/
theorem follows_application {task : Application} (h : task.bound = false) :
    (Plan.application task.arg task.lambda).Follows node (apply task) .start := by
  refine fun scope => ⟨apply task, by simp only [resume, resume.wrap, Application.resume, h]; rfl, ?_⟩
  rintro (value | value)
  · exact fun _ => rfl
  · refine fun scope => ⟨apply { task with bound := true }, ?_, ?_⟩
    · simp only [Reply.toInput_ok, resume, resume.wrap, Application.resume, h]
      rfl
    · rintro (value | value) <;> exact fun _ => rfl

/-! ## Concurrency handlers -/

/-- A sequential map asks for the items that are left. -/
theorem follows_mapEach (before : Builtin.Task) (task : ParallelMap) (input : Input)
    {items : Array Value} {rest : List Value}
    (hstep : ∀ scope, before.resume ⟨node, scope⟩ input = resume.wrap parMap (task.proceed ⟨node, scope⟩ input))
    (hitems : task.items = some items) (hseq : task.concurrent = false)
    (hle : task.results.size ≤ items.size)
    (hrest : items.toList.drop task.results.size = rest) :
    (Plan.mapEach task.lambda rest task.results.toList).Follows node before input := by
  induction rest generalizing before task input with
  | nil =>
    have hall : task.results.size = items.size := by
      have : items.size ≤ task.results.size := by simpa using hrest
      omega
    intro scope
    simp only [hstep, resume.wrap, ParallelMap.proceed, hitems, hall,
      if_true]
    rfl
  | cons item rest ih =>
    obtain ⟨hitem, hrest⟩ := Array.getElem?_of_drop hrest
    have hlt : task.results.size < items.size := (Array.getElem?_eq_some_iff.1 hitem).1
    refine fun scope => ⟨parMap task, ?_, ?_⟩
    · simp only [hstep, resume.wrap, ParallelMap.proceed, hitems, hseq, hitem,
        if_neg (by omega : ¬ task.results.size = items.size), Bool.false_eq_true, if_false]
      rfl
    · rintro (value | value)
      · exact fun _ => rfl
      · have := ih (parMap task) { task with results := task.results.push value } (.value value)
          (fun scope => by
            simp only [resume, ParallelMap.resume, hitems, hseq, Bool.false_eq_true, if_false])
          hitems hseq (by simp; omega) (by simpa using hrest)
        simpa [Plan.onValue] using this

/-- The next batch is the beginning of what is left. -/
theorem extract_batch {items : Array Value} {done batch : Nat} {rest : List Value}
    (hrest : items.toList.drop done = rest) :
    (items.extract done (min (done + batch) items.size)).toList = rest.take batch := by
  have hlen : rest.length = items.size - done := by
    rw [← hrest]
    simp
  rw [Array.toList_extract, List.extract_eq_take_drop, hrest]
  rcases Nat.le_total (done + batch) items.size with h | h
  · rw [Nat.min_eq_left h, Nat.add_sub_cancel_left]
  · rw [Nat.min_eq_right h, List.take_of_length_le (by omega), List.take_of_length_le (by omega)]

/-- **As many results more as a batch has items** are the position of the next
batch. -/
theorem drop_batch {items : Array Value} {done batch count : Nat} {rest : List Value}
    (hrest : items.toList.drop done = rest) (hcount : count = min batch rest.length) :
    items.toList.drop (done + count) = rest.drop batch := by
  subst hrest
  rw [List.length_drop, Array.length_toList] at hcount
  rw [List.drop_drop, hcount]
  rcases Nat.le_total batch (items.size - done) with h | h
  · rw [Nat.min_eq_left h]
  · rw [Nat.min_eq_right h, List.drop_of_length_le (by simp; omega),
      List.drop_of_length_le (by simp; omega)]

/-- A concurrent map asks for the items that are left, a batch at a time. That
each wait brings as many values as its batch has items makes the number of
results so far the position of the next batch. -/
theorem follows_mapBatches {items : Array Value} :
    ∀ (n : Nat) (before : Builtin.Task) (task : ParallelMap) (input : Input) {rest : List Value},
      rest.length ≤ n →
      (∀ scope, before.resume ⟨node, scope⟩ input =
        resume.wrap parMap (task.proceed ⟨node, scope⟩ input)) →
      task.items = some items → task.concurrent = true → 1 ≤ task.batch →
      task.results.size ≤ items.size → items.toList.drop task.results.size = rest →
      (Plan.mapBatches task.lambda task.batch rest task.results.toList).Follows node before input := by
  -- on a bound for the items that are left, as a batch takes several at once
  intro n
  induction n with
  | zero =>
    intro before task input rest hn hstep hitems _ _ hle hrest
    obtain rfl : rest = [] := List.length_eq_zero_iff.1 (by omega)
    have hall : task.results.size = items.size := by
      have : items.size ≤ task.results.size := by simpa using hrest
      omega
    rw [Plan.mapBatches]
    intro scope
    simp only [hstep, resume.wrap, ParallelMap.proceed, hitems, hall, if_true]
    rfl
  | succ n ih =>
    intro before task input rest hn hstep hitems hcon hbatch hle hrest
    cases rest with
    | nil => exact ih before task input (by simp) hstep hitems hcon hbatch hle hrest
    | cons item rest =>
      have hlt : task.results.size < items.size :=
        (Array.getElem?_eq_some_iff.1 (Array.getElem?_of_drop hrest).1).1
      rw [Plan.mapBatches]
      refine fun scope => ⟨parMap task, ?_, ?_, ?_⟩
      · simp only [hstep, resume.wrap, ParallelMap.proceed, hitems, hcon,
          if_neg (by omega : ¬ task.results.size = items.size), if_true, extract_batch hrest]
        simp only [Plan.jobsOf, List.map_map]
        rfl
      · exact fun value _ => rfl
      · intro values hvalues
        have hcount : values.length = min task.batch (item :: rest).length := by
          simpa [Plan.jobsOf] using hvalues
        have hgrown := Array.size_appendList task.results values
        have hlen : (item :: rest).length = items.size - task.results.size := by
          rw [← hrest]
          simp
        have hleft : items.toList.drop (task.results ++ values).size =
            rest.drop (task.batch - 1) := by
          obtain ⟨b, hb⟩ : ∃ b, task.batch = b + 1 := ⟨task.batch - 1, by omega⟩
          rw [hgrown, drop_batch hrest hcount, hb, List.drop_succ_cons, Nat.add_sub_cancel]
        have := ih (parMap task) { task with results := task.results ++ values }
          (.value (.array values))
          (by simp only [List.length_drop]; simp only [List.length_cons] at hn; omega)
          (fun scope => by simp only [resume, ParallelMap.resume, hitems, hcon, if_true])
          hitems hcon hbatch (by simp only [hgrown]; omega) hleft
        simpa [Plan.onValue] using this

/-- A map evaluates its collection first. -/
theorem follows_parMap {task : ParallelMap} (hitems : task.items = none)
    (hresults : task.results = #[]) (hbatch : 1 ≤ task.batch) :
    (Plan.parMap task.concurrent task.collection task.batch task.lambda).Follows node
      (parMap task) .start := by
  refine fun scope => ⟨parMap task, ?_, ?_⟩
  · simp only [resume, resume.wrap, ParallelMap.resume, ParallelMap.proceed, hitems]
    rfl
  · rintro (value | value)
    · exact fun _ => rfl
    · cases value with
      | array items =>
        have hstep : ∀ scope, (parMap task).resume ⟨node, scope⟩ (.value (.array items)) =
            resume.wrap parMap (ParallelMap.proceed { task with items := some items.toArray }
              ⟨node, scope⟩ (.value (.array items))) := by
          intro scope
          simp only [resume, ParallelMap.resume, hitems]
        cases hcon : task.concurrent with
        | false =>
          have := follows_mapEach _ _ _ hstep rfl hcon (by simp [hresults]) rfl
          simpa [Plan.onValue, hresults] using this
        | true =>
          have := follows_mapBatches items.length _ _ _ (by simp) hstep rfl hcon hbatch
            (by simp [hresults]) rfl
          simpa [Plan.onValue, hresults] using this
      | _ =>
        intro scope
        simp only [Reply.toInput_ok, resume, resume.wrap, ParallelMap.resume, hitems]
        rfl

/-- A race. -/
theorem follows_race (task : Race) :
    (Plan.first task.branch task.others .ofReply).Follows node (race task) .start :=
  fun _ => ⟨race task, rfl, by rintro (value | value) <;> exact fun _ => rfl⟩

/-- An expression with a deadline. -/
theorem follows_timeout (task : Timeout) :
    (Plan.deadline task.ms task.expr .ofReply (.visit task.fallback .plain .ofReply)).Follows node
      (timeout task) .start := by
  refine fun scope => ⟨timeout task, rfl, ?_, fun _ => ⟨timeout task, rfl, ?_⟩⟩
  · rintro (value | value) <;> exact fun _ => rfl
  · rintro (value | value) <;> exact fun _ => rfl

/-- A retry asks at most as often as attempts are left. -/
theorem follows_retry (task : Retry) (input : Input) {more : Nat}
    (hinput : input = .start ∨ input = .elapsed ∨
      ∃ value, input = .error value ∧ task.attempt < task.attempts ∧ task.delayMs = 0)
    (hmore : task.attempts = task.attempt + 1 + more) :
    (Plan.retry task.expr task.delayMs more).Follows node (retry task) input := by
  have hstep : ∀ (scope : Scope) {task : Retry} {input : Input},
      (input = .start ∨ input = .elapsed ∨
        ∃ value, input = .error value ∧ task.attempt < task.attempts ∧ task.delayMs = 0) →
      (retry task).resume ⟨node, scope⟩ input = resume.wrap retry task.again := by
    rintro scope task input (rfl | rfl | ⟨value, rfl, hlt, hdelay⟩)
    · rfl
    · rfl
    · simp only [resume, Retry.resume, if_neg (by omega : ¬ task.attempts ≤ task.attempt), hdelay,
        if_true]
  induction more generalizing task input with
  | zero =>
    refine fun scope => ⟨retry { task with attempt := task.attempt + 1 }, hstep scope hinput, ?_⟩
    rintro (value | value)
    · have hlast : task.attempts ≤ task.attempt + 1 := by omega
      intro scope
      simp only [Reply.toInput_error, resume, resume.wrap, Retry.resume, if_pos hlast]
      rfl
    · exact fun _ => rfl
  | succ more ih =>
    refine fun scope => ⟨retry { task with attempt := task.attempt + 1 }, hstep scope hinput, ?_⟩
    rintro (value | value)
    · simp only [Reply.toInput_error]
      split
      next hdelay =>
        exact ih { task with attempt := task.attempt + 1 } (.error value)
          (.inr (.inr ⟨value, rfl, by simp only; omega, hdelay⟩)) (by simp only; omega)
      next hdelay =>
        refine fun scope => ⟨retry { task with attempt := task.attempt + 1 }, ?_, ?_⟩
        · simp only [resume, resume.wrap, Retry.resume,
            if_neg (by omega : ¬ task.attempts ≤ task.attempt + 1), if_neg hdelay]
        · exact ih { task with attempt := task.attempt + 1 } .elapsed (.inr (.inl rfl))
            (by simp only; omega)
    · exact fun _ => rfl

/-! ## Error handlers -/

/-- A failure with the value of a child. -/
theorem follows_fail (task : Failing) : (Plan.fail task.child).Follows node (fail task) .start :=
  fun _ => ⟨fail task, rfl, by rintro (value | value) <;> exact fun _ => rfl⟩

/-- The end of an evaluation with recoveries, once its outcome is known. -/
theorem follows_cleanUp (before : Builtin.Task) (task : Recovery) (input : Input) {outcome : Reply}
    (hstep : ∀ scope,
      before.resume ⟨node, scope⟩ input = resume.wrap tryCatch (task.finish outcome)) :
    (Plan.cleanUp task.cleanup outcome).Follows node before input := by
  have hend : ∀ outcome : Reply, ∃ result, Plan.ofReply outcome = .finish result ∧
      Recovery.ending outcome = .ofResult result := by
    rintro (value | value)
    · exact ⟨.error (.failed value), rfl, rfl⟩
    · exact ⟨.ok value, rfl, rfl⟩
  obtain ⟨result, hplan, hending⟩ := hend outcome
  cases hcleanup : task.cleanup with
  | none =>
    simp only [Plan.cleanUp, hplan]
    intro scope
    simp only [hstep, Recovery.finish, hcleanup, resume.wrap, hending]
  | some cleanup =>
    refine fun scope => ⟨tryCatch { task with phase := .finishing outcome }, ?_, ?_⟩
    · simp only [hstep, Recovery.finish, hcleanup, resume.wrap]
      rfl
    · rintro (value | value)
      · exact fun _ => rfl
      · simp only [Plan.onValue, hplan]
        intro scope
        simp only [Reply.toInput_ok, resume, resume.wrap, Recovery.resume, hending]

/-- An expression with its recoveries. -/
theorem follows_tryCatch {task : Recovery} (hphase : task.phase = .body) :
    (Plan.tryCatch task).Follows node (tryCatch task) .start := by
  obtain ⟨expr, catcher, branches, cleanup, phase⟩ := task
  obtain rfl : phase = .body := hphase
  refine fun scope => ⟨tryCatch { expr, catcher, branches, cleanup }, rfl, ?_⟩
  rintro (value | value)
  · simp only [Reply.toInput_error]
    split
    next lambda hlambda =>
      intro scope
      refine ⟨tryCatch { expr, catcher, branches, cleanup, phase := .recovering }, ?_, ?_⟩
      · simp only [resume, resume.wrap, Recovery.resume, hlambda]
        rfl
      · rintro (value | value)
        · exact follows_cleanUp _ { expr, catcher, branches, cleanup } _ fun _ => rfl
        · exact follows_cleanUp _ { expr, catcher, branches, cleanup } _ fun _ => rfl
    next hnone =>
      refine follows_cleanUp _ { expr, catcher, branches, cleanup } _ fun scope => ?_
      simp only [resume, Recovery.resume, hnone]
  · exact follows_cleanUp _ { expr, catcher, branches, cleanup } _ fun _ => rfl

/-- An outcome as data. -/
theorem follows_attempt (task : Attempt) :
    (Plan.attempt task.child).Follows node (attempt task) .start :=
  fun _ => ⟨attempt task, rfl, by rintro (value | value) <;> exact fun _ => rfl⟩

/-- A condition and its error. -/
theorem follows_guard {task : Guarded} (h : task.failing = false) :
    (Plan.guard task.condition task.error).Follows node (guard task) .start := by
  obtain ⟨condition, error, failing⟩ := task
  obtain rfl : failing = false := h
  refine fun scope => ⟨guard { condition, error }, rfl, ?_⟩
  rintro (value | value)
  · exact fun _ => rfl
  · cases value with
    | bool condition =>
      cases condition with
      | false =>
        exact fun _ => ⟨guard { condition, error, failing := true }, rfl,
          by rintro (value | value) <;> exact fun _ => rfl⟩
      | true => exact fun _ => rfl
    | _ => exact fun _ => rfl

/-- A task that keeps values and errors apart asks for the expressions that
are left. -/
theorem follows_settle (before : Builtin.Task) (task : Partition) (input : Input)
    {rest : List NodeId}
    (hstep : ∀ scope, before.resume ⟨node, scope⟩ input = resume.wrap settle task.proceed)
    (hrest : task.exprs.toList.drop task.next = rest) :
    (Plan.settle rest task.fulfilled.toList task.rejected.toList).Follows node before input := by
  induction rest generalizing before task input with
  | nil =>
    have hnone := Array.getElem?_of_drop_eq_nil hrest
    intro scope
    simp only [hstep, resume.wrap, Partition.proceed, hnone]
    rfl
  | cons expr rest ih =>
    obtain ⟨hexpr, hrest⟩ := Array.getElem?_of_drop hrest
    refine fun scope => ⟨settle { task with next := task.next + 1 }, ?_, ?_⟩
    · simp only [hstep, resume.wrap, Partition.proceed, hexpr]
      rfl
    · rintro (value | value)
      · have := ih (settle { task with next := task.next + 1 })
          { task with next := task.next + 1, rejected := task.rejected.push value } (.error value)
          (fun _ => rfl) (by simpa using hrest)
        simpa using this
      · have := ih (settle { task with next := task.next + 1 })
          { task with next := task.next + 1, fulfilled := task.fulfilled.push value } (.value value)
          (fun _ => rfl) (by simpa using hrest)
        simpa using this

end Builtin.Task

/-! ## Tasks as they are made -/

namespace Builtin

variable {h : Builtin} {id : NodeId} {node : Node} {task : Builtin.Task}

/-- **A task follows its plan** from its first resumption on. -/
theorem Makes.follows (hmade : Makes id node h task) : task.plan.Follows id task .start := by
  cases hmade with
  | leaf outcome => exact fun _ => rfl
  | args combine => exact Task.follows_collect _ _ _ (fun _ => rfl) rfl
  | @record fields distinct =>
    exact Task.follows_assemble _ { fields := fields.toArray } _ (fun _ => rfl) rfl
      (by simpa [Keyed.keys] using distinct)
  | apply => exact Task.follows_application rfl
  | parMap => exact Task.follows_parMap rfl rfl (Nat.le_max_right _ _)
  | race => exact Task.follows_race _
  | timeout => exact Task.follows_timeout _
  | @retry expr attempts delayMs =>
    have : 1 ≤ max attempts 1 := Nat.le_max_right _ _
    exact Task.follows_retry _ _ (.inl rfl) (by simp only; omega)
  | fail => exact Task.follows_fail _
  | tryCatch => exact Task.follows_tryCatch rfl
  | attempt => exact Task.follows_attempt _
  | guard => exact Task.follows_guard rfl
  | @settle exprs =>
    exact Task.follows_settle _ { exprs := exprs.toArray } _ (fun _ => rfl) rfl

end Builtin

end ProgramGraph
