import Mathlib.Computability.TuringMachine.StackTuringMachine
import Mathlib.Data.List.Permutation
import ProgramGraph.Number.Word
import ProgramGraph.Proofs.Fold.Attempts
import ProgramGraph.Proofs.Fold.Batch
import ProgramGraph.Proofs.Fold.Ledger
import ProgramGraph.Proofs.Passage.Await
import ProgramGraph.Proofs.Passage.Expect
/-!
# Counts are in range

A concurrent map adds the size of a batch to the number of its results to find where the next
batch ends, and the size may be the greatest of all words. The sum is a word all the same: there
are no results before the first batch, and before any other batch there are as many as a full
batch has, so the size is less than the number of items (`ParallelMap.inRange_of_lt`). That the
batches before were full is known only because each settlement brings as many values as items
have been given out. A retry counts its attempts, and a time that has passed takes it on only
after a failure that was not the last.

So what has to be known is what tasks are resumed with (`Expectation.Met`), and it is known of
all runs, whatever plug-ins there are (`Engine.inRange`).
-/

namespace ProgramGraph

variable {P : Plugins}

/-- The payload of a node. -/
def Graph.payload? (g : Graph) (id : NodeId) : Option Payload := (g.get? id).map Node.payload

/-! ## Batches -/

namespace ParallelMap

/-- Where the next batch ends. -/
def stop (task : ParallelMap) (items : Array Value) : Nat :=
  min (task.results.size + task.batch) items.size

/-- The items of the next batch. -/
def next (task : ParallelMap) (items : Array Value) : List Value :=
  (items.extract task.results.size (task.stop items)).toList

/-- **The next batch is in range.** -/
structure InRange (task : ParallelMap) (concurrency : Nat) (items : Array Value) : Prop where
  batch_eq : task.batch = max concurrency 1
  /-- If there was a batch before, it was full. -/
  full : task.results.size = 0 ∨ task.batch ≤ task.results.size
  /-- To add up is no overflow, if the numbers are as large as they can be. -/
  fits : concurrency < Word.count64 → items.size < Word.half64 →
    task.results.size + task.batch < Word.count64
  /-- There is something in the batch. -/
  lt_stop : task.results.size < task.stop items
  /-- It does not go beyond the items. -/
  stop_le : task.stop items ≤ items.size

/-- **What a concurrent map takes in,** and what it goes on with: its collection, or just as
many values as the batch before has items. -/
inductive Takes (task : ParallelMap) (concurrency : Nat) :
    Input → ParallelMap → Array Value → Prop
  | collection (items : List Value) : task.items = none → task.results = #[] →
    Takes task concurrency (.value (.array items)) { task with items := some items.toArray }
      items.toArray
  | results {items : Array Value} (values : List Value) : task.items = some items →
    task.InRange concurrency items → values.length = task.stop items - task.results.size →
    Takes task concurrency (.value (.array values)) { task with results := task.results ++ values }
      items

/-- **What a concurrent map does when it is resumed.** -/
inductive Advance (cx : Context) (task : ParallelMap) (concurrency : Nat) :
    Input → Step × ParallelMap → Prop
  /-- It asks for its collection. -/
  | asks : task.items = none → task.results = #[] →
    Advance cx task concurrency .start (.child task.collection, task)
  /-- What it has asked for has failed. -/
  | failure (value : Value) :
    Advance cx task concurrency (.error value) (.failure value, task)
  /-- Its collection is no array. -/
  | mistaken {value : Value} : task.items = none → (∀ items, value ≠ .array items) →
    Advance cx task concurrency (.value value)
      (.complaint ("par_map expects an array, found " ++ value.kindName), task)
  /-- There are as many results as items. -/
  | ends {input : Input} {after : ParallelMap} {items : Array Value} :
    task.Takes concurrency input after items → after.results.size = items.size →
    Advance cx task concurrency input
      (.done (.array after.results.toList), { after with results := #[] })
  /-- There are fewer, and the next batch is started. -/
  | batch {input : Input} {after : ParallelMap} {items : Array Value} :
    task.Takes concurrency input after items → after.InRange concurrency items →
    Advance cx task concurrency input
      (.wait (.all (Batch.jobs cx after.lambda (after.next items))), after)

/-- **What a concurrent map may be resumed with.** -/
inductive Expects (task : ParallelMap) (concurrency : Nat) : Input → Prop
  | start : task.items = none → task.results = #[] → Expects task concurrency .start
  /-- Any reply to its request for the collection. -/
  | collection (reply : Reply) : task.items = none → task.results = #[] →
    Expects task concurrency reply.toInput
  /-- A failure in a batch. -/
  | failure {items : Array Value} (value : Value) : task.items = some items →
    task.InRange concurrency items → Expects task concurrency (.error value)
  /-- As many values as there are items in the batch. -/
  | results {items : Array Value} (values : List Value) : task.items = some items →
    task.InRange concurrency items → values.length = task.stop items - task.results.size →
    Expects task concurrency (.value (.array values))

variable {task after : ParallelMap} {concurrency : Nat} {items : Array Value} {input : Input}
  {cx : Context}

/-- **A batch is in range** if there is something left and the batches before were full. -/
theorem inRange_of_lt (hbatch : task.batch = max concurrency 1)
    (hfull : task.results.size = 0 ∨ task.batch ≤ task.results.size)
    (hlt : task.results.size < items.size) : task.InRange concurrency items where
  batch_eq := hbatch
  full := hfull
  fits hconcurrency hsize := by
    unfold Word.count64 at hconcurrency ⊢
    unfold Word.half64 at hsize
    omega
  lt_stop := Nat.lt_min.2 ⟨by omega, hlt⟩
  stop_le := Nat.min_le_right _ _

theorem length_next (task : ParallelMap) (items : Array Value) :
    (task.next items).length = task.stop items - task.results.size := by
  have hle : task.stop items ≤ items.size := Nat.min_le_right _ _
  rw [next, Array.length_toList, Array.size_extract, Nat.min_eq_left hle]

namespace Takes

theorem items_eq (h : task.Takes concurrency input after items) : after.items = some items := by
  cases h with
  | collection => rfl
  | results values hitems => exact hitems

theorem batch_eq (h : task.Takes concurrency input after items) : after.batch = task.batch := by
  cases h <;> rfl

theorem concurrent_eq (h : task.Takes concurrency input after items) :
    after.concurrent = task.concurrent := by
  cases h <;> rfl

/-- **There are no more results than items,** and if there are fewer the batch was full. -/
theorem size_results (h : task.Takes concurrency input after items) :
    after.results.size ≤ items.size ∧ (after.results.size < items.size →
      after.results.size = 0 ∨ after.batch ≤ after.results.size) := by
  cases h with
  | collection items hitems hnone =>
    have hzero : task.results.size = 0 := by rw [hnone]; rfl
    exact ⟨by rw [hzero]; exact Nat.zero_le _, fun _ => .inl hzero⟩
  | results values hitems hrange hcount =>
    have hlt := hrange.lt_stop
    have hsize : (task.results ++ values).size = min (task.results.size + task.batch) items.size := by
      rw [Array.size_appendList, hcount, Nat.add_sub_cancel' (Nat.le_of_lt hlt), stop]
    refine ⟨by rw [hsize]; exact Nat.min_le_right _ _, fun hless => .inr ?_⟩
    show task.batch ≤ (task.results ++ values).size
    have hless : (task.results ++ values).size < items.size := hless
    omega

/-- **The results grow** with what comes of a batch. -/
theorem grows {before : Array Value} (h : task.Takes concurrency input after items)
    (hbefore : task.items = some before) :
    items = before ∧ task.results.size < after.results.size := by
  cases h with
  | collection items hitems =>
    rw [hitems] at hbefore
    cases hbefore
  | results values hitems hrange hcount =>
    have hlt := hrange.lt_stop
    rw [hitems] at hbefore
    refine ⟨Option.some.inj hbefore, ?_⟩
    rw [Array.size_appendList]
    omega

theorem resume_eq (h : task.Takes concurrency input after items) (hcon : task.concurrent = true)
    (cx : Context) : task.resume cx input = after.proceed cx input := by
  cases h with
  | collection items hitems => simp only [resume, hitems]
  | results values hitems => simp only [resume, hitems, hcon, if_true]

/-- **It ends, or goes on with a batch that is in range.** -/
theorem advance (h : task.Takes concurrency input after items) (hcon : task.concurrent = true)
    (hbatch : task.batch = max concurrency 1) (cx : Context) :
    task.Advance cx concurrency input (task.resume cx input) := by
  obtain ⟨hle, hfull⟩ := h.size_results
  rw [h.resume_eq hcon]
  unfold proceed
  split
  next hnone =>
    rw [h.items_eq] at hnone
    cases hnone
  next own hown =>
    obtain rfl : items = own := Option.some.inj (h.items_eq.symm.trans hown)
    dsimp only
    split
    next hall => exact .ends h hall
    next hsome =>
      rw [if_pos (h.concurrent_eq.trans hcon)]
      have hlt := Nat.lt_of_le_of_ne hle hsome
      exact .batch h (inRange_of_lt (h.batch_eq.trans hbatch) (hfull hlt) hlt)

end Takes

/-- **A map that is resumed as expected** does one of these. -/
theorem Expects.advance (h : task.Expects concurrency input) (hcon : task.concurrent = true)
    (hbatch : task.batch = max concurrency 1) (cx : Context) :
    task.Advance cx concurrency input (task.resume cx input) := by
  cases h with
  | start hitems hnone =>
    simp only [resume, proceed, hitems]
    exact .asks hitems hnone
  | collection reply hitems hnone =>
    cases reply with
    | error value => exact .failure value
    | ok value =>
      cases value with
      | array items => exact (Takes.collection items hitems hnone).advance hcon hbatch cx
      | _ =>
        simp only [Reply.toInput_ok, resume, hitems]
        exact .mistaken hitems fun items h => by cases h
  | failure value => exact .failure value
  | results values hitems hrange hcount =>
    exact (Takes.results values hitems hrange hcount).advance hcon hbatch cx

/-- **A map that waits** has started a batch. -/
theorem Advance.of_wait {answer : Step × ParallelMap} (h : task.Advance cx concurrency input answer)
    {await : Await} (hwait : answer.1 = .wait await) :
    ∃ items, task.Takes concurrency input answer.2 items ∧ answer.2.InRange concurrency items ∧
      await = .all (Batch.jobs cx answer.2.lambda (answer.2.next items)) := by
  cases h with
  | batch htakes hrange =>
    cases hwait
    exact ⟨_, htakes, hrange, rfl⟩
  | _ => cases hwait

end ParallelMap

/-! ## Attempts -/

namespace Retry

/-- **What a retry may be resumed with.** -/
inductive Expects (task : Retry) : Input → Prop
  | start : task.attempt = 0 → Expects task .start
  /-- Any reply to an attempt. -/
  | reply (reply : Reply) : 1 ≤ task.attempt → task.attempt ≤ task.attempts →
    Expects task reply.toInput
  /-- The end of a pause, if another attempt may be made. -/
  | elapsed : 1 ≤ task.attempt → task.attempt < task.attempts → Expects task .elapsed

/-- **What a retry asks for,** if it asks for something, and what it has counted then. -/
inductive Asks (task : Retry) : Request → Retry → Prop
  /-- It makes another attempt. -/
  | again : task.attempt < task.attempts →
    Asks task (.fresh task.expr) { task with attempt := task.attempt + 1 }
  /-- It pauses before the next one. -/
  | pause : 1 ≤ task.attempt → task.attempt < task.attempts →
    Asks task (.await (.timer task.delayMs .elapsed)) task

variable {task after : Retry} {input : Input} {request : Request}

/-- **A retry that is resumed as expected** asks for one of these. -/
theorem Expects.asks (h : task.Expects input) (hpos : 1 ≤ task.attempts)
    (hstep : task.resume input = (.request request, after)) : task.Asks request after := by
  cases h with
  | start hzero =>
    cases hstep
    exact .again (by omega)
  | elapsed hone hlt =>
    cases hstep
    exact .again hlt
  | reply reply hone =>
    cases reply with
    | ok value => cases hstep
    | error value =>
      simp only [Reply.toInput_error, resume] at hstep
      split at hstep
      next => cases hstep
      next hless =>
      have hlt := Nat.lt_of_not_le hless
      split at hstep <;> cases hstep
      · exact .again hlt
      · exact .pause hone hlt

/-- **The count is in range** after every request. -/
theorem Asks.range (h : task.Asks request after) :
    1 ≤ after.attempt ∧ after.attempt ≤ after.attempts ∧ after.attempts = task.attempts := by
  cases h with
  | again hlt => exact ⟨Nat.le_add_left 1 _, hlt, rfl⟩
  | pause hone hlt => exact ⟨hone, Nat.le_of_lt hlt, rfl⟩

end Retry

/-! ## Runs -/

/-- **What concurrent maps and retries may be resumed with,** for the nodes that they stand
for. Nothing is expected of other tasks. -/
def Expectation.counting (E : Engine P) : Expectation P := fun id task input =>
  match task with
  | .builtin (.parMap task) => task.concurrent = true → ∃ collection concurrency lambda,
      E.graph.payload? id = some (.parMap collection concurrency lambda) ∧
      task.batch = max concurrency 1 ∧ task.Expects concurrency input
  | .builtin (.retry task) => ∃ expr attempts delay,
      E.graph.payload? id = some (.retry expr attempts delay) ∧
      task.attempts = max attempts 1 ∧ task.Expects input
  | _ => True

namespace Expectation

variable {E : Engine P} {id : NodeId}

/-- Tasks may begin. -/
theorem counting_start {node : Node} {handler : Builtin} {task : Builtin.Task}
    (hnode : E.graph.get? id = some node) (hmade : Builtin.Makes id node handler task) :
    counting E id (.builtin task) .start := by
  have hpayload : E.graph.payload? id = some node.payload := by rw [Graph.payload?, hnode]; rfl
  cases hmade with
  | parMap concurrent h =>
    rw [h] at hpayload
    exact fun _ => ⟨_, _, _, hpayload, rfl, .start rfl rfl⟩
  | retry h =>
    rw [h] at hpayload
    exact ⟨_, _, _, hpayload, rfl, .start rfl⟩
  | _ => trivial

/-- **A concurrent map may be resumed after its request:** with any reply, if it has asked for
its collection, and after a batch with a failure or with as many values as the batch has items. -/
theorem rests_parMap {task after : ParallelMap} {input : Input} {scope : Scope} {request : Request}
    (h : counting E id (.builtin (.parMap task)) input)
    (hstep : task.resume ⟨id, scope⟩ input = (.request request, after)) :
    (counting E).Rests id (.builtin (.parMap after)) request := by
  have hkept : (task.resume ⟨id, scope⟩ input).2.concurrent = task.concurrent :=
    Builtin.Task.isConcurrent_resume_snd (.parMap task) _ input
  rw [hstep] at hkept
  cases hcon : task.concurrent with
  | false =>
    refine rests_of_forall (fun input htrue => ?_) _
    rw [hkept, hcon] at htrue
    cases htrue
  | true =>
  obtain ⟨collection, concurrency, lambda, hpayload, hbatch, hexpects⟩ := h hcon
  have hadvance := hexpects.advance hcon hbatch ⟨id, scope⟩
  rw [hstep] at hadvance
  -- what is left to be shown is that the map expects the input
  have hmeets : ∀ input, after.batch = task.batch → after.Expects concurrency input →
      counting E id (.builtin (.parMap after)) input :=
    fun input hafter hinput _ =>
      ⟨collection, concurrency, lambda, hpayload, hafter.trans hbatch, hinput⟩
  cases hadvance with
  | asks hitems hnone => exact fun reply => hmeets _ rfl (.collection reply hitems hnone)
  | batch htakes hrange =>
    rintro wake ⟨found, hfound, rfl⟩ reply hreply
    have hlength := hfound.length_eq
    rw [Batch.jobs, List.length_map, ParallelMap.length_next] at hlength
    rcases Reply.of_mapM hreply with ⟨value, rfl⟩ | ⟨values, hvalues, rfl⟩
    · exact hmeets _ htakes.batch_eq (.failure value htakes.items_eq hrange)
    · exact hmeets _ htakes.batch_eq
        (.results values htakes.items_eq hrange (hvalues.trans hlength.symm))

/-- **A retry may be resumed after its request:** with any reply to an attempt, and after a
pause. -/
theorem rests_retry {task after : Retry} {input : Input} {request : Request}
    (h : counting E id (.builtin (.retry task)) input)
    (hstep : task.resume input = (.request request, after)) :
    (counting E).Rests id (.builtin (.retry after)) request := by
  obtain ⟨expr, attempts, delay, hpayload, hattempts, hexpects⟩ := h
  have hasks := hexpects.asks (by omega) hstep
  obtain ⟨hone, hle, hsame⟩ := hasks.range
  have hmeets : ∀ input, after.Expects input → counting E id (.builtin (.retry after)) input :=
    fun input hinput => ⟨expr, attempts, delay, hpayload, hsame.trans hattempts, hinput⟩
  cases hasks with
  | again => exact fun reply => hmeets _ (.reply reply hone hle)
  | pause _ hlt =>
    rintro wake rfl
    exact hmeets _ (.elapsed hone hlt)

/-- **The expectation is met** in every engine. -/
theorem counting_met (E : Engine P) : (counting E).Met E where
  starts := by
    intro id node entry task shared shared' hnode hentry hstart
    cases hhandler : entry.handler with
    | builtin handler =>
      obtain ⟨own, rfl, hmade⟩ := Handler.exists_task_of_start hhandler hstart
      exact counting_start hnode (Builtin.makes_of_start hmade)
    | plugin handler =>
      cases hmade : (P.start handler id node shared).1 with
      | error error =>
        simp only [hhandler, Handler.start, hmade] at hstart
        cases hstart
      | ok own =>
        simp only [hhandler, Handler.start, hmade] at hstart
        cases hstart
        trivial
  asks := by
    intro id task after input scope shared shared' request h hstep
    have hrequest := congrArg (fun answer => answer.1.1) hstep
    obtain rfl : _ = after := congrArg (fun answer => answer.1.2) hstep
    cases task with
    | plugin own => exact rests_of_forall (fun _ => trivial) _
    | builtin own =>
      cases own with
      | parMap own => exact rests_parMap h (Prod.ext hrequest rfl)
      | retry own => exact rests_retry h (Prod.ext hrequest rfl)
      | _ => exact rests_of_forall (fun _ => trivial) _

end Expectation

/-- **How jobs settle that a frame has waited for:** it is resumed with just as many values as
there were jobs, or with a failure, or the run is over. -/
inductive Next.Settles (frame : Frame P) (rest : List (Frame P)) (count : Nat) : Next P → Prop
  | results {r : Run P} {tainted : Bool} (values : List Value) :
    r.frames.items = { frame with tainted } :: rest → values.length = count →
    Settles frame rest count (.resume r (.value (.array values)))
  | failure {r : Run P} {tainted : Bool} (value : Value) :
    r.frames.items = { frame with tainted } :: rest →
    Settles frame rest count (.resume r (.error value))
  | stopped {next : Next P} : next.Stopped → Settles frame rest count next

/-- **A wait for some jobs together** settles in one of these ways. -/
theorem Run.Sits.settles {r : Run P} {frame : Frame P} {rest : List (Frame P)} {scope : Scope}
    {clock : Nat} (h : r.Sits (frame :: rest) scope clock) {jobs : List Job}
    {ends : Job → Conclusion → Prop} {wake : Wake} (hcomes : (Await.all jobs).Comes ends wake)
    (world : World P) : (r.wake world wake).Settles frame rest jobs.length := by
  obtain ⟨found, hfound, rfl⟩ := hcomes
  rcases h.settled world (.gather found) with
    ⟨reply, r', hreply, hwake, hsits⟩ | ⟨fatal, -, hstopped⟩
  · rw [hwake]
    rcases Reply.of_mapM hreply with ⟨value, rfl⟩ | ⟨values, hvalues, rfl⟩
    · exact .failure value hsits.frames
    · exact .results values hsits.frames (hvalues.trans hfound.length_eq.symm)
  · exact .stopped hstopped

/-- **Batches and attempts are in range** in all runs of an evaluation. -/
structure Engine.InRange (E : Engine P) (root : NodeId) (memo : Memo) (scope : Scope)
    (shared : P.Shared) : Prop where
  /-- A concurrent map that is resumed, with its collection or with what a batch has come to,
  ends if there are as many results as items, and else starts a batch that is in range. -/
  advances : ∀ {r : Run P} {input : Input} {frame : Frame P} {rest : List (Frame P)}
    {task : ParallelMap}, E.AttendsTo root memo scope shared (.resume r input) →
    r.frames.items = frame :: rest → frame.task = .builtin (.parMap task) →
    task.concurrent = true →
    ∃ collection concurrency lambda,
      E.graph.payload? frame.node = some (.parMap collection concurrency lambda) ∧
      task.Advance ⟨frame.node, r.scope⟩ concurrency input
        (task.resume ⟨frame.node, r.scope⟩ input)
  /-- When it waits, it waits for the jobs of the batch, and it is resumed with just as many
  values as the batch has items, if none of them has failed. So there are more results than
  before, and no more than items. -/
  settles : ∀ {r r' : Run P} {input : Input} {frame : Frame P} {rest : List (Frame P)}
    {task : ParallelMap} {await : Await}, E.AttendsTo root memo scope shared (.resume r input) →
    r.frames.items = frame :: rest → frame.task = .builtin (.parMap task) →
    task.concurrent = true → r.turn E input = .wait r' await →
    ∃ collection concurrency lambda after items,
      E.graph.payload? frame.node = some (.parMap collection concurrency lambda) ∧
      task.Takes concurrency input after items ∧ after.InRange concurrency items ∧
      await = .all (Batch.jobs ⟨frame.node, r.scope⟩ after.lambda (after.next items)) ∧
      (∀ next, Next.Advances E (fun _ => True) (.wait r' await) next →
        next.Settles { frame with task := .builtin (.parMap after) } rest
          (after.stop items - after.results.size)) ∧
      ∀ input' later items', after.Takes concurrency input' later items' → items' = items ∧
        after.results.size < later.results.size ∧ later.results.size ≤ items.size
  /-- Whenever a retry asks for something, it has counted an attempt at least, and no more than
  it may make. -/
  retries : ∀ {r : Run P} {input : Input} {frame : Frame P} {rest : List (Frame P)}
    {task after : Retry} {request : Request}, E.AttendsTo root memo scope shared (.resume r input) →
    r.frames.items = frame :: rest → frame.task = .builtin (.retry task) →
    task.resume input = (.request request, after) →
    ∃ expr attempts delay, E.graph.payload? frame.node = some (.retry expr attempts delay) ∧
      task.Asks request after ∧ 1 ≤ after.attempt ∧ after.attempt ≤ max attempts 1 ∧
      (attempts < Word.count32 → after.attempt < Word.count32)

/-- **Batches and attempts are in range** in every evaluation, whatever the graph, the handlers
and the limits are. -/
theorem Engine.inRange (E : Engine P) (root : NodeId) (memo : Memo) (scope : Scope)
    (shared : P.Shared) : E.InRange root memo scope shared := by
  have hexpected : ∀ {r : Run P} {input : Input} {frame : Frame P} {rest : List (Frame P)}
      {own : Builtin.Task}, E.AttendsTo root memo scope shared (.resume r input) →
      r.frames.items = frame :: rest → frame.task = .builtin own →
      Expectation.counting E frame.node (.builtin own) input := by
    intro r input frame rest own hattends hitems htask
    rw [← htask]
    exact hattends.expects (Expectation.counting_met E) hitems
  refine ⟨?_, ?_, ?_⟩
  · intro r input frame rest task hattends hitems htask hcon
    obtain ⟨collection, concurrency, lambda, hpayload, hbatch, hexpects⟩ :=
      hexpected hattends hitems htask hcon
    exact ⟨collection, concurrency, lambda, hpayload, hexpects.advance hcon hbatch _⟩
  · intro r r' input frame rest task await hattends hitems htask hcon hturn
    obtain ⟨collection, concurrency, lambda, hpayload, hbatch, hexpects⟩ :=
      hexpected hattends hitems htask hcon
    obtain ⟨after, shared', hstep, hsits⟩ := Run.exists_waits_of_turn hitems hturn
    rw [htask] at hstep
    obtain rfl : _ = after := congrArg (fun answer => answer.1.2) hstep
    obtain ⟨items, htakes, hrange, rfl⟩ := (hexpects.advance hcon hbatch ⟨frame.node, r.scope⟩).of_wait
      (congrArg (fun answer => answer.1.1) hstep)
    refine ⟨collection, concurrency, lambda, _, items, hpayload, htakes, hrange, rfl,
      fun next hnext => ?_, fun input' later items' hlater => ?_⟩
    · cases hnext with
      | wake _ hcomes =>
        rw [← ParallelMap.length_next, ← List.length_map, ← Batch.jobs]
        exact hsits.settles hcomes _
    · obtain ⟨rfl, hlt⟩ := hlater.grows htakes.items_eq
      exact ⟨rfl, hlt, hlater.size_results.1⟩
  · intro r input frame rest task after request hattends hitems htask hstep
    obtain ⟨expr, attempts, delay, hpayload, hattempts, hexpects⟩ :=
      hexpected hattends hitems htask
    have hasks := hexpects.asks (by omega) hstep
    obtain ⟨hone, hle, hsame⟩ := hasks.range
    rw [hsame, hattempts] at hle
    refine ⟨expr, attempts, delay, hpayload, hasks, hone, hle, fun hword => ?_⟩
    unfold Word.count32 at hword ⊢
    omega

/-- The input and the task, if a task of the library is resumed. -/
def Next.served? : Next P → Option (Input × Builtin.Task)
  | .resume r input =>
    match r.frames.items with
    | ⟨_, .builtin task, _, _, _, _⟩ :: _ => some (input, task)
    | _ => none
  | _ => none

/-- **A task that is resumed** is that of the top frame. -/
theorem Engine.exists_attendsTo_of_served {E : Engine P} {fuel : Nat} {root : NodeId} {memo : Memo}
    {scope : Scope} {shared : P.Shared} {input : Input} {task : Builtin.Task} {n : Nat}
    (h : ((E.attended fuel root memo scope shared).filterMap Next.served?)[n]? =
      some (input, task)) :
    ∃ r frame rest, E.AttendsTo root memo scope shared (.resume r input) ∧
      r.frames.items = frame :: rest ∧ frame.task = .builtin task := by
  obtain ⟨next, hmem, hserved⟩ := List.mem_filterMap.1 (List.mem_of_getElem? h)
  obtain ⟨s, id, hreach, hfocus⟩ := Schedule.exists_of_mem_attended hmem
  cases next with
  | resume r own =>
    simp only [Next.served?] at hserved
    split at hserved
    next id' task' volatile tainted depth fresh rest hitems =>
      cases hserved
      exact ⟨r, _, rest, ⟨s, id, hreach, hfocus⟩, hitems, rfl⟩
    next => cases hserved
  | _ => cases hserved

/-- So it is for a map that goes on to a last batch that is not full, and for a retry that makes
its last attempt. -/
theorem Engine.inRange_last :
    (∃ (r : Run .none) (frame : Frame .none) (rest : List (Frame .none)) (task after : ParallelMap)
      (concurrency : Nat) (items : Array Value),
      Engine.AttendsTo ⟨.assembly, .standard, {}⟩ ⟨2⟩ .empty .empty ()
        (.resume r (.value (.array [.nat 3, .nat 4]))) ∧
      r.frames.items = frame :: rest ∧ frame.task = .builtin (.parMap task) ∧
      task.Takes concurrency (.value (.array [.nat 3, .nat 4])) after items ∧
      after.InRange concurrency items ∧ after.results.size = 2 ∧ after.stop items = 3) ∧
    ∃ (r : Run .none) (frame : Frame .none) (rest : List (Frame .none)) (task after : Retry),
      Engine.AttendsTo ⟨.tenacity, .standard, {}⟩ ⟨2⟩ .empty .empty ()
        (.resume r (.error (.nat 7))) ∧
      r.frames.items = frame :: rest ∧ frame.task = .builtin (.retry task) ∧
      task.Asks (.fresh ⟨1⟩) after ∧ after.attempt = 2 ∧ after.attempts = 2 := by
  constructor
  · have hserved : ((Engine.attended (P := .none) ⟨.assembly, .standard, {}⟩ 10 ⟨2⟩ .empty .empty
        ()).filterMap Next.served?)[3]? = some (.value (.array [.nat 3, .nat 4]),
          .parMap ⟨⟨0⟩, ⟨⟨0⟩, ⟨1⟩⟩, 2, true, some #[.nat 3, .nat 4, .nat 5], #[]⟩) := by cbv
    obtain ⟨r, frame, rest, hattends, hitems, htask⟩ := exists_attendsTo_of_served hserved
    obtain ⟨_, concurrency, _, -, hadvance⟩ :=
      (inRange _ _ _ _ _).advances hattends hitems htask rfl
    obtain ⟨items, htakes, hrange, -⟩ := hadvance.of_wait rfl
    obtain rfl : _ = items := Option.some.inj htakes.items_eq
    exact ⟨r, frame, rest, _, _, concurrency, _, hattends, hitems, htask, htakes, hrange, rfl, rfl⟩
  · have hserved : ((Engine.attended (P := .none) ⟨.tenacity, .standard, {}⟩ 5 ⟨2⟩ .empty .empty
        ()).filterMap Next.served?)[4]? = some (.error (.nat 7),
          .retry ⟨⟨1⟩, 2, 0, 1⟩) := by cbv
    obtain ⟨r, frame, rest, hattends, hitems, htask⟩ := exists_attendsTo_of_served hserved
    obtain ⟨_, _, _, -, hasks, -⟩ := (inRange _ _ _ _ _).retries hattends hitems htask rfl
    exact ⟨r, frame, rest, _, _, hattends, hitems, htask, hasks, rfl, rfl⟩

end ProgramGraph
