import ProgramGraph.Proofs.Solo.Stand
import ProgramGraph.Proofs.Total.Item
/-!
# Nodes of a valid graph

A task of the library does what its plan says, a plan is a finite tree, and what it
asks for stands before its node. So no run in a valid graph can go on for ever: by
induction on the node, and for one node by induction on its plan
(`Run.ceases_begin`). Only the frames matter for this, for whatever the memo holds,
wherever the limit is and whatever comes of a wait, a plan goes on with one of the
replies that it has an answer to, or the run is over.

A run that has frames below is not at its end when the top frame is. What becomes
of it then is taken as a premise, `Run.CeasesAbove`.
-/

namespace ProgramGraph

variable {P : Plugins} {E : Engine P}

namespace Run

/-- Whatever the frames are answered, the run cannot go on for ever. -/
def CeasesAbove (E : Engine P) (rest : List (Frame P)) : Prop :=
  ∀ (r : Run P) (a : Answer), r.frames.items = rest → (r.answer a).Ceases E

/-- Without a frame an answer is the end. -/
theorem ceasesAbove_nil : CeasesAbove E [] := by
  intro r a hitems
  simp only [answer, hitems]
  exact Next.ceases_finish _

variable {r : Run P} {frame : Frame P} {rest : List (Frame P)} {id : NodeId}

/-- **The top frame is in the middle of a plan** of its node. -/
def Holds (r : Run P) (id : NodeId) (task : Builtin.Task) (rest : List (Frame P)) : Prop :=
  ∃ frame : Frame P, r.frames.items = frame :: rest ∧ frame.node = id ∧ frame.task = .builtin task

/-- What is known of the frames alone. -/
theorem Holds.congr {r r' : Run P} {task : Builtin.Task} (h : r.Holds id task rest)
    (hframes : r'.frames = r.frames) : r'.Holds id task rest := by
  obtain ⟨frame, hitems, hframe⟩ := h
  exact ⟨frame, by rw [hframes]; exact hitems, hframe⟩

/-- **A result is handed over.** The task is resumed with the reply, or the run is
over. -/
theorem Holds.ceases_handOver {task : Builtin.Task} (h : r.Holds id task rest) (tainted : Bool)
    {result : Except EvalError Value}
    (hnext : ∀ (r' : Run P) (reply : Reply), Reply.ofResult result = .ok reply →
      r'.Holds id task rest → Next.Ceases E (.resume r' reply.toInput)) :
    Next.Ceases E ((r.observe tainted).handOver result) := by
  obtain ⟨frame, hitems, hnode, htask⟩ := h
  have hobserved : (r.observe tainted).Holds id task rest := by
    refine ⟨{ frame with tainted := frame.tainted || tainted }, ?_, hnode, htask⟩
    simp only [observe, Stack.items_mapTop, hitems, List.modifyHead_cons]
  cases result with
  | ok value => exact hnext _ (.ok value) rfl hobserved
  | error error =>
    unfold handOver
    dsimp only
    cases hvalue : error.errorValue with
    | error fatal => exact Next.ceases_finish _
    | ok value =>
      have hreply : Reply.ofResult (.error error) = .ok (.error value) := by
        simp only [Reply.ofResult, hvalue]
        rfl
      refine hnext _ (.error value) hreply ?_
      split
      · exact hobserved.congr rfl
      · exact hobserved.congr rfl

/-- **The frames may be answered anything** if the task can be resumed with any
reply. -/
theorem ceasesAbove_cons (hnext : ∀ (r : Run P) (reply : Reply),
      r.Holds frame.node task rest → Next.Ceases E (.resume r reply.toInput))
    (htask : frame.task = .builtin task) : CeasesAbove E (frame :: rest) := by
  intro r a hitems
  have hholds : r.Holds frame.node task rest := ⟨frame, hitems, rfl, htask⟩
  simp only [answer, hitems]
  exact hholds.ceases_handOver a.tainted fun r' reply _ => hnext r' reply

/-- **A turn of a task** comes to what the task does, or is one too many. -/
theorem Holds.ceases_turn {task after : Builtin.Task} (h : r.Holds id task rest) {input : Input}
    {step : Step} (hstep : task.resume ⟨id, r.scope⟩ input = (step, after))
    (hserve : ∀ r' : Run P, r'.Holds id after rest → r'.scope = r.scope → (r'.serve E step).Ceases E) :
    Next.Ceases E (.resume r input) := by
  obtain ⟨frame, hitems, rfl, htask⟩ := h
  refine Next.ceases_resume ?_
  unfold turn
  dsimp only
  split
  · exact Next.ceases_finish _
  · have hitems' : r.countTurn.frames.items = frame :: rest := hitems
    have hscope : r.countTurn.scope = r.scope := rfl
    simp only [resumeFrame, hitems', htask, Task.resume, hscope, hstep]
    refine hserve _ ⟨{ frame with task := .builtin after }, ?_, rfl, rfl⟩ rfl
    simp only [note, withShared, Stack.items_mapTop, hitems', List.modifyHead_cons]

/-- The end of the top frame is an answer to the others. -/
theorem Holds.exists_answer {task : Builtin.Task} (h : r.Holds id task rest)
    (result : Except EvalError Value) :
    ∃ (r' : Run P) (a : Answer), r.serve E (.ofResult result) = r'.answer a ∧
      r'.frames.items = rest := by
  obtain ⟨frame, hitems, -⟩ := h
  have hpop : r.frames.pop.items = rest := (Stack.eq_push hitems).2
  cases result with
  | ok value =>
    refine ⟨(r.succeed value).1, (r.succeed value).2, rfl, ?_⟩
    simp only [succeed, hitems]
    split
    · exact hpop
    · rw [frames_mapInnermost]
      exact hpop
  | error error =>
    refine ⟨(r.fail error).1, (r.fail error).2, rfl, ?_⟩
    simp only [fail, hitems]
    split <;> exact hpop

end Run

/-- **A visit to the node cannot be followed for ever,** unless what follows on
it can. -/
def Graph.Ceases (E : Engine P) (id : NodeId) : Prop :=
  ∀ (r : Run P) (restore : Nat) (fresh : Bool), Run.CeasesAbove E r.frames.items →
    (r.visit E id restore fresh).Ceases E

/-- A job at such a node. -/
theorem Graph.Ceases.acc_planned {id : NodeId} (h : Graph.Ceases E id) (scope : Scope) :
    Acc (Item.Less E) (.planned ⟨id, scope⟩) :=
  Item.acc_planned fun world =>
    h { scope, world } _ _ (by simpa using Run.ceasesAbove_nil)

/-- A wait for jobs at such nodes, which the task of the top frame has asked for. -/
theorem Run.Holds.ceases_wait {r : Run P} {id : NodeId} {task : Builtin.Task}
    {rest : List (Frame P)} (h : r.Holds id task rest) {await : Await}
    (hjobs : ∀ job ∈ await.jobs, Graph.Ceases E job.node)
    (hsettled : ∀ (c : Conclusion) (r' : Run P) (reply : Reply), await.Comes anyhow (.settled c) →
      Reply.ofResult c.result = .ok reply → r'.Holds id task rest →
      Next.Ceases E (.resume r' reply.toInput))
    (helapsed : ∀ r' : Run P, await.Comes anyhow .elapsed → r'.Holds id task rest →
      Next.Ceases E (.resume r' .elapsed)) :
    Next.Ceases E (.wait r await) := by
  refine Next.ceases_wait (fun job hjob => (hjobs job hjob).acc_planned job.scope)
    fun world wake hcomes => ?_
  cases wake with
  | elapsed => exact helapsed _ hcomes (h.congr rfl)
  | settled c =>
    have hholds : (Run.mapTally { r with world } (·.merge c.tally)).Holds id task rest := h.congr rfl
    exact hholds.ceases_handOver c.tainted fun r' reply => hsettled c r' reply hcomes

/-- **A task that follows a plan** cannot be followed for ever, by induction on the
plan. -/
theorem Plan.ceases {plan : Plan} {id : NodeId} {timed : Prop}
    (hwithin : plan.Within (Graph.Ceases E) timed) {rest : List (Frame P)}
    (hrest : Run.CeasesAbove E rest) {r : Run P} {task : Builtin.Task} {input : Input}
    (hfollows : plan.Follows id task input) (h : r.Holds id task rest) :
    Next.Ceases E (.resume r input) := by
  induction plan generalizing r task input with
  | finish result =>
    have hstep : task.resume ⟨id, r.scope⟩ input =
        (.ofResult result, (task.resume ⟨id, r.scope⟩ input).2) := Prod.ext (hfollows r.scope) rfl
    refine h.ceases_turn hstep fun r' hr' _ => ?_
    obtain ⟨r'', a, hserve, hitems⟩ := hr'.exists_answer (E := E) result
    rw [hserve]
    exact hrest r'' a hitems
  | visit child manner next ih =>
    obtain ⟨after, hstep, hnext⟩ := hfollows r.scope
    refine h.ceases_turn hstep fun r' hr' _ => ?_
    obtain ⟨frame, hitems, rfl, htask⟩ := hr'
    have habove : Run.CeasesAbove E r'.frames.items := by
      rw [hitems]
      exact Run.ceasesAbove_cons (fun r'' reply => ih reply (hwithin.2 reply) (hnext reply)) htask
    cases manner <;> exact hwithin.1 _ _ _ habove
  | pause ms next ih =>
    obtain ⟨after, hstep, hnext⟩ := hfollows r.scope
    have hwithin : next.Within (Graph.Ceases E) timed := hwithin
    refine h.ceases_turn hstep fun r' hr' _ => hr'.ceases_wait nofun (fun c r'' reply hcomes => ?_)
      fun r'' _ => ih hwithin hnext
    cases hcomes
  | all jobs next ih =>
    obtain ⟨after, hstep, hnextError, hnextValues⟩ := hfollows r.scope
    refine h.ceases_turn hstep fun r' hr' _ => hr'.ceases_wait (fun job hjob => ?_)
      (fun c r'' reply hcomes hreply => ih reply (hwithin.2 reply) ?_) fun r'' hcomes => ?_
    · obtain ⟨pair, hpair, rfl⟩ := List.mem_map.1 hjob
      exact hwithin.1 pair hpair
    · -- all of the jobs have ended, so there are as many values as jobs
      obtain ⟨found, hfound, hc⟩ := hcomes
      cases hc
      rcases Reply.of_mapM hreply with ⟨value, rfl⟩ | ⟨values, hvalues, rfl⟩
      · exact hnextError value
      · refine hnextValues values (hvalues.trans ?_)
        rw [← hfound.length_eq, List.length_map]
    · obtain ⟨found, -, hc⟩ := hcomes
      cases hc
  | first child others next ih =>
    obtain ⟨-, hchild, hothers, hwithin⟩ := hwithin
    obtain ⟨after, hstep, hnext⟩ := hfollows r.scope
    refine h.ceases_turn hstep fun r' hr' _ => hr'.ceases_wait (fun job hjob => ?_)
      (fun c r'' reply _ _ => ih reply (hwithin reply) (hnext reply)) fun r'' hcomes => ?_
    · rcases List.mem_cons.1 hjob with rfl | hjob
      · exact hchild
      · obtain ⟨other, hother, rfl⟩ := List.mem_map.1 hjob
        exact hothers other hother
    · obtain ⟨job, -, c, -, hc⟩ := hcomes
      cases hc
  | deadline ms child next late ihn ihl =>
    obtain ⟨-, hchild, hwithin, hlate⟩ := hwithin
    obtain ⟨after, hstep, hnext, hfollowsLate⟩ := hfollows r.scope
    refine h.ceases_turn hstep fun r' hr' _ => hr'.ceases_wait (fun job hjob => ?_)
      (fun c r'' reply _ _ => ihn reply (hwithin reply) (hnext reply)) fun r'' _ =>
        ihl hlate hfollowsLate
    rw [List.mem_singleton.1 hjob]
    exact hchild

/-- **No visit to a node of a valid graph can be followed for ever,** by induction
on the node. -/
theorem Graph.ceases (hg : E.graph.validate = .ok ()) (hr : E.registry.Native) (id : NodeId) :
    Graph.Ceases E id := by
  induction hn : id.index using Nat.strongRecOn generalizing id with
  | _ n ih =>
  intro r restore fresh habove
  obtain ⟨m, tail, hcaches⟩ := r.exists_caches
  have hstands : r.Stands r.frames r.scope (m :: tail) r.memo.tally := ⟨rfl, rfl, hcaches, rfl⟩
  -- an answer without a frame goes to the frames that are there
  have hready : ∀ {r' : Run P} {a : Answer} {scope : Scope} {caches : List Memo} {tally : Tally},
      r.arrive E id restore fresh = (r', .ready a) → r'.Stands r.frames scope caches tally →
      (r.visit E id restore fresh).Ceases E := by
    intro r' a scope caches tally harrive hr'
    rw [Run.visit_of_ready harrive]
    exact habove r' a (by rw [hr'.frames])
  have hserved : ∀ {value}, (if fresh then none else m.kept? id) = some value →
      E.graph.role E.registry id ≠ .absent → (∀ p, E.graph.role E.registry id ≠ .param p) →
      (r.visit E id restore fresh).Ceases E := by
    intro value hkept habsent hparam
    obtain ⟨r', harrive, hr'⟩ := hstands.arrive_kept habsent hparam hkept restore
    exact hready harrive hr'
  cases hrole : E.graph.role E.registry id with
  | absent =>
    obtain ⟨r', harrive, hr'⟩ := hstands.arrive_absent hrole restore fresh
    exact hready harrive hr'
  | param p =>
    obtain ⟨r', harrive, hr'⟩ := hstands.arrive_param hrole restore fresh
    exact hready harrive hr'
  | refused error volatile =>
    cases hkept : if fresh then none else m.kept? id with
    | some value => exact hserved hkept (by simp [hrole]) (by simp [hrole])
    | none =>
      obtain ⟨r', harrive, hr'⟩ := hstands.arrive_refused hr hrole hkept restore
      exact hready harrive hr'
  | planned plan volatile =>
    cases hkept : if fresh then none else m.kept? id with
    | some value => exact hserved hkept (by simp [hrole]) (by simp [hrole])
    | none =>
      obtain ⟨r', task, harrive, hfollows, hr'⟩ := hstands.arrive_planned hr hrole hkept restore
      have hwithin := (Graph.within_of_role hg hr hrole).mono
        (fun child hchild => ih child.index (hn ▸ hchild) child rfl) fun h => h
      rw [Run.visit_of_pushed harrive]
      refine Plan.ceases hwithin habove hfollows
        ⟨⟨id, .builtin task, volatile, false, restore, fresh⟩, ?_, rfl, rfl⟩
      rw [hr'.frames, Stack.items_push]

/-- **No run in a valid graph can go on for ever.** -/
theorem Run.ceases_begin (hg : E.graph.validate = .ok ()) (hr : E.registry.Native) (root : NodeId)
    {r : Run P} (hframes : r.frames.items = []) : (r.begin E root).Ceases E :=
  Graph.ceases hg hr root r _ _ (by rw [hframes]; exact ceasesAbove_nil)

end ProgramGraph
