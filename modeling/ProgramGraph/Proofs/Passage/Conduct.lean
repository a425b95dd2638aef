import ProgramGraph.Proofs.Passage.Track
import ProgramGraph.Proofs.Plan.Ending
import ProgramGraph.Proofs.Solo.Stand
/-!
# How frames conduct themselves

Between a task and the engine there is an understanding: a task is resumed with
nothing but what may come of the step that it did last. It is kept because every
frame is somewhere in a plan. The top frame has its input coming; every other frame
has asked for the node of the frame above it, and its plan goes on whatever the
reply is.

Nothing is asked of the graph here, nor of the memo or the limits, and nothing of how
jobs end but that they end one by one. The errors that a run may end with are
explained: they are ordinary, or a node that is missing has been referred to, along a
path from the root (`EvalError.Explained`).
-/

namespace ProgramGraph

open Relation

variable {P : Plugins} (g : Graph)

/-- The nodes that a request is for, jobs included. -/
def Request.nodes : Request → List NodeId
  | .child id | .under id _ | .fresh id => [id]
  | .await asked => asked.jobs.map Job.node

/-- **The error is ordinary,** or it says that a node is missing that is referred to
on some path from the root. -/
def EvalError.Explained (root : NodeId) (error : EvalError) : Prop :=
  error.Ordinary ∨ ∃ id, error = .invalidNode id "not in graph" ∧ g.get? id = none ∧
    ReflTransGen g.Refers root id

namespace Frame

variable (frame : Frame P)

/-- **The frame is about to be resumed with the input,** at a point of a plan that
asks for children of its node. -/
def Performs (input : Input) : Prop :=
  ∃ (plan : Plan) (task : Builtin.Task), frame.task = .builtin task ∧
    plan.Follows frame.node task input ∧ plan.Within (g.Refers frame.node) True ∧ plan.Ends EvalError.Ordinary

/-- The frame can be resumed with any reply. -/
def Listens : Prop := ∀ reply : Reply, frame.Performs g reply.toInput

/-- The frame can go on after a wait. -/
def GoesOn : Wake → Prop
  | .elapsed => frame.Performs g .elapsed
  | .settled c => ∀ reply, Reply.ofResult c.result = .ok reply → frame.Performs g reply.toInput

/-- **What a frame does.** It asks for what its node refers to, and can take whatever
may come of that. -/
def Asks : Step → Prop
  | .done _ => True
  | .fail error => error.Ordinary
  | .request (.await await) => (∀ job ∈ await.jobs, g.Refers frame.node job.node) ∧
      (∀ ms answer, await = .timer ms answer → answer = .elapsed) ∧
      ∀ wake, await.Comes (fun _ _ => True) wake → frame.GoesOn g wake
  | .request (.child id) | .request (.under id _) | .request (.fresh id) =>
    g.Refers frame.node id ∧ frame.Listens g

/-- **The frames stand in line** for a node: each has asked for the one above it, and
the lowest is that of the root. -/
def Line (root : NodeId) : List (Frame P) → NodeId → Prop
  | [], id => id = root
  | frame :: rest, id => g.Refers frame.node id ∧ frame.Listens g ∧ Line root rest frame.node

end Frame

/-- **What comes next is as it should be.** -/
def Next.Conducted (root : NodeId) : Next P → Prop
  | .resume r input => ∃ frame rest, r.frames.items = frame :: rest ∧
      frame.Performs g input ∧ Frame.Line g root rest frame.node
  | .wait r await => ∃ frame rest, r.frames.items = frame :: rest ∧
      frame.Asks g (.request (.await await)) ∧ Frame.Line g root rest frame.node
  | .finish o => ∀ error, o.result = .error error → error.Explained g root

variable {g}

/-! ## Frames -/

namespace Frame

variable {frame : Frame P} {root : NodeId} {frames : List (Frame P)} {id : NodeId}

/-- The nodes of a request are those that the node of the frame refers to. -/
theorem Asks.refers {request : Request} (h : frame.Asks g (.request request)) :
    ∀ id ∈ request.nodes, g.Refers frame.node id := by
  cases request with
  | await await =>
    intro id hid
    obtain ⟨job, hjob, rfl⟩ := List.mem_map.1 hid
    exact h.1 job hjob
  | _ =>
    intro id hid
    obtain rfl := List.mem_singleton.1 hid
    exact h.1

/-- A frame with a task that follows a plan. -/
theorem performs_of {plan : Plan} {task : Builtin.Task} {input : Input}
    (hfollows : plan.Follows frame.node task input) (hwithin : plan.Within (g.Refers frame.node) True)
    (hends : plan.Ends EvalError.Ordinary) :
    Performs g ({ frame with task := .builtin task } : Frame P) input :=
  ⟨plan, task, rfl, hfollows, hwithin, hends⟩

/-- **A frame that is resumed does the next thing on its plan,** and can take what
comes of it. -/
theorem Performs.asks {input : Input} (h : frame.Performs g input) {scope : Scope}
    {shared shared' : P.Shared} {step : Step} {after : Task P}
    (hstep : frame.task.resume ⟨frame.node, scope⟩ input shared = ((step, after), shared')) :
    Asks g { frame with task := after } step := by
  obtain ⟨plan, task, htask, hfollows, hwithin, hends⟩ := h
  obtain ⟨task', hresume, rfl⟩ : ∃ task', task.resume ⟨frame.node, scope⟩ input = (step, task') ∧
      after = .builtin task' := by
    rw [htask] at hstep
    cases hstep
    exact ⟨_, rfl, rfl⟩
  cases plan with
  | finish result =>
    have hstep : step = .ofResult result := by
      have := hfollows scope
      rwa [hresume] at this
    subst hstep
    cases result with
    | ok value => trivial
    | error error => exact hends error rfl
  | visit id manner next =>
    obtain ⟨task'', hstep, hnext⟩ := hfollows scope
    rw [hresume] at hstep
    cases hstep
    have hlistens : Listens g { frame with task := .builtin task' } := fun reply =>
      performs_of (hnext reply) (hwithin.2 reply) (hends reply)
    cases manner <;> exact ⟨hwithin.1, hlistens⟩
  | pause ms next =>
    obtain ⟨task'', hstep, hnext⟩ := hfollows scope
    rw [hresume] at hstep
    cases hstep
    refine ⟨nofun, fun ms' answer hawait => ?_, ?_⟩
    · cases hawait
      rfl
    · rintro wake rfl
      have hrest : next.Ends _ := hends
      exact performs_of hnext hwithin hrest
  | all jobs next =>
    obtain ⟨task'', hstep, hfails, hvalues⟩ := hfollows scope
    rw [hresume] at hstep
    cases hstep
    refine ⟨fun job hjob => ?_, (fun _ _ => nofun), ?_⟩
    · obtain ⟨pair, hpair, rfl⟩ := List.mem_map.1 hjob
      exact hwithin.1 pair hpair
    · rintro wake ⟨found, hfound, rfl⟩ reply hreply
      have hlength : found.length = jobs.length := by
        rw [← hfound.length_eq, List.length_map]
      -- as many values as there are jobs, or the failure of one of them
      rcases Reply.of_mapM hreply with ⟨value, rfl⟩ | ⟨values, hlen, rfl⟩
      · exact performs_of (hfails value) (hwithin.2 _) (hends _)
      · exact performs_of (hvalues values (hlen.trans hlength)) (hwithin.2 _) (hends _)
  | first id others next =>
    obtain ⟨task'', hstep, hnext⟩ := hfollows scope
    rw [hresume] at hstep
    cases hstep
    obtain ⟨-, hid, hothers, hnextWithin⟩ := hwithin
    refine ⟨fun job hjob => ?_, (fun _ _ => nofun), ?_⟩
    · rcases List.mem_cons.1 hjob with rfl | hjob
      · exact hid
      · obtain ⟨other, hother, rfl⟩ := List.mem_map.1 hjob
        exact hothers other hother
    · rintro wake ⟨job, -, c, -, rfl⟩ reply -
      exact performs_of (hnext reply) (hnextWithin reply) (hends reply)
  | deadline ms id next late =>
    obtain ⟨task'', hstep, hnext, hlate⟩ := hfollows scope
    rw [hresume] at hstep
    cases hstep
    obtain ⟨-, hid, hnextWithin, hlateWithin⟩ := hwithin
    refine ⟨fun job hjob => ?_, (fun _ _ => nofun), ?_⟩
    · obtain rfl := List.mem_singleton.1 hjob
      exact hid
    · rintro wake (rfl | ⟨c, -, rfl⟩)
      · exact performs_of hlate hlateWithin hends.2
      · exact fun reply _ => performs_of (hnext reply) (hnextWithin reply) (hends.1 reply)

/-- **There is a path** from the root to whatever frames stand in line for. -/
theorem Line.path (h : Line g root frames id) : ReflTransGen g.Refers root id := by
  induction frames generalizing id with
  | nil =>
    obtain rfl : id = root := h
    exact .refl
  | cons frame rest ih => exact (ih h.2.2).tail h.1

/-- **Frames that stand in line** are for greater and greater nodes, up to the root,
if nodes refer backwards. -/
theorem Line.pairwise (hg : g.validate = .ok ()) (h : Line g root frames id) :
    (id :: frames.map Frame.node).Pairwise (· < ·) ∧
      ∀ other ∈ id :: frames.map Frame.node, other ≤ root := by
  induction frames generalizing id with
  | nil =>
    obtain rfl : id = root := h
    exact ⟨List.pairwise_singleton _ _, List.forall_mem_singleton.2 (Nat.le_refl id.index)⟩
  | cons frame rest ih =>
    obtain ⟨hpairwise, hle⟩ := ih h.2.2
    have hlt : id < frame.node := h.1.lt hg
    have hall : ∀ other ∈ frame.node :: rest.map Frame.node, id < other := by
      intro other hother
      rcases List.mem_cons.1 hother with rfl | hother
      · exact hlt
      · exact Nat.lt_trans hlt (List.rel_of_pairwise_cons hpairwise hother)
    refine ⟨List.pairwise_cons.2 ⟨hall, hpairwise⟩, List.forall_mem_cons.2 ⟨?_, hle⟩⟩
    exact Nat.le_of_lt (Nat.lt_of_lt_of_le hlt (hle _ List.mem_cons_self))

/-- So there are no more of them than there are handles. -/
theorem Line.length_le (hg : g.validate = .ok ()) (h : Line g root frames id) :
    id.index + frames.length ≤ root.index := by
  induction frames generalizing id with
  | nil =>
    obtain rfl : id = root := h
    exact Nat.le_refl _
  | cons frame rest ih =>
    have hlt : id.index < frame.node.index := h.1.lt hg
    have hle := ih h.2.2
    rw [List.length_cons]
    omega

end Frame

/-! ## Errors -/

namespace EvalError

variable {root id : NodeId} {error : EvalError}

/-- What is explained from a node is explained from wherever there is a path to it. -/
theorem Explained.of_path (h : error.Explained g id) (hpath : ReflTransGen g.Refers root id) :
    error.Explained g root := by
  rcases h with hordinary | ⟨missing, herror, hnone, hfrom⟩
  · exact .inl hordinary
  · exact .inr ⟨missing, herror, hnone, hpath.trans hfrom⟩

/-- **No error that is explained** says that something was used out of order. -/
theorem Explained.ne_internal (h : error.Explained g root) (text : String) :
    error ≠ .internal text := by
  rintro rfl
  rcases h with hordinary | ⟨id, herror, -⟩
  · exact hordinary
  · cases herror

end EvalError

/-! ## Runs -/

namespace Run

variable {E : Engine P} {r : Run P} {root : NodeId}

theorem stop_conducted {error : EvalError} (h : error.Explained g root) :
    (r.stop error).Conducted g root := by
  rintro error' ⟨⟩
  exact h

/-- **A result is handed to the top frame.** -/
theorem handOver_conducted {frame : Frame P} {rest : List (Frame P)}
    (hitems : r.frames.items = frame :: rest) (hline : Frame.Line g root rest frame.node)
    {result : Except EvalError Value}
    (hlistens : ∀ reply, Reply.ofResult result = .ok reply → frame.Performs g reply.toInput)
    (hresult : ∀ error, result = .error error → error.Explained g root) (tainted : Bool) :
    ((r.observe tainted).handOver result).Conducted g root := by
  obtain ⟨hpush, hpop⟩ := Stack.eq_push hitems
  have hstands : r.Stands (r.frames.pop.push frame) r.scope r.caches r.memo.tally := by
    rw [← hpush]
    exact r.stands
  cases hreply : Reply.ofResult result with
  | ok reply =>
    obtain ⟨r', hnext, hr'⟩ := (hstands.observe tainted).handOver hreply
    rw [hnext]
    refine ⟨{ frame with tainted := frame.tainted || tainted }, rest, ?_,
      hlistens reply hreply, hline⟩
    rw [hr'.frames, Stack.items_push, hpop]
  | error fatal =>
    obtain ⟨rfl, herror⟩ := Reply.ofResult_eq_error hreply
    simp only [handOver, herror]
    exact stop_conducted (hresult fatal rfl)

/-- **An answer goes to whoever stands in line for it.** -/
theorem answer_conducted {id : NodeId} (hline : Frame.Line g root r.frames.items id) {a : Answer}
    (ha : ∀ error, a.result = .error error → error.Explained g id) :
    (r.answer a).Conducted g root := by
  have hexplained : ∀ error, a.result = .error error → error.Explained g root :=
    fun error herror => (ha error herror).of_path hline.path
  unfold answer
  split
  next => exact hexplained
  next frame rest hitems =>
    rw [hitems] at hline
    obtain ⟨-, hlistens, hline⟩ := hline
    exact handOver_conducted hitems hline (fun reply _ => hlistens reply) hexplained a.tainted

/-- **A visit to a node that frames stand in line for.** -/
theorem visit_conducted (hr : E.registry.Native) (ho : E.registry.Ordinary) {id : NodeId}
    (hline : Frame.Line E.graph root r.frames.items id) (restore : Nat) (fresh : Bool) :
    (r.visit E id restore fresh).Conducted E.graph root := by
  obtain ⟨inner, tail, hcaches⟩ := r.exists_caches
  have hstands : r.Stands r.frames r.scope (inner :: tail) r.memo.tally := ⟨rfl, rfl, hcaches, rfl⟩
  -- an answer without a frame
  have hready : ∀ (r' : Run P) (a : Answer), r.arrive E id restore fresh = (r', .ready a) →
      r'.frames = r.frames → (∀ error, a.result = .error error → error.Explained E.graph id) →
      (r.visit E id restore fresh).Conducted E.graph root := by
    intro r' a harrive hframes ha
    rw [visit_of_ready harrive]
    exact answer_conducted (by rw [hframes]; exact hline) ha
  have hserved : ∀ value, (if fresh then none else inner.kept? id) = some value →
      E.graph.role E.registry id ≠ .absent → (∀ p, E.graph.role E.registry id ≠ .param p) →
      (r.visit E id restore fresh).Conducted E.graph root := by
    intro value hkept habsent hparam
    obtain ⟨r', harrive, hr'⟩ := hstands.arrive_kept habsent hparam hkept restore
    exact hready r' _ harrive hr'.frames nofun
  cases hrole : E.graph.role E.registry id with
  | absent =>
    obtain ⟨r', harrive, hr'⟩ := hstands.arrive_absent hrole restore fresh
    refine hready r' _ harrive hr'.frames ?_
    rintro error ⟨⟩
    exact .inr ⟨id, rfl, Graph.plays_of_role hrole, .refl⟩
  | param p =>
    obtain ⟨r', harrive, hr'⟩ := hstands.arrive_param hrole restore fresh
    refine hready r' _ harrive hr'.frames fun error herror => .inl ?_
    simp only [Graph.resolve] at herror
    split at herror
    next => cases herror
    next =>
      cases herror
      trivial
  | refused error volatile =>
    cases hkept : if fresh then none else inner.kept? id with
    | some value => exact hserved value hkept (by simp [hrole]) (by simp [hrole])
    | none =>
      obtain ⟨r', harrive, hr'⟩ := hstands.arrive_refused hr hrole hkept restore
      refine hready r' _ harrive hr'.frames ?_
      rintro error' ⟨⟩
      exact .inl (Graph.ordinary_of_role ho hrole)
  | planned plan volatile =>
    cases hkept : if fresh then none else inner.kept? id with
    | some value => exact hserved value hkept (by simp [hrole]) (by simp [hrole])
    | none =>
      obtain ⟨r', task, harrive, hfollows, hr'⟩ := hstands.arrive_planned hr hrole hkept restore
      rw [visit_of_pushed harrive]
      obtain ⟨hwithin, hends⟩ := Graph.refers_of_role ho hrole
      refine ⟨⟨id, .builtin task, volatile, false, restore, fresh⟩, r.frames.items, ?_,
        ⟨plan, task, rfl, hfollows, hwithin, hends⟩, hline⟩
      rw [hr'.frames, Stack.items_push]

/-- **A step that the top frame does is served.** -/
theorem serve_conducted (hr : E.registry.Native) (ho : E.registry.Ordinary) {frame : Frame P}
    {rest : List (Frame P)} (hitems : r.frames.items = frame :: rest)
    (hline : Frame.Line E.graph root rest frame.node) {step : Step}
    (hasks : frame.Asks E.graph step) : (r.serve E step).Conducted E.graph root := by
  have hvisit : ∀ (r' : Run P) (id : NodeId), r'.frames = r.frames →
      E.graph.Refers frame.node id ∧ frame.Listens E.graph →
      Frame.Line E.graph root r'.frames.items id := by
    rintro r' id hframes ⟨hrefers, hlistens⟩
    rw [hframes, hitems]
    exact ⟨hrefers, hlistens, hline⟩
  cases step with
  | done value =>
    have hserve : r.serve E (.done value) = (r.succeed value).1.answer (r.succeed value).2 := rfl
    rw [hserve]
    refine answer_conducted (by rw [frames_succeed, Stack.items_pop, hitems]; exact hline) ?_
    simp only [succeed, hitems]
    rintro error' ⟨⟩
  | fail error =>
    have hserve : r.serve E (.fail error) = (r.fail error).1.answer (r.fail error).2 := rfl
    rw [hserve]
    refine answer_conducted (by rw [frames_fail, Stack.items_pop, hitems]; exact hline) ?_
    simp only [fail, hitems]
    rintro error' ⟨⟩
    exact .inl hasks
  | request request =>
    cases request with
    | child id => exact visit_conducted hr ho (hvisit r id rfl hasks) _ _
    | under id bindings =>
      exact visit_conducted hr ho
        (hvisit { r with scope := r.scope.push bindings } id rfl hasks) _ _
    | fresh id => exact visit_conducted hr ho (hvisit r id rfl hasks) _ _
    | await await => exact ⟨frame, rest, hitems, hasks, hline⟩

/-- **What the top frame does when it is resumed,** and the frames that it leaves. -/
theorem resumeFrame_asks {frame : Frame P} {rest : List (Frame P)}
    (hitems : r.frames.items = frame :: rest) {input : Input} (h : frame.Performs g input) :
    ∃ after : Task P, (r.resumeFrame input).1.frames.items = { frame with task := after } :: rest ∧
      Frame.Asks g { frame with task := after } (r.resumeFrame input).2 := by
  obtain ⟨after, shared, hstep, hafter⟩ := exists_resumeFrame hitems input
  exact ⟨after, hafter, h.asks hstep⟩

/-- **A turn.** -/
theorem turn_conducted (hr : E.registry.Native) (ho : E.registry.Ordinary) {input : Input}
    (h : (Next.resume r input).Conducted E.graph root) :
    (r.turn E input).Conducted E.graph root := by
  obtain ⟨frame, rest, hitems, hperforms, hline⟩ := h
  unfold turn
  dsimp only
  split
  next => exact stop_conducted (.inl trivial)
  next =>
    have hcount : r.countTurn.frames.items = frame :: rest := hitems
    obtain ⟨after, hafter, hasks⟩ := resumeFrame_asks hcount hperforms
    exact serve_conducted hr ho hafter hline hasks

/-- **The beginning.** -/
theorem begin_conducted (hr : E.registry.Native) (ho : E.registry.Ordinary)
    (hframes : r.frames.items = []) (id : NodeId) : (r.begin E id).Conducted E.graph id :=
  visit_conducted hr ho (by rw [hframes]; exact rfl) _ _

/-- **The end of a wait,** if the jobs that it was for have ended as they should. -/
theorem wake_conducted {ended : Job → Conclusion → Prop} {await : Await}
    (h : (Next.wait r await).Conducted g root) (world : World P) {wake : Wake}
    (hcomes : await.Comes ended wake)
    (hended : ∀ job ∈ await.jobs, ∀ c, ended job c →
      ∀ error, c.result = .error error → error.Explained g job.node) :
    (r.wake world wake).Conducted g root := by
  obtain ⟨frame, rest, hitems, hasks, hline⟩ := h
  obtain ⟨hjobs, htimer, hgoes⟩ := hasks
  have hgoes := hgoes wake (hcomes.mono fun _ _ _ _ => trivial)
  cases wake with
  | elapsed => exact ⟨frame, rest, hitems, hgoes, hline⟩
  | settled c =>
    have hpath : ∀ job ∈ await.jobs, ReflTransGen g.Refers root job.node :=
      fun job hjob => hline.path.tail (hjobs job hjob)
    have hexplained : ∀ error, c.result = .error error → error.Explained g root := by
      refine hcomes.conclude
        (p := fun c => ∀ error, c.result = .error error → error.Explained g root) htimer
        (fun job hjob c hc error herror => ?_) fun found hfound error herror => ?_
      · exact (hended job hjob c hc error herror).of_path (hpath job hjob)
      · obtain ⟨c, hc, herror⟩ := Conclusion.exists_of_gather_error herror
        exact hfound c hc error herror
    exact handOver_conducted (r := ({ r with world } : Run P).mapTally (·.merge c.tally)) hitems hline
      hgoes hexplained c.tainted

end Run

/-- **All that a job passes through is as it should be,** by induction on how it gets
there. -/
theorem Passes.conducted {E : Engine P} {W : World P → Prop} {m : Memo} {job : Job} {next : Next P}
    (hr : E.registry.Native) (ho : E.registry.Ordinary) (h : Passes E W m job next) :
    next.Conducted E.graph job.node := by
  induction h with
  | begin _ => exact Run.begin_conducted hr ho rfl _
  | turn _ ih => exact Run.turn_conducted hr ho ih
  | wake _ _ _ hcomes ih ihends =>
    refine Run.wake_conducted ih _ hcomes ?_
    rintro job - c ⟨o, ho, rfl⟩
    exact ihends job o ho

end ProgramGraph
