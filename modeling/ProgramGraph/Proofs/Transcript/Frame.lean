import ProgramGraph.Proofs.Passage.Discipline
import ProgramGraph.Proofs.Passage.Fatal
import ProgramGraph.Proofs.Solo.Stand
import ProgramGraph.Proofs.Transcript.Basic
/-!
# Frames that stand on others

A frame that has been started stands on those that were there before. Nothing happens to
these, and nothing is said by them, until it ends: then the one right below is given its
answer, under the scope that it has asked under (`Next.Talks.leaves`). A fatal error is the
other way in which a frame can go, and takes all others along.

What is said in a turn, and what becomes of the frames, is told once, by `Run.Acts`.
-/

namespace ProgramGraph

variable {P : Plugins}

/-- **The run is over with a fatal error.** -/
def Next.Stopped (next : Next P) : Prop :=
  ∃ o e, next = .finish o ∧ o.result = .error e ∧ e.isInterceptable = false ∧
    o.run.frames.items = []

/-- A result that there is no reply to is a fatal error. -/
theorem Reply.fatal_of_ofResult {result : Except EvalError Value} {fatal : EvalError}
    (h : ofResult result = .error fatal) :
    result = .error fatal ∧ fatal.isInterceptable = false := by
  obtain ⟨rfl, hfatal⟩ := ofResult_eq_error h
  cases fatal <;> cases hfatal <;> exact ⟨rfl, rfl⟩

namespace Run

variable {E : Engine P} {r : Run P} {frame : Frame P} {frames rest : List (Frame P)} {scope : Scope}
  {clock : Nat}

/-! ## Frames, scope and clock -/

/-- **The run has these frames, this scope and this time.** -/
structure Sits (r : Run P) (frames : List (Frame P)) (scope : Scope) (clock : Nat) : Prop where
  frames : r.frames.items = frames
  scope : r.scope = scope
  clock : r.world.clock = clock

theorem Sits.size (h : r.Sits frames scope clock) : r.frames.size = frames.length := by
  rw [r.frames.size_eq, h.frames]

theorem stopped_stop (r : Run P) {e : EvalError} (he : e.isInterceptable = false) :
    (r.stop e).Stopped := ⟨_, e, rfl, rfl, he, rfl⟩

/-- **A result is handed to the top frame,** or it is fatal. -/
theorem Sits.handOver (h : r.Sits (frame :: rest) scope clock) (tainted : Bool)
    (result : Except EvalError Value) :
    (∃ reply r', Reply.ofResult result = .ok reply ∧
      (r.observe tainted).handOver result = .resume r' reply.toInput ∧
      r'.Sits ({ frame with tainted := frame.tainted || tainted } :: rest) scope clock) ∨
    ∃ fatal, Reply.ofResult result = .error fatal ∧
      ((r.observe tainted).handOver result).Stopped := by
  have hobserved : (r.observe tainted).Sits
      ({ frame with tainted := frame.tainted || tainted } :: rest)
      scope clock := by
    refine ⟨?_, h.scope, h.clock⟩
    simp only [observe, Stack.items_mapTop, h.frames, List.modifyHead_cons]
  cases result with
  | ok value => exact .inl ⟨.ok value, _, rfl, rfl, hobserved⟩
  | error error =>
    cases herror : error.errorValue with
    | error fatal =>
      obtain ⟨he, hfatal⟩ : error = fatal ∧ fatal.isInterceptable = false := by
        cases error <;> cases herror <;> exact ⟨rfl, rfl⟩
      refine .inr ⟨fatal, by simp only [Reply.ofResult, herror]; rfl, ?_⟩
      simp only [Run.handOver, herror]
      exact stopped_stop _ hfatal
    | ok value =>
      refine .inl ⟨.error value, _, by simp only [Reply.ofResult, herror]; rfl,
        by simp only [Run.handOver, herror]; rfl, ?_⟩
      have hitems : ((r.observe tainted).mapTally .countInjection).frames.items =
        { frame with tainted := frame.tainted || tainted } :: rest := hobserved.frames
      rw [hitems]
      exact ⟨hobserved.frames, hobserved.scope, hobserved.clock⟩

/-- An answer is. -/
theorem Sits.answer (h : r.Sits (frame :: rest) scope clock) (a : Answer) :
    (∃ reply r', Reply.ofResult a.result = .ok reply ∧ r.answer a = .resume r' reply.toInput ∧
      r'.Sits ({ frame with tainted := frame.tainted || a.tainted } :: rest) scope clock) ∨
    ∃ fatal, Reply.ofResult a.result = .error fatal ∧ (r.answer a).Stopped := by
  have hanswer : r.answer a = (r.observe a.tainted).handOver a.result := by
    simp only [Run.answer, h.frames]
  rw [hanswer]
  exact h.handOver a.tainted a.result

/-- And so is what a wait has come to. -/
theorem Sits.settled (h : r.Sits (frame :: rest) scope clock) (world : World P) (c : Conclusion) :
    (∃ reply r', Reply.ofResult c.result = .ok reply ∧
      r.wake world (.settled c) = .resume r' reply.toInput ∧
      r'.Sits ({ frame with tainted := frame.tainted || c.tainted } :: rest) scope world.clock) ∨
    ∃ fatal, Reply.ofResult c.result = .error fatal ∧ (r.wake world (.settled c)).Stopped :=
  Sits.handOver (r := mapTally { r with world } (·.merge c.tally))
    ⟨h.frames, h.scope, rfl⟩ c.tainted c.result

/-! ## Turns -/

/-- The failures that have been counted. -/
def injections (r : Run P) : Nat := r.memo.tally.injections

/-- **What the top frame does in a turn,** what is said of it, and what is next. -/
inductive Acts (E : Engine P) (r : Run P) (frame : Frame P) (rest : List (Frame P)) :
    Step → Transcript → Next P → Prop
  /-- It ends, and the frame below is given its answer. -/
  | ends {r' : Run P} (result : Except EvalError Value)
    (sits : r'.Sits rest (r.scope.truncate frame.scopeDepth) r.world.clock)
    (injections : r'.injections = r.injections) :
    Acts E r frame rest (.ofResult result)
      (closing r.frames.size r.world.clock ⟨result, frame.volatile || frame.tainted⟩)
      (r'.answer ⟨result, frame.volatile || frame.tainted⟩)
  /-- It asks for a node and is answered at once. -/
  | answered {r₀ r₁ : Run P} {request : Request} {scope : Scope} {id : NodeId} {fresh : Bool}
    {a : Answer} (visits : request.Visits r.scope scope id fresh)
    (before : r₀.Sits (frame :: rest) scope r.world.clock)
    (arrives : r₀.arrive E id r.scope.depth fresh = (r₁, .ready a))
    (sits : r₁.Sits (frame :: rest) r.scope r.world.clock)
    (injections : r₁.injections = r.injections) :
    Acts E r frame rest (.request request)
      [⟨r.frames.size, r.world.clock, .asks r.scope request⟩,
       ⟨r.frames.size, r.world.clock, .hears a⟩]
      (r₁.answer a)
  /-- It asks for a node, and a frame is started. -/
  | starts {r₀ r₁ : Run P} {request : Request} {scope : Scope} {id : NodeId} {fresh : Bool}
    {task : Task P} {volatile : Bool} (visits : request.Visits r.scope scope id fresh)
    (before : r₀.Sits (frame :: rest) scope r.world.clock)
    (visit_eq : r₀.visit E id r.scope.depth fresh = .resume r₁ .start)
    (sits : r₁.Sits (⟨id, task, volatile, false, r.scope.depth, fresh⟩ :: frame :: rest) scope
      r.world.clock)
    (injections : r₁.injections = r.injections) :
    Acts E r frame rest (.request request) [⟨r.frames.size, r.world.clock, .asks r.scope request⟩]
      (.resume r₁ .start)
  /-- It waits. -/
  | waits {r' : Run P} (await : Await) (sits : r'.Sits (frame :: rest) r.scope r.world.clock)
    (injections : r'.injections = r.injections) :
    Acts E r frame rest (.request (.await await))
      [⟨r.frames.size, r.world.clock, .asks r.scope (.await await)⟩] (.wait r' await)

/-- A frame that ends does nothing else. -/
theorem Acts.of_ends {result : Except EvalError Value} {said : Transcript} {x : Next P}
    (h : r.Acts E frame rest (.ofResult result) said x) : ∃ r' : Run P,
      r'.Sits rest (r.scope.truncate frame.scopeDepth) r.world.clock ∧
      said = closing r.frames.size r.world.clock ⟨result, frame.volatile || frame.tainted⟩ ∧
      x = r'.answer ⟨result, frame.volatile || frame.tainted⟩ := by
  generalize hstep : Step.ofResult result = step at h
  cases h with
  | @ends r' result' hr' _ =>
    obtain rfl : result = result' := by cases result <;> cases result' <;> cases hstep <;> rfl
    exact ⟨r', hr', rfl, rfl⟩
  | _ => cases result <;> cases hstep

/-- What a frame that is started looks like. -/
theorem sits_of_pushed {r r' : Run P} (h : r.Sits frames scope clock) {id : NodeId} {restore : Nat}
    {fresh : Bool} (harrive : r.arrive E id restore fresh = (r', .pushed)) :
    ∃ (node : Node) (entry : Entry P) (task : Task P) (shared : P.Shared),
      E.graph.get? id = some node ∧ E.registry.get node.tag = .ok entry ∧
      entry.handler.start id node r.world.shared = (.ok task, shared) ∧
      r'.Sits (⟨id, task, entry.volatile, false, restore, fresh⟩ :: frames) scope clock := by
  obtain ⟨node, entry, task, shared, hnode, hentry, hstart, hitems, hscope, hclock⟩ :=
    exists_start_of_pushed harrive
  rw [h.frames] at hitems
  exact ⟨node, entry, task, shared, hnode, hentry, hstart, hitems, hscope.trans h.scope,
    hclock.trans h.clock⟩

/-- A node that is answered at once leaves the frames as they are. -/
theorem sits_of_ready {r r' : Run P} (h : r.Sits frames scope clock) {id : NodeId} {restore : Nat}
    {fresh : Bool} {a : Answer} (harrive : r.arrive E id restore fresh = (r', .ready a)) :
    r'.Sits frames (scope.truncate restore) clock := by
  have hback : (r.truncate restore).Sits frames (scope.truncate restore) clock :=
    ⟨h.frames, congrArg (Scope.truncate · restore) h.scope, h.clock⟩
  have harrives := r.arrives E id restore fresh
  rw [harrive] at harrives
  cases harrives with
  | param =>
    refine ⟨?_, ?_, ?_⟩
    · exact (congrArg Stack.items (frames_mapInnermost _ _)).trans hback.frames
    · exact (scope_mapInnermost _ _).trans hback.scope
    · exact (congrArg World.clock (world_mapInnermost _ _)).trans hback.clock
  | _ => exact ⟨hback.frames, hback.scope, hback.clock⟩

/-- No failure is counted before it is handed over. -/
theorem injections_arrive (E : Engine P) (r : Run P) (id : NodeId) (restore : Nat) (fresh : Bool) :
    (r.arrive E id restore fresh).1.injections = r.injections := by
  have harrives := r.arrives E id restore fresh
  generalize r.arrive E id restore fresh = arrived at harrives
  cases harrives with
  | param =>
    have htally :=
      tally_mapInnermost ((r.truncate restore).mapTally .countLookup) (f := (·.setTainted id))
      fun _ => rfl
    exact (congrArg Tally.injections htally).trans rfl
  | _ => rfl

/-- The top frame is taken off. -/
theorem sits_leave {r : Run P} (h : r.Sits (frame :: rest) scope clock) (f : Memo → Memo) :
    (r.leave frame f).Sits rest (scope.truncate frame.scopeDepth) clock := by
  have hpop : Sits { r.truncate frame.scopeDepth with frames := r.frames.pop } rest
      (scope.truncate frame.scopeDepth) clock := by
    refine ⟨?_, congrArg (Scope.truncate · frame.scopeDepth) h.scope, h.clock⟩
    show r.frames.items.tail = rest
    rw [h.frames, List.tail_cons]
  unfold leave
  split
  · exact ⟨hpop.frames, hpop.scope, hpop.clock⟩
  · refine ⟨?_, ?_, ?_⟩
    · rw [frames_mapInnermost, hpop.frames]
    · rw [scope_mapInnermost, hpop.scope]
    · rw [world_mapInnermost, hpop.clock]

/-- **A visit,** whatever the manner: it is answered at once, or a frame is started. -/
theorem acts_visit {r₀ : Run P} {request : Request} {id : NodeId} {fresh : Bool}
    (hvisits : request.Visits r.scope scope id fresh)
    (hr₀ : r₀.Sits (frame :: rest) scope r.world.clock) (hcount : r₀.injections = r.injections)
    (hback : scope.truncate r.scope.depth = r.scope) :
    r.Acts E frame rest (.request request)
      (⟨r.frames.size, r.world.clock, .asks r.scope request⟩ ::
        (r₀.arrive E id r.scope.depth fresh).2.answer?.toList.map fun a =>
          ⟨r.frames.size, r.world.clock, .hears a⟩)
      (r₀.visit E id r.scope.depth fresh) := by
  have hcount₁ := (injections_arrive E r₀ id r.scope.depth fresh).trans hcount
  cases harrive : r₀.arrive E id r.scope.depth fresh with
  | mk r₁ arrival =>
    rw [harrive] at hcount₁
    cases arrival with
    | pushed =>
      obtain ⟨-, entry, task, -, -, -, -, hr₁⟩ := sits_of_pushed hr₀ harrive
      rw [visit_of_pushed harrive]
      exact .starts hvisits hr₀ (visit_of_pushed harrive) hr₁ hcount₁
    | ready a =>
      have hr₁ := sits_of_ready hr₀ harrive
      rw [hback] at hr₁
      rw [visit_of_ready harrive]
      exact .answered hvisits hr₀ harrive hr₁ hcount₁

/-- **A frame that has been resumed** does what its task says. -/
theorem acts_serve {r' : Run P} (h : r'.Sits (frame :: rest) r.scope r.world.clock)
    (hcount : r'.injections = r.injections) (step : Step) :
    r.Acts E frame rest step (r'.report E r.frames.size r.scope step) (r'.serve E step) := by
  cases step with
  | done value =>
    have hleave := succeed_eq h.frames value
    have htally := congrArg Tally.injections (r'.tally_succeed value)
    rw [hleave] at htally
    simp only [report, serve, hleave, h.clock]
    exact .ends (.ok value) (sits_leave h _) (htally.trans hcount)
  | fail error =>
    have hleave := fail_eq h.frames error
    have htally := congrArg Tally.injections (r'.tally_fail error)
    rw [hleave] at htally
    simp only [report, serve, hleave, h.clock]
    exact .ends (.error error) (sits_leave h _) (htally.trans hcount)
  | request request =>
    cases request with
    | child id =>
      simp only [report, serve, heard?, h.scope, h.clock]
      exact acts_visit (.child id) h hcount r.scope.truncate_depth
    | under id bindings =>
      have hpushed : Sits { r' with scope := r.scope.push bindings } (frame :: rest)
          (r.scope.push bindings) r.world.clock := ⟨h.frames, rfl, h.clock⟩
      simp only [report, serve, heard?, h.scope, h.clock]
      exact acts_visit (.under id bindings) hpushed hcount (r.scope.truncate_push bindings)
    | fresh id =>
      simp only [report, serve, heard?, h.scope, h.clock]
      exact acts_visit (.fresh id) h hcount r.scope.truncate_depth
    | await await =>
      simp only [report, heard?, Option.toList_none, List.map_nil, h.clock]
      exact .waits await h hcount

/-- **A turn** goes beyond the limit, or the task of the top frame does a step. -/
theorem turn_acts (hitems : r.frames.items = frame :: rest) (input : Input) :
    (r.remarks E input = [] ∧ (r.turn E input).Stopped ∧
      (r.turn E input).run.injections = r.injections) ∨
    ∃ (step : Step) (after : Task P) (shared : P.Shared),
      frame.task.resume ⟨frame.node, r.scope⟩ input r.world.shared = ((step, after), shared) ∧
      r.Acts E { frame with task := after } rest step (r.remarks E input) (r.turn E input) := by
  cases hexceeded : r.countTurn.exceeded? E.limits with
  | some limit =>
    refine .inl ⟨by simp only [remarks, hexceeded], ?_⟩
    rw [turn_of_exceeded hexceeded]
    exact ⟨stopped_stop _ rfl, rfl⟩
  | none =>
    have hcount : r.countTurn.frames.items = frame :: rest := hitems
    obtain ⟨after, shared, hstep, hresumed⟩ := exists_resumeFrame hcount input
    have hsits : (r.countTurn.resumeFrame input).1.Sits
        ({ frame with task := after } :: rest) r.scope r.world.clock := by
      have hrests := r.countTurn.rests_resumeFrame input
      refine ⟨hresumed, hrests.scope, ?_⟩
      unfold resumeFrame
      rw [hcount]
      rfl
    refine .inr ⟨_, after, shared, hstep, ?_⟩
    have hcount : (r.countTurn.resumeFrame input).1.injections = r.injections := by
      unfold resumeFrame
      rw [hcount]
      rfl
    rw [turn_of_within hexceeded]
    simp only [remarks, hexceeded]
    exact acts_serve hsits hcount _

/-! ## Frames below -/

/-- **The run has frames above some others,** and goes back to a scope when they end. -/
def Above (below : List (Frame P)) (base : Scope) (r : Run P) : Prop :=
  ∃ top upper, r.frames.items = top :: upper ++ below ∧
    (top :: upper).foldl (fun scope frame => scope.truncate frame.scopeDepth) r.scope = base

variable {below : List (Frame P)} {base : Scope} {r' : Run P}

theorem Above.size (h : r.Above below base) : below.length + 1 ≤ r.frames.size := by
  obtain ⟨top, upper, hitems, -⟩ := h
  rw [r.frames.size_eq, hitems, List.length_append, List.length_cons]
  omega

/-- The top frame may change, as long as it goes back to the same scope. -/
theorem Sits.above {frame' : Frame P} {upper : List (Frame P)}
    (h : r.Sits (frame' :: (upper ++ below)) scope clock)
    (hdepth : frame'.scopeDepth = frame.scopeDepth)
    (hbase : (frame :: upper).foldl (fun scope frame => scope.truncate frame.scopeDepth) scope =
      base) :
    r.Above below base := by
  refine ⟨frame', upper, h.frames, ?_⟩
  rw [h.scope, List.foldl_cons, hdepth]
  exact hbase

end Run

namespace Next

variable {E : Engine P} {n : Nat} {x y : Next P} {log : Transcript} {below : List (Frame P)}
  {base : Scope}

/-- Nothing comes after a fatal error. -/
theorem Stopped.talks (hx : x.Stopped) (h : x.Talks E n log y) : log = [] ∧ y = x := by
  obtain ⟨o, e, rfl, -⟩ := hx
  exact h.of_finish

/-- **How frames go that stand on others:** they are still there; or all frames have gone
with a fatal error; or they have ended, and the frame below them is just being given the
answer, under its own scope. Before that the frames below say nothing. -/
inductive Leaves (below : List (Frame P)) (base : Scope) (log : Transcript) (y : Next P) : Prop
  | stay : y.run.Above below base → (∀ remark ∈ log, below.length < remark.height) →
    Leaves below base log y
  | stop : y.Stopped → (∀ remark ∈ log, below.length < remark.height) → Leaves below base log y
  | answer {r : Run P} {sub : Transcript} {a : Answer} : r.Sits below base r.world.clock →
    log = sub ++ [⟨below.length, r.world.clock, .hears a⟩] →
    (∀ remark ∈ sub, below.length < remark.height) → y = r.answer a → Leaves below base log y

/-- **First one, then the other:** only frames that are still there have more to say. -/
theorem Leaves.trans {said : Transcript} (h : Leaves below base said x)
    (hrest : x.Talks E (below.length + 1) log y)
    (hstay : x.run.Above below base → Leaves below base log y) :
    Leaves below base (said ++ log) y := by
  cases h with
  | stay habove hsaid =>
    have hlog := hstay habove
    cases hlog with
    | stay habove' hlog => exact .stay habove' (List.forall_mem_append.2 ⟨hsaid, hlog⟩)
    | stop hstopped hlog => exact .stop hstopped (List.forall_mem_append.2 ⟨hsaid, hlog⟩)
    | @answer r sub a hsits hlog hsub hy =>
      refine .answer hsits ?_ (List.forall_mem_append.2 ⟨hsaid, hsub⟩) hy
      rw [hlog, List.append_assoc]
  | stop hstopped hsaid =>
    obtain ⟨rfl, rfl⟩ := hstopped.talks hrest
    rw [List.append_nil]
    exact .stop hstopped hsaid
  | @answer r sub a hsits hsaid hsub hx =>
    subst hx
    have hle := (r.quiet_answer a).2
    rw [hsits.size] at hle
    obtain ⟨rfl, rfl⟩ := hrest.of_lt (Nat.lt_succ_of_le hle)
    rw [List.append_nil]
    exact .answer hsits hsaid hsub rfl

end Next

namespace Run

variable {E : Engine P} {r r' : Run P} {frame : Frame P} {below rest upper : List (Frame P)}
  {scope base : Scope} {clock : Nat}

/-- What is made of an answer, or of what a wait has come to. -/
theorem above_or_stopped {x : Next P} {tainted : Bool} {result : Except EvalError Value}
    (h : (∃ reply r', Reply.ofResult result = .ok reply ∧ x = .resume r' reply.toInput ∧
      r'.Sits ({ frame with tainted } :: (upper ++ below)) scope clock) ∨
      ∃ fatal, Reply.ofResult result = .error fatal ∧ x.Stopped)
    (hbase : (frame :: upper).foldl (fun scope frame => scope.truncate frame.scopeDepth) scope =
      base) :
    x.run.Above below base ∨ x.Stopped := by
  rcases h with ⟨reply, r', -, rfl, hr'⟩ | ⟨fatal, -, hstopped⟩
  · exact .inl (hr'.above rfl hbase)
  · exact .inr hstopped

/-- A node is visited under a scope that goes back to the one at hand. -/
theorem truncate_of_visits {request : Request} {id : NodeId} {fresh : Bool}
    (h : request.Visits base scope id fresh) : scope.truncate base.depth = base := by
  cases h with
  | child => exact Scope.truncate_depth _
  | under id bindings => exact Scope.truncate_push _ bindings
  | fresh => exact Scope.truncate_depth _

/-- **One turn of frames that stand on others.** -/
theorem Acts.leaves {step : Step} {said : Transcript} {x : Next P}
    (h : r.Acts E frame (upper ++ below) step said x)
    (hsize : r.frames.size = (upper ++ below).length + 1)
    (hbase : (frame :: upper).foldl (fun scope frame => scope.truncate frame.scopeDepth) r.scope =
      base) :
    Next.Leaves below base said x := by
  have hheight : below.length < r.frames.size := by
    rw [hsize, List.length_append]
    omega
  have hgo : (∀ remark ∈ said, below.length < remark.height) → x.run.Above below base ∨ x.Stopped →
      Next.Leaves below base said x := fun hsaid hx => hx.elim (.stay · hsaid) (.stop · hsaid)
  cases h with
  | @ends r' result hr' _ =>
    cases upper with
    | nil =>
      rw [List.nil_append] at hr' hsize
      obtain rfl : r.scope.truncate frame.scopeDepth = base := hbase
      have hclock := hr'.clock
      have hlast : r.frames.size - 1 = below.length := by rw [hsize, Nat.add_sub_cancel]
      rw [← hclock] at hr'
      have hsaid : closing r.frames.size r.world.clock ⟨result, frame.volatile || frame.tainted⟩ =
          [⟨r.frames.size, r.world.clock, .ends ⟨result, frame.volatile || frame.tainted⟩⟩] ++
          [⟨below.length, r'.world.clock, .hears ⟨result, frame.volatile || frame.tainted⟩⟩] := by
        rw [closing, hlast, hclock]
        rfl
      exact .answer hr' hsaid (List.forall_mem_singleton.2 hheight) rfl
    | cons next upper =>
      have hlast : below.length < r.frames.size - 1 := by
        rw [hsize, List.length_append, List.length_cons]
        omega
      refine hgo (List.forall_mem_cons.2 ⟨hheight, List.forall_mem_singleton.2 hlast⟩) ?_
      exact above_or_stopped (hr'.answer _) hbase
  | @answered r₀ r₁ request scope id fresh a _ _ _ hr₁ _ =>
    exact hgo (List.forall_mem_cons.2 ⟨hheight, List.forall_mem_singleton.2 hheight⟩)
      (above_or_stopped (hr₁.answer a) hbase)
  | @starts r₀ r' request scope id fresh task volatile hvisits _ _ hr' _ =>
    refine hgo (List.forall_mem_singleton.2 hheight) (.inl ⟨_, frame :: upper, hr'.frames, ?_⟩)
    have hscope : (Next.resume r' .start).run.scope = scope := hr'.scope
    rw [hscope, List.foldl_cons, truncate_of_visits hvisits]
    exact hbase
  | waits await hr' _ =>
    exact hgo (List.forall_mem_singleton.2 hheight) (.inl (hr'.above rfl hbase))

end Run

namespace Next

variable {E : Engine P} {n : Nat} {x y : Next P} {log : Transcript} {below : List (Frame P)}
  {base : Scope}

/-- **Frames that stand on others** go in one of these ways. -/
theorem Talks.leaves (h : x.Talks E n log y) (hn : n = below.length + 1)
    (hx : x.run.Above below base) :
    Leaves below base log y := by
  induction h with
  | refl n x => exact .stay hx nofun
  | @turn n r input log y hsize h ih =>
    subst hn
    obtain ⟨top, upper, hitems, hbase⟩ := hx
    rcases r.turn_acts hitems input with ⟨hlog, hstopped, -⟩ | ⟨step, after, shared, -, hacts⟩
    · rw [hlog]
      have hleaves : Leaves below base [] (r.turn E input) := .stop hstopped nofun
      exact hleaves.trans h (ih rfl)
    · refine (hacts.leaves ?_ hbase).trans h (ih rfl)
      rw [r.frames.size_eq]
      exact congrArg List.length hitems
  | @wake n r await world wake log y ends hsize hends htakes h _ ih =>
    subst hn
    obtain ⟨top, upper, hitems, hbase⟩ := hx
    have hitems' : r.frames.items = top :: (upper ++ below) := hitems
    have hsaid : ∀ remark ∈ ([⟨r.frames.size, world.clock, .wakes wake⟩] : Transcript),
        below.length < remark.height := List.forall_mem_singleton.2 hsize
    have hgo : (r.wake world wake).run.Above below base ∨ (r.wake world wake).Stopped := by
      cases wake with
      | elapsed => exact .inl ⟨top, upper, hitems, hbase⟩
      | settled c => exact Run.above_or_stopped (Run.Sits.settled ⟨hitems', rfl, rfl⟩ world c) hbase
    exact (hgo.elim (Leaves.stay · hsaid) (.stop · hsaid)).trans h (ih rfl)

end Next

end ProgramGraph
