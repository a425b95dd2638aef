import ProgramGraph.Proofs.Evaluator.Role
import ProgramGraph.Proofs.Passage.Job
import ProgramGraph.Proofs.Solo.Basic
import ProgramGraph.Proofs.Solo.Stand
/-!
# Deterministic handlers

Handlers from outside may share data, and then what a run does may hang on what other runs
have done before. If the handlers are deterministic it does not: a task does the same
whatever the data are (`Registry.Deterministic`). So runs that differ in nothing but the
world go on alike (`Run.Level.turn`), and what becomes of a run by itself is the same in all
worlds (`Solo.level`).

A frame of a run has a task that a handler of the registry has made (`Run.Staffed`), and
nothing is assumed of other tasks.
-/

namespace ProgramGraph

variable {P : Plugins}

namespace Registry

/-- **A handler of the registry has made the task,** and it may have been resumed since. -/
inductive Makes (reg : Registry P) : Task P → Prop
  | start {tag : String} {entry : Entry P} {id : NodeId} {node : Node} {shared : P.Shared}
    {task : Task P} : reg.get tag = .ok entry →
    (entry.handler.start id node shared).1 = .ok task → Makes reg task
  | resume {task : Task P} (cx : Context) (input : Input) (shared : P.Shared) :
    Makes reg task → Makes reg (task.resume cx input shared).1.2

/-- **The handlers are deterministic:** the data that the plug-ins share have no part in
what the handlers and their tasks do. -/
structure Deterministic (reg : Registry P) : Prop where
  start : ∀ tag entry id node (shared shared' : P.Shared), reg.get tag = .ok entry →
    (entry.handler.start id node shared).1 = (entry.handler.start id node shared').1
  resume : ∀ task cx input (shared shared' : P.Shared), reg.Makes task →
    (task.resume cx input shared).1 = (task.resume cx input shared').1

/-- The same task is made, or the same error. -/
theorem Deterministic.exists_start {reg : Registry P} (h : reg.Deterministic) {tag : String}
    {entry : Entry P} (hentry : reg.get tag = .ok entry) (id : NodeId) (node : Node)
    (shared shared' : P.Shared) : ∃ made after after',
      entry.handler.start id node shared = (made, after) ∧
        entry.handler.start id node shared' = (made, after') :=
  ⟨_, _, (entry.handler.start id node shared').2, rfl,
    Prod.ext (h.start tag entry id node shared' shared hentry) rfl⟩

/-- The same step is taken. -/
theorem Deterministic.exists_resume {reg : Registry P} (h : reg.Deterministic) {task : Task P}
    (hmade : reg.Makes task) (cx : Context) (input : Input) (shared shared' : P.Shared) :
    ∃ step task' after after', task.resume cx input shared = ((step, task'), after) ∧
      task.resume cx input shared' = ((step, task'), after') :=
  ⟨_, _, _, (task.resume cx input shared').2, rfl,
    Prod.ext (h.resume task cx input shared' shared hmade) rfl⟩

/-- **The handlers of the library are deterministic.** -/
theorem Native.deterministic {reg : Registry P} (hr : reg.Native) : reg.Deterministic where
  start tag entry id node shared shared' hentry := by
    obtain ⟨handler, hhandler, -⟩ := hr.of_get hentry
    rw [hhandler]
    rfl
  resume task cx input shared shared' hmade := by
    have hbuiltin : ∃ own, task = .builtin own := by
      clear shared shared'
      induction hmade with
      | @start tag entry id node shared task hentry hstart =>
        obtain ⟨handler, hhandler, -⟩ := hr.of_get hentry
        obtain ⟨own, htask, -⟩ := Handler.exists_task_of_start hhandler (Prod.ext hstart rfl)
        exact ⟨own, htask⟩
      | resume cx input shared _ ih =>
        obtain ⟨own, rfl⟩ := ih
        exact ⟨_, rfl⟩
    obtain ⟨own, rfl⟩ := hbuiltin
    rfl

end Registry

variable {E : Engine P}

/-! ## Tasks of a run -/

namespace Run

/-- **The tasks of the frames** have been made by handlers of the registry. -/
def Staffed (E : Engine P) (r : Run P) : Prop :=
  ∀ frame ∈ r.frames.items, E.registry.Makes frame.task

variable {r : Run P}

/-- A change of the top frame that leaves its task. -/
theorem Staffed.mapTop (h : r.Staffed E) {f : Frame P → Frame P}
    (hf : ∀ frame ∈ r.frames.items, E.registry.Makes (f frame).task) :
    Staffed E { r with frames := r.frames.mapTop f } := by
  unfold Staffed
  rw [Stack.items_mapTop]
  unfold Staffed at h
  cases hitems : r.frames.items with
  | nil => exact List.forall_mem_nil _
  | cons frame rest =>
    rw [hitems] at h hf
    exact List.forall_mem_cons.2 ⟨hf frame List.mem_cons_self, (List.forall_mem_cons.1 h).2⟩

theorem Staffed.observe (h : r.Staffed E) (tainted : Bool) : (r.observe tainted).Staffed E :=
  h.mapTop (f := fun frame => { frame with tainted := frame.tainted || tainted }) h

theorem Staffed.handOver (h : r.Staffed E) (result : Except EvalError Value) :
    (r.handOver result).run.Staffed E := by
  unfold Run.handOver
  split
  next => exact h
  next =>
    split
    next => exact List.forall_mem_nil _
    next =>
      dsimp only
      split <;> exact h

theorem Staffed.answer (h : r.Staffed E) (a : Answer) : (r.answer a).run.Staffed E := by
  unfold Run.answer
  split
  next => exact h
  next => exact (h.observe a.tainted).handOver a.result

/-- A visit that pushes a frame makes a task for it. -/
theorem exists_makes_of_arrive (E : Engine P) (r : Run P) (id : NodeId) (restore : Nat) (fresh : Bool)
    (r' : Run P) (h : r.arrive E id restore fresh = (r', .pushed)) :
    ∃ frame, r'.frames.items = frame :: r.frames.items ∧ E.registry.Makes frame.task := by
  obtain ⟨node, entry, task, shared, -, hentry, hstart, hitems, -⟩ := exists_start_of_pushed h
  exact ⟨_, hitems, .start hentry (congrArg Prod.fst hstart)⟩

theorem Staffed.visit (h : r.Staffed E) (id : NodeId) (restore : Nat) (fresh : Bool) :
    (r.visit E id restore fresh).run.Staffed E := by
  have harrives := r.arrives E id restore fresh
  have hpushed := exists_makes_of_arrive E r id restore fresh
  unfold Run.visit
  generalize r.arrive E id restore fresh = arrived at harrives hpushed
  -- an answer without a frame leaves the frames as they are
  have hready : ∀ (r' : Run P) (a : Answer), r'.frames = r.frames → (r'.answer a).run.Staffed E := by
    intro r' a hframes
    refine Staffed.answer ?_ a
    unfold Staffed
    rw [hframes]
    exact h
  cases harrives with
  | started =>
    obtain ⟨frame, hitems, hmade⟩ := hpushed _ rfl
    unfold Staffed
    dsimp only [Next.run]
    rw [hitems]
    exact List.forall_mem_cons.2 ⟨hmade, h⟩
  | param => exact hready _ _ (frames_mapInnermost _ _)
  | _ => exact hready _ _ rfl

theorem Staffed.tail (h : r.Staffed E) : ∀ frame ∈ r.frames.pop.items, E.registry.Makes frame.task :=
  fun frame hmem => h frame (List.mem_of_mem_tail hmem)

theorem Staffed.serve (h : r.Staffed E) (step : Step) : (r.serve E step).run.Staffed E := by
  cases step with
  | done value =>
    refine Staffed.answer (r := (r.succeed value).1) ?_ _
    rw [Staffed, frames_succeed]
    exact h.tail
  | fail error =>
    refine Staffed.answer (r := (r.fail error).1) ?_ _
    rw [Staffed, frames_fail]
    exact h.tail
  | request request =>
    cases request with
    | child id => exact h.visit id _ _
    | under id bindings => exact Staffed.visit (r := { r with scope := r.scope.push bindings }) h id _ _
    | fresh id => exact h.visit id _ _
    | await await => exact h

theorem Staffed.resumeFrame (h : r.Staffed E) (input : Input) : (r.resumeFrame input).1.Staffed E := by
  unfold Run.resumeFrame
  split
  next => exact h
  next frame rest hitems =>
    have hframe : E.registry.Makes frame.task := h frame (by rw [hitems]; exact List.mem_cons_self)
    exact h.mapTop (f := ({ · with task := _ })) fun _ _ => hframe.resume _ _ _

/-- **A turn** leaves every task one that a handler has made. -/
theorem Staffed.turn (h : r.Staffed E) (input : Input) : (r.turn E input).run.Staffed E := by
  unfold Run.turn
  dsimp only
  split
  next => exact List.forall_mem_nil _
  next => exact Staffed.serve (Staffed.resumeFrame (r := r.countTurn) h input) _

theorem Staffed.wake (h : r.Staffed E) (world : World P) (wake : Wake) :
    (r.wake world wake).run.Staffed E := by
  cases wake with
  | elapsed => exact h
  | settled c =>
    have hmerged : ({ r with world }.mapTally (·.merge c.tally)).Staffed E := h
    exact (hmerged.observe c.tainted).handOver c.result

end Run

/-- **So does whatever comes next.** -/
theorem Next.Leads.staffed {next next' : Next P} (h : next.Leads E next')
    (hstaffed : next.run.Staffed E) : next'.run.Staffed E := by
  cases h with
  | turn r input => exact Run.Staffed.turn hstaffed input
  | wake r await world wake => exact Run.Staffed.wake hstaffed world wake

/-! ## Runs in different worlds -/

/-- **Runs that differ in the world only.** -/
structure Run.Level (r r' : Run P) : Prop where
  memo : r'.memo = r.memo
  overlays : r'.overlays = r.overlays
  scope : r'.scope = r.scope
  frames : r'.frames = r.frames
  steps : r'.steps = r.steps

/-- **The same is next** in runs that differ in the world only. -/
inductive Next.Level : Next P → Next P → Prop
  | resume {r r' : Run P} (input : Input) : r.Level r' → Level (.resume r input) (.resume r' input)
  | wait {r r' : Run P} (await : Await) : r.Level r' → Level (.wait r await) (.wait r' await)
  | finish {o o' : Outcome P} : o'.report = o.report → Level (.finish o) (.finish o')

namespace Run.Level

variable {r r' : Run P}

theorem innermost (h : r.Level r') : r'.innermost = r.innermost := by
  simp only [Run.innermost, h.overlays, h.memo]

theorem truncate (h : r.Level r') (depth : Nat) : (r.truncate depth).Level (r'.truncate depth) :=
  ⟨h.memo, h.overlays, congrArg (Scope.truncate · depth) h.scope, h.frames, h.steps⟩

theorem mapTally (h : r.Level r') (f : Tally → Tally) : (r.mapTally f).Level (r'.mapTally f) :=
  ⟨congrArg (Memo.mapTally · f) h.memo, h.overlays, h.scope, h.frames, h.steps⟩

theorem note (h : r.Level r') (event event' : Event) : (r.note event).Level (r'.note event') :=
  ⟨h.memo, h.overlays, h.scope, h.frames, h.steps⟩

theorem mapInnermost (h : r.Level r') (f : Memo → Memo) :
    (r.mapInnermost f).Level (r'.mapInnermost f) := by
  obtain ⟨hmemo, hoverlays, hscope, hframes, hsteps⟩ := h
  unfold Run.mapInnermost
  rw [hoverlays]
  split
  next => exact ⟨congrArg f hmemo, rfl, hscope, hframes, hsteps⟩
  next => exact ⟨hmemo, rfl, hscope, hframes, hsteps⟩

theorem mapTop (h : r.Level r') (f : Frame P → Frame P) :
    Level { r with frames := r.frames.mapTop f } { r' with frames := r'.frames.mapTop f } :=
  ⟨h.memo, h.overlays, h.scope, congrArg (Stack.mapTop · f) h.frames, h.steps⟩

theorem stop (h : r.Level r') (error : EvalError) : (r.stop error).Level (r'.stop error) :=
  .finish (by simp only [Outcome.report, h.memo])

theorem handOver (h : r.Level r') (result : Except EvalError Value) :
    (r.handOver result).Level (r'.handOver result) := by
  unfold Run.handOver
  split
  next => exact .resume _ h
  next =>
    split
    next => exact h.stop _
    next =>
      have hcounted := h.mapTally .countInjection
      refine .resume _ ?_
      rw [hcounted.frames]
      split
      next => exact hcounted
      next => exact hcounted.note _ _

theorem answer (h : r.Level r') (a : Answer) : (r.answer a).Level (r'.answer a) := by
  unfold Run.answer
  rw [h.frames]
  split
  next => exact .finish (by simp only [Outcome.report, h.memo])
  next => exact (h.mapTop _).handOver a.result

/-- **A visit comes to the same.** -/
theorem visit (hdet : E.registry.Deterministic) (h : r.Level r') (id : NodeId) (restore : Nat)
    (fresh : Bool) : (r.visit E id restore fresh).Level (r'.visit E id restore fresh) := by
  have htruncate := h.truncate restore
  unfold Run.visit Run.arrive
  cases E.graph.get? id with
  | none => exact htruncate.answer _
  | some node =>
    dsimp only
    cases node.param? with
    | some p =>
      dsimp only
      rw [h.scope]
      exact (((htruncate.mapTally _).mapInnermost _).note _ _).answer _
    | none =>
      dsimp only
      rw [h.innermost]
      cases (if fresh then none else r.innermost.kept? id) with
      | some value => exact ((htruncate.mapTally _).note _ _).answer _
      | none =>
        dsimp only
        cases hentry : E.registry.get node.tag with
        | error error => exact htruncate.answer _
        | ok entry =>
          obtain ⟨made, shared, shared', hmade, hmade'⟩ :=
            hdet.exists_start hentry id node r.world.shared r'.world.shared
          dsimp only
          rw [hmade, hmade']
          cases made with
          | error error =>
            have hrefused : ((r.truncate restore).withShared shared).Level
                ((r'.truncate restore).withShared shared') :=
              ⟨htruncate.memo, htruncate.overlays, htruncate.scope, htruncate.frames, htruncate.steps⟩
            exact (hrefused.note _ _).answer _
          | ok task =>
            obtain ⟨hmemo, hoverlays, hscope, hframes, hsteps⟩ := h
            refine .resume _ ?_
            rw [hoverlays, hframes]
            exact ⟨congrArg (Memo.mapTally · fun tally =>
              tally.countStart.reachDepth (r.frames.size + 1)) hmemo, rfl, hscope, rfl, hsteps⟩

theorem succeed (h : r.Level r') (value : Value) :
    (r.succeed value).1.Level (r'.succeed value).1 ∧
      (r'.succeed value).2 = (r.succeed value).2 := by
  unfold Run.succeed
  rw [h.frames]
  split
  next => exact ⟨h, rfl⟩
  next frame _ _ =>
    refine ⟨?_, rfl⟩
    obtain ⟨hmemo, hoverlays, hscope, -, hsteps⟩ := h.truncate frame.scopeDepth
    have hpopped : Level { r.truncate frame.scopeDepth with frames := r.frames.pop }
        { r'.truncate frame.scopeDepth with frames := r.frames.pop } :=
      ⟨hmemo, hoverlays, hscope, rfl, hsteps⟩
    dsimp only
    split
    next => exact ⟨hmemo, congrArg List.tail hoverlays, hscope, rfl, hsteps⟩
    next => exact hpopped.mapInnermost _

theorem fail (h : r.Level r') (error : EvalError) :
    (r.fail error).1.Level (r'.fail error).1 ∧ (r'.fail error).2 = (r.fail error).2 := by
  unfold Run.fail
  rw [h.frames]
  split
  next => exact ⟨h, rfl⟩
  next frame _ _ =>
    refine ⟨?_, rfl⟩
    obtain ⟨hmemo, hoverlays, hscope, -, hsteps⟩ := h.truncate frame.scopeDepth
    dsimp only
    split
    next => exact ⟨hmemo, congrArg List.tail hoverlays, hscope, rfl, hsteps⟩
    next => exact ⟨hmemo, hoverlays, hscope, rfl, hsteps⟩

theorem serve (hdet : E.registry.Deterministic) (h : r.Level r') (step : Step) :
    (r.serve E step).Level (r'.serve E step) := by
  cases step with
  | done value =>
    obtain ⟨hrun, hanswer⟩ := h.succeed value
    unfold Run.serve
    dsimp only
    rw [hanswer]
    exact hrun.answer _
  | fail error =>
    obtain ⟨hrun, hanswer⟩ := h.fail error
    unfold Run.serve
    dsimp only
    rw [hanswer]
    exact hrun.answer _
  | request request =>
    have hdepth : r'.scope.depth = r.scope.depth := congrArg Scope.depth h.scope
    cases request with
    | child id =>
      unfold Run.serve
      rw [hdepth]
      exact h.visit hdet id _ _
    | under id bindings =>
      have hpushed : Level { r with scope := r.scope.push bindings }
          { r' with scope := r'.scope.push bindings } :=
        ⟨h.memo, h.overlays, congrArg (Scope.push · bindings) h.scope, h.frames, h.steps⟩
      unfold Run.serve
      rw [hdepth]
      exact hpushed.visit hdet id _ _
    | fresh id =>
      unfold Run.serve
      rw [hdepth]
      exact h.visit hdet id _ _
    | await await => exact .wait await h

/-- **A task does the same.** -/
theorem resumeFrame (hdet : E.registry.Deterministic) (h : r.Level r') (hstaffed : r.Staffed E)
    (input : Input) : (r.resumeFrame input).1.Level (r'.resumeFrame input).1 ∧
      (r'.resumeFrame input).2 = (r.resumeFrame input).2 := by
  unfold Run.resumeFrame
  rw [h.frames]
  split
  next => exact ⟨h, rfl⟩
  next frame rest hitems =>
    have hframe : E.registry.Makes frame.task := hstaffed frame (by rw [hitems]; exact List.mem_cons_self)
    obtain ⟨step, task, shared, shared', hresume, hresume'⟩ :=
      hdet.exists_resume hframe ⟨frame.node, r.scope⟩ input r.world.shared r'.world.shared
    dsimp only
    rw [h.scope, hresume, hresume']
    refine ⟨?_, rfl⟩
    exact ⟨h.memo, h.overlays, h.scope, rfl, h.steps⟩

/-- **A turn comes to the same.** -/
theorem turn (hdet : E.registry.Deterministic) (h : r.Level r') (hstaffed : r.Staffed E)
    (input : Input) : (r.turn E input).Level (r'.turn E input) := by
  have hcounted : r.countTurn.Level r'.countTurn :=
    ⟨congrArg (Memo.mapTally · _) h.memo, h.overlays, h.scope, h.frames, congrArg (· + 1) h.steps⟩
  obtain ⟨hrun, hstep⟩ := hcounted.resumeFrame hdet hstaffed input
  unfold Run.turn
  dsimp only
  rw [exceeded?, exceeded?, hcounted.steps, hstep]
  split
  next => exact hcounted.stop _
  next => exact hrun.serve hdet _

/-- **What comes of a wait is the same,** whatever the worlds are by then. -/
theorem wake (h : r.Level r') (world world' : World P) (wake : Wake) :
    (r.wake world wake).Level (r'.wake world' wake) := by
  have hworld : Level { r with world } { r' with world := world' } :=
    ⟨h.memo, h.overlays, h.scope, h.frames, h.steps⟩
  cases wake with
  | elapsed => exact .resume _ hworld
  | settled c => exact ((hworld.mapTally (·.merge c.tally)).mapTop _).handOver c.result

/-- In one world after a wait the runs are one. -/
theorem wake_eq (h : r.Level r') (world : World P) (wake : Wake) :
    r'.wake world wake = r.wake world wake := by
  obtain ⟨hmemo, hoverlays, hscope, hframes, hsteps⟩ := h
  have hrun : { r' with world } = { r with world } := by
    rw [hmemo, hoverlays, hscope, hframes, hsteps]
  unfold Run.wake
  rw [hrun]

end Run.Level

/-- **The world plays no part** in what becomes of a run by itself. -/
theorem Solo.level (hdet : E.registry.Deterministic) {next : Next P} {e : Report} {d n : Nat}
    (h : Solo E next e d n) : ∀ next', next.Level next' → next.run.Staffed E → Solo E next' e d n := by
  induction h with
  | finish o =>
    intro next' hlevel _
    cases hlevel with
    | finish hreport => exact hreport ▸ .finish _
  | @resume r input e d n _ ih =>
    intro next' hlevel hstaffed
    cases hlevel with
    | resume _ hrun => exact .resume (ih _ (hrun.turn hdet hstaffed input) (hstaffed.turn input))
  | @wait r await fates wake delay e d n hlength hfates hres hwake _ _ =>
    intro next' hlevel _
    cases hlevel with
    | wait _ hrun =>
      refine .wait hlength hfates hres fun world => ?_
      rw [hrun.wake_eq]
      exact hwake world

/-! ## Jobs that end in one way -/

/-- **What may come of the wait is one thing,** whatever ends of its jobs there are. -/
def Await.Sure (E : Engine P) (await : Await) : Prop :=
  ∀ wake wake', await.Comes (Job.Ends E fun _ => True) wake →
    await.Comes (Job.Ends E fun _ => True) wake' → wake' = wake

/-- **Runs that differ in the world only go on alike,** if what comes of a wait is one thing. -/
theorem Next.Advances.level (hdet : E.registry.Deterministic) {next next' x y : Next P}
    (h : next.Advances E (fun _ => True) x) (h' : next'.Advances E (fun _ => True) y)
    (hlevel : next.Level next') (hstaffed : next.run.Staffed E)
    (hsure : ∀ r await, next = .wait r await → await.Sure E) : x.Level y := by
  cases h with
  | turn r input =>
    cases hlevel with
    | resume _ hrun =>
      cases h'
      exact hrun.turn hdet hstaffed input
  | @wake r await world wake _ hwake =>
    cases hlevel with
    | wait _ hrun =>
      cases h' with
      | wake _ hwake' =>
        rw [hsure r await rfl _ _ hwake hwake']
        exact hrun.wake world _ wake

/-- **A job ends in one way** if what may come of each of its waits is one thing, by induction
on what it does until then. -/
theorem Passes.report_eq (hdet : E.registry.Deterministic) {m : Memo} {job : Job} {o o' : Outcome P}
    (h : Passes E (fun _ => True) m job (.finish o)) (h' : Passes E (fun _ => True) m job (.finish o'))
    (hsure : ∀ r await, Passes E (fun _ => True) m job (.wait r await) → await.Sure E) :
    o'.report = o.report := by
  obtain ⟨world, hadvances⟩ := h.exists_advances
  obtain ⟨world', hadvances'⟩ := h'.exists_advances
  have hbegins : Passes E (fun _ => True) m job
      (Run.begin E { memo := m, scope := job.scope, world } job.node) := .begin trivial
  have hidle : Run.Level { memo := m, scope := job.scope, world }
      { memo := m, scope := job.scope, world := world' } := ⟨rfl, rfl, rfl, rfl, rfl⟩
  have hlevel : (Run.begin E { memo := m, scope := job.scope, world } job.node).Level
      (Run.begin E { memo := m, scope := job.scope, world := world' } job.node) :=
    hidle.visit hdet _ _ _
  have hstaffed : (Run.begin E { memo := m, scope := job.scope, world } job.node).run.Staffed E :=
    Run.Staffed.visit (r := { memo := m, scope := job.scope, world }) (List.forall_mem_nil _) _ _ _
  generalize Run.begin E { memo := m, scope := job.scope, world } job.node = next at *
  generalize Run.begin E { memo := m, scope := job.scope, world := world' } job.node = next' at *
  induction hadvances using Relation.ReflTransGen.head_induction_on generalizing next' with
  | refl =>
    cases hlevel with
    | finish hreport =>
      rcases Relation.ReflTransGen.cases_head hadvances' with heq | ⟨_, hstep, -⟩
      · cases heq
        exact hreport
      · cases hstep
  | @head next x hstep _ ih =>
    rcases Relation.ReflTransGen.cases_head hadvances' with rfl | ⟨y, hstep', hrest⟩
    · cases hlevel
      cases hstep
    · have hx : Passes E (fun _ => True) m job x := by
        cases hstep with
        | turn r input => exact hbegins.turn
        | wake hworld hwake => exact hbegins.wake_of_comes hworld hwake
      have hleads : next.Leads E x := by
        cases hstep with
        | turn r input => exact .turn r input
        | wake _ _ => exact .wake _ _ _ _
      have hlevel' : x.Level y :=
        hstep.level hdet hstep' hlevel hstaffed fun r await heq => hsure r await (heq ▸ hbegins)
      exact ih hx (hleads.staffed hstaffed) y hrest hlevel'

end ProgramGraph
