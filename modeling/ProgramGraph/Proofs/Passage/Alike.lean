import ProgramGraph.Proofs.Evaluator.Scope
import ProgramGraph.Proofs.Passage.Basic
import ProgramGraph.Proofs.Plan.Scope
import ProgramGraph.Proofs.Solo.Untied
/-!
# Runs under scopes that are alike

A run reads its scope in two ways only: it looks parameters up, and it copies all visible
bindings into the scopes of its jobs. So two runs under scopes that are alike take the same
turns, although the scopes may differ in the number of their frames and in how the bindings
are spread over them. The depths to which frames cut the scopes back differ with them; what
matters is that what is left is alike again, all the way down (`Frame.Level`).

The worlds of the two runs may differ as well, but for a lag between their clocks.
-/

namespace ProgramGraph

variable {P : Plugins} {E : Engine P}

/-! ## Jobs and waits -/

/-- **Jobs at one node** under scopes that are alike. -/
structure Job.Alike (job job' : Job) : Prop where
  node : job'.node = job.node
  scope : job.scope.Alike job'.scope

/-- The same is waited for, up to scopes that are alike. -/
inductive Await.Matches : Await → Await → Prop
  | timer (ms : Nat) (answer : Wake) : Matches (.timer ms answer) (.timer ms answer)
  | job {job job' : Job} : job.Alike job' → Matches (.job job) (.job job')
  | all {jobs jobs' : List Job} : List.Forall₂ Job.Alike jobs jobs' →
    Matches (.all jobs) (.all jobs')
  | first {job job' : Job} {others others' : List Job} : job.Alike job' →
    List.Forall₂ Job.Alike others others' → Matches (.first job others) (.first job' others')
  | deadline (ms : Nat) {job job' : Job} : job.Alike job' →
    Matches (.deadline ms job) (.deadline ms job')

/-- The same is done, up to scopes that are alike. -/
inductive Step.Matches : Step → Step → Prop
  | same (step : Step) : Matches step step
  | wait {await await' : Await} : await.Matches await' → Matches (.wait await) (.wait await')

theorem Job.Alike.refl (job : Job) : job.Alike job := ⟨rfl, .refl job.scope⟩

namespace Await.Matches

theorem refl (await : Await) : await.Matches await := by
  have hjobs : ∀ jobs, List.Forall₂ Job.Alike jobs jobs := fun jobs =>
    List.forall₂_same.2 fun job _ => .refl job
  cases await with
  | timer ms answer => exact .timer ms answer
  | job job => exact .job (.refl job)
  | all jobs => exact .all (hjobs jobs)
  | first job others => exact .first (.refl job) (hjobs others)
  | deadline ms job => exact .deadline ms (.refl job)

/-- The jobs that are asked for. -/
theorem jobs {await await' : Await} (h : await.Matches await') :
    List.Forall₂ Job.Alike await.jobs await'.jobs := by
  cases h with
  | timer ms answer => exact .nil
  | job hjob => exact .cons hjob .nil
  | all hjobs => exact hjobs
  | first hjob hothers => exact .cons hjob hothers
  | deadline ms hjob => exact .cons hjob .nil

end Await.Matches

/-! ## Tasks -/

section Tasks

variable {s t : Scope}

/-- **Jobs that are made under scopes that are alike** see the same. -/
theorem Scope.Alike.job (h : s.Alike t) (node id : NodeId) (bindings : Bindings) :
    (Context.job ⟨node, s⟩ id bindings).Alike (Context.job ⟨node, t⟩ id bindings) where
  node := rfl
  scope := ((Context.alike_job ⟨node, s⟩ id bindings).trans (h.push bindings)).trans
    (Context.alike_job ⟨node, t⟩ id bindings).symm

/-- Many jobs that are made in this way. -/
theorem Scope.Alike.jobs (h : s.Alike t) (node : NodeId) {α : Type} (items : List α)
    (at' : α → NodeId) (under : α → Bindings) :
    List.Forall₂ Job.Alike (items.map fun item => Context.job ⟨node, s⟩ (at' item) (under item))
      (items.map fun item => Context.job ⟨node, t⟩ (at' item) (under item)) := by
  rw [List.forall₂_map_left_iff, List.forall₂_map_right_iff]
  exact List.forall₂_same.2 fun item _ => h.job node (at' item) (under item)

namespace Builtin.Task

/-- A map starts the same jobs. -/
theorem proceed_matches (task : ParallelMap) (node : NodeId) (h : s.Alike t) (input : Input) :
    (task.proceed ⟨node, s⟩ input).1.Matches (task.proceed ⟨node, t⟩ input).1 := by
  unfold ParallelMap.proceed
  split
  · exact .same _
  · dsimp only
    split
    · exact .same _
    · split
      · exact .wait (.all (h.jobs node _ _ _))
      · split <;> exact .same _

/-- **Under scopes that are alike a task does the same,** and starts jobs that see the
same. -/
theorem resume_matches (task : Builtin.Task) (node : NodeId) (h : s.Alike t) (input : Input) :
    (task.resume ⟨node, s⟩ input).1.Matches (task.resume ⟨node, t⟩ input).1 := by
  cases task with
  | parMap task =>
    simp only [resume, resume.wrap, ParallelMap.resume]
    repeat' split
    all_goals first | exact proceed_matches _ node h _ | exact .same _
  | race task =>
    cases input with
    | start => exact .wait (.first (h.job node _ _) (h.jobs node _ _ _))
    | _ => exact .same _
  | timeout task =>
    cases input with
    | start => exact .wait (.deadline _ (h.job node _ _))
    | _ => exact .same _
  | _ => exact .same _

end Builtin.Task

end Tasks

/-! ## Frames -/

/-- **Frames above scopes that are alike.** They are the same but for the depths that they go
back to, and the scopes are alike wherever they are cut back to these. -/
inductive Frame.Level : Scope → Scope → List (Frame P) → List (Frame P) → Prop
  | nil {s t : Scope} : s.Alike t → Level s t [] []
  | cons {s t : Scope} (frame : Frame P) (depth : Nat) {rest rest' : List (Frame P)} :
    s.Alike t → (∃ task, frame.task = .builtin task) →
    Level (s.truncate frame.scopeDepth) (t.truncate depth) rest rest' →
    Level s t (frame :: rest) ({ frame with scopeDepth := depth } :: rest')

namespace Frame.Level

variable {s t : Scope} {frames frames' : List (Frame P)}

theorem alike (h : Level s t frames frames') : s.Alike t := by
  cases h with
  | nil h => exact h
  | cons _ _ h _ _ => exact h

theorem length_eq (h : Level s t frames frames') : frames'.length = frames.length := by
  induction h with
  | nil _ => rfl
  | cons _ _ _ _ _ ih => exact congrArg (· + 1) ih

/-- What is left of the scopes when all frames are dropped. -/
theorem alike_foldl (h : Level s t frames frames') :
    (frames.foldl (fun scope frame => scope.truncate frame.scopeDepth) s).Alike
      (frames'.foldl (fun scope frame => scope.truncate frame.scopeDepth) t) := by
  induction h with
  | nil h => exact h
  | cons _ _ _ _ _ ih => exact ih

/-- The top frames are changed in the same way. -/
theorem modifyHead (h : Level s t frames frames') {f : Frame P → Frame P}
    (hdepth : ∀ frame depth, f { frame with scopeDepth := depth } =
      { f frame with scopeDepth := depth })
    (htask : ∀ frame : Frame P, (∃ task, frame.task = .builtin task) →
      ∃ task, (f frame).task = .builtin task) :
    Level s t (frames.modifyHead f) (frames'.modifyHead f) := by
  cases h with
  | nil h => exact .nil h
  | @cons _ _ frame depth rest rest' hscope hbuiltin hrest =>
    have hsame : (f frame).scopeDepth = frame.scopeDepth := by
      have hkept := congrArg Frame.scopeDepth (hdepth frame frame.scopeDepth)
      exact hkept
    rw [List.modifyHead_cons, List.modifyHead_cons, hdepth frame depth]
    rw [← hsame] at hrest
    exact .cons (f frame) depth hscope (htask frame hbuiltin) hrest

end Frame.Level

/-! ## Runs -/

/-- **Runs that are equally far** under scopes that are alike. The clock of the second is
ahead by a lag. -/
structure Run.Alike (lag : Nat) (r r' : Run P) : Prop where
  memo : r'.memo = r.memo
  overlays : r'.overlays = r.overlays
  level : Frame.Level r.scope r'.scope r.frames.items r'.frames.items
  steps : r'.steps = r.steps
  clock : r'.world.clock = r.world.clock + lag

/-- **The same is next in both runs.** -/
inductive Next.Alike (lag : Nat) : Next P → Next P → Prop
  | resume {r r' : Run P} (input : Input) : r.Alike lag r' →
    Alike lag (.resume r input) (.resume r' input)
  | wait {r r' : Run P} {await await' : Await} : r.Alike lag r' → await.Matches await' →
    Alike lag (.wait r await) (.wait r' await')
  | finish {r r' : Run P} (result : Except EvalError Value) (tainted : Bool) : r.Alike lag r' →
    Alike lag (.finish ⟨result, tainted, r⟩) (.finish ⟨result, tainted, r'⟩)

namespace Run.Alike

variable {lag : Nat} {r r' : Run P}

theorem size_frames (h : r.Alike lag r') : r'.frames.size = r.frames.size := by
  rw [Stack.size_eq, Stack.size_eq, h.level.length_eq]

theorem innermost (h : r.Alike lag r') : r'.innermost = r.innermost := by
  simp only [Run.innermost, h.overlays, h.memo]

/-- There are frames in both, or in neither. -/
theorem frames_cases (h : r.Alike lag r') :
    (r.frames.items = [] ∧ r'.frames.items = []) ∨
      ∃ frame depth rest rest', r.frames.items = frame :: rest ∧
        r'.frames.items = { frame with scopeDepth := depth } :: rest' ∧
        (∃ task, frame.task = .builtin task) ∧
        Frame.Level (r.scope.truncate frame.scopeDepth) (r'.scope.truncate depth) rest rest' := by
  have hlevel := h.level
  generalize r.frames.items = items at hlevel ⊢
  generalize r'.frames.items = items' at hlevel ⊢
  cases hlevel with
  | nil _ => exact .inl ⟨rfl, rfl⟩
  | cons frame depth _ hbuiltin hrest => exact .inr ⟨_, _, _, _, rfl, rfl, hbuiltin, hrest⟩

theorem mapTally (h : r.Alike lag r') (f : Tally → Tally) :
    (r.mapTally f).Alike lag (r'.mapTally f) :=
  ⟨congrArg (Memo.mapTally · f) h.memo, h.overlays, h.level, h.steps, h.clock⟩

theorem note (h : r.Alike lag r') (event event' : Event) :
    (r.note event).Alike lag (r'.note event') :=
  ⟨h.memo, h.overlays, h.level, h.steps, h.clock⟩

theorem withWorld (h : r.Alike lag r') {world world' : World P}
    (hclock : world'.clock = world.clock + lag) :
    Run.Alike lag { r with world } { r' with world := world' } :=
  ⟨h.memo, h.overlays, h.level, h.steps, hclock⟩

theorem countTurn (h : r.Alike lag r') : r.countTurn.Alike lag r'.countTurn :=
  ⟨congrArg (Memo.mapTally · _) h.memo, h.overlays, h.level, congrArg (· + 1) h.steps, h.clock⟩

theorem mapInnermost (h : r.Alike lag r') (f : Memo → Memo) :
    (r.mapInnermost f).Alike lag (r'.mapInnermost f) := by
  obtain ⟨hmemo, hoverlays, hlevel, hsteps, hclock⟩ := h
  unfold Run.mapInnermost
  rw [hoverlays]
  split
  · exact ⟨congrArg f hmemo, rfl, hlevel, hsteps, hclock⟩
  · exact ⟨hmemo, rfl, hlevel, hsteps, hclock⟩

theorem observe (h : r.Alike lag r') (tainted : Bool) :
    (r.observe tainted).Alike lag (r'.observe tainted) where
  memo := h.memo
  overlays := h.overlays
  level := h.level.modifyHead (f := fun frame => { frame with tainted := frame.tainted || tainted })
    (fun _ _ => rfl) fun _ htask => htask
  steps := h.steps
  clock := h.clock

/-! ## Answers -/

theorem stop (h : r.Alike lag r') (error : EvalError) :
    (r.stop error).Alike lag (r'.stop error) :=
  .finish _ _ ⟨h.memo, rfl, .nil h.level.alike_foldl, h.steps, h.clock⟩

/-- What is handed over is handed over in both. -/
theorem handOver (h : r.Alike lag r') (result : Except EvalError Value) :
    (r.handOver result).Alike lag (r'.handOver result) := by
  cases result with
  | ok value => exact .resume _ h
  | error error =>
    unfold Run.handOver
    dsimp only
    cases error.errorValue with
    | error fatal => exact h.stop fatal
    | ok value =>
      refine .resume _ ?_
      have hcounted := h.mapTally .countInjection
      rcases h.frames_cases with ⟨hitems, hitems'⟩ | ⟨_, _, _, _, hitems, hitems', -, -⟩
      · have hnil : (r.mapTally .countInjection).frames.items = [] := hitems
        have hnil' : (r'.mapTally .countInjection).frames.items = [] := hitems'
        rw [hnil, hnil']
        exact hcounted
      · have hcons : (r.mapTally .countInjection).frames.items = _ := hitems
        have hcons' : (r'.mapTally .countInjection).frames.items = _ := hitems'
        rw [hcons, hcons']
        exact hcounted.note _ _

/-- What is answered is answered in both. -/
theorem answer (h : r.Alike lag r') (a : Answer) : (r.answer a).Alike lag (r'.answer a) := by
  rcases h.frames_cases with ⟨hitems, hitems'⟩ | ⟨_, _, _, _, hitems, hitems', -, -⟩
  · simp only [Run.answer, hitems, hitems']
    exact .finish _ _ h
  · simp only [Run.answer, hitems, hitems']
    exact (h.observe a.tainted).handOver a.result

/-! ## Ends of frames -/

/-- **The top frames end,** and the scopes go back to what was alike below them. -/
theorem leave (h : r.Alike lag r') {frame : Frame P} {depth : Nat} {rest rest' : List (Frame P)}
    (hitems : r.frames.items = frame :: rest)
    (hitems' : r'.frames.items = { frame with scopeDepth := depth } :: rest')
    (hrest : Frame.Level (r.scope.truncate frame.scopeDepth) (r'.scope.truncate depth) rest rest')
    (f : Memo → Memo) :
    (r.leave frame f).Alike lag (r'.leave { frame with scopeDepth := depth } f) := by
  have hlevel : Frame.Level (r.scope.truncate frame.scopeDepth) (r'.scope.truncate depth)
      r.frames.pop.items r'.frames.pop.items := by
    rw [Stack.items_pop, Stack.items_pop, hitems, hitems']
    exact hrest
  have hpopped : Run.Alike lag { r.truncate frame.scopeDepth with frames := r.frames.pop }
      { r'.truncate depth with frames := r'.frames.pop } :=
    ⟨h.memo, h.overlays, hlevel, h.steps, h.clock⟩
  unfold Run.leave
  cases hfresh : frame.fresh with
  | true => exact ⟨hpopped.memo, congrArg List.tail hpopped.overlays, hlevel, h.steps, h.clock⟩
  | false => exact hpopped.mapInnermost f

theorem succeed (h : r.Alike lag r') (value : Value) :
    (r.succeed value).1.Alike lag (r'.succeed value).1 ∧
      (r'.succeed value).2 = (r.succeed value).2 := by
  rcases h.frames_cases with ⟨hitems, hitems'⟩ | ⟨frame, depth, _, _, hitems, hitems', -, hrest⟩
  · simp only [Run.succeed, hitems, hitems']
    exact ⟨h, trivial⟩
  · rw [succeed_eq hitems, succeed_eq hitems']
    exact ⟨h.leave hitems hitems' hrest _, rfl⟩

theorem fail (h : r.Alike lag r') (error : EvalError) :
    (r.fail error).1.Alike lag (r'.fail error).1 ∧ (r'.fail error).2 = (r.fail error).2 := by
  rcases h.frames_cases with ⟨hitems, hitems'⟩ | ⟨frame, depth, _, _, hitems, hitems', -, hrest⟩
  · simp only [Run.fail, hitems, hitems']
    exact ⟨h, trivial⟩
  · rw [fail_eq hitems, fail_eq hitems']
    exact ⟨h.leave hitems hitems' hrest _, rfl⟩

/-! ## Visits -/

/-- **A node is visited under scopes that are alike** and are still so when they are cut
back. -/
theorem visit (hr : E.registry.Native) {restore restore' : Nat}
    (h : (r.truncate restore).Alike lag (r'.truncate restore')) (hscope : r.scope.Alike r'.scope)
    (id : NodeId) (fresh : Bool) :
    (r.visit E id restore fresh).Alike lag (r'.visit E id restore' fresh) := by
  have hinner : (if fresh then none else r'.innermost.kept? id) =
      if fresh then none else r.innermost.kept? id := by
    have hsame : r'.innermost = r.innermost := h.innermost
    rw [hsame]
  have hserved : ∀ {node : Node} {value : Value}, E.graph.get? id = some node →
      node.param? = none → (if fresh then none else r.innermost.kept? id) = some value →
      (r.visit E id restore fresh).Alike lag (r'.visit E id restore' fresh) := by
    intro node value hnode hparam hkept
    rw [Engine.visit_of_kept hnode hparam hkept,
      Engine.visit_of_kept hnode hparam (hinner.trans hkept)]
    exact ((h.mapTally _).note _ _).answer _
  have hconcurs : E.Concurs E (fun _ task task' => task' = task) id :=
    Engine.concurs_of_get? hr rfl rfl fun _ _ _ => rfl
  cases hconcurs with
  | absent hnode =>
    simp only [Run.visit, Run.arrive, hnode]
    exact h.answer _
  | @param node _ p hnode _ hparam _ =>
    simp only [Run.visit, Run.arrive, hnode, hparam, hscope p]
    exact (((h.mapTally _).mapInnermost _).note _ _).answer _
  | refused hrefuses _ =>
    cases hkept : if fresh then none else r.innermost.kept? id with
    | some value =>
      obtain ⟨node, hnode, hparam, -⟩ := hrefuses
      exact hserved hnode hparam hkept
    | none =>
      obtain ⟨r₁, hvisit, h₁⟩ := hrefuses.visit restore hkept
      obtain ⟨r₁', hvisit', h₁'⟩ := hrefuses.visit restore' (hinner.trans hkept)
      rw [hvisit, hvisit']
      refine Run.Alike.answer ?_ _
      rcases h₁ with rfl | ⟨event, rfl⟩ <;> rcases h₁' with rfl | ⟨event', rfl⟩ <;>
        exact ⟨h.memo, h.overlays, h.level, h.steps, h.clock⟩
  | started hstarts _ _ =>
    cases hkept : if fresh then none else r.innermost.kept? id with
    | some value =>
      obtain ⟨node, entry, handler, hnode, hparam, -⟩ := hstarts
      exact hserved hnode hparam hkept
    | none =>
      have hoverlays : r'.overlays = r.overlays := h.overlays
      have hsize : r'.frames.size = r.frames.size := h.size_frames
      rw [hstarts.visit hkept, hstarts.visit (hinner.trans hkept), hsize, hoverlays]
      refine .resume _ (.note (.mapTally ?_ _) _ _)
      exact ⟨h.memo, rfl, .cons _ restore' hscope ⟨_, rfl⟩ h.level, h.steps, h.clock⟩

/-- **Steps of tasks are served alike.** -/
theorem serve (hr : E.registry.Native) (h : r.Alike lag r') {step step' : Step}
    (hstep : step.Matches step') : (r.serve E step).Alike lag (r'.serve E step') := by
  have hback : (r.truncate r.scope.depth).Alike lag (r'.truncate r'.scope.depth) := by
    refine ⟨h.memo, h.overlays, ?_, h.steps, h.clock⟩
    simp only [Run.truncate, Scope.truncate_depth]
    exact h.level
  cases hstep with
  | wait hawait => exact .wait h hawait
  | same =>
    cases step with
    | done value =>
      obtain ⟨hpopped, hanswer⟩ := h.succeed value
      simp only [Run.serve, hanswer]
      exact hpopped.answer _
    | fail error =>
      obtain ⟨hpopped, hanswer⟩ := h.fail error
      simp only [Run.serve, hanswer]
      exact hpopped.answer _
    | request request =>
      cases request with
      | child id => exact visit hr hback h.level.alike id false
      | under id bindings =>
        refine visit hr ?_ (h.level.alike.push bindings) id false
        refine ⟨h.memo, h.overlays, ?_, h.steps, h.clock⟩
        simp only [Run.truncate, Scope.truncate_push]
        exact h.level
      | fresh id => exact visit hr hback h.level.alike id true
      | await await => exact .wait h (.refl await)

/-! ## Turns -/

/-- **The top frames are resumed,** and their tasks do the same. -/
theorem resumeFrame (h : r.Alike lag r') (input : Input) :
    (r.resumeFrame input).1.Alike lag (r'.resumeFrame input).1 ∧
      (r.resumeFrame input).2.Matches (r'.resumeFrame input).2 := by
  rcases h.frames_cases with ⟨hitems, hitems'⟩ |
    ⟨frame, depth, rest, rest', hitems, hitems', ⟨task, htask⟩, hrest⟩
  · simp only [Run.resumeFrame, hitems, hitems']
    exact ⟨h, .same _⟩
  · have hscope := h.level.alike
    have hafter := (task.resume_alike frame.node r.scope r'.scope input).2
    rw [resumeFrame_of_builtin hitems htask, resumeFrame_of_builtin hitems' htask]
    refine ⟨⟨h.memo, h.overlays, ?_, h.steps, h.clock⟩, task.resume_matches frame.node hscope input⟩
    simp only [Run.note, Stack.items_mapTop, hitems, hitems', List.modifyHead_cons, ← hafter]
    exact .cons _ depth hscope ⟨_, rfl⟩ hrest

/-- **Both runs take a turn.** -/
theorem turn (hr : E.registry.Native) (h : r.Alike lag r') (input : Input) :
    (r.turn E input).Alike lag (r'.turn E input) := by
  have hcounted := h.countTurn
  have hexceeded : r'.countTurn.exceeded? E.limits = r.countTurn.exceeded? E.limits := by
    simp only [exceeded?, hcounted.steps]
  cases hlimit : r.countTurn.exceeded? E.limits with
  | some limit =>
    rw [turn_of_exceeded hlimit, turn_of_exceeded (hexceeded.trans hlimit)]
    exact hcounted.stop _
  | none =>
    rw [turn_of_within hlimit, turn_of_within (hexceeded.trans hlimit)]
    obtain ⟨hresumed, hstep⟩ := hcounted.resumeFrame input
    exact hresumed.serve hr hstep

/-- **Both runs go on** after a wait that the same has come of. -/
theorem wake (h : r.Alike lag r') {world world' : World P}
    (hclock : world'.clock = world.clock + lag) (wake : Wake) :
    (r.wake world wake).Alike lag (r'.wake world' wake) := by
  have hwoken := h.withWorld hclock
  cases wake with
  | elapsed => exact .resume _ hwoken
  | settled c => exact ((hwoken.mapTally (·.merge c.tally)).observe c.tainted).handOver c.result

/-- **Both runs begin.** -/
theorem begin (hr : E.registry.Native) {s t : Scope} (h : s.Alike t) (root : NodeId) (memo : Memo)
    {world world' : World P} (hclock : world'.clock = world.clock + lag) :
    (Run.begin E { memo, scope := s, world } root).Alike lag
      (Run.begin E { memo, scope := t, world := world' } root) := by
  have hback : Run.Alike lag (({ memo, scope := s, world } : Run P).truncate s.depth)
      (({ memo, scope := t, world := world' } : Run P).truncate t.depth) := by
    refine ⟨rfl, rfl, ?_, rfl, hclock⟩
    simp only [Run.truncate, Scope.truncate_depth]
    exact .nil h
  exact visit hr hback h root false

end Run.Alike

end ProgramGraph
