import ProgramGraph.Proofs.Solo.Fare
import ProgramGraph.Proofs.Solo.Stand
/-!
# One engine mimics another

Two engines with graphs of their own may do the same without doing it in the same way.
The tasks that evaluate a node may differ, as long as they answer alike; and where they
wait for different jobs, what comes of the one wait must come of the other. Whatever
becomes of a run of the first engine then becomes of a run of the second that stands
where it stands (`Solo.mimic`).

Runs that stand in the same place may see different worlds, for no handler of the
library looks at the world. So a special case says that the world plays no part at all
(`Solo.congr`).
-/

namespace ProgramGraph

variable {P : Plugins}

/-- How the tasks of a node in one engine go with those in the other. -/
abbrev Pairing := NodeId → Builtin.Task → Builtin.Task → Prop

/-! ## Runs that stand in the same place -/

/-- Frames that differ in their tasks, which go with each other. -/
def Frame.Like (R : Pairing) (f f' : Frame P) : Prop :=
  ∃ task task', f.task = .builtin task ∧ f' = { f with task := .builtin task' } ∧
    R f.node task task'

/-- **Runs that stand in the same place:** they differ in the tasks of their frames and
in the world. -/
structure Run.Like (R : Pairing) (r r' : Run P) : Prop where
  memo : r'.memo = r.memo
  overlays : r'.overlays = r.overlays
  scope : r'.scope = r.scope
  steps : r'.steps = r.steps
  frames : List.Forall₂ (Frame.Like R) r.frames.items r'.frames.items

namespace Run.Like

variable {R : Pairing} {r r' : Run P}

theorem size_frames (h : r.Like R r') : r'.frames.size = r.frames.size := by
  rw [Stack.size_eq, Stack.size_eq, h.frames.length_eq]

theorem innermost (h : r.Like R r') : r'.innermost = r.innermost := by
  simp only [Run.innermost, h.overlays, h.memo]

/-- There are frames in both, or in neither. -/
theorem frames_cases (h : r.Like R r') :
    (r.frames.items = [] ∧ r'.frames.items = []) ∨
      ∃ frame frame' rest rest', r.frames.items = frame :: rest ∧
        r'.frames.items = frame' :: rest' ∧ frame.Like R frame' ∧
        List.Forall₂ (Frame.Like R) rest rest' := by
  have hframes := h.frames
  generalize r.frames.items = items at hframes ⊢
  generalize r'.frames.items = items' at hframes ⊢
  cases hframes with
  | nil => exact .inl ⟨rfl, rfl⟩
  | cons hframe hrest => exact .inr ⟨_, _, _, _, rfl, rfl, hframe, hrest⟩

/-- The task on top in a run that stands where it stands itself. -/
theorem exists_task (h : r.Like R r) {frame : Frame P} {rest : List (Frame P)}
    (hitems : r.frames.items = frame :: rest) :
    ∃ task, frame.task = .builtin task ∧ R frame.node task task := by
  rcases h.frames_cases with ⟨hnil, -⟩ | ⟨_, _, _, _, hcons, hcons', hframe, -⟩
  · rw [hitems] at hnil
    cases hnil
  · rw [hitems] at hcons hcons'
    cases hcons
    cases hcons'
    obtain ⟨task, task', htask, hsame, hpair⟩ := hframe
    rw [hsame] at htask
    cases htask
    exact ⟨task, congrArg Frame.task hsame, hpair⟩

theorem truncate (h : r.Like R r') (depth : Nat) : (r.truncate depth).Like R (r'.truncate depth) :=
  ⟨h.memo, h.overlays, congrArg (Scope.truncate · depth) h.scope, h.steps, h.frames⟩

theorem mapTally (h : r.Like R r') (f : Tally → Tally) : (r.mapTally f).Like R (r'.mapTally f) :=
  ⟨congrArg (Memo.mapTally · f) h.memo, h.overlays, h.scope, h.steps, h.frames⟩

theorem note (h : r.Like R r') (event event' : Event) : (r.note event).Like R (r'.note event') :=
  ⟨h.memo, h.overlays, h.scope, h.steps, h.frames⟩

theorem withWorld (h : r.Like R r') (world world' : World P) :
    Run.Like R { r with world } { r' with world := world' } :=
  ⟨h.memo, h.overlays, h.scope, h.steps, h.frames⟩

theorem withScope (h : r.Like R r') (scope : Scope) :
    Run.Like R { r with scope } { r' with scope } :=
  ⟨h.memo, h.overlays, rfl, h.steps, h.frames⟩

theorem mapInnermost (h : r.Like R r') (f : Memo → Memo) :
    (r.mapInnermost f).Like R (r'.mapInnermost f) := by
  obtain ⟨hmemo, hoverlays, hscope, hsteps, hframes⟩ := h
  unfold Run.mapInnermost
  rw [hoverlays]
  split
  · exact ⟨congrArg f hmemo, rfl, hscope, hsteps, hframes⟩
  · exact ⟨hmemo, rfl, hscope, hsteps, hframes⟩

theorem countTurn (h : r.Like R r') : r.countTurn.Like R r'.countTurn :=
  ⟨congrArg (Memo.mapTally · _) h.memo, h.overlays, h.scope, congrArg (· + 1) h.steps, h.frames⟩

end Run.Like

/-! ## Waits that come to the same -/

/-- **One wait does for another in another engine:** whatever comes of the first, if its
jobs fare there as they do here, comes of the second there, after the same time. -/
def Await.Trades (E E' : Engine P) (await await' : Await) : Prop :=
  ∀ fates fates' wake delay, List.Forall₂ E.Fares await.jobs fates →
    List.Forall₂ E'.Fares await.jobs fates' → fates'.map Fate.ending = fates.map Fate.ending →
    await.Resolves (fates.map Fate.ending) wake delay →
    ∃ fates'', List.Forall₂ E'.Fares await'.jobs fates'' ∧
      await'.Resolves (fates''.map Fate.ending) wake delay

/-- The task on top may be told that its time is up. -/
def Run.Late (late : NodeId → Prop) (r : Run P) : Prop :=
  ∀ frame rest, r.frames.items = frame :: rest → late frame.node

/-- **Runs that are equally far.** If one of them waits for something else than the
other, it is said for what. A task is told that its time is up only if it may be. -/
inductive Next.Like (R : Pairing) (late : NodeId → Prop) (E E' : Engine P) :
    Option Await → Next P → Next P → Prop
  | resume {r r' : Run P} (input : Input) : r.Like R r' → (input = .elapsed → r.Late late) →
    Like R late E E' none (.resume r input) (.resume r' input)
  | wait {r r' : Run P} (await : Await) : r.Like R r' → r.Late late →
    Like R late E E' none (.wait r await) (.wait r' await)
  | trade {r r' : Run P} {await await' : Await} : r.Like R r' → await.Trades E E' await' →
    (∀ fates delay, List.Forall₂ E.Fares await.jobs fates →
      await.Resolves (fates.map Fate.ending) .elapsed delay → r.Late late) →
    Like R late E E' (some await') (.wait r await) (.wait r' await')
  | finish {o o' : Outcome P} : o'.report = o.report → Like R late E E' none (.finish o) (.finish o')

namespace Run.Like

variable {R : Pairing} {late : NodeId → Prop} {r r' : Run P} {E E' : Engine P}

theorem observe (h : r.Like R r') (tainted : Bool) :
    (r.observe tainted).Like R (r'.observe tainted) := by
  refine ⟨h.memo, h.overlays, h.scope, h.steps, ?_⟩
  simp only [Run.observe, Stack.items_mapTop]
  rcases h.frames_cases with ⟨hitems, hitems'⟩ |
    ⟨frame, _, rest, rest', hitems, hitems', ⟨task, task', htask, rfl, hpair⟩, hrest⟩
  · rw [hitems, hitems']
    exact .nil
  · rw [hitems, hitems']
    exact .cons ⟨task, task', htask, rfl, hpair⟩ hrest

theorem stop (h : r.Like R r') (error : EvalError) :
    Next.Like R late E E' none (r.stop error) (r'.stop error) :=
  .finish (by simp only [Outcome.report, h.memo])

/-- What is handed over is handed over in both. -/
theorem handOver (h : r.Like R r') (result : Except EvalError Value) :
    Next.Like R late E E' none (r.handOver result) (r'.handOver result) := by
  cases result with
  | ok value => exact .resume _ h nofun
  | error error =>
    unfold Run.handOver
    dsimp only
    cases error.errorValue with
    | error fatal => exact h.stop fatal
    | ok value =>
      -- that there are as many frames in both makes no difference but to what is noted
      refine .resume _ ?_ nofun
      obtain ⟨hmemo, hoverlays, hscope, hsteps, hframes⟩ := h.mapTally .countInjection
      split <;> split <;> exact ⟨hmemo, hoverlays, hscope, hsteps, hframes⟩

/-- What is answered is answered in both. -/
theorem answer (h : r.Like R r') (a : Answer) :
    Next.Like R late E E' none (r.answer a) (r'.answer a) := by
  rcases h.frames_cases with ⟨hitems, hitems'⟩ | ⟨_, _, _, _, hitems, hitems', -⟩
  · simp only [Run.answer, hitems, hitems']
    exact .finish (by simp only [Outcome.report, h.memo])
  · simp only [Run.answer, hitems, hitems']
    exact (h.observe a.tainted).handOver a.result

/-- The end of the top frame. -/
theorem succeed (h : r.Like R r') (value : Value) :
    (r.succeed value).1.Like R (r'.succeed value).1 ∧
      (r'.succeed value).2 = (r.succeed value).2 := by
  rcases h.frames_cases with ⟨hitems, hitems'⟩ |
    ⟨frame, _, rest, rest', hitems, hitems', ⟨task, task', htask, rfl, hpair⟩, hrest⟩
  · simp only [Run.succeed, hitems, hitems']
    exact ⟨h, trivial⟩
  · have hpop : List.Forall₂ (Frame.Like R) r.frames.pop.items r'.frames.pop.items := by
      rw [Stack.items_pop, Stack.items_pop, hitems, hitems']
      exact hrest
    have htruncate := h.truncate frame.scopeDepth
    have hpopped : Run.Like R { r.truncate frame.scopeDepth with frames := r.frames.pop }
        { r'.truncate frame.scopeDepth with frames := r'.frames.pop } :=
      ⟨htruncate.memo, htruncate.overlays, htruncate.scope, htruncate.steps, hpop⟩
    simp only [Run.succeed, hitems, hitems']
    split
    · exact ⟨⟨hpopped.memo, congrArg List.tail hpopped.overlays, hpopped.scope, hpopped.steps,
        hpopped.frames⟩, trivial⟩
    · exact ⟨hpopped.mapInnermost _, trivial⟩

theorem fail (h : r.Like R r') (error : EvalError) :
    (r.fail error).1.Like R (r'.fail error).1 ∧ (r'.fail error).2 = (r.fail error).2 := by
  rcases h.frames_cases with ⟨hitems, hitems'⟩ |
    ⟨frame, _, rest, rest', hitems, hitems', ⟨task, task', htask, rfl, hpair⟩, hrest⟩
  · simp only [Run.fail, hitems, hitems']
    exact ⟨h, trivial⟩
  · have hpop : List.Forall₂ (Frame.Like R) r.frames.pop.items r'.frames.pop.items := by
      rw [Stack.items_pop, Stack.items_pop, hitems, hitems']
      exact hrest
    have htruncate := h.truncate frame.scopeDepth
    simp only [Run.fail, hitems, hitems']
    split
    · exact ⟨⟨htruncate.memo, congrArg List.tail htruncate.overlays, htruncate.scope,
        htruncate.steps, hpop⟩, trivial⟩
    · exact ⟨⟨htruncate.memo, htruncate.overlays, htruncate.scope, htruncate.steps, hpop⟩, trivial⟩

/-- What comes after a wait. -/
theorem wake (h : r.Like R r') (world world' : World P) {wake : Wake}
    (hlate : wake = .elapsed → r.Late late) :
    Next.Like R late E E' none (r.wake world wake) (r'.wake world' wake) := by
  have hwoken := h.withWorld world world'
  cases wake with
  | elapsed => exact .resume _ hwoken fun _ => hlate rfl
  | settled c => exact ((hwoken.mapTally (·.merge c.tally)).observe c.tainted).handOver c.result

end Run.Like

/-! ## Engines that do the same -/

namespace Engine

variable (E E' : Engine P) (R : Pairing) (id : NodeId)

/-- There is no task for the node, and it comes to an error at once. -/
def Refuses (error : EvalError) (volatile : Bool) : Prop :=
  ∃ node, E.graph.get? id = some node ∧ node.param? = none ∧
    (E.registry.get node.tag = .error error ∧ volatile = false ∨
      ∃ entry handler, E.registry.get node.tag = .ok entry ∧ entry.handler = .builtin handler ∧
        handler.start id node = .error error ∧ entry.volatile = volatile)

/-- **Two engines deal with a node alike:** in both it is the same parameter, or it is
refused for the same reason, or there are tasks that go with each other. -/
inductive Concurs : Prop
  | absent : E.graph.get? id = none → E'.graph.get? id = none → Concurs
  | param {node node' : Node} {p : ParamId} : E.graph.get? id = some node →
    E'.graph.get? id = some node' → node.param? = some p → node'.param? = some p → Concurs
  | refused {error : EvalError} {volatile : Bool} : E.Refuses id error volatile →
    E'.Refuses id error volatile → Concurs
  | started {task task' : Builtin.Task} {volatile : Bool} : E.Starts id task volatile →
    E'.Starts id task' volatile → R id task task' → Concurs

variable {E E' R id}

/-- A visit to a node that is kept, if it is no parameter. -/
theorem visit_of_kept {r : Run P} {node : Node} {restore : Nat} {fresh : Bool} {value : Value}
    (hnode : E.graph.get? id = some node) (hparam : node.param? = none)
    (hkept : (if fresh then none else r.innermost.kept? id) = some value) :
    r.visit E id restore fresh =
      (((r.truncate restore).mapTally .countHit).note (.served id)).answer ⟨.ok value, false⟩ := by
  simp only [Run.visit, Run.arrive, hnode, hparam, hkept]

/-- A visit to a node that is refused. -/
theorem Refuses.visit {error : EvalError} {volatile : Bool} (h : E.Refuses id error volatile)
    {r : Run P} (restore : Nat) {fresh : Bool}
    (hkept : (if fresh then none else r.innermost.kept? id) = none) :
    ∃ r₁ : Run P, r.visit E id restore fresh = r₁.answer ⟨.error error, volatile⟩ ∧
      (r₁ = r.truncate restore ∨ ∃ event, r₁ = (r.truncate restore).note event) := by
  obtain ⟨node, hnode, hparam, ⟨hget, rfl⟩ | ⟨entry, handler, hget, hhandler, hstart, rfl⟩⟩ := h
  · exact ⟨_, by simp only [Run.visit, Run.arrive, hnode, hparam, hkept, hget], .inl rfl⟩
  · refine ⟨_, ?_, .inr ⟨.started id fresh false, rfl⟩⟩
    simp only [Run.visit, Run.arrive, hnode, hparam, hkept, hget, Handler.start, hhandler, hstart]
    rfl

/-- A visit to a node that gets a task. -/
theorem Starts.visit {task : Builtin.Task} {volatile : Bool} (h : E.Starts id task volatile)
    {r : Run P} {restore : Nat} {fresh : Bool}
    (hkept : (if fresh then none else r.innermost.kept? id) = none) :
    r.visit E id restore fresh = .resume
      (({ r with
          frames := r.frames.push ⟨id, .builtin task, volatile, false, restore, fresh⟩
          overlays := if fresh then .empty :: r.overlays else r.overlays }.mapTally
            fun tally => tally.countStart.reachDepth (r.frames.size + 1)).note
        (.started id fresh true)) .start := by
  obtain ⟨node, entry, handler, hnode, hparam, hget, hhandler, hstart, rfl⟩ := h
  simp only [Run.visit, Run.arrive, hnode, hparam, hkept, hget, Handler.start, hhandler, hstart]
  rfl

end Engine

namespace Run.Like

variable {R : Pairing} {late : NodeId → Prop} {r r' : Run P} {E E' : Engine P} {id : NodeId}

/-- **Visits go alike** where the engines deal with the node alike. -/
theorem visit (h : r.Like R r') (hid : E.Concurs E' R id) (restore : Nat) (fresh : Bool) :
    Next.Like R late E E' none (r.visit E id restore fresh) (r'.visit E' id restore fresh) := by
  have htruncate := h.truncate restore
  have hinner : ∀ fresh : Bool, (if fresh then none else r'.innermost.kept? id) =
      if fresh then none else r.innermost.kept? id := by
    intro fresh
    rw [h.innermost]
  have hserved : ∀ {node node' : Node} {value : Value}, E.graph.get? id = some node →
      E'.graph.get? id = some node' → node.param? = none → node'.param? = none →
      (if fresh then none else r.innermost.kept? id) = some value →
      Next.Like R late E E' none (r.visit E id restore fresh) (r'.visit E' id restore fresh) := by
    intro node node' value hnode hnode' hparam hparam' hkept
    rw [Engine.visit_of_kept hnode hparam hkept,
      Engine.visit_of_kept hnode' hparam' ((hinner fresh).trans hkept)]
    exact ((htruncate.mapTally _).note _ _).answer _
  cases hid with
  | absent hnode hnode' =>
    simp only [Run.visit, Run.arrive, hnode, hnode']
    exact htruncate.answer _
  | param hnode hnode' hparam hparam' =>
    simp only [Run.visit, Run.arrive, hnode, hnode', hparam, hparam', h.scope]
    exact (((htruncate.mapTally _).mapInnermost _).note _ _).answer _
  | refused hrefuses hrefuses' =>
    cases hkept : if fresh then none else r.innermost.kept? id with
    | some value =>
      obtain ⟨node, hnode, hparam, -⟩ := hrefuses
      obtain ⟨node', hnode', hparam', -⟩ := hrefuses'
      exact hserved hnode hnode' hparam hparam' hkept
    | none =>
      obtain ⟨r₁, hvisit, h₁⟩ := hrefuses.visit restore hkept
      obtain ⟨r₁', hvisit', h₁'⟩ := hrefuses'.visit restore ((hinner fresh).trans hkept)
      rw [hvisit, hvisit']
      refine Run.Like.answer ?_ _
      rcases h₁ with rfl | ⟨event, rfl⟩ <;> rcases h₁' with rfl | ⟨event', rfl⟩ <;>
        exact ⟨htruncate.memo, htruncate.overlays, htruncate.scope, htruncate.steps,
          htruncate.frames⟩
  | started hstarts hstarts' hpair =>
    cases hkept : if fresh then none else r.innermost.kept? id with
    | some value =>
      obtain ⟨node, entry, handler, hnode, hparam, -⟩ := hstarts
      obtain ⟨node', entry', handler', hnode', hparam', -⟩ := hstarts'
      exact hserved hnode hnode' hparam hparam' hkept
    | none =>
      rw [hstarts.visit hkept, hstarts'.visit ((hinner fresh).trans hkept), h.size_frames,
        h.overlays]
      refine .resume _ (.note (.mapTally ?_ _) _ _) (by rintro ⟨⟩)
      exact ⟨h.memo, rfl, h.scope, h.steps, .cons ⟨_, _, rfl, rfl, hpair⟩ h.frames⟩

/-- Steps are served alike. -/
theorem serve (h : r.Like R r') (hid : ∀ id, E.Concurs E' R id) {step : Step}
    (hlate : ∀ await, step = .wait await → r.Late late) :
    Next.Like R late E E' none (r.serve E step) (r'.serve E' step) := by
  cases step with
  | done value =>
    obtain ⟨hlike, hanswer⟩ := h.succeed value
    simp only [Run.serve, hanswer]
    exact hlike.answer _
  | fail error =>
    obtain ⟨hlike, hanswer⟩ := h.fail error
    simp only [Run.serve, hanswer]
    exact hlike.answer _
  | request request =>
    cases request with
    | child id =>
      simp only [Run.serve, h.scope]
      exact h.visit (hid id) _ false
    | under id bindings =>
      simp only [Run.serve, h.scope]
      exact (h.withScope _).visit (hid id) _ false
    | fresh id =>
      simp only [Run.serve, h.scope]
      exact h.visit (hid id) _ true
    | await await => exact .wait await h (hlate await rfl)

end Run.Like

/-- **Steps of tasks that go with each other:** they are the same, or waits of which
one does for the other. -/
def Step.Like (E E' : Engine P) (late : Prop) : Option Await → Step → Step → Prop
  | none, step, step' => step' = step ∧ ((∃ await, step = .wait await) → late)
  | some await', step, step' =>
    ∃ await, step = .wait await ∧ step' = .wait await' ∧ await.Trades E E' await' ∧
      ∀ fates delay, List.Forall₂ E.Fares await.jobs fates →
        await.Resolves (fates.map Fate.ending) .elapsed delay → late

/-- **The top frames are resumed** in both, and their tasks go with each other. -/
theorem Run.Like.resumeFrame {R : Pairing} {r r' : Run P} (h : r.Like R r') {frame : Frame P}
    {rest : List (Frame P)} (hitems : r.frames.items = frame :: rest) {input : Input}
    (hafter : ∀ task task', R frame.node task task' →
      R frame.node (task.resume ⟨frame.node, r.scope⟩ input).2
        (task'.resume ⟨frame.node, r.scope⟩ input).2) :
    ∃ task task', R frame.node task task' ∧
      (r.resumeFrame input).1.Like R (r'.resumeFrame input).1 ∧
      (r.resumeFrame input).2 = (task.resume ⟨frame.node, r.scope⟩ input).1 ∧
      (r'.resumeFrame input).2 = (task'.resume ⟨frame.node, r.scope⟩ input).1 := by
  rcases h.frames_cases with ⟨hnil, -⟩ |
    ⟨_, _, _, rest', hcons, hitems', ⟨task, task', htask, rfl, hpair⟩, hrest⟩
  · rw [hitems] at hnil
    cases hnil
  rw [hitems] at hcons
  cases hcons
  rw [Run.resumeFrame_of_builtin hitems htask, Run.resumeFrame_of_builtin hitems' rfl, h.scope]
  refine ⟨task, task', hpair, ⟨h.memo, h.overlays, rfl, h.steps, ?_⟩, rfl, rfl⟩
  simp only [Run.note, Stack.items_mapTop, hitems, hitems', List.modifyHead_cons]
  exact .cons ⟨_, _, rfl, rfl, hafter task task' hpair⟩ hrest

/-- **One engine mimics another** as long as every node is evaluated where it may be,
and told that its time is up only if it may be. Where the other engine waits for
something else is told from the node, the scope and the input. -/
structure Engine.Mimics (E E' : Engine P) (R : Pairing) (late : NodeId → Prop)
    (other : NodeId → Scope → Input → Option Await) (allowed : NodeId → Scope → Prop) : Prop where
  limits : E'.limits = E.limits
  concurs : ∀ id, E.Concurs E' R id
  resume : ∀ id task task' s input, R id task task' →
    R id (task.resume ⟨id, s⟩ input).2 (task'.resume ⟨id, s⟩ input).2 ∧
      ((input = .start → allowed id s) → (input = .elapsed → late id) →
        Step.Like E E' (late id) (other id s input) (task.resume ⟨id, s⟩ input).1
          (task'.resume ⟨id, s⟩ input).1)

variable {R : Pairing} {late : NodeId → Prop} {r r' : Run P} {E E' : Engine P}
  {other : NodeId → Scope → Input → Option Await} {allowed : NodeId → Scope → Prop}

/-- **A turn goes alike** in both. What the second run waits for, if it is something
else, hangs on the first alone. -/
theorem Engine.Mimics.turn (hm : E.Mimics E' R late other allowed) (r : Run P) (input : Input)
    (hallowed : input = .start → ∀ frame rest, r.frames.items = frame :: rest →
      allowed frame.node r.scope)
    (hlate : input = .elapsed → r.Late late) :
    ∃ await?, (await? = none ∨ ∃ id s, await? = other id s input) ∧
      ∀ r', r.Like R r' → Next.Like R late E E' await? (r.turn E input) (r'.turn E' input) := by
  have hexceeds : ∀ r', r.Like R r' →
      r'.countTurn.exceeded? E'.limits = r.countTurn.exceeded? E.limits := fun r' h => by
    rw [Run.exceeded?, Run.exceeded?, hm.limits, h.countTurn.steps]
  cases hexceeded : r.countTurn.exceeded? E.limits with
  | some limit =>
    refine ⟨none, .inl rfl, fun r' h => ?_⟩
    rw [Run.turn_of_exceeded hexceeded, Run.turn_of_exceeded ((hexceeds r' h).trans hexceeded)]
    exact h.countTurn.stop _
  | none =>
  have hserve := Run.turn_of_within hexceeded input
  have hserves := fun r' h => Run.turn_of_within ((hexceeds r' h).trans hexceeded) input
  cases hitems : r.frames.items with
  | nil =>
    refine ⟨none, .inl rfl, fun r' h => ?_⟩
    have hcount := h.countTurn
    have hnil : r.countTurn.frames.items = [] := hitems
    rcases hcount.frames_cases with ⟨-, hnil'⟩ | ⟨_, _, _, _, hcons, -⟩
    · rw [hserves r' h, hserve]
      simp only [Run.resumeFrame, hnil, hnil']
      refine hcount.serve hm.concurs ?_
      rintro await ⟨⟩
    · rw [hnil] at hcons
      cases hcons
  | cons frame rest =>
    refine ⟨other frame.node r.scope input, .inr ⟨_, _, rfl⟩, fun r' h => ?_⟩
    have hcons : r.countTurn.frames.items = frame :: rest := hitems
    obtain ⟨task, task', hpair, hresumed, hstep, hstep'⟩ := h.countTurn.resumeFrame hcons
      fun task task' hpair => (hm.resume frame.node task task' r.scope input hpair).1
    have hlike := (hm.resume frame.node task task' r.scope input hpair).2
      (fun hstart => hallowed hstart frame rest hitems) fun helapsed => hlate helapsed frame rest hitems
    -- the frame is on top until the step has been served
    have hlater : late frame.node → (r.countTurn.resumeFrame input).1.Late late := by
      obtain ⟨after, shared, -, hafter⟩ := Run.exists_resumeFrame hcons input
      intro hlate frame' rest' hitems'
      rw [hafter] at hitems'
      cases hitems'
      exact hlate
    have hscope : r.countTurn.scope = r.scope := rfl
    rw [hserves r' h, hserve, hstep, hstep', hscope]
    cases hother : other frame.node r.scope input with
    | none =>
      rw [hother] at hlike
      obtain ⟨hsame, hwaits⟩ := hlike
      rw [hsame]
      exact hresumed.serve hm.concurs fun await hawait => hlater (hwaits ⟨await, hawait⟩)
    | some await' =>
      rw [hother] at hlike
      obtain ⟨await, hwait, hwait', htrades, hup⟩ := hlike
      rw [hwait, hwait']
      exact .trade hresumed htrades fun fates delay hfares hres => hlater (hup fates delay hfares hres)

/-- Runs without frames stand in the same place if their memos and scopes are the same. -/
theorem Run.like_begin (hid : ∀ id, E.Concurs E' R id) (root : NodeId) (memo : Memo)
    (scope : Scope) (world world' : World P) :
    Next.Like R late E E' none (Run.begin E { memo, scope, world } root)
      (Run.begin E' { memo, scope, world := world' } root) := by
  have hlike : Run.Like R { memo, scope, world } { memo, scope, world := world' } :=
    ⟨rfl, rfl, rfl, rfl, .nil⟩
  exact hlike.visit (hid root) _ false

/-- Fates that end alike come to the same. -/
theorem Engine.exists_fares {jobs : List Job} {fates : List Fate}
    (hlength : fates.length = jobs.length)
    (h : ∀ (i : Nat) (job : Job) (fate : Fate), jobs[i]? = some job → fates[i]? = some fate →
      ∃ fate', E'.Fares job fate' ∧ fate'.ending = fate.ending) :
    ∃ fates', List.Forall₂ E'.Fares jobs fates' ∧
      fates'.map Fate.ending = fates.map Fate.ending := by
  induction jobs generalizing fates with
  | nil =>
    cases fates with
    | nil => exact ⟨[], .nil, rfl⟩
    | cons fate fates => cases hlength
  | cons job jobs ih =>
    cases fates with
    | nil => cases hlength
    | cons fate fates =>
      obtain ⟨fate', hfares, hending⟩ := h 0 job fate rfl rfl
      obtain ⟨fates', hrest, hendings⟩ := ih (Nat.succ.inj hlength) fun i job fate hjob hfate =>
        h (i + 1) job fate hjob hfate
      exact ⟨fate' :: fates', .cons hfares hrest, by
        rw [List.map_cons, List.map_cons, hending, hendings]⟩

/-- **Whatever becomes of a run of an engine** becomes of a run of one that mimics it,
after the same time. -/
theorem Solo.mimic (hm : E.Mimics E' R late other allowed) {next : Next P} {e : Report} {d n : Nat}
    (h : Solo E next e d n) (hallowed : ∀ id s, next.Meets E id s → allowed id s)
    (await? : Option Await) :
    ∃ n', ∀ next', next.Like R late E E' await? next' → Solo E' next' e d n' := by
  induction h generalizing await? with
  | finish o =>
    refine ⟨2, fun next' hlike => ?_⟩
    cases hlike with
    | finish hreport => exact hreport ▸ .finish _
  | @resume r input e d n _ ih =>
    -- where a task may not be told that its time is up, there is nothing to mimic
    by_cases hlate : input = .elapsed → r.Late late
    · obtain ⟨await?', -, hturn⟩ := hm.turn r input (fun hstart frame rest hitems => by
        subst hstart
        exact hallowed frame.node r.scope ⟨r, frame, rest, .refl, hitems, rfl, rfl⟩) hlate
      obtain ⟨n', hn'⟩ := ih (fun id s hmeets => hallowed id s (hmeets.of_brings (.turn r input)))
        await?'
      refine ⟨n' + 1, fun next' hlike => ?_⟩
      cases hlike with
      | resume _ hlike _ => exact .resume (hn' _ (hturn _ hlike))
    · refine ⟨0, fun next' hlike => ?_⟩
      cases hlike with
      | resume _ _ h => exact absurd h hlate
  | @wait r await fates wake delay e d n hlength hjobs hres hwake ihjobs ihwake =>
    have hfares : List.Forall₂ E.Fares await.jobs fates :=
      Engine.forall₂_fares_iff.2 ⟨hlength, hjobs⟩
    -- the jobs fare alike in the other engine, whatever the world is
    obtain ⟨fates', hfates', hendings⟩ : ∃ fates', List.Forall₂ E'.Fares await.jobs fates' ∧
        fates'.map Fate.ending = fates.map Fate.ending :=
      Engine.exists_fares hlength fun i job fate hjob hfate => by
        have hmem : job ∈ await.jobs := List.mem_of_getElem? hjob
        obtain ⟨work, hwork⟩ := ihjobs i job fate hjob hfate r.world
          (fun id s hmeets => hallowed id s (hmeets.of_brings (.job r.world hmem))) none
        exact ⟨⟨fate.report, fate.duration, work⟩, fun world =>
          hwork _ (Run.like_begin hm.concurs job.node _ job.scope r.world world), rfl⟩
    obtain ⟨left, hleft⟩ := ihwake r.world
      (fun id s hmeets => hallowed id s (hmeets.of_brings (.wake r.world hfares hres))) none
    have hres' : await.Resolves (fates'.map Fate.ending) wake delay := hendings ▸ hres
    cases await? with
    | none =>
      refine ⟨Fate.workOf fates' + left, fun next' hlike => ?_⟩
      cases hlike with
      | wait _ hlike hlate =>
        exact .of_fares hfates' hres' fun world =>
          hleft _ (hlike.wake r.world world fun _ => hlate)
    | some await' =>
      by_cases htrades : await.Trades E E' await'
      · obtain ⟨fates'', hfates'', hres''⟩ := htrades fates fates' wake delay hfares hfates' hendings hres
        refine ⟨Fate.workOf fates'' + left, fun next' hlike => ?_⟩
        cases hlike with
        | trade hlike _ hup =>
          refine .of_fares hfates'' hres'' fun world => hleft _ (hlike.wake r.world world ?_)
          rintro rfl
          exact hup fates delay hfares hres
      · refine ⟨0, fun next' hlike => ?_⟩
        cases hlike with
        | trade _ h _ => exact absurd h htrades

end ProgramGraph
