import ProgramGraph.Proofs.Course.Basic
/-!
# Where a run stands

Much of a run has no influence on where it goes: the steps so far, as long as
they are not limited, the world, and how the memos are told apart from the
overlays. `Run.Stands` says what has: the frames, the scope, the memos that
requests may be answered from, and the counters. For each thing that happens in
a turn there is one lemma here that says where the run stands afterwards.
-/

namespace ProgramGraph

variable {P : Plugins}

/-! ## Counting -/

namespace Tally

variable (t : Tally)

@[simp] theorem merge_countHit : t.merge zero.countHit = t.countHit := by
  simp [merge, countHit, zero]

@[simp] theorem merge_countLookup : t.merge zero.countLookup = t.countLookup := by
  simp [merge, countLookup, zero]

@[simp] theorem merge_countResumption : t.merge zero.countResumption = t.countResumption := by
  simp [merge, countResumption, zero]

@[simp] theorem merge_countInjection : t.merge zero.countInjection = t.countInjection := by
  simp [merge, countInjection, zero]

end Tally

@[simp] theorem Stack.mapTop_push {α : Type} (s : Stack α) (a : α) (f : α → α) :
    (s.push a).mapTop f = s.push (f a) := Stack.ext rfl

/-- A stack with something on top. -/
theorem Stack.eq_push {α : Type} {s : Stack α} {a : α} {rest : List α} (h : s.items = a :: rest) :
    s = s.pop.push a ∧ s.pop.items = rest := by
  have hpop : s.pop.items = rest := by rw [items_pop, h, List.tail_cons]
  refine ⟨Stack.ext ?_, hpop⟩
  rw [items_push, hpop, h]

/-- The reply to a result is missing only if the result is a fatal error. -/
theorem Reply.ofResult_eq_error {result : Except EvalError Value} {fatal : EvalError}
    (h : ofResult result = .error fatal) :
    result = .error fatal ∧ fatal.errorValue = .error fatal := by
  cases result with
  | ok value => cases h
  | error error =>
    cases error <;> cases h <;> exact ⟨rfl, rfl⟩

/-! ## Tasks as they are made -/

namespace Engine

/-- The handler of a node makes the task. -/
def Starts (E : Engine P) (id : NodeId) (task : Builtin.Task) (volatile : Bool) : Prop :=
  ∃ node entry handler, E.graph.get? id = some node ∧ node.param? = none ∧
    E.registry.get node.tag = .ok entry ∧ entry.handler = .builtin handler ∧
    handler.start id node = .ok task ∧ entry.volatile = volatile

/-- A node gets one task. -/
theorem Starts.unique {E : Engine P} {id : NodeId} {task task' : Builtin.Task} {volatile volatile' : Bool}
    (h : E.Starts id task volatile) (h' : E.Starts id task' volatile') : task' = task := by
  obtain ⟨node, entry, handler, hnode, -, hentry, hhandler, hstart, -⟩ := h
  obtain ⟨node', entry', handler', hnode', -, hentry', hhandler', hstart', -⟩ := h'
  obtain rfl : node = node' := Option.some.inj (hnode.symm.trans hnode')
  obtain rfl : entry = entry' := Except.ok.inj (hentry.symm.trans hentry')
  obtain rfl : handler = handler' := Handler.builtin.inj (hhandler.symm.trans hhandler')
  exact Except.ok.inj (hstart'.symm.trans hstart)

/-- **A node that has a plan gets a task** that follows it. -/
theorem exists_starts (E : Engine P) (hr : E.registry.Native) {id : NodeId} {plan : Plan}
    {volatile : Bool} (hrole : E.graph.role E.registry id = .planned plan volatile) :
    ∃ task, E.Starts id task volatile ∧ plan.Follows id task .start := by
  obtain ⟨node, entry, hnode, hp, hentry, hplan, rfl⟩ := Graph.plays_of_role hrole
  obtain ⟨handler, hhandler, -⟩ := hr.of_get hentry
  obtain ⟨task, hstart, hmade, rfl⟩ := Entry.makes_of_plan hhandler hplan
  exact ⟨task, ⟨node, entry, handler, hnode, hp, hentry, hhandler, hstart, rfl⟩, hmade.follows⟩

end Engine

/-! ## Memos of a run -/

namespace Run

/-- The memos that requests may be answered from, innermost first, all
counters at zero. -/
def caches (r : Run P) : List Memo := (r.overlays ++ [r.memo]).map Memo.resetTally

/-- Some memo is the innermost one. -/
theorem exists_caches (r : Run P) : ∃ m tail, r.caches = m :: tail := by
  refine List.exists_cons_of_ne_nil fun h => ?_
  simp [caches] at h

/-- **Where a run stands.** -/
structure Stands (r : Run P) (frames : Stack (Frame P)) (scope : Scope) (caches : List Memo)
    (tally : Tally) : Prop where
  frames : r.frames = frames
  scope : r.scope = scope
  caches : r.caches = caches
  tally : r.memo.tally = tally

theorem stands (r : Run P) : r.Stands r.frames r.scope r.caches r.memo.tally :=
  ⟨rfl, rfl, rfl, rfl⟩

theorem kept?_innermost {r : Run P} {m : Memo} {tail : List Memo} (h : r.caches = m :: tail)
    (id : NodeId) : r.innermost.kept? id = m.kept? id := by
  have hm : r.innermost.resetTally = m := by
    unfold innermost
    cases ho : r.overlays with
    | nil =>
      rw [caches, ho] at h
      exact List.head_eq_of_cons_eq h
    | cons overlay rest =>
      rw [caches, ho] at h
      exact List.head_eq_of_cons_eq h
  rw [← hm]
  rfl

/-- A change of the innermost memo that leaves its counters alone. -/
theorem caches_mapInnermost {r : Run P} {m : Memo} {tail : List Memo} (h : r.caches = m :: tail)
    {f : Memo → Memo} (hf : ∀ m, (f m).resetTally = f m.resetTally) :
    (r.mapInnermost f).caches = f m :: tail := by
  cases ho : r.overlays with
  | nil =>
    rw [caches, ho] at h
    have hm : r.memo.resetTally = m := List.head_eq_of_cons_eq h
    have htail : [] = tail := List.tail_eq_of_cons_eq h
    simp only [caches, mapInnermost, ho]
    rw [← htail, ← hm, ← hf]
    rfl
  | cons overlay rest =>
    rw [caches, ho] at h
    have hm : overlay.resetTally = m := List.head_eq_of_cons_eq h
    have htail : (rest ++ [r.memo]).map Memo.resetTally = tail := List.tail_eq_of_cons_eq h
    simp only [caches, mapInnermost, ho]
    rw [← htail, ← hm, ← hf]
    rfl

theorem tally_mapInnermost (r : Run P) {f : Memo → Memo} (hf : ∀ m, (f m).tally = m.tally) :
    (r.mapInnermost f).memo.tally = r.memo.tally := by
  unfold mapInnermost
  split
  · exact hf _
  · rfl

theorem frames_mapInnermost (r : Run P) (f : Memo → Memo) :
    (r.mapInnermost f).frames = r.frames := by
  unfold mapInnermost
  split <;> rfl

theorem scope_mapInnermost (r : Run P) (f : Memo → Memo) :
    (r.mapInnermost f).scope = r.scope := by
  unfold mapInnermost
  split <;> rfl

/-- A frame that ends is taken off. -/
theorem frames_succeed (r : Run P) (value : Value) :
    (r.succeed value).1.frames = r.frames.pop := by
  unfold succeed
  split
  next hnil => exact Stack.ext (by rw [Stack.items_pop, hnil]; rfl)
  next =>
    dsimp only
    split
    next => rfl
    next => exact frames_mapInnermost _ _

theorem frames_fail (r : Run P) (error : EvalError) : (r.fail error).1.frames = r.frames.pop := by
  unfold fail
  split
  next hnil => exact Stack.ext (by rw [Stack.items_pop, hnil]; rfl)
  next =>
    dsimp only
    split <;> rfl

/-- What a frame leaves when it ends is not counted. -/
theorem tally_succeed (r : Run P) (value : Value) :
    (r.succeed value).1.memo.tally = r.memo.tally := by
  unfold succeed
  split
  next => rfl
  next =>
    dsimp only
    split
    next => rfl
    next frame _ _ _ =>
      refine tally_mapInnermost _ fun m => ?_
      cases frame.volatile || frame.tainted <;> rfl

theorem tally_fail (r : Run P) (error : EvalError) :
    (r.fail error).1.memo.tally = r.memo.tally := by
  unfold fail
  split
  next => rfl
  next =>
    dsimp only
    split <;> rfl

/-- The only memo of a run without overlays. -/
theorem memo_of_caches {r : Run P} {m : Memo} (h : r.caches = [m]) :
    r.memo = m.mapTally fun _ => r.memo.tally := by
  cases ho : r.overlays with
  | nil =>
    rw [caches, ho] at h
    have hm : r.memo.resetTally = m := List.head_eq_of_cons_eq h
    rw [← hm]
    rfl
  | cons overlay rest =>
    rw [caches, ho] at h
    have htail : (rest ++ [r.memo]).map Memo.resetTally = [] := List.tail_eq_of_cons_eq h
    simp at htail

/-- When a frame is resumed, the others stay as they are. -/
theorem exists_resumeFrame {r : Run P} {frame : Frame P} {rest : List (Frame P)}
    (hitems : r.frames.items = frame :: rest) (input : Input) : ∃ (after : Task P) (shared : P.Shared),
      frame.task.resume ⟨frame.node, r.scope⟩ input r.world.shared =
        (((r.resumeFrame input).2, after), shared) ∧
      (r.resumeFrame input).1.frames.items = { frame with task := after } :: rest := by
  obtain ⟨step, after, shared, hstep⟩ : ∃ step after shared,
      frame.task.resume ⟨frame.node, r.scope⟩ input r.world.shared = ((step, after), shared) :=
    ⟨_, _, _, rfl⟩
  simp only [resumeFrame, hitems, hstep]
  refine ⟨after, shared, rfl, ?_⟩
  simp only [note, withShared, Stack.items_mapTop, hitems, List.modifyHead_cons]

/-- Resuming a frame whose task is of the library. -/
theorem resumeFrame_of_builtin {r : Run P} {frame : Frame P} {rest : List (Frame P)}
    {task : Builtin.Task} (hitems : r.frames.items = frame :: rest)
    (htask : frame.task = .builtin task) (input : Input) :
    r.resumeFrame input =
      (Run.note { r with
        frames := r.frames.mapTop
          ({ · with task := .builtin (task.resume ⟨frame.node, r.scope⟩ input).2 }) }
        (.resumed frame.node input), (task.resume ⟨frame.node, r.scope⟩ input).1) := by
  simp only [Run.resumeFrame, hitems, htask, Task.resume]
  rfl

/-- Resuming a frame whose task stays as it is. -/
theorem resumeFrame_of_steady {r : Run P} {frame : Frame P} {rest : List (Frame P)}
    {task : Builtin.Task} {input : Input} {step : Step} (hitems : r.frames.items = frame :: rest)
    (htask : frame.task = .builtin task)
    (hstep : task.resume ⟨frame.node, r.scope⟩ input = (step, task)) :
    r.resumeFrame input = (r.note (.resumed frame.node input), step) := by
  have hframes : r.frames.mapTop ({ · with task := .builtin task }) = r.frames := by
    refine Stack.ext ?_
    rw [Stack.items_mapTop, hitems, List.modifyHead_cons, ← htask]
  rw [resumeFrame_of_builtin hitems htask, hstep, hframes]

/-- A turn beyond the limit. -/
theorem turn_of_exceeded {E : Engine P} {r : Run P} {limit : Nat}
    (h : r.countTurn.exceeded? E.limits = some limit) (input : Input) :
    r.turn E input = r.countTurn.stop (.stepLimitExceeded limit) := by
  simp only [turn, h]

/-- A turn within the limit. -/
theorem turn_of_within {E : Engine P} {r : Run P} (h : r.countTurn.exceeded? E.limits = none)
    (input : Input) :
    r.turn E input = (r.countTurn.resumeFrame input).1.serve E (r.countTurn.resumeFrame input).2 := by
  simp only [turn, h]

/-- A turn in which the task stays as it is. -/
theorem turn_of_steady {E : Engine P} {r : Run P} {frame : Frame P} {rest : List (Frame P)}
    {task : Builtin.Task} {input : Input} {step : Step} (hitems : r.frames.items = frame :: rest)
    (htask : frame.task = .builtin task)
    (hstep : task.resume ⟨frame.node, r.scope⟩ input = (step, task))
    (hlimit : r.countTurn.exceeded? E.limits = none) :
    r.turn E input = (r.countTurn.note (.resumed frame.node input)).serve E step := by
  have hcount : r.countTurn.frames.items = frame :: rest := hitems
  have hstep' : task.resume ⟨frame.node, r.countTurn.scope⟩ input = (step, task) := hstep
  rw [turn_of_within hlimit, resumeFrame_of_steady hcount htask hstep']

/-- A visit that is answered without a frame. -/
theorem visit_of_ready {E : Engine P} {r r' : Run P} {id : NodeId} {restore : Nat} {fresh : Bool}
    {a : Answer} (h : r.arrive E id restore fresh = (r', .ready a)) :
    r.visit E id restore fresh = r'.answer a := by
  simp only [visit, h]

/-- A visit for which a frame is started. -/
theorem visit_of_pushed {E : Engine P} {r r' : Run P} {id : NodeId} {restore : Nat} {fresh : Bool}
    (h : r.arrive E id restore fresh = (r', .pushed)) :
    r.visit E id restore fresh = .resume r' .start := by
  simp only [visit, h]

namespace Stands

variable {r : Run P} {frames : Stack (Frame P)} {scope : Scope} {caches : List Memo} {tally : Tally}

theorem truncate (h : r.Stands frames scope caches tally) (depth : Nat) :
    (r.truncate depth).Stands frames (scope.truncate depth) caches tally :=
  ⟨h.frames, congrArg (Scope.truncate · depth) h.scope, h.caches, h.tally⟩

theorem mapTally (h : r.Stands frames scope caches tally) (f : Tally → Tally) :
    (r.mapTally f).Stands frames scope caches (f tally) := by
  refine ⟨h.frames, h.scope, ?_, congrArg f h.tally⟩
  rw [← h.caches]
  simp only [Run.caches, List.map_append]
  rfl

theorem note (h : r.Stands frames scope caches tally) (event : Event) :
    (r.note event).Stands frames scope caches tally :=
  ⟨h.frames, h.scope, h.caches, h.tally⟩

theorem withShared (h : r.Stands frames scope caches tally) (shared : P.Shared) :
    (r.withShared shared).Stands frames scope caches tally :=
  ⟨h.frames, h.scope, h.caches, h.tally⟩

theorem withWorld (h : r.Stands frames scope caches tally) (world : World P) :
    Stands { r with world } frames scope caches tally :=
  ⟨h.frames, h.scope, h.caches, h.tally⟩

theorem withScope (h : r.Stands frames scope caches tally) (other : Scope) :
    Stands { r with scope := other } frames other caches tally :=
  ⟨h.frames, rfl, h.caches, h.tally⟩

theorem withFrames (h : r.Stands frames scope caches tally) (other : Stack (Frame P)) :
    Stands { r with frames := other } other scope caches tally :=
  ⟨rfl, h.scope, h.caches, h.tally⟩

theorem countTurn (h : r.Stands frames scope caches tally) :
    r.countTurn.Stands frames scope caches tally.countResumption :=
  Stands.mapTally (r := { r with steps := r.steps + 1 })
    ⟨h.frames, h.scope, h.caches, h.tally⟩ Tally.countResumption

theorem observe {frame : Frame P} (h : r.Stands (frames.push frame) scope caches tally)
    (tainted : Bool) :
    (r.observe tainted).Stands (frames.push { frame with tainted := frame.tainted || tainted })
      scope caches tally := by
  refine ⟨?_, h.scope, h.caches, h.tally⟩
  simp only [Run.observe, h.frames, Stack.mapTop_push]

theorem setTainted {m : Memo} {tail : List Memo} (h : r.Stands frames scope (m :: tail) tally)
    (id : NodeId) :
    (r.mapInnermost (·.setTainted id)).Stands frames scope (m.setTainted id :: tail) tally := by
  refine ⟨?_, ?_, caches_mapInnermost h.caches fun _ => rfl, ?_⟩
  · rw [frames_mapInnermost, h.frames]
  · rw [scope_mapInnermost, h.scope]
  · refine (tally_mapInnermost r ?_).trans h.tally
    exact fun _ => rfl

theorem put {m : Memo} {tail : List Memo} (h : r.Stands frames scope (m :: tail) tally)
    (id : NodeId) (value : Value) (tainted : Bool) :
    (r.mapInnermost (·.put id value tainted)).Stands frames scope
      (m.put id value tainted :: tail) tally := by
  refine ⟨?_, ?_, caches_mapInnermost h.caches fun m => ?_, ?_⟩
  · rw [frames_mapInnermost, h.frames]
  · rw [scope_mapInnermost, h.scope]
  · cases tainted <;> rfl
  · exact (tally_mapInnermost r fun m => by cases tainted <;> rfl).trans h.tally

theorem pushOverlay (h : r.Stands frames scope caches tally) :
    Stands { r with overlays := .empty :: r.overlays } frames scope (.empty :: caches) tally := by
  refine ⟨h.frames, h.scope, ?_, h.tally⟩
  rw [← h.caches]
  rfl

theorem popOverlay {m m' : Memo} {tail : List Memo}
    (h : r.Stands frames scope (m :: m' :: tail) tally) :
    Stands { r with overlays := r.overlays.tail } frames scope (m' :: tail) tally := by
  refine ⟨h.frames, h.scope, ?_, h.tally⟩
  have hcaches := h.caches
  cases ho : r.overlays with
  | nil =>
    rw [Run.caches, ho] at hcaches
    exact absurd (List.tail_eq_of_cons_eq hcaches) (by simp)
  | cons overlay rest =>
    rw [Run.caches, ho] at hcaches
    exact List.tail_eq_of_cons_eq hcaches

/-! ## What happens in a turn -/

variable {frame : Frame P} {m : Memo} {tail : List Memo}

/-- A reply is handed to the top frame. -/
theorem handOver (h : r.Stands (frames.push frame) scope caches tally)
    {result : Except EvalError Value} {reply : Reply} (hreply : Reply.ofResult result = .ok reply) :
    ∃ r' : Run P, r.handOver result = .resume r' reply.toInput ∧
      r'.Stands (frames.push frame) scope caches (tally.merge (Cost.handing reply).tally) := by
  cases result with
  | ok value =>
    obtain rfl : .ok value = reply := Except.ok.inj hreply
    exact ⟨r, rfl, by rw [Cost.handing, Tally.merge_zero]; exact h⟩
  | error error =>
    cases error with
    | failed value =>
      obtain rfl : .error value = reply := Except.ok.inj hreply
      have hitems : (r.mapTally .countInjection).frames.items = frame :: frames.items := by
        rw [(h.mapTally _).frames, Stack.items_push]
      refine ⟨(r.mapTally .countInjection).note (.injected frame.node), ?_, ?_⟩
      · simp only [Run.handOver, EvalError.errorValue, hitems]
        rfl
      · rw [Cost.handing, Tally.merge_countInjection]
        exact (h.mapTally _).note _
    | _ => cases hreply

/-- **An answer goes to the top frame** as a reply. -/
theorem answer (h : r.Stands (frames.push frame) scope caches tally) {a : Answer} {reply : Reply}
    (hreply : Reply.ofResult a.result = .ok reply) :
    ∃ r' : Run P, r.answer a = .resume r' reply.toInput ∧
      r'.Stands (frames.push { frame with tainted := frame.tainted || a.tainted }) scope caches
        (tally.merge (Cost.handing reply).tally) := by
  have hitems : r.frames.items = frame :: frames.items := by rw [h.frames, Stack.items_push]
  obtain ⟨r', hnext, hstands⟩ := (h.observe a.tainted).handOver hreply
  refine ⟨r', ?_, hstands⟩
  rw [← hnext]
  simp only [Run.answer, hitems]

/-- An answer that is fatal ends the run. -/
theorem answer_of_fatal (h : r.Stands (frames.push frame) scope caches tally) {a : Answer}
    {fatal : EvalError} (hfatal : Reply.ofResult a.result = .error fatal) :
    r.answer a = (r.observe a.tainted).stop fatal := by
  have hitems : r.frames.items = frame :: frames.items := by rw [h.frames, Stack.items_push]
  obtain ⟨hresult, herror⟩ := Reply.ofResult_eq_error hfatal
  simp only [Run.answer, hitems, Run.handOver, hresult, herror]

/-- **The top frame ends,** and the one below gets an answer. -/
theorem serve_end (E : Engine P) (h : r.Stands (frames.push frame) scope (m :: tail) tally)
    (hfresh : frame.fresh = true → tail ≠ []) (result : Except EvalError Value) :
    ∃ r' : Run P,
      r.serve E (.ofResult result) = r'.answer ⟨result, frame.volatile || frame.tainted⟩ ∧
      r'.Stands frames (scope.truncate frame.scopeDepth)
        (if frame.fresh then tail else
          Graph.keep frame.node ⟨result, frame.volatile || frame.tainted⟩ m :: tail) tally := by
  have hitems : r.frames.items = frame :: frames.items := by rw [h.frames, Stack.items_push]
  have hpopped : Stands { r.truncate frame.scopeDepth with frames := r.frames.pop } frames
      (scope.truncate frame.scopeDepth) (m :: tail) tally := by
    have hpop : r.frames.pop = frames := by rw [h.frames, Stack.pop_push]
    rw [hpop]
    exact (h.truncate _).withFrames _
  cases hf : frame.fresh with
  | true =>
    obtain ⟨m', tail', rfl⟩ := List.exists_cons_of_ne_nil (hfresh hf)
    refine ⟨_, ?_, hpopped.popOverlay⟩
    cases result <;>
      simp only [Step.ofResult, Run.serve, Run.succeed, Run.fail, hitems, hf, if_true]
  | false =>
    cases result with
    | ok value =>
      refine ⟨_, ?_, hpopped.put frame.node value (frame.volatile || frame.tainted)⟩
      simp only [Step.ofResult, Run.serve, Run.succeed, hitems, hf, Bool.false_eq_true, if_false]
    | error error =>
      refine ⟨_, ?_, hpopped⟩
      simp only [Step.ofResult, Run.serve, Run.fail, hitems, hf, Bool.false_eq_true, if_false]

/-- **One turn of a frame** whose task is of the library. -/
theorem turn {E : Engine P} (hlimit : E.limits.maxSteps = none)
    (h : r.Stands (frames.push frame) scope caches tally) {task after : Builtin.Task}
    (htask : frame.task = .builtin task) {input : Input} {step : Step}
    (hstep : task.resume ⟨frame.node, scope⟩ input = (step, after)) :
    ∃ r' : Run P, r.turn E input = r'.serve E step ∧
      r'.Stands (frames.push { frame with task := .builtin after }) scope caches
        (tally.merge Cost.turn.tally) := by
  have hcount := h.countTurn
  have hitems : r.countTurn.frames.items = frame :: frames.items := by
    rw [hcount.frames, Stack.items_push]
  have hexceeded : r.countTurn.exceeded? E.limits = none := by
    simp only [Run.exceeded?, hlimit, Option.filter_none]
  refine ⟨(r.countTurn.resumeFrame input).1, ?_, ?_⟩
  · rw [turn_of_within hexceeded]
    congr 1
    simp only [Run.resumeFrame, hitems, htask, Task.resume, hcount.scope, hstep]
  · simp only [Run.resumeFrame, hitems, htask, Task.resume, hcount.scope, hstep, Cost.turn,
      Tally.merge_countResumption]
    rw [hcount.frames, Stack.mapTop_push]
    exact ((hcount.withShared _).withFrames _).note _

/-! ## Arrivals -/

section Arrival

variable {E : Engine P} {id : NodeId}

theorem arrive_absent (h : r.Stands frames scope caches tally)
    (hrole : E.graph.role E.registry id = .absent) (restore : Nat) (fresh : Bool) :
    ∃ r' : Run P, r.arrive E id restore fresh =
        (r', .ready ⟨.error (.invalidNode id "not in graph"), false⟩) ∧
      r'.Stands frames (scope.truncate restore) caches tally := by
  have hnode : E.graph.get? id = none := Graph.plays_of_role hrole
  refine ⟨r.truncate restore, ?_, h.truncate restore⟩
  simp only [Run.arrive, hnode]

/-- A parameter is looked up, and is marked. -/
theorem arrive_param (h : r.Stands frames scope (m :: tail) tally) {p : ParamId}
    (hrole : E.graph.role E.registry id = .param p) (restore : Nat) (fresh : Bool) :
    ∃ r' : Run P, r.arrive E id restore fresh = (r', .ready ⟨Graph.resolve scope p, true⟩) ∧
      r'.Stands frames (scope.truncate restore) (m.setTainted id :: tail) tally.countLookup := by
  obtain ⟨node, hnode, hp⟩ := Graph.plays_of_role hrole
  refine ⟨_, ?_, (((h.truncate restore).mapTally Tally.countLookup).setTainted id).note
    (.lookedUp id)⟩
  rw [← h.scope]
  simp only [Run.arrive, hnode, hp]
  rfl

/-- A result that is kept is served. -/
theorem arrive_kept (h : r.Stands frames scope (m :: tail) tally)
    (habsent : E.graph.role E.registry id ≠ .absent)
    (hparam : ∀ p, E.graph.role E.registry id ≠ .param p) {fresh : Bool} {value : Value}
    (hm : (if fresh then none else m.kept? id) = some value) (restore : Nat) :
    ∃ r' : Run P, r.arrive E id restore fresh = (r', .ready ⟨.ok value, false⟩) ∧
      r'.Stands frames (scope.truncate restore) (m :: tail) tally.countHit := by
  obtain ⟨node, hnode, hp⟩ : ∃ node, E.graph.get? id = some node ∧ node.param? = none := by
    have hplays := E.graph.plays_role E.registry id
    cases hrole : E.graph.role E.registry id with
    | absent => exact absurd hrole habsent
    | param p => exact absurd hrole (hparam p)
    | refused error volatile =>
      rw [hrole] at hplays
      obtain ⟨node, hnode, hp, -⟩ := hplays
      exact ⟨node, hnode, hp⟩
    | planned plan volatile =>
      rw [hrole] at hplays
      obtain ⟨node, -, hnode, hp, -⟩ := hplays
      exact ⟨node, hnode, hp⟩
  refine ⟨_, ?_, ((h.truncate restore).mapTally Tally.countHit).note (.served id)⟩
  simp only [Run.arrive, hnode, hp, kept?_innermost h.caches, hm]

/-- A node that nothing is kept of and that has no task. -/
theorem arrive_refused (hr : E.registry.Native) (h : r.Stands frames scope (m :: tail) tally)
    {error : EvalError} {volatile : Bool}
    (hrole : E.graph.role E.registry id = .refused error volatile) {fresh : Bool}
    (hm : (if fresh then none else m.kept? id) = none) (restore : Nat) :
    ∃ r' : Run P, r.arrive E id restore fresh = (r', .ready ⟨.error error, volatile⟩) ∧
      r'.Stands frames (scope.truncate restore) (m :: tail) tally := by
  obtain ⟨node, hnode, hp, ⟨hmissing, rfl⟩ | ⟨entry, hentry, hplan, rfl⟩⟩ :=
    Graph.plays_of_role hrole
  · refine ⟨r.truncate restore, ?_, h.truncate restore⟩
    simp only [Run.arrive, hnode, hp, kept?_innermost h.caches, hm, hmissing]
  · obtain ⟨handler, hhandler, -⟩ := hr.of_get hentry
    have hstart := Entry.refuses_of_plan hhandler hplan
    refine ⟨_, ?_, ((h.truncate restore).withShared r.world.shared).note (.started id fresh false)⟩
    simp only [Run.arrive, hnode, hp, kept?_innermost h.caches, hm, hentry, Handler.start,
      hhandler, hstart]
    rfl

/-- **A node that nothing is kept of gets a frame** for the task that its handler
makes. -/
theorem arrive_started (h : r.Stands frames scope (m :: tail) tally) {task : Builtin.Task}
    {volatile : Bool} (hstarts : E.Starts id task volatile) {fresh : Bool}
    (hm : (if fresh then none else m.kept? id) = none) (restore : Nat) :
    ∃ r' : Run P, r.arrive E id restore fresh = (r', .pushed) ∧
      r'.Stands (frames.push ⟨id, .builtin task, volatile, false, restore, fresh⟩) scope
        (if fresh then .empty :: m :: tail else m :: tail)
        (tally.merge (Cost.start frames.size).tally) := by
  obtain ⟨node, entry, handler, hnode, hp, hentry, hhandler, hstart, rfl⟩ := hstarts
  have hpushed : Stands
      { r with
        frames := r.frames.push ⟨id, .builtin task, entry.volatile, false, restore, fresh⟩
        overlays := if fresh then .empty :: r.overlays else r.overlays }
      (frames.push ⟨id, .builtin task, entry.volatile, false, restore, fresh⟩) scope
      (if fresh then .empty :: m :: tail else m :: tail) tally := by
    have hframed := h.withFrames
      (frames.push ⟨id, .builtin task, entry.volatile, false, restore, fresh⟩)
    rw [h.frames]
    cases fresh with
    | true => exact hframed.pushOverlay
    | false => exact hframed
  refine ⟨_, ?_, ((hpushed.withShared r.world.shared).mapTally
    fun tally => tally.countStart.reachDepth (frames.size + 1)).note (.started id fresh true)⟩
  simp only [Run.arrive, hnode, hp, kept?_innermost h.caches, hm, hentry, Handler.start, hhandler,
    hstart, ← h.frames]
  rfl

/-- Its task follows its plan. -/
theorem arrive_planned (hr : E.registry.Native) (h : r.Stands frames scope (m :: tail) tally)
    {plan : Plan} {volatile : Bool} (hrole : E.graph.role E.registry id = .planned plan volatile)
    {fresh : Bool} (hm : (if fresh then none else m.kept? id) = none) (restore : Nat) :
    ∃ (r' : Run P) (task : Builtin.Task), r.arrive E id restore fresh = (r', .pushed) ∧
      plan.Follows id task .start ∧
      r'.Stands (frames.push ⟨id, .builtin task, volatile, false, restore, fresh⟩) scope
        (if fresh then .empty :: m :: tail else m :: tail)
        (tally.merge (Cost.start frames.size).tally) := by
  obtain ⟨task, hstarts, hfollows⟩ := E.exists_starts hr hrole
  obtain ⟨r', harrive, hr'⟩ := h.arrive_started hstarts hm restore
  exact ⟨r', task, harrive, hfollows, hr'⟩

end Arrival

end Stands

end Run

end ProgramGraph
