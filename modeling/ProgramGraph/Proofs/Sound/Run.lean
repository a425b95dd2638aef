import ProgramGraph.Proofs.Passage.Basic
import ProgramGraph.Proofs.Solo.Stand
import ProgramGraph.Proofs.Sound.Frame
/-!
# Runs let memos grow

Whatever a run does, with limits or without, its memo grows from the one that it
began with, and its overlays grow from empty ones. A turn keeps `Next.Sound`, and so
do the beginning of a run and the end of a wait. A run that is cut off leaves a memo
like any other, for a memo grows at every step and not only at the end.
-/

namespace ProgramGraph

variable {P : Plugins}

namespace Memo

/-- **Memos one above the other,** innermost first: the last has grown from a given
one, the others from empty ones. -/
def AllGrow (g : Graph) (reg : Registry P) (m : Memo) : List Memo → Prop
  | [] => False
  | [last] => m.Grows g reg last
  | overlay :: below :: rest => Memo.empty.Grows g reg overlay ∧ AllGrow g reg m (below :: rest)

variable {g : Graph} {reg : Registry P} {m inner inner' : Memo} {tail : List Memo}

/-- The innermost memo changes. -/
theorem AllGrow.cons (h : m.AllGrow g reg (inner :: tail)) (hinner : inner.Grows g reg inner') :
    m.AllGrow g reg (inner' :: tail) := by
  cases tail with
  | nil => exact Grows.trans h hinner
  | cons => exact ⟨h.1.trans hinner, h.2⟩

/-- There is a memo more. -/
theorem AllGrow.push (h : m.AllGrow g reg (inner :: tail)) :
    m.AllGrow g reg (.empty :: inner :: tail) :=
  ⟨.refl, h⟩

/-- All of them are sound. -/
theorem AllGrow.sound (h : m.AllGrow g reg (inner :: tail)) (hm : m.Sound g reg) :
    inner.Sound g reg := by
  cases tail with
  | nil => exact Grows.sound h hm
  | cons => exact h.1.sound sound_empty

/-- The last memo has grown from the given one. -/
theorem AllGrow.grows {overlays : List Memo} (h : m.AllGrow g reg (overlays ++ [inner])) :
    m.Grows g reg inner := by
  induction overlays with
  | nil => exact h
  | cons overlay rest ih =>
    cases rest with
    | nil => exact h.2
    | cons => exact ih h.2

/-- What the last memo has grown from is told of that one alone. -/
theorem AllGrow.anew {m' : Memo} {overlays : List Memo} (h : m.AllGrow g reg (overlays ++ [inner]))
    (hinner : m'.Grows g reg inner) : m'.AllGrow g reg (overlays ++ [inner]) := by
  induction overlays with
  | nil => exact hinner
  | cons overlay rest ih =>
    cases rest with
    | nil => exact ⟨h.1, hinner⟩
    | cons => exact ⟨h.1, ih h.2⟩

end Memo

variable {E : Engine P} {m : Memo}

/-- **The memos of a run have grown.** -/
def Run.Grown (E : Engine P) (m : Memo) (r : Run P) : Prop :=
  m.AllGrow E.graph E.registry r.caches

/-- **What comes next is sound.** If the run goes on, its top frame keeps to its
plan and the other frames wait, each for the one above it. -/
def Next.Sound (E : Engine P) (m : Memo) (root : NodeId) : Next P → Prop
  | .resume r input => r.Grown E m ∧ ∃ frame rest, r.frames.items = frame :: rest ∧
      frame.Resumes E input ∧ Frame.Await E root rest frame.node
  | .wait r await => r.Grown E m ∧ ∃ frame rest, r.frames.items = frame :: rest ∧
      frame.May E (.wait await) ∧ Frame.Await E root rest frame.node
  | .finish o => o.run.Grown E m ∧ Answer.Right E root ⟨o.result, o.tainted⟩

namespace Run

variable {r : Run P} {root : NodeId}

/-! ## Memos -/

/-- **The memo below all overlays** has grown. -/
theorem Grown.memo (h : r.Grown E m) : m.Grows E.graph E.registry r.memo := by
  have hall := h
  rw [Grown, caches, List.map_append] at hall
  exact (Memo.AllGrow.grows hall).of_resetTally

/-- What a run does from here on can be said of the memo that it has now. -/
theorem Grown.anew (h : r.Grown E m) : r.Grown E r.memo := by
  unfold Grown caches at h ⊢
  rw [List.map_append] at h ⊢
  exact h.anew (Memo.Grows.resetTally .refl)

/-- What happened besides does not matter. -/
theorem Grown.of_caches {r' : Run P} (h : r.Grown E m) (hcaches : r'.caches = r.caches) :
    r'.Grown E m := by
  rw [Grown, hcaches]
  exact h

theorem Grown.mapInnermost (h : r.Grown E m) {f : Memo → Memo}
    (htally : ∀ m : Memo, (f m).resetTally = f m.resetTally)
    (hf : ∀ m : Memo, m.Grows E.graph E.registry (f m)) : (r.mapInnermost f).Grown E m := by
  obtain ⟨inner, tail, hcaches⟩ := r.exists_caches
  rw [Grown, hcaches] at h
  rw [Grown, caches_mapInnermost hcaches htally]
  exact h.cons (hf inner)

/-- An overlay is dropped. -/
theorem Grown.tail (h : r.Grown E m) : Grown E m { r with overlays := r.overlays.tail } := by
  unfold Grown caches at h ⊢
  cases hoverlays : r.overlays with
  | nil =>
    rw [hoverlays] at h
    exact h
  | cons overlay rest =>
    rw [hoverlays] at h
    cases rest with
    | nil => exact h.2
    | cons => exact h.2

/-- **A run that is stopped** leaves its memo. -/
theorem stop_sound (h : r.Grown E m) {error : EvalError}
    (hcut : E.graph.Pure E.registry root → Answer.Cut E ⟨.error error, true⟩) :
    (r.stop error).Sound E m root :=
  ⟨h.memo.resetTally, fun hright => .inl (hcut (hright.resolve_left nofun))⟩

/-! ## Answers -/

/-- **The top frame takes an answer in.** -/
theorem hears_sound (h : r.Grown E m) {frame : Frame P} {rest : List (Frame P)}
    (hitems : r.frames.items = frame :: rest) {a : Answer} (hears : frame.Hears E a)
    (hawait : Frame.Await E root rest frame.node) :
    ((r.observe a.tainted).handOver a.result).Sound E m root := by
  obtain ⟨hpush, hpop⟩ := Stack.eq_push hitems
  have hstands : r.Stands (r.frames.pop.push frame) r.scope r.caches r.memo.tally := by
    rw [← hpush]
    exact r.stands
  cases hreply : Reply.ofResult a.result with
  | ok reply =>
    obtain ⟨r', hnext, hr'⟩ := (hstands.observe a.tainted).handOver hreply
    rw [hnext]
    refine ⟨h.of_caches hr'.caches, _, rest, ?_, hears.resumes hreply, hawait⟩
    rw [hr'.frames, Stack.items_push, hpop]
  | error fatal =>
    obtain ⟨hresult, herror⟩ := Reply.ofResult_eq_error hreply
    have hstop : (r.observe a.tainted).handOver a.result = (r.observe a.tainted).stop fatal := by
      simp only [handOver, hresult, herror]
    rw [hstop]
    refine stop_sound (h.of_caches rfl) fun hroot => ?_
    -- at a pure node only the limit is fatal
    rcases hears.untainted (hawait.pure hroot) with ⟨limit, hlimit, rfl⟩ | ⟨-, reply, hok⟩
    · obtain rfl : .stepLimitExceeded limit = fatal := Except.error.inj hresult
      exact ⟨limit, hlimit, rfl⟩
    · rw [hreply] at hok
      cases hok

/-- **An answer goes to whoever waits for it.** -/
theorem answer_sound (h : r.Grown E m) {id : NodeId} {a : Answer}
    (hawait : Frame.Await E root r.frames.items id) (ha : a.Right E id) :
    (r.answer a).Sound E m root := by
  unfold answer
  split
  next hnil =>
    rw [hnil] at hawait
    obtain rfl : id = root := hawait
    exact ⟨h, ha⟩
  next frame rest hcons =>
    rw [hcons] at hawait
    exact hears_sound h hcons (hawait.2.1 a ha) hawait.2.2

/-! ## Visits -/

/-- A frame for a node that has just been visited. -/
theorem resumes_start (hg : E.graph.validate = .ok ()) (hr : E.registry.Native) {id : NodeId}
    {plan : Plan} {volatile : Bool} (hrole : E.graph.role E.registry id = .planned plan volatile)
    {task : Builtin.Task} (hfollows : plan.Follows id task .start) (restore : Nat) (fresh : Bool) :
    Frame.Resumes E ⟨id, .builtin task, volatile, false, restore, fresh⟩ .start where
  role := by
    rw [hrole]
    trivial
  pure hpure := by
    have hnode := hpure .empty
    rw [Graph.evaluate_planned hg hr hrole] at hnode
    rw [(Bool.or_eq_false_iff.1 hnode).1]
    rfl
  plan hclean := by
    obtain rfl : volatile = false := (Bool.or_eq_false_iff.1 hclean).1
    refine ⟨plan, task, rfl, ?_, fun s => ?_, hfollows⟩
    · exact (Graph.within_of_role hg hr hrole).mono (fun _ h => h) nofun
    · rw [Graph.evaluate_planned hg hr hrole]
      rfl

/-- A pure node is no parameter. -/
theorem not_pure_of_param {id : NodeId} {p : ParamId}
    (hrole : E.graph.role E.registry id = .param p) : ¬ E.graph.Pure E.registry id := by
  intro hpure
  have hnode := hpure .empty
  rw [Graph.evaluate_param hrole] at hnode
  cases hnode

/-- **A visit to a node** that an answer is waited for. -/
theorem visit_sound (hg : E.graph.validate = .ok ()) (hr : E.registry.Native)
    (hm : m.Sound E.graph E.registry) (h : r.Grown E m) {id : NodeId}
    (hawait : Frame.Await E root r.frames.items id) (restore : Nat) (fresh : Bool) :
    (r.visit E id restore fresh).Sound E m root := by
  obtain ⟨inner, tail, hcaches⟩ := r.exists_caches
  have hstands : r.Stands r.frames r.scope (inner :: tail) r.memo.tally := ⟨rfl, rfl, hcaches, rfl⟩
  have hall : m.AllGrow E.graph E.registry (inner :: tail) := hcaches ▸ h
  -- an answer without a frame
  have hready : ∀ (r' : Run P) (a : Answer) (scope : Scope) (inner' : Memo) (tally : Tally),
      r.arrive E id restore fresh = (r', .ready a) →
      r'.Stands r.frames scope (inner' :: tail) tally → inner.Grows E.graph E.registry inner' →
      a.Right E id → (r.visit E id restore fresh).Sound E m root := by
    intro r' a scope inner' tally harrive hr' hinner ha
    rw [visit_of_ready harrive]
    refine answer_sound ?_ (by rw [hr'.frames]; exact hawait) ha
    rw [Grown, hr'.caches]
    exact hall.cons hinner
  have hserved : ∀ value, (if fresh then none else inner.kept? id) = some value →
      E.graph.role E.registry id ≠ .absent → (∀ p, E.graph.role E.registry id ≠ .param p) →
      (r.visit E id restore fresh).Sound E m root := by
    intro value hkept habsent hparam
    obtain ⟨r', harrive, hr'⟩ := hstands.arrive_kept habsent hparam hkept restore
    refine hready r' _ _ inner _ harrive hr' .refl fun _ => .inr ((hall.sound hm) id value ?_)
    cases fresh with
    | true => cases hkept
    | false => exact hkept
  -- otherwise it hangs on what the node is
  cases hrole : E.graph.role E.registry id with
  | absent =>
    obtain ⟨r', harrive, hr'⟩ := hstands.arrive_absent hrole restore fresh
    exact hready r' _ _ inner _ harrive hr' .refl fun _ => .inr fun s => Graph.evaluate_absent hrole
  | param p =>
    obtain ⟨r', harrive, hr'⟩ := hstands.arrive_param hrole restore fresh
    have hpure := not_pure_of_param hrole
    have hevaluable : (E.graph.role E.registry id).Evaluable := by
      rw [hrole]
      trivial
    exact hready r' _ _ _ _ harrive hr' (.mark .refl hpure hevaluable) fun hright =>
      absurd (hright.resolve_left nofun) hpure
  | refused error volatile =>
    cases hkept : if fresh then none else inner.kept? id with
    | some value => exact hserved value hkept (by simp [hrole]) (by simp [hrole])
    | none =>
      obtain ⟨r', harrive, hr'⟩ := hstands.arrive_refused hr hrole hkept restore
      exact hready r' _ _ inner _ harrive hr' .refl fun _ =>
        .inr fun s => Graph.evaluate_refused hrole
  | planned plan volatile =>
    cases hkept : if fresh then none else inner.kept? id with
    | some value => exact hserved value hkept (by simp [hrole]) (by simp [hrole])
    | none =>
      obtain ⟨r', task, harrive, hfollows, hr'⟩ := hstands.arrive_planned hr hrole hkept restore
      rw [visit_of_pushed harrive]
      refine ⟨?_, _, r.frames.items, ?_,
        resumes_start hg hr hrole hfollows restore fresh, hawait⟩
      · rw [Grown, hr'.caches]
        cases fresh with
        | true => exact hall.push
        | false => exact hall
      · rw [hr'.frames, Stack.items_push]

/-! ## Turns -/

/-- **A frame ends with a value,** and the memo says of its node what is true. -/
theorem succeed_sound (h : r.Grown E m) {frame : Frame P} {rest : List (Frame P)}
    (hitems : r.frames.items = frame :: rest) {value : Value}
    (hrole : (E.graph.role E.registry frame.node).Evaluable)
    (hright : Answer.Right E frame.node ⟨.ok value, frame.volatile || frame.tainted⟩)
    (hpure : E.graph.Pure E.registry frame.node → (frame.volatile || frame.tainted) = false) :
    (r.succeed value).1.Grown E m ∧ (r.succeed value).1.frames.items = rest ∧
      (r.succeed value).2 = ⟨.ok value, frame.volatile || frame.tainted⟩ := by
  have hpop : r.frames.pop.items = rest := (Stack.eq_push hitems).2
  have htruncated : Run.Grown E m { r.truncate frame.scopeDepth with frames := r.frames.pop } := h
  simp only [succeed, hitems]
  split
  · exact ⟨htruncated.tail, hpop, trivial⟩
  · refine ⟨htruncated.mapInnermost (fun m => ?_) fun m => ?_, ?_, trivial⟩
    · cases frame.volatile || frame.tainted <;> rfl
    · cases htainted : frame.volatile || frame.tainted with
      | true =>
        refine .mark .refl (fun hnode => ?_) hrole
        rw [hpure hnode] at htainted
        cases htainted
      | false =>
        rw [htainted] at hright
        exact .keep .refl (hright.of_untainted rfl)
    · rw [frames_mapInnermost]
      exact hpop

/-- **A frame ends with an error.** -/
theorem fail_sound (h : r.Grown E m) {frame : Frame P} {rest : List (Frame P)}
    (hitems : r.frames.items = frame :: rest) (error : EvalError) :
    (r.fail error).1.Grown E m ∧ (r.fail error).1.frames.items = rest ∧
      (r.fail error).2 = ⟨.error error, frame.volatile || frame.tainted⟩ := by
  have hpop : r.frames.pop.items = rest := (Stack.eq_push hitems).2
  have htruncated : Run.Grown E m { r.truncate frame.scopeDepth with frames := r.frames.pop } := h
  simp only [fail, hitems]
  split
  · exact ⟨htruncated.tail, hpop, trivial⟩
  · exact ⟨htruncated, hpop, trivial⟩

/-- **A step that the top frame may do is served.** -/
theorem serve_sound (hg : E.graph.validate = .ok ()) (hr : E.registry.Native)
    (hm : m.Sound E.graph E.registry) (h : r.Grown E m) {frame : Frame P} {rest : List (Frame P)}
    (hitems : r.frames.items = frame :: rest) {step : Step}
    (hrole : (E.graph.role E.registry frame.node).Evaluable)
    (hpure : E.graph.Pure E.registry frame.node → (frame.volatile || frame.tainted) = false)
    (hmay : frame.May E step) (hawait : Frame.Await E root rest frame.node) :
    (r.serve E step).Sound E m root := by
  have hvisit : ∀ (id : NodeId),
      (E.graph.Pure E.registry frame.node → E.graph.Pure E.registry id) →
      (∀ a : Answer, a.Right E id → frame.Hears E a) → Frame.Await E root r.frames.items id := by
    intro id hnode hears
    rw [hitems]
    exact ⟨hnode, hears, hawait⟩
  cases step with
  | done value =>
    obtain ⟨hgrown, hframes, hanswer⟩ := succeed_sound h hitems hrole hmay hpure
    have hserve : r.serve E (.done value) = (r.succeed value).1.answer (r.succeed value).2 := rfl
    rw [hserve, hanswer]
    exact answer_sound hgrown (by rw [hframes]; exact hawait) hmay
  | fail error =>
    obtain ⟨hgrown, hframes, hanswer⟩ := fail_sound h hitems error
    have hserve : r.serve E (.fail error) = (r.fail error).1.answer (r.fail error).2 := rfl
    rw [hserve, hanswer]
    exact answer_sound hgrown (by rw [hframes]; exact hawait) hmay
  | request request =>
    cases request with
    | child id => exact visit_sound hg hr hm h (hvisit id hmay.1 hmay.2) _ _
    | under id bindings =>
      have hpushed : Run.Grown E m { r with scope := r.scope.push bindings } := h
      exact visit_sound hg hr hm hpushed (hvisit id hmay.1 hmay.2) _ _
    | fresh id => exact visit_sound hg hr hm h (hvisit id hmay.1 hmay.2) _ _
    | await await => exact ⟨h, frame, rest, hitems, hmay, hawait⟩

/-- **A turn lets memos grow,** also if it is one too many. -/
theorem turn_sound (hg : E.graph.validate = .ok ()) (hr : E.registry.Native)
    (hm : m.Sound E.graph E.registry) {input : Input}
    (h : (Next.resume r input).Sound E m root) : (r.turn E input).Sound E m root := by
  obtain ⟨hgrown, frame, rest, hitems, hresumes, hawait⟩ := h
  have hcount : r.countTurn.Grown E m := hgrown.of_caches r.stands.countTurn.caches
  unfold turn
  dsimp only
  split
  next limit hexceeded =>
    exact stop_sound hcount fun _ => ⟨limit, (Option.filter_eq_some_iff.1 hexceeded).1, rfl⟩
  next =>
    have hitems' : r.countTurn.frames.items = frame :: rest := hitems
    obtain ⟨step, after, shared, hstep⟩ : ∃ step after shared,
        frame.task.resume ⟨frame.node, r.countTurn.scope⟩ input r.countTurn.world.shared =
          ((step, after), shared) := ⟨_, _, _, rfl⟩
    simp only [resumeFrame, hitems', hstep]
    refine serve_sound hg hr hm ?_ ?_ ?_ ?_ (hresumes.may hstep) hawait
    · exact hcount
    · simp only [note, withShared, Stack.items_mapTop, hitems', List.modifyHead_cons]
    · exact hresumes.role
    · exact hresumes.pure

/-- **A run that begins.** -/
theorem begin_sound (hg : E.graph.validate = .ok ()) (hr : E.registry.Native)
    (hm : m.Sound E.graph E.registry) (h : r.Grown E m) (hframes : r.frames.items = [])
    (id : NodeId) : (r.begin E id).Sound E m id :=
  visit_sound hg hr hm h (by rw [hframes]; exact rfl) _ _

/-- **A run that goes on after a wait.** -/
theorem wake_sound (h : r.Grown E m) {frame : Frame P} {rest : List (Frame P)}
    (hitems : r.frames.items = frame :: rest) (world : World P) {wake : Wake}
    (hwakes : frame.Wakes E wake) (hawait : Frame.Await E root rest frame.node) :
    (r.wake world wake).Sound E m root := by
  cases wake with
  | elapsed => exact ⟨h, frame, rest, hitems, hwakes, hawait⟩
  | settled c =>
    have hmerged : (Run.mapTally { r with world } (·.merge c.tally)).Grown E m :=
      h.of_caches ((r.stands.withWorld world).mapTally (·.merge c.tally)).caches
    exact hears_sound hmerged hitems hwakes hawait

end Run

namespace Next

variable {next : Next P} {root : NodeId}

/-- **Wherever a run is, its memos have grown.** -/
theorem Sound.grown (h : next.Sound E m root) : next.run.Grown E m := by
  cases next <;> exact h.1

/-- From here on they grow from what they are. -/
theorem Sound.anew (h : next.Sound E m root) : next.Sound E next.run.memo root := by
  cases next <;> exact ⟨h.1.anew, h.2⟩

end Next

end ProgramGraph
