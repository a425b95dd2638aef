import Mathlib.Data.List.Forall2
import ProgramGraph.Proofs.Sound.Run
/-!
# Runs that go abreast

Two runs at a pure node that begin with the same memo take the same turns, whatever
their scopes are: they visit the same nodes, none of which is a parameter, find the
same results in their memos and take the same number of steps. So the limit cuts off
both of them, or neither.

The scopes differ, and with them the depths to which frames cut them back, the
scopes of jobs, the counters and the world. `Run.Abreast` says what does not.
-/

namespace ProgramGraph

variable {P : Plugins}

/-- The frames differ at most in the depth of the scope to go back to. -/
def Frame.Abreast (frame frame' : Frame P) : Prop :=
  frame' = { frame with scopeDepth := frame'.scopeDepth }

/-- **The runs are equally far.** -/
structure Run.Abreast (r r' : Run P) : Prop where
  frames : List.Forall₂ Frame.Abreast r.frames.items r'.frames.items
  caches : r'.caches = r.caches
  steps : r'.steps = r.steps

/-- The same has come of a wait. -/
inductive Wake.Alike : Wake → Wake → Prop
  | elapsed : Alike .elapsed .elapsed
  | settled {c c' : Conclusion} : c'.answer = c.answer → Alike (.settled c) (.settled c')

/-- **The same is next in both runs.** -/
inductive Next.Abreast : Next P → Next P → Prop
  | resume {r r' : Run P} (input : Input) : r.Abreast r' →
    Abreast (.resume r input) (.resume r' input)
  | wait {r r' : Run P} {await await' : Await} : r.Abreast r' → await.Alike await' →
    Abreast (.wait r await) (.wait r' await')
  | finish {o o' : Outcome P} : o'.result = o.result → o'.tainted = o.tainted →
    Abreast (.finish o) (.finish o')

variable {E : Engine P}

namespace Run

variable {r r' : Run P} {root id : NodeId} {m : Memo}

/-- A visit takes no step. -/
theorem steps_arrive (E : Engine P) (r : Run P) (id : NodeId) (restore : Nat) (fresh : Bool) :
    (r.arrive E id restore fresh).1.steps = r.steps := by
  have harrives := r.arrives E id restore fresh
  generalize r.arrive E id restore fresh = arrival at harrives
  cases harrives with
  | param =>
    show (mapInnermost _ _).steps = r.steps
    unfold mapInnermost
    split <;> rfl
  | _ => rfl

/-- An overlay is dropped, if there is one. -/
theorem caches_tail (r : Run P) : caches { r with overlays := r.overlays.tail } =
    match r.caches with
    | _ :: below :: rest => below :: rest
    | all => all := by
  unfold caches
  cases hoverlays : r.overlays with
  | nil => rfl
  | cons overlay rest => cases rest <;> rfl

namespace Abreast

/-- Of a run it matters only how far it is. -/
theorem congr (h : r.Abreast r') {s s' : Run P}
    (hframes : List.Forall₂ Frame.Abreast s.frames.items s'.frames.items)
    (hcaches : s.caches = r.caches) (hcaches' : s'.caches = r'.caches) (hsteps : s.steps = r.steps)
    (hsteps' : s'.steps = r'.steps) : s.Abreast s' :=
  ⟨hframes, by rw [hcaches, hcaches', h.caches], by rw [hsteps, hsteps', h.steps]⟩

theorem mapTally (h : r.Abreast r') (f f' : Tally → Tally) :
    (r.mapTally f).Abreast (r'.mapTally f') :=
  h.congr h.frames (r.stands.mapTally f).caches (r'.stands.mapTally f').caches rfl rfl

theorem observe (h : r.Abreast r') (tainted : Bool) :
    (r.observe tainted).Abreast (r'.observe tainted) := by
  refine h.congr ?_ rfl rfl rfl rfl
  have hframes := h.frames
  simp only [Run.observe, Stack.items_mapTop]
  generalize r.frames.items = frames at hframes
  generalize r'.frames.items = frames' at hframes
  cases hframes with
  | nil => exact .nil
  | cons hframe hrest =>
    refine .cons ?_ hrest
    rw [hframe]
    rfl

/-- **The same answer is handed over.** -/
theorem handOver (h : r.Abreast r') (result : Except EvalError Value) :
    (r.handOver result).Abreast (r'.handOver result) := by
  unfold Run.handOver
  cases result with
  | ok value => exact .resume _ h
  | error error =>
    dsimp only
    split
    · exact .finish rfl rfl
    · refine .resume _ ?_
      have hcounted := h.mapTally .countInjection .countInjection
      split <;> split <;> exact ⟨hcounted.frames, hcounted.caches, hcounted.steps⟩

theorem answer (h : r.Abreast r') (a : Answer) : (r.answer a).Abreast (r'.answer a) := by
  have hframes := h.frames
  unfold Run.answer
  split
  next hnil =>
    rw [hnil] at hframes
    rw [List.forall₂_nil_left_iff.1 hframes]
    exact .finish rfl rfl
  next frame rest hcons =>
    rw [hcons] at hframes
    obtain ⟨frame', rest', -, -, hcons'⟩ := List.forall₂_cons_left_iff.1 hframes
    rw [hcons']
    exact (h.observe a.tainted).handOver a.result

/-- **The same pure node is visited.** -/
theorem visit (hr : E.registry.Native) (h : r.Abreast r') (hpure : E.graph.Pure E.registry id)
    (restore restore' : Nat) (fresh : Bool) :
    (r.visit E id restore fresh).Abreast (r'.visit E id restore' fresh) := by
  obtain ⟨inner, tail, hcaches⟩ := r.exists_caches
  have hcaches' : r'.caches = inner :: tail := h.caches.trans hcaches
  have hstands : r.Stands r.frames r.scope (inner :: tail) r.memo.tally := ⟨rfl, rfl, hcaches, rfl⟩
  have hstands' : r'.Stands r'.frames r'.scope (inner :: tail) r'.memo.tally :=
    ⟨rfl, rfl, hcaches', rfl⟩
  have hsteps := r.steps_arrive E id restore fresh
  have hsteps' := r'.steps_arrive E id restore' fresh
  -- both are answered without a frame
  have hready : ∀ {s s' : Run P} {scope scope' : Scope} {tally tally' : Tally} {a : Answer},
      r.arrive E id restore fresh = (s, .ready a) →
      r'.arrive E id restore' fresh = (s', .ready a) →
      s.Stands r.frames scope (inner :: tail) tally →
      s'.Stands r'.frames scope' (inner :: tail) tally' →
      (r.visit E id restore fresh).Abreast (r'.visit E id restore' fresh) := by
    intro s s' scope scope' tally tally' a harrive harrive' hs hs'
    rw [harrive] at hsteps
    rw [harrive'] at hsteps'
    have hsame : s.Abreast s' := by
      refine h.congr ?_ (hs.caches.trans hcaches.symm) (hs'.caches.trans hcaches'.symm) hsteps hsteps'
      rw [hs.frames, hs'.frames]
      exact h.frames
    rw [Run.visit_of_ready harrive, Run.visit_of_ready harrive']
    exact hsame.answer a
  have hserved : ∀ value, (if fresh then none else inner.kept? id) = some value →
      E.graph.role E.registry id ≠ .absent → (∀ p, E.graph.role E.registry id ≠ .param p) →
      (r.visit E id restore fresh).Abreast (r'.visit E id restore' fresh) := by
    intro value hkept habsent hparam
    obtain ⟨s, harrive, hs⟩ := hstands.arrive_kept habsent hparam hkept restore
    obtain ⟨s', harrive', hs'⟩ := hstands'.arrive_kept habsent hparam hkept restore'
    exact hready harrive harrive' hs hs'
  cases hrole : E.graph.role E.registry id with
  | absent =>
    obtain ⟨s, harrive, hs⟩ := hstands.arrive_absent hrole restore fresh
    obtain ⟨s', harrive', hs'⟩ := hstands'.arrive_absent hrole restore' fresh
    exact hready harrive harrive' hs hs'
  | param p => exact absurd hpure (not_pure_of_param hrole)
  | refused error volatile =>
    cases hkept : if fresh then none else inner.kept? id with
    | some value => exact hserved value hkept (by simp [hrole]) (by simp [hrole])
    | none =>
      obtain ⟨s, harrive, hs⟩ := hstands.arrive_refused hr hrole hkept restore
      obtain ⟨s', harrive', hs'⟩ := hstands'.arrive_refused hr hrole hkept restore'
      exact hready harrive harrive' hs hs'
  | planned plan volatile =>
    cases hkept : if fresh then none else inner.kept? id with
    | some value => exact hserved value hkept (by simp [hrole]) (by simp [hrole])
    | none =>
      obtain ⟨task, hstarts, -⟩ := E.exists_starts hr hrole
      obtain ⟨s, harrive, hs⟩ := hstands.arrive_started hstarts hkept restore
      obtain ⟨s', harrive', hs'⟩ := hstands'.arrive_started hstarts hkept restore'
      rw [harrive] at hsteps
      rw [harrive'] at hsteps'
      rw [Run.visit_of_pushed harrive, Run.visit_of_pushed harrive']
      refine .resume _ ⟨?_, hs'.caches.trans hs.caches.symm, ?_⟩
      · rw [hs.frames, hs'.frames, Stack.items_push, Stack.items_push]
        exact .cons rfl h.frames
      · exact hsteps'.trans (h.steps.trans hsteps.symm)

/-! ## Turns -/

variable {frame frame' : Frame P} {rest rest' : List (Frame P)}

/-- A change of the innermost memo. -/
theorem mapInnermost (h : r.Abreast r') {f : Memo → Memo}
    (hf : ∀ m : Memo, (f m).resetTally = f m.resetTally) :
    (r.mapInnermost f).Abreast (r'.mapInnermost f) := by
  obtain ⟨inner, tail, hcaches⟩ := r.exists_caches
  refine ⟨?_, ?_, ?_⟩
  · rw [frames_mapInnermost, frames_mapInnermost]
    exact h.frames
  · rw [caches_mapInnermost hcaches hf, caches_mapInnermost (h.caches.trans hcaches) hf]
  · unfold Run.mapInnermost
    split <;> split <;> exact h.steps

/-- **Both top frames end** in the same way. -/
theorem popped (h : r.Abreast r') (hitems : r.frames.items = frame :: rest)
    (hitems' : r'.frames.items = frame' :: rest') (fresh : Bool) {f : Memo → Memo}
    (hf : ∀ m : Memo, (f m).resetTally = f m.resetTally) (depth depth' : Nat) :
    Run.Abreast
      (if fresh then { r.truncate depth with frames := r.frames.pop, overlays := r.overlays.tail }
        else Run.mapInnermost { r.truncate depth with frames := r.frames.pop } f)
      (if fresh then
          { r'.truncate depth' with frames := r'.frames.pop, overlays := r'.overlays.tail }
        else Run.mapInnermost { r'.truncate depth' with frames := r'.frames.pop } f) := by
  have hframes : List.Forall₂ Frame.Abreast r.frames.pop.items r'.frames.pop.items := by
    have hall := h.frames
    rw [hitems, hitems'] at hall
    rw [(Stack.eq_push hitems).2, (Stack.eq_push hitems').2]
    exact (List.forall₂_cons.1 hall).2
  have hpopped : Run.Abreast { r.truncate depth with frames := r.frames.pop }
      { r'.truncate depth' with frames := r'.frames.pop } := ⟨hframes, h.caches, h.steps⟩
  cases fresh with
  | true =>
    refine ⟨hframes, ?_, h.steps⟩
    have htail := caches_tail { r.truncate depth with frames := r.frames.pop }
    have htail' := caches_tail { r'.truncate depth' with frames := r'.frames.pop }
    rw [hpopped.caches] at htail'
    exact htail'.trans htail.symm
  | false => exact hpopped.mapInnermost hf

/-- **A task does the same in both runs.** -/
theorem serve (hr : E.registry.Native) (h : r.Abreast r')
    (hitems : r.frames.items = frame :: rest) {step step' : Step} (hstep : step.Alike step')
    (hmay : frame.May E step) (hpure : E.graph.Pure E.registry frame.node) :
    (r.serve E step).Abreast (r'.serve E step') := by
  have hframes := h.frames
  rw [hitems] at hframes
  obtain ⟨frame', rest', hframe, -, hitems'⟩ := List.forall₂_cons_left_iff.1 hframes
  have hfresh : frame'.fresh = frame.fresh := by rw [hframe]
  have hnode : frame'.node = frame.node := by rw [hframe]
  have htainted : (frame'.volatile || frame'.tainted) = (frame.volatile || frame.tainted) := by
    rw [hframe]
  cases hstep with
  | wait hawait => exact .wait h hawait
  | same =>
    cases step with
    | done value =>
      have hput : ∀ m : Memo,
          (m.put frame.node value (frame.volatile || frame.tainted)).resetTally =
            m.resetTally.put frame.node value (frame.volatile || frame.tainted) := by
        intro m
        cases frame.volatile || frame.tainted <;> rfl
      have hpopped := h.popped hitems hitems' frame.fresh hput frame.scopeDepth frame'.scopeDepth
      simp only [Run.serve, succeed, hitems, hitems', hfresh, hnode, htainted]
      exact hpopped.answer _
    | fail error =>
      have hpopped := h.popped hitems hitems' frame.fresh (f := id) (fun _ => rfl) frame.scopeDepth
        frame'.scopeDepth
      have hid : ∀ r : Run P, r.mapInnermost id = r := by
        intro r
        unfold Run.mapInnermost
        split
        · rfl
        next hoverlays => simp only [id, ← hoverlays]
      rw [hid, hid] at hpopped
      simp only [Run.serve, fail, hitems, hitems', hfresh, htainted]
      exact hpopped.answer _
    | request request =>
      cases request with
      | child id => exact h.visit hr (hmay.1 hpure) _ _ _
      | under id bindings =>
        have hpushed : Run.Abreast { r with scope := r.scope.push bindings }
            { r' with scope := r'.scope.push bindings } := ⟨h.frames, h.caches, h.steps⟩
        exact hpushed.visit hr (hmay.1 hpure) _ _ _
      | fresh id => exact h.visit hr (hmay.1 hpure) _ _ _
      | await await => exact .wait h (.refl await)

/-- **Both runs take a turn,** at a pure node. -/
theorem turn (hr : E.registry.Native) (h : r.Abreast r') {input : Input}
    (hsound : (Next.resume r input).Sound E m root) (hroot : E.graph.Pure E.registry root) :
    (r.turn E input).Abreast (r'.turn E input) := by
  obtain ⟨-, frame, rest, hitems, hresumes, hawait⟩ := hsound
  have hpure := hawait.pure hroot
  obtain ⟨-, task, htask, -⟩ := hresumes.plan (hresumes.pure hpure)
  have hframes := h.frames
  rw [hitems] at hframes
  obtain ⟨frame', rest', hframe, hrest, hitems'⟩ := List.forall₂_cons_left_iff.1 hframes
  have hcounted : r.countTurn.Abreast r'.countTurn := by
    refine ⟨h.frames, ?_, congrArg (· + 1) h.steps⟩
    rw [r.stands.countTurn.caches, r'.stands.countTurn.caches, h.caches]
  have hexceeded : r'.countTurn.exceeded? E.limits = r.countTurn.exceeded? E.limits := by
    simp only [exceeded?, hcounted.steps]
  unfold Run.turn
  dsimp only
  rw [hexceeded]
  split
  · exact .finish rfl rfl
  · -- the tasks are the same, and so is what they do
    have hc : r.countTurn.frames.items = frame :: rest := hitems
    have hc' : r'.countTurn.frames.items = frame' :: rest' := hitems'
    have hnode : frame'.node = frame.node := by rw [hframe]
    have htask' : frame'.task = .builtin task := by rw [hframe, ← htask]
    obtain ⟨halike, hafter⟩ := task.resume_alike frame.node r.countTurn.scope r'.countTurn.scope input
    obtain ⟨step, after, hresume⟩ : ∃ step after,
        task.resume ⟨frame.node, r.countTurn.scope⟩ input = (step, after) := ⟨_, _, rfl⟩
    obtain ⟨step', after', hresume'⟩ : ∃ step after,
        task.resume ⟨frame.node, r'.countTurn.scope⟩ input = (step, after) := ⟨_, _, rfl⟩
    rw [hresume, hresume'] at halike hafter
    obtain rfl : after = after' := hafter
    have hstep : frame.task.resume ⟨frame.node, r.countTurn.scope⟩ input r.countTurn.world.shared =
        ((step, .builtin after), r.countTurn.world.shared) := by
      rw [htask]
      simp only [Task.resume, hresume]
    have htop : (r.countTurn.frames.mapTop ({ · with task := .builtin after })).items =
        { frame with task := .builtin after } :: rest := by
      rw [Stack.items_mapTop, hc, List.modifyHead_cons]
    have htop' : (r'.countTurn.frames.mapTop ({ · with task := .builtin after })).items =
        { frame' with task := .builtin after } :: rest' := by
      rw [Stack.items_mapTop, hc', List.modifyHead_cons]
    simp only [resumeFrame, hc, hc', htask, htask', Task.resume, hnode, hresume, hresume']
    refine serve hr ?_ htop halike (hresumes.may hstep) hpure
    refine ⟨?_, hcounted.caches, hcounted.steps⟩
    refine (congrArg₂ (List.Forall₂ Frame.Abreast) htop htop').mpr (.cons ?_ hrest)
    rw [hframe]
    rfl

/-- **Both runs go on** after a wait that the same has come of. -/
theorem wake (h : r.Abreast r') (world world' : World P) {wake wake' : Wake}
    (hwake : wake.Alike wake') : (r.wake world wake).Abreast (r'.wake world' wake') := by
  have hworld : Run.Abreast { r with world } { r' with world := world' } :=
    ⟨h.frames, h.caches, h.steps⟩
  cases hwake with
  | elapsed => exact .resume _ hworld
  | @settled c c' hanswer =>
    have hresult : c'.result = c.result := congrArg Answer.result hanswer
    have htainted : c'.tainted = c.tainted := congrArg Answer.tainted hanswer
    simp only [Run.wake, hresult, htainted]
    exact ((hworld.mapTally _ _).observe _).handOver _

end Abreast

end Run

end ProgramGraph
