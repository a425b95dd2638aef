import ProgramGraph.Engine.Journal
import ProgramGraph.Proofs.Fold.Total
import ProgramGraph.Proofs.Passage.Conduct
import ProgramGraph.Proofs.Plan.Elementary
/-!
# How often nodes are started

In an elementary graph a fold is one run that never waits and has no overlays, so all of
it takes place in one memo and on one stack. A node that has been started is on the
stack until it ends. If it ends with a value it is kept, and what is kept is never
started again; while it is on the stack only smaller nodes are asked for. But failures
are not kept: a node that fails is started whenever it is asked for
(`Engine.exists_folds_relapse`). So it is the others that are started once at most
(`Engine.thrifty`).
-/

namespace ProgramGraph

variable {P : Plugins}

/-- The nodes whose handlers were started, last first, refusals included. -/
def World.started (w : World P) : List NodeId := w.journal.filterMap Event.started?

/-- Whether what the node comes to is a failure. -/
def Graph.fails (g : Graph) (reg : Registry P) (id : NodeId) : Bool :=
  match (g.evaluate reg id .empty).result with
  | .error (.failed _) => true
  | _ => false

/-- **The frame is direct:** it asks for children only, and nothing tainted has gone
into it. -/
structure Frame.Direct (frame : Frame P) : Prop where
  task : ∃ task, frame.task = .builtin task ∧ task.Direct
  volatile : frame.volatile = false
  tainted : frame.tainted = false
  fresh : frame.fresh = false

/-- **Starts are told of a run:** a node that does not fail has been started once at
most, and there is an event for each start that was counted. -/
structure Run.Told (E : Engine P) (r : Run P) : Prop where
  once : ∀ id, E.graph.fails E.registry id = false → r.world.started.count id ≤ 1
  known : ∀ id ∈ r.world.started, E.graph.get? id ≠ none
  tally : r.memo.tally.starts ≤ r.world.started.length

/-- **The run is thrifty.** Its frames are direct, and a node that has been started and
does not fail is on the stack or its value is kept. -/
structure Run.Thrifty (E : Engine P) (r : Run P) : Prop where
  told : r.Told E
  direct : ∀ frame ∈ r.frames.items, frame.Direct
  overlays : r.overlays = []
  held : ∀ id ∈ r.world.started, E.graph.fails E.registry id = false →
    r.memo.kept? id ≠ none ∨ id ∈ r.frames.items.map Frame.node

/-- The run goes on thriftily, or has ended so. It does not wait. -/
def Next.Thrifty (E : Engine P) : Next P → Prop
  | .resume r _ => r.Thrifty E
  | .wait _ _ => False
  | .finish o => o.run.Told E

namespace Run

variable {E : Engine P} {r r' : Run P}

/-- Only the journal and the counter of starts matter. -/
theorem Told.of_eq (h : r.Told E) (hstarted : r'.world.started = r.world.started)
    (htally : r'.memo.tally.starts = r.memo.tally.starts) : r'.Told E := by
  refine ⟨?_, ?_, ?_⟩
  · rw [hstarted]; exact h.once
  · rw [hstarted]; exact h.known
  · rw [hstarted, htally]; exact h.tally

/-- The frames change, but not their nodes. -/
theorem Thrifty.withFrames (h : r.Thrifty E) {frames : Stack (Frame P)}
    (hdirect : ∀ frame ∈ frames.items, frame.Direct)
    (hnodes : frames.items.map Frame.node = r.frames.items.map Frame.node) :
    Run.Thrifty E { r with frames } where
  told := h.told.of_eq rfl rfl
  direct := hdirect
  overlays := h.overlays
  held := by
    intro id hid hfails
    rw [hnodes]
    exact h.held id hid hfails

/-- The scope does not matter. -/
theorem Thrifty.withScope (h : r.Thrifty E) (scope : Scope) : Run.Thrifty E { r with scope } :=
  ⟨h.told.of_eq rfl rfl, h.direct, h.overlays, h.held⟩

theorem Thrifty.mapTally (h : r.Thrifty E) {f : Tally → Tally}
    (hf : ∀ t, (f t).starts = t.starts) : (r.mapTally f).Thrifty E :=
  ⟨h.told.of_eq rfl (hf _), h.direct, h.overlays, h.held⟩

/-- An event that is no start. -/
theorem Thrifty.note (h : r.Thrifty E) {event : Event} (he : event.started? = none) :
    (r.note event).Thrifty E := by
  have hstarted : (r.note event).world.started = r.world.started :=
    List.filterMap_cons_none he
  refine ⟨h.told.of_eq hstarted rfl, h.direct, h.overlays, ?_⟩
  rw [hstarted]
  exact h.held

/-! ## Answers -/

theorem thrifty_handOver (h : r.Thrifty E) (result : Except EvalError Value) :
    (r.handOver result).Thrifty E := by
  unfold handOver
  split
  next => exact h
  next =>
    split
    next => exact h.told.of_eq rfl rfl
    next =>
      dsimp only
      have hcounted : (r.mapTally .countInjection).Thrifty E := h.mapTally fun _ => rfl
      split
      · exact hcounted
      · exact hcounted.note rfl

/-- **An untainted answer** leaves the frame that it goes to direct. -/
theorem thrifty_answer (h : r.Thrifty E) {a : Answer} (ha : a.tainted = false) :
    (r.answer a).Thrifty E := by
  unfold answer
  split
  next => exact h.told
  next frame rest hitems =>
    refine thrifty_handOver (h.withFrames ?_ ?_) _
    · rw [Stack.items_mapTop, hitems, List.modifyHead_cons]
      have hdirect := h.direct
      rw [hitems, List.forall_mem_cons] at hdirect
      obtain ⟨⟨htask, hvolatile, htainted, hfresh⟩, hrest⟩ := hdirect
      refine List.forall_mem_cons.2 ⟨⟨htask, hvolatile, ?_, hfresh⟩, hrest⟩
      simp [htainted, ha]
    · rw [Stack.items_mapTop, hitems, List.modifyHead_cons]
      rfl

/-- **A fatal error** ends the run. -/
theorem thrifty_answer_of_fatal (h : r.Told E) {a : Answer} {fatal : EvalError}
    (hfatal : Reply.ofResult a.result = .error fatal) : (r.answer a).Thrifty E := by
  obtain ⟨hresult, herror⟩ := Reply.ofResult_eq_error hfatal
  unfold answer
  split
  next => exact h
  next =>
    simp only [handOver, hresult, herror]
    exact h.of_eq rfl rfl

/-! ## Visits -/

/-- One start more, of a node that is not held. -/
theorem Told.start (h : r.Told E) {id : NodeId} (hid : E.graph.get? id ≠ none)
    (hfree : E.graph.fails E.registry id = false → id ∉ r.world.started)
    (hstarted : r'.world.started = id :: r.world.started)
    (htally : r'.memo.tally.starts ≤ r.memo.tally.starts + 1) : r'.Told E where
  once other hother := by
    rw [hstarted, List.count_cons]
    split
    next heq =>
      obtain rfl : id = other := eq_of_beq heq
      rw [List.count_eq_zero_of_not_mem (hfree hother)]
    next => exact h.once other hother
  known := by
    rw [hstarted]
    exact List.forall_mem_cons.2 ⟨hid, h.known⟩
  tally := by
    rw [hstarted, List.length_cons]
    have := h.tally
    omega

/-- **A visit** to a node that is not on the stack. -/
theorem thrifty_visit (hr : E.registry.Elementary) (he : E.graph.Elementary) (h : r.Thrifty E)
    {id : NodeId} (hid : id ∉ r.frames.items.map Frame.node) (restore : Nat) :
    (r.visit E id restore false).Thrifty E := by
  have htruncate : (r.truncate restore).Thrifty E := h.withScope _
  have hinnermost : r.innermost = r.memo := by simp only [innermost, h.overlays]
  unfold visit arrive
  cases hnode : E.graph.get? id with
  | none => exact thrifty_answer htruncate rfl
  | some node =>
    obtain ⟨htag, hparam, hcleanup⟩ := he.of_get? hnode
    have hsome : E.graph.get? id ≠ none := by simp [hnode]
    simp only [hparam, Bool.false_eq_true, if_false, hinnermost]
    cases hkept : r.memo.kept? id with
    | some value =>
      have hcounted : ((r.truncate restore).mapTally .countHit).Thrifty E :=
        htruncate.mapTally fun _ => rfl
      exact thrifty_answer (hcounted.note rfl) rfl
    | none =>
      -- what is neither kept nor on the stack has not been started
      have hfree : E.graph.fails E.registry id = false → id ∉ r.world.started := by
        intro hfails hstarted
        rcases h.held id hstarted hfails with hmemo | hframe
        · exact hmemo hkept
        · exact hid hframe
      dsimp only
      cases hget : E.registry.get node.tag with
      | error error => exact thrifty_answer htruncate rfl
      | ok entry =>
        obtain ⟨hvolatile, handler, hhandler, helementary⟩ :=
          hr _ (Registry.mem_of_get hget) htag
        have hmade : entry.handler.start id node r.world.shared =
            ((handler.start id node).map .builtin, r.world.shared) := by
          rw [hhandler]
          rfl
        simp only [hmade]
        cases hstart : handler.start id node with
        | error error =>
          obtain ⟨reason, rfl⟩ := Builtin.invalid_of_start hstart
          have htold : Run.Told E (((r.truncate restore).withShared r.world.shared).note
              (.started id false false)) := h.told.start hsome hfree rfl (Nat.le_succ _)
          have hfatal : Reply.ofResult (.error (.invalidNode id reason)) = .error _ := rfl
          exact thrifty_answer_of_fatal htold hfatal
        | ok task =>
          have hdirect : task.Direct := (Builtin.makes_of_start hstart).direct helementary hcleanup
          refine ⟨h.told.start hsome hfree rfl (Nat.le_refl _), ?_, h.overlays, ?_⟩
          · exact List.forall_mem_cons.2 ⟨⟨⟨task, rfl, hdirect⟩, hvolatile, rfl, rfl⟩, h.direct⟩
          · refine List.forall_mem_cons.2
              ⟨fun _ => .inr List.mem_cons_self, fun other hother hfails => ?_⟩
            exact (h.held other hother hfails).imp_right (List.mem_cons_of_mem _)

/-! ## Turns -/

section Serve

variable {frame : Frame P} {rest : List (Frame P)}

/-- **The top frame ends with a value,** which is kept. -/
theorem thrifty_succeed (h : r.Thrifty E) (hitems : r.frames.items = frame :: rest)
    (value : Value) :
    (r.succeed value).1.Thrifty E ∧ (r.succeed value).2.tainted = false := by
  have hdirect := h.direct
  rw [hitems, List.forall_mem_cons] at hdirect
  obtain ⟨⟨-, hvolatile, htainted, hfresh⟩, hrest⟩ := hdirect
  have hpop : r.frames.pop.items = rest := (Stack.eq_push hitems).2
  simp only [succeed, hitems, hvolatile, htainted, hfresh, mapInnermost, truncate, h.overlays,
    Bool.false_eq_true, if_false, Bool.or_false]
  refine ⟨⟨h.told.of_eq rfl rfl, ?_, rfl, fun id hid hfails => ?_⟩, trivial⟩
  · rw [hpop]
    exact hrest
  · show (r.memo.put frame.node value false).kept? id ≠ none ∨
      id ∈ r.frames.pop.items.map Frame.node
    rw [Memo.kept?_put, hpop]
    split
    next => exact .inl (by simp)
    next hne =>
      refine (h.held id hid hfails).imp_right fun hframe => ?_
      rw [hitems, List.map_cons, List.mem_cons] at hframe
      exact hframe.resolve_left (Ne.symm hne)

/-- **The top frame ends with a failure,** which is what its node comes to. -/
theorem thrifty_fail (h : r.Thrifty E) (hitems : r.frames.items = frame :: rest)
    (error : EvalError) :
    (r.fail error).1.Told E ∧ (r.fail error).2 = ⟨.error error, false⟩ ∧
      (E.graph.fails E.registry frame.node = true → (r.fail error).1.Thrifty E) := by
  have hdirect := h.direct
  rw [hitems, List.forall_mem_cons] at hdirect
  obtain ⟨⟨-, hvolatile, htainted, hfresh⟩, hrest⟩ := hdirect
  have hpop : r.frames.pop.items = rest := (Stack.eq_push hitems).2
  simp only [fail, hitems, hvolatile, htainted, hfresh, truncate, Bool.false_eq_true, if_false,
    Bool.or_false]
  refine ⟨h.told.of_eq rfl rfl, trivial, fun hfailing => ⟨h.told.of_eq rfl rfl, ?_, h.overlays,
    fun id hid hfails => (h.held id hid hfails).imp_right fun hframe => ?_⟩⟩
  · rw [hpop]
    exact hrest
  · show id ∈ r.frames.pop.items.map Frame.node
    rw [hitems, List.map_cons, List.mem_cons] at hframe
    rw [hpop]
    refine hframe.resolve_left ?_
    rintro rfl
    rw [hfailing] at hfails
    cases hfails

/-- **A direct step that the top frame may do is served.** -/
theorem thrifty_serve (hr : E.registry.Elementary) (he : E.graph.Elementary)
    (hg : E.graph.validate = .ok ()) (h : r.Thrifty E) (hitems : r.frames.items = frame :: rest)
    {root : NodeId} (hline : Frame.Line E.graph root rest frame.node) {step : Step}
    (hdirect : step.Direct) (hmay : frame.May E step) (hasks : frame.Asks E.graph step) :
    (r.serve E step).Thrifty E := by
  -- what is asked for is smaller than all nodes on the stack
  have hfree : ∀ id, E.graph.Refers frame.node id → id ∉ r.frames.items.map Frame.node := by
    intro id hrefers hid
    rw [hitems] at hid
    have hless := (hline.pairwise hg).1
    rcases List.mem_cons.1 hid with rfl | hid
    · exact Nat.lt_irrefl _ (hrefers.lt hg)
    · exact Nat.lt_asymm (hrefers.lt hg) (List.rel_of_pairwise_cons hless hid)
  cases step with
  | done value =>
    obtain ⟨hthrifty, htainted⟩ := thrifty_succeed h hitems value
    exact thrifty_answer hthrifty htainted
  | fail error =>
    obtain ⟨htold, hanswer, hthrifty⟩ := thrifty_fail h hitems error
    have hserve : r.serve E (.fail error) = (r.fail error).1.answer (r.fail error).2 := rfl
    rw [hserve, hanswer]
    cases hreply : Reply.ofResult (.error error) with
    | error fatal => exact thrifty_answer_of_fatal htold hreply
    | ok reply =>
      obtain ⟨value, rfl⟩ : ∃ value, error = .failed value := by
        cases error <;> first | exact ⟨_, rfl⟩ | cases hreply
      refine thrifty_answer (hthrifty ?_) rfl
      have hclean := h.direct frame (by simp [hitems])
      have huntainted : (frame.volatile || frame.tainted) = false := by
        simp [hclean.volatile, hclean.tainted]
      have hworth := Answer.Right.of_untainted hmay huntainted .empty
      simp only [Graph.fails, hworth]
  | request request =>
    cases request with
    | child id => exact thrifty_visit hr he h (hfree id hasks.1) _
    | under id bindings =>
      exact thrifty_visit hr he (h.withScope (r.scope.push bindings)) (hfree id hasks.1) _
    | fresh id => exact hdirect.elim
    | await await => exact hdirect.elim

end Serve

/-- **A turn.** -/
theorem thrifty_turn (hr : E.registry.Elementary) (he : E.graph.Elementary)
    (hg : E.graph.validate = .ok ()) (h : r.Thrifty E) {m : Memo} {root : NodeId} {input : Input}
    (hsound : (Next.resume r input).Sound E m root)
    (hconducted : (Next.resume r input).Conducted E.graph root) : (r.turn E input).Thrifty E := by
  obtain ⟨-, frame, rest, hitems, hresumes, -⟩ := hsound
  obtain ⟨frame', rest', hitems', hperforms, hline⟩ := hconducted
  rw [hitems] at hitems'
  cases hitems'
  have hcount : r.countTurn.Thrifty E := ⟨h.told.of_eq rfl rfl, h.direct, h.overlays, h.held⟩
  cases hexceeded : r.countTurn.exceeded? E.limits with
  | some limit =>
    rw [turn_of_exceeded hexceeded]
    exact hcount.told.of_eq rfl rfl
  | none =>
    have hcounted : r.countTurn.frames.items = frame :: rest := hitems
    have hdirect := h.direct
    rw [hitems, List.forall_mem_cons] at hdirect
    obtain ⟨task, htask, hdirectTask⟩ := hdirect.1.task
    obtain ⟨hstep, hafter⟩ := hdirectTask.resume ⟨frame.node, r.countTurn.scope⟩ input
    rw [turn_of_within hexceeded, resumeFrame_of_builtin hcounted htask]
    generalize hresume : task.resume ⟨frame.node, r.countTurn.scope⟩ input = resumed
      at hstep hafter ⊢
    obtain ⟨step, after⟩ := resumed
    have hframe : frame.task.resume ⟨frame.node, r.countTurn.scope⟩ input r.world.shared =
        ((step, .builtin after), r.world.shared) := by
      rw [htask]
      simp only [Task.resume, hresume]
    have hitems' : (r.countTurn.frames.mapTop ({ · with task := .builtin after })).items =
        { frame with task := .builtin after } :: rest := by
      rw [Stack.items_mapTop, hcounted, List.modifyHead_cons]
    have hframes : Run.Thrifty E { r.countTurn with
        frames := r.countTurn.frames.mapTop ({ · with task := .builtin after }) } := by
      refine hcount.withFrames ?_ ?_
      · rw [hitems']
        exact List.forall_mem_cons.2
          ⟨⟨⟨after, rfl, hafter⟩, hdirect.1.volatile, hdirect.1.tainted, hdirect.1.fresh⟩, hdirect.2⟩
      · rw [hitems', hcounted]
        rfl
    exact thrifty_serve hr he hg (hframes.note rfl) hitems' hline hstep (hresumes.may hframe)
      (hperforms.asks hframe)

end Run

/-! ## Folds -/

/-- **What the turns of the root keep** is true of what a fold ends with, if it rules out
that the root waits. -/
theorem Schedule.follow_of_turns {E : Engine P} {I : Next P → Prop}
    (hturn : ∀ r input, I (.resume r input) → I (r.turn E input))
    (hwait : ∀ r await, ¬ I (.wait r await)) {fuel : Nat} {s : Schedule P} {next : Next P}
    (hfocus : s.focus = .job root next) (h : I next) {o : Outcome P}
    (ho : s.follow E fuel = some o) : I (.finish o) := by
  induction fuel generalizing s next with
  | zero => cases ho
  | succ fuel ih =>
    unfold follow step at ho
    rw [hfocus] at ho
    cases next with
    | resume r input => exact ih rfl (hturn r input h) ho
    | wait r await => exact (hwait r await h).elim
    | finish o' =>
      simp only [if_true] at ho
      cases ho
      exact h

/-- **Nodes are not started more often than need be.** -/
structure Engine.Thrifty (E : Engine P) (o : Outcome P) : Prop where
  /-- The handler of a node that does not fail is started once at most, refusals
  included. -/
  once : ∀ id, E.graph.fails E.registry id = false → o.run.world.started.count id ≤ 1
  /-- So no more tasks are started than there are nodes, besides those of nodes that
  fail. -/
  total : o.run.memo.tally.starts ≤
    E.graph.size + o.run.world.started.countP (E.graph.fails E.registry)

/-- Handles of a graph, none of them twice, are no more than its nodes. -/
theorem Graph.length_le_size {g : Graph} {ids : List NodeId} (hids : ids.Nodup)
    (h : ∀ id ∈ ids, g.get? id ≠ none) : ids.length ≤ g.size := by
  have hnodup : (ids.map NodeId.index).Nodup := hids.map fun a b => by
    cases a
    cases b
    simp
  have hsubset : ids.map NodeId.index ⊆ List.range g.size := by
    intro index hindex
    obtain ⟨id, hid, rfl⟩ := List.mem_map.1 hindex
    refine List.mem_range.2 (Nat.lt_of_not_le fun hle => h id hid ?_)
    exact Array.getElem?_eq_none hle
  simpa using (hnodup.subperm hsubset).length_le

theorem Run.Told.total {E : Engine P} {r : Run P} (h : r.Told E) :
    r.memo.tally.starts ≤ E.graph.size + r.world.started.countP (E.graph.fails E.registry) := by
  have hlength := r.world.started.length_eq_countP_add_countP (E.graph.fails E.registry)
  have hothers : r.world.started.countP (fun id => ¬ E.graph.fails E.registry id) ≤
      E.graph.size := by
    rw [List.countP_eq_length_filter]
    refine Graph.length_le_size (List.nodup_iff_count_le_one.2 fun id => ?_) fun id hid =>
      h.known id (List.mem_of_mem_filter hid)
    cases hfails : E.graph.fails E.registry id with
    | true =>
      rw [List.count_eq_zero_of_not_mem]
      · exact Nat.zero_le 1
      · simp [hfails]
    | false =>
      rw [List.count_filter (by simp [hfails])]
      exact h.once id hfails
  have := h.tally
  omega

namespace Engine

/-- **A fold of an elementary graph,** as its starts are told. What is kept by its turns
goes from the beginning of its run to the end. -/
theorem exists_folds_told {g : Graph} {reg : Registry P} (hg : g.validate = .ok ())
    (he : g.Elementary) (hr : reg = .standard ∨ reg = .standardSequential) (limits : Limits)
    (root : Root) (shared : P.Shared) :
    ∃ o, Engine.Folds ⟨g, reg, limits⟩ root .empty shared o ∧
      o.run.Told ⟨g, reg, limits⟩ := by
  let E : Engine P := ⟨g, reg, limits⟩
  have hnative : E.registry.Native := Registry.native_of_standard_or hr
  have hordinary : E.registry.Ordinary := Registry.ordinary_of_standard_or hr
  have helementary : E.registry.Elementary := Registry.elementary_of_standard_or hr
  obtain ⟨o, fuel, ho⟩ := exists_evaluates (E := E) hg hnative root.target .empty .empty shared
  let I (next : Next P) : Prop :=
    next.Sound E .empty root.target ∧ next.Conducted E.graph root.target ∧ next.Thrifty E
  have hturn : ∀ r input, I (.resume r input) → I (r.turn E input) :=
    fun r input ⟨hsound, hconducted, hthrifty⟩ =>
      ⟨Run.turn_sound hg hnative Memo.sound_empty hsound,
        Run.turn_conducted hnative hordinary hconducted,
        Run.thrifty_turn helementary he hg hthrifty hsound hconducted⟩
  have hbegin : I (Run.begin E { world := { shared } } root.target) := by
    have hgrown : Run.Grown E .empty ({ world := { shared } } : Run P) :=
      Memo.Grows.resetTally .refl
    have hthrifty : Run.Thrifty E ({ world := { shared } } : Run P) :=
      ⟨⟨fun _ _ => Nat.zero_le 1, nofun, Nat.le_refl 0⟩, nofun, rfl, nofun⟩
    exact ⟨Run.begin_sound hg hnative Memo.sound_empty hgrown rfl _,
      Run.begin_conducted hnative hordinary rfl _,
      Run.thrifty_visit helementary he hthrifty nofun _⟩
  have hfinish : I (.finish o) :=
    Schedule.follow_of_turns hturn (fun _ _ hwait => hwait.2.2) rfl hbegin ho
  exact ⟨o, ⟨fuel, ho⟩, hfinish.2.2⟩

/-- **In an elementary graph nodes that do not fail are started once at most,** in the
fold of any root from an empty memo, within any limit. -/
theorem thrifty {g : Graph} {reg : Registry P} (hg : g.validate = .ok ()) (he : g.Elementary)
    (hr : reg = .standard ∨ reg = .standardSequential) (limits : Limits) (root : Root)
    (shared : P.Shared) :
    ∃ o, Engine.Folds ⟨g, reg, limits⟩ root .empty shared o ∧
      Engine.Thrifty ⟨g, reg, limits⟩ o := by
  obtain ⟨o, ho, htold⟩ := exists_folds_told hg he hr limits root shared
  exact ⟨o, ho, htold.once, htold.total⟩

end Engine

/-! ## A failure that is asked for twice -/

namespace Graph

/-- A constant, a failure with it, and a settlement of the failure and the failure. -/
def relapse : Graph :=
  ⟨#[literalNode (.nat 7), ⟨Tag.fail, .child ⟨0⟩⟩, ⟨Tag.settle, .args [⟨1⟩, ⟨1⟩]⟩]⟩

theorem validate_relapse : relapse.validate = .ok () := rfl

theorem elementary_relapse : relapse.Elementary := by decide

/-- The failure is worth what the constant is, and leaves the memo as that does. -/
theorem course_relapse_failure {m m' : Memo} {cost : Cost} (hm : m.kept? ⟨1⟩ = none)
    (hconstant : relapse.course (.standard : Registry .none) ⟨0⟩ .empty false 2 m =
      ⟨⟨.ok (.nat 7), false⟩, m', cost⟩) :
    relapse.course (.standard : Registry .none) ⟨1⟩ .empty false 1 m =
      ⟨⟨.error (.failed (.nat 7)), false⟩, m',
        .start 1 + (.turn + (cost + .handing (.ok (.nat 7)) + .turn))⟩ := by
  have hrole : relapse.role (.standard : Registry .none) ⟨1⟩ = .planned (.fail ⟨0⟩) false := rfl
  have hnone : (if false then none else m.kept? ⟨1⟩) = none := hm
  have hcourse : relapse.course (.standard : Registry .none) ⟨1⟩ .empty false 1 m = _ :=
    course_planned validate_relapse Registry.native_standard hrole hnone rfl
  simp only [Plan.fail, Plan.course, Manner.scope, Manner.isFresh, Bool.false_eq_true, if_false,
    hconstant] at hcourse
  exact hcourse

/-- **The failure is started twice,** so four tasks are started at three nodes. -/
theorem course_relapse :
    let cost := (relapse.course (.standard : Registry .none) ⟨2⟩ .empty false 0 .empty).cost
    cost.tally.starts = 4 ∧ cost.tied = false := by
  have hr : (Registry.standard : Registry .none).Native := Registry.native_standard
  let kept := Memo.empty.put ⟨0⟩ (.nat 7) false
  have hrole : relapse.role (.standard : Registry .none) ⟨0⟩ =
      .planned (.finish (.ok (.nat 7))) false := rfl
  have hnone : (if false then none else Memo.empty.kept? ⟨0⟩) = none := Memo.kept?_empty _
  have hkept : (if false then none else kept.kept? ⟨0⟩) = some (.nat 7) :=
    (Memo.kept?_put _ _ _ _ _).trans (if_pos rfl)
  have hother : kept.kept? ⟨1⟩ = none :=
    (Memo.kept?_put _ _ _ _ _).trans ((if_neg (by decide)).trans (Memo.kept?_empty _))
  -- the constant is started once, and kept from then on
  have hconstant : relapse.course (.standard : Registry .none) ⟨0⟩ .empty false 2 .empty =
      ⟨⟨.ok (.nat 7), false⟩, kept, .start 2 + .turn⟩ :=
    course_planned validate_relapse hr hrole hnone rfl
  have hserved : relapse.course (.standard : Registry .none) ⟨0⟩ .empty false 2 kept =
      ⟨⟨.ok (.nat 7), false⟩, kept, { tally := Tally.zero.countHit }⟩ :=
    course_kept (by rw [hrole]; exact nofun) (by rw [hrole]; exact nofun) hkept
  have hsettle : relapse.role (.standard : Registry .none) ⟨2⟩ =
      .planned (.settle [⟨1⟩, ⟨1⟩] [] []) false := rfl
  have hroot : (if false then none else Memo.empty.kept? ⟨2⟩) = none := Memo.kept?_empty _
  have hcourse : (relapse.course (.standard : Registry .none) ⟨2⟩ .empty false 0 .empty).cost = _ :=
    congrArg Course.cost (course_planned validate_relapse hr hsettle hroot rfl)
  simp only [Plan.settle, Plan.course, Manner.scope, Manner.isFresh, Bool.false_eq_true, if_false,
    Nat.zero_add, course_relapse_failure (Memo.kept?_empty _) hconstant,
    course_relapse_failure hother hserved, Course.after, Course.bind_failed] at hcourse
  rw [hcourse]
  exact ⟨rfl, rfl⟩

end Graph

/-- The constant and the settlement are started once at most, within any limit. -/
theorem Engine.thrifty_relapse : Graph.relapse.validate = .ok () ∧ Graph.relapse.Elementary ∧
    ∃ o : Outcome .none,
      Engine.Folds ⟨.relapse, .standard, { maxSteps := some 9 }⟩ (.node ⟨2⟩) .empty () o ∧
      Engine.Thrifty ⟨.relapse, .standard, { maxSteps := some 9 }⟩ o :=
  ⟨rfl, Graph.elementary_relapse,
    thrifty (P := .none) rfl Graph.elementary_relapse (.inl rfl) _ (.node ⟨2⟩) ()⟩

/-- **A node that fails may be started more than once,** and then more tasks may be
started than there are nodes. -/
theorem Engine.exists_folds_relapse :
    Graph.relapse.validate = .ok () ∧ Graph.relapse.Elementary ∧ ∃ o : Outcome .none,
      Engine.Folds ⟨.relapse, .standard, {}⟩ (.node ⟨2⟩) .empty () o ∧
      (∃ id, ¬ o.run.world.started.count id ≤ 1) ∧
      o.run.memo.tally.starts = 4 ∧ ¬ o.run.memo.tally.starts ≤ Graph.relapse.size := by
  obtain ⟨hstarts, htied⟩ := Graph.course_relapse
  obtain ⟨o, ho, hreport, -⟩ := evaluates_of_course (E := ⟨.relapse, .standard, {}⟩)
    Graph.validate_relapse Registry.native_standard rfl ⟨2⟩ .empty .empty () rfl htied
  obtain ⟨o', ho', htold⟩ := exists_folds_told (P := .none) Graph.validate_relapse
    Graph.elementary_relapse (.inl rfl) {} (.node ⟨2⟩) ()
  obtain rfl : o = o' := Evaluates.unique ho ho'
  have htally : o.run.memo.tally.starts = 4 :=
    (congrArg (fun e => e.memo.tally.starts) hreport).trans ((Nat.zero_add _).trans hstarts)
  have hsize : Graph.relapse.size = 3 := rfl
  refine ⟨rfl, Graph.elementary_relapse, o, ho, ?_, htally, by omega⟩
  -- four starts at three nodes
  by_contra hnone
  simp only [not_exists, not_not] at hnone
  have hlength : o.run.world.started.length ≤ 3 :=
    Graph.length_le_size (List.nodup_iff_count_le_one.2 hnone) htold.known
  have htotal := htold.tally
  omega

end ProgramGraph
