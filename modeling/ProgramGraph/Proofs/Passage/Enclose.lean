import ProgramGraph.Proofs.Course.Deed
import ProgramGraph.Proofs.Passage.Deterministic
import ProgramGraph.Proofs.Passage.Discipline
import ProgramGraph.Proofs.Passage.Fatal
import ProgramGraph.Proofs.Sound.Abreast
/-!
# Runs inside of runs

While a node that was asked for afresh is evaluated, its frames stand on those of the run
that has asked, and its memo is an overlay above the memos of that run. Below the frames
and the overlay nothing happens. So the run does what the evaluation of the node does as a
root, with a memo and frames of its own (`Run.Encloses`), and when that evaluation has come
to an end, the run that has asked is given what it came to (`Next.Mirrors`).

The two runs see different worlds, and nothing is said of what they would do if the handlers
were not deterministic.
-/

namespace ProgramGraph

variable {P : Plugins} {E : Engine P}

/-! ## The relation -/

/-- **The items stand on some frames below,** where the lowest of them has an overlay. -/
def Frame.Atop (below items items' : List (Frame P)) : Prop :=
  ∃ top bottom, items = top ++ [bottom] ∧ bottom.fresh = false ∧
    items' = top ++ { bottom with fresh := true } :: below

namespace Run

/-- **What the run `inner` does by itself goes on inside of `outer`,** above the frames and
the memos of `base`. -/
structure Encloses (base inner outer : Run P) : Prop where
  /-- The frames stand on those that have been there before. -/
  frames : Frame.Atop base.frames.items inner.frames.items outer.frames.items
  scope : outer.scope = inner.scope
  /-- The memo of the inner run is an overlay. -/
  caches : outer.caches = inner.caches ++ base.caches
  /-- The counters of the inner run are added. -/
  counts : outer.memo.tally.counts = base.memo.tally.counts.merge inner.memo.tally.counts
  /-- The frames of the inner run are in order. -/
  order : inner.InOrder base.scope

/-- **The run is given back as it was,** and the counters of an outcome are added. -/
structure Receives (base : Run P) (o : Outcome P) (r : Run P) : Prop where
  frames : r.frames = base.frames
  scope : r.scope = base.scope
  /-- All memos are as before. -/
  caches : r.caches = base.caches
  /-- The counts have grown by those of the outcome. -/
  counts : r.memo.tally.counts = base.memo.tally.counts.merge o.run.memo.tally.counts

end Run

/-- **The same is next** in a run by itself and in the one that it goes on inside of. Where
the first has ended, the second is given its answer. -/
inductive Next.Mirrors (base : Run P) : Next P → Next P → Prop
  | resume {inner outer : Run P} (input : Input) : base.Encloses inner outer →
    Mirrors base (.resume inner input) (.resume outer input)
  | wait {inner outer : Run P} (await : Await) : base.Encloses inner outer →
    Mirrors base (.wait inner await) (.wait outer await)
  | finish {o : Outcome P} {r : Run P} : base.Receives o r →
    Mirrors base (.finish o) (r.answer ⟨o.result, o.tainted⟩)

/-! ## Frames -/

namespace Frame.Atop

variable {below items items' : List (Frame P)}

theorem ne_nil (h : Atop below items items') : items ≠ [] ∧ items' ≠ [] := by
  obtain ⟨top, bottom, rfl, -, rfl⟩ := h
  exact ⟨List.append_ne_nil_of_right_ne_nil _ (List.cons_ne_nil _ _),
    List.append_ne_nil_of_right_ne_nil _ (List.cons_ne_nil _ _)⟩

/-- A change of the top frame. -/
theorem modifyHead (h : Atop below items items') {f : Frame P → Frame P}
    (hf : ∀ frame fresh, (f { frame with fresh }) = { f frame with fresh })
    (hfresh : ∀ frame, (f frame).fresh = frame.fresh) :
    Atop below (items.modifyHead f) (items'.modifyHead f) := by
  obtain ⟨top, bottom, rfl, hbottom, rfl⟩ := h
  cases top with
  | nil => exact ⟨[], f bottom, rfl, (hfresh bottom).trans hbottom, congrArg (· :: below) (hf bottom true)⟩
  | cons frame top => exact ⟨f frame :: top, bottom, rfl, hbottom, rfl⟩

/-- A frame more on top. -/
theorem push (h : Atop below items items') (frame : Frame P) :
    Atop below (frame :: items) (frame :: items') := by
  obtain ⟨top, bottom, rfl, hbottom, rfl⟩ := h
  exact ⟨frame :: top, bottom, rfl, hbottom, rfl⟩

/-- **The top frame is the same in both,** but for the overlay if it is the lowest one. -/
theorem exists_top (h : Atop below items items') :
    (∃ frame rest rest', items = frame :: rest ∧ items' = frame :: rest' ∧ Atop below rest rest') ∨
      ∃ bottom, items = [bottom] ∧ bottom.fresh = false ∧
        items' = { bottom with fresh := true } :: below := by
  obtain ⟨top, bottom, rfl, hbottom, rfl⟩ := h
  cases top with
  | nil => exact .inr ⟨bottom, rfl, hbottom, rfl⟩
  | cons frame top => exact .inl ⟨frame, _, _, rfl, rfl, top, bottom, rfl, hbottom, rfl⟩

/-- There are frames on top of both, which differ in the overlay at most. -/
theorem exists_frames (h : Atop below items items') :
    ∃ frame rest fresh rest', items = frame :: rest ∧ items' = { frame with fresh } :: rest' := by
  rcases h.exists_top with ⟨frame, rest, rest', hitems, hitems', -⟩ | ⟨bottom, hitems, -, hitems'⟩
  · exact ⟨frame, rest, frame.fresh, rest', hitems, hitems'⟩
  · exact ⟨bottom, [], true, below, hitems, hitems'⟩

end Frame.Atop

namespace Run

variable {base inner outer : Run P}

/-- The scope below frames that stand on others is the one below those, under the scope that
the upper ones go back to. -/
theorem scopeAt_zero_of_atop (below : Run P) (hframes : Frame.Atop below.frames.items
    inner.frames.items outer.frames.items) (hscope : outer.scope = inner.scope)
    (hbase : inner.scopeAt 0 = below.scope) : outer.scopeAt 0 = below.scopeAt 0 := by
  obtain ⟨top, bottom, hitems, -, hitems'⟩ := hframes
  have hslots : outer.slots.map Slot.depth = inner.slots.map Slot.depth ++ below.slots.map Slot.depth := by
    simp only [slots, hitems, hitems', List.map_append, List.map_cons, List.append_assoc]
    rfl
  have hfold : ∀ r : Run P, r.scopeAt 0 = (r.slots.map Slot.depth).foldl Scope.truncate r.scope := by
    intro r
    rw [scopeAt, Nat.sub_zero, List.take_length, List.foldl_map]
  rw [hfold] at hbase
  rw [hfold, hfold, hslots, List.foldl_append, hscope, hbase]

/-- A run that is stopped leaves the scope below all of its frames. -/
theorem stop_eq_scopeAt (r : Run P) (error : EvalError) : r.stop error =
    .finish ⟨.error error, true, { r with scope := r.scopeAt 0, frames := .empty, overlays := [] }⟩ := by
  have hscope := (r.drops_stop error).scope
  rw [← hscope]
  rfl

namespace Encloses

/-- Only the world is another one. -/
theorem withWorld (h : base.Encloses inner outer) (world world' : World P) :
    base.Encloses { inner with world } { outer with world := world' } :=
  ⟨h.frames, h.scope, h.caches, h.counts, h.order.overlays, h.order.depths, h.order.whole, h.order.base⟩

theorem note (h : base.Encloses inner outer) (event event' : Event) :
    base.Encloses (inner.note event) (outer.note event') :=
  h.withWorld _ _

/-- The same is added to the counters of both. -/
theorem mapTally (h : base.Encloses inner outer) (f g : Tally → Tally) (growth : Tally)
    (hf : ∀ t : Tally, (f t).counts = t.counts.merge growth)
    (hg : ∀ t : Tally, (g t).counts = t.counts.merge growth) :
    base.Encloses (inner.mapTally f) (outer.mapTally g) where
  frames := h.frames
  scope := h.scope
  caches := by
    rw [(inner.stands.mapTally f).caches, (outer.stands.mapTally g).caches]
    exact h.caches
  counts := by
    refine (hg outer.memo.tally).trans ?_
    rw [h.counts, Tally.merge_assoc]
    exact congrArg _ (hf inner.memo.tally).symm
  order := (inner.rests_mapTally f).inOrder h.order

/-- The innermost memo is the same one in both. -/
theorem kept? (h : base.Encloses inner outer) (id : NodeId) :
    outer.innermost.kept? id = inner.innermost.kept? id := by
  obtain ⟨m, tail, hinner⟩ := inner.exists_caches
  have houter : outer.caches = m :: (tail ++ base.caches) := by rw [h.caches, hinner, List.cons_append]
  rw [kept?_innermost hinner, kept?_innermost houter]

/-- A change of the innermost memo is the same above other memos. -/
theorem caches_mapInnermost_append {r r' : Run P} {below : List Memo}
    (h : r'.caches = r.caches ++ below) {f : Memo → Memo} (hf : ∀ m, (f m).resetTally = f m.resetTally) :
    (r'.mapInnermost f).caches = (r.mapInnermost f).caches ++ below := by
  obtain ⟨m, tail, hr⟩ := r.exists_caches
  rw [hr, List.cons_append] at h
  rw [caches_mapInnermost hr hf, caches_mapInnermost h hf, List.cons_append]

/-- A change of the innermost memo, which leaves its counters alone. -/
theorem mapInnermost (h : base.Encloses inner outer) {f : Memo → Memo}
    (hf : ∀ m, (f m).resetTally = f m.resetTally) (htally : ∀ m, (f m).tally = m.tally)
    (hmade : ∀ m : Memo, m.Made → (f m).Made) :
    base.Encloses (inner.mapInnermost f) (outer.mapInnermost f) where
  frames := by
    rw [frames_mapInnermost, frames_mapInnermost]
    exact h.frames
  scope := by
    rw [scope_mapInnermost, scope_mapInnermost]
    exact h.scope
  caches := caches_mapInnermost_append h.caches hf
  counts := by
    rw [tally_mapInnermost inner htally, tally_mapInnermost outer htally]
    exact h.counts
  order := (inner.rests_mapInnermost hmade).inOrder h.order

/-- A change of the top frame that leaves what it keeps for its end. -/
theorem mapTop (h : base.Encloses inner outer) {f : Frame P → Frame P}
    (hf : ∀ frame fresh, (f { frame with fresh }) = { f frame with fresh })
    (hslot : ∀ frame, (f frame).slot = frame.slot) :
    base.Encloses { inner with frames := inner.frames.mapTop f }
      { outer with frames := outer.frames.mapTop f } where
  frames := h.frames.modifyHead hf fun frame => congrArg Slot.fresh (hslot frame)
  scope := h.scope
  caches := h.caches
  counts := h.counts
  order := (inner.rests_mapTop hslot).inOrder h.order

end Encloses

/-! ## What is handed over -/

variable (hbase : base.frames.items ≠ [])

include hbase

/-- **A fatal error ends both runs,** just as if the run below had been given it. -/
theorem Encloses.stop (h : base.Encloses inner outer) {fatal : EvalError}
    (hfatal : fatal.errorValue = .error fatal) :
    Next.Mirrors base (inner.stop fatal) (outer.stop fatal) := by
  -- what the run below is given
  let r : Run P := { outer with
    frames := base.frames, scope := base.scope, overlays := base.overlays }
  have hmemo : outer.memo.resetTally = base.memo.resetTally := by
    have hcaches := congrArg List.getLast? h.caches
    have hlast : ∀ r : Run P, r.caches.getLast? = some r.memo.resetTally := by
      intro r
      simp [Run.caches]
    rw [List.getLast?_append, hlast, hlast] at hcaches
    exact Option.some.inj hcaches
  have hreceives : base.Receives ⟨.error fatal, true, (inner.stop fatal).run⟩ r := by
    refine ⟨rfl, rfl, ?_, h.counts⟩
    simp only [r, Run.caches, List.map_append, List.map_cons, List.map_nil, hmemo]
  have hscope : outer.scopeAt 0 = (r.observe true).scopeAt 0 := by
    have hobserve : r.Rests (r.observe true) := r.rests_mapTop fun _ => rfl
    rw [hobserve.scopeAt_eq 0]
    exact scopeAt_zero_of_atop r h.frames h.scope h.order.base
  have hanswer : outer.stop fatal = r.answer ⟨.error fatal, true⟩ := by
    obtain ⟨frame, rest, hitems⟩ : ∃ frame rest, r.frames.items = frame :: rest :=
      List.exists_cons_of_ne_nil hbase
    have hstop : r.answer ⟨.error fatal, true⟩ = (r.observe true).stop fatal := by
      simp only [Run.answer, hitems, Run.handOver, hfatal]
    rw [hstop, stop_eq_scopeAt, stop_eq_scopeAt, hscope]
    rfl
  rw [hanswer]
  exact .finish hreceives

/-- **The same result is handed over in both.** -/
theorem Encloses.handOver (h : base.Encloses inner outer) (result : Except EvalError Value) :
    Next.Mirrors base (inner.handOver result) (outer.handOver result) := by
  cases result with
  | ok value => exact .resume _ h
  | error error =>
    unfold Run.handOver
    dsimp only
    cases hvalue : error.errorValue with
    | error fatal =>
      have hfatal : fatal.errorValue = .error fatal := by
        cases error <;> cases hvalue <;> rfl
      exact h.stop hbase hfatal
    | ok value =>
      have hcounted := h.mapTally .countInjection .countInjection
        Tally.zero.countInjection (fun _ => rfl) fun _ => rfl
      obtain ⟨hinner, houter⟩ := hcounted.frames.ne_nil
      obtain ⟨frame, rest, hitems⟩ := List.exists_cons_of_ne_nil hinner
      obtain ⟨frame', rest', hitems'⟩ := List.exists_cons_of_ne_nil houter
      dsimp only
      rw [hitems, hitems']
      exact .resume _ (hcounted.note _ _)

theorem Encloses.answer (h : base.Encloses inner outer) (a : Answer) :
    Next.Mirrors base (inner.answer a) (outer.answer a) := by
  obtain ⟨hinner, houter⟩ := h.frames.ne_nil
  obtain ⟨frame, rest, hitems⟩ := List.exists_cons_of_ne_nil hinner
  obtain ⟨frame', rest', hitems'⟩ := List.exists_cons_of_ne_nil houter
  have hobserved := h.mapTop (f := fun frame => { frame with tainted := frame.tainted || a.tainted })
    (fun _ _ => rfl) fun _ => rfl
  simp only [Run.answer, hitems, hitems']
  exact Encloses.handOver hbase hobserved a.result

/-- **The same node is visited in both.** The scope that it is visited under goes back to the
one that is at hand. -/
theorem Encloses.visit (hdet : E.registry.Deterministic) (h : base.Encloses inner outer)
    {under : Scope} (hunder : under.truncate inner.scope.depth = inner.scope) (id : NodeId)
    (fresh : Bool) :
    Next.Mirrors base (visit E { inner with scope := under } id inner.scope.depth fresh)
      (visit E { outer with scope := under } id inner.scope.depth fresh) := by
  have hshifts := visit_shifts E inner { inner with scope := under } rfl hunder rfl rfl id fresh
  -- without a frame both runs are as they were
  have hinner : truncate { inner with scope := under } inner.scope.depth = inner := by
    simp only [truncate, hunder]
  have houter : truncate { outer with scope := under } inner.scope.depth = outer := by
    have hback : under.truncate inner.scope.depth = outer.scope := hunder.trans h.scope.symm
    simp only [truncate, hback]
  unfold Run.visit Run.arrive at hshifts ⊢
  rw [hinner] at hshifts
  rw [hinner, houter]
  cases hnode : E.graph.get? id with
  | none => exact h.answer hbase _
  | some node =>
    rw [hnode] at hshifts
    dsimp only at hshifts ⊢
    cases hparam : node.param? with
    | some p =>
      have hcounted := h.mapTally .countLookup .countLookup Tally.zero.countLookup
        (fun _ => rfl) fun _ => rfl
      have hmarked := hcounted.mapInnermost (f := (·.setTainted id)) (fun _ => rfl) (fun _ => rfl)
        fun _ => .setTainted id
      exact (hmarked.note _ _).answer hbase _
    | none =>
      rw [hparam] at hshifts
      dsimp only at hshifts ⊢
      have hinnermost : ∀ r : Run P, innermost { r with scope := under } = r.innermost :=
        fun _ => rfl
      rw [hinnermost] at hshifts
      rw [hinnermost, hinnermost, h.kept?]
      cases hkept : (if fresh then none else inner.innermost.kept? id) with
      | some value =>
        have hcounted := h.mapTally .countHit .countHit Tally.zero.countHit
          (fun _ => rfl) fun _ => rfl
        exact (hcounted.note _ _).answer hbase _
      | none =>
        rw [hkept] at hshifts
        dsimp only at hshifts ⊢
        cases hentry : E.registry.get node.tag with
        | error error => exact h.answer hbase _
        | ok entry =>
          rw [hentry] at hshifts
          obtain ⟨made, shared, shared', hmade, hmade'⟩ :=
            hdet.exists_start hentry id node inner.world.shared outer.world.shared
          dsimp only at hshifts ⊢
          rw [hmade] at hshifts
          rw [hmade, hmade']
          cases made with
          | error error =>
            have hrefused : base.Encloses (inner.withShared shared) (outer.withShared shared') :=
              h.withWorld _ _
            exact (hrefused.note _ _).answer hbase _
          | ok task =>
            dsimp only at hshifts ⊢
            refine .resume _ ⟨h.frames.push _, rfl, ?_, ?_, hshifts.inOrder h.order⟩
            · -- a node that is asked for afresh gets an overlay in both
              have hpushed : ∀ r r' : Run P,
                  r'.overlays = (if fresh then .empty :: r.overlays else r.overlays) →
                  r'.memo.resetTally = r.memo.resetTally →
                  r'.caches = if fresh then .empty :: r.caches else r.caches := by
                intro r r' hoverlays hmemo
                simp only [Run.caches, hoverlays, List.map_append, List.map_cons, hmemo]
                cases fresh <;> rfl
              have hsame : (if fresh then .empty :: outer.caches else outer.caches) =
                  (if fresh then .empty :: inner.caches else inner.caches) ++ base.caches := by
                rw [h.caches]
                cases fresh <;> rfl
              refine Eq.trans (hpushed outer _ ?_ ?_) (hsame.trans (Eq.symm ?_))
              · rfl
              · rfl
              · refine congrArg (· ++ base.caches) (hpushed inner _ ?_ ?_) <;> rfl
            · exact (h.mapTally _ _ Tally.zero.countStart (fun _ => rfl) fun _ => rfl).counts

/-! ## The end of a frame -/

omit hbase in
/-- **A frame ends in both,** and it is not the lowest one. -/
theorem Encloses.leave (h : base.Encloses inner outer) {frame : Frame P} {rest rest' : List (Frame P)}
    (hitems : inner.frames.items = frame :: rest) (hitems' : outer.frames.items = frame :: rest')
    (hrest : Frame.Atop base.frames.items rest rest') {f : Memo → Memo}
    (hf : ∀ m, (f m).resetTally = f m.resetTally) (htally : ∀ m, (f m).tally = m.tally)
    (hmade : ∀ m : Memo, m.Made → (f m).Made) :
    base.Encloses (inner.leave frame f) (outer.leave frame f) := by
  have horder := (leave_pops hitems hmade).inOrder h.order
  have hframes : Frame.Atop base.frames.items inner.frames.pop.items outer.frames.pop.items := by
    rw [Stack.items_pop, Stack.items_pop, hitems, hitems']
    exact hrest
  have hscope := congrArg (Scope.truncate · frame.scopeDepth) h.scope
  have hcaches : Run.caches { outer.truncate frame.scopeDepth with frames := outer.frames.pop } =
      Run.caches { inner.truncate frame.scopeDepth with frames := inner.frames.pop } ++ base.caches :=
    h.caches
  unfold Run.leave at horder ⊢
  dsimp only at horder ⊢
  cases hfresh : frame.fresh with
  | true =>
    rw [hfresh, if_pos rfl] at horder
    rw [if_pos rfl, if_pos rfl]
    refine ⟨hframes, hscope, ?_, h.counts, horder⟩
    -- the overlay of the frame is one of the inner run
    obtain ⟨overlay, rest, hoverlays⟩ : ∃ overlay rest, inner.overlays = overlay :: rest := by
      refine List.exists_cons_of_length_pos ?_
      have hslot : frame.slot.fresh = true := hfresh
      rw [h.order.overlays, slots, hitems, List.map_cons, List.countP_cons_of_pos hslot]
      exact Nat.succ_pos _
    obtain ⟨first, second, others, hcaches⟩ : ∃ first second others,
        inner.caches = first :: second :: others := by
      simp only [Run.caches, hoverlays]
      cases rest <;> exact ⟨_, _, _, rfl⟩
    have htail := caches_tail inner
    have htail' := caches_tail outer
    rw [hcaches] at htail
    rw [h.caches, hcaches] at htail'
    exact htail'.trans (congrArg (· ++ base.caches) htail.symm)
  | false =>
    rw [hfresh, if_neg Bool.false_ne_true] at horder
    rw [if_neg Bool.false_ne_true, if_neg Bool.false_ne_true]
    refine ⟨?_, ?_, caches_mapInnermost_append hcaches hf, ?_, horder⟩
    · rw [frames_mapInnermost, frames_mapInnermost]
      exact hframes
    · rw [scope_mapInnermost, scope_mapInnermost]
      exact hscope
    · rw [tally_mapInnermost _ htally, tally_mapInnermost _ htally]
      exact h.counts

omit hbase in
/-- **The lowest frame ends,** and its overlay is dropped, whatever has been put there. -/
theorem Encloses.receives (h : base.Encloses inner outer) {bottom : Frame P}
    (hitems : inner.frames.items = [bottom]) (hfresh : bottom.fresh = false)
    (hitems' : outer.frames.items = { bottom with fresh := true } :: base.frames.items)
    {f : Memo → Memo} (htally : ∀ m, (f m).tally = m.tally) (f' : Memo → Memo)
    (result : Except EvalError Value) (tainted : Bool) :
    base.Receives ⟨result, tainted, inner.leave bottom f⟩
      (outer.leave { bottom with fresh := true } f') := by
  have hscope : outer.scope.truncate bottom.scopeDepth = base.scope := by
    rw [h.scope, ← h.order.base, scopeAt, slots, hitems]
    rfl
  have hoverlays : inner.overlays = [] := by
    rw [← List.length_eq_zero_iff, h.order.overlays, slots, hitems]
    exact List.countP_eq_zero.2 fun slot hslot => by
      rw [List.mem_singleton.1 hslot]
      exact Bool.eq_false_iff.1 hfresh
  refine ⟨Stack.ext ?_, hscope, ?_, ?_⟩
  · exact (Stack.items_pop outer.frames).trans (congrArg List.tail hitems')
  · have htail := caches_tail outer
    have hinner : inner.caches = [inner.memo.resetTally] := by
      rw [Run.caches, hoverlays]
      rfl
    obtain ⟨first, others, hcaches⟩ := base.exists_caches
    rw [h.caches, hinner, hcaches] at htail
    exact htail.trans hcaches.symm
  · have hmemo : (inner.leave bottom f).memo.tally = inner.memo.tally := by
      unfold Run.leave
      rw [if_neg (Bool.eq_false_iff.1 hfresh)]
      exact tally_mapInnermost _ htally
    exact h.counts.trans (congrArg _ (congrArg Tally.counts hmemo.symm))

/-- **The top frame ends in both,** and the answer is handed over. -/
theorem Encloses.leave_answer (h : base.Encloses inner outer) {frame frame' : Frame P}
    {rest rest' : List (Frame P)} (hitems : inner.frames.items = frame :: rest)
    (hitems' : outer.frames.items = frame' :: rest') {f : Memo → Memo}
    (hf : ∀ m, (f m).resetTally = f m.resetTally) (htally : ∀ m, (f m).tally = m.tally)
    (hmade : ∀ m : Memo, m.Made → (f m).Made) (a : Answer) :
    Next.Mirrors base ((inner.leave frame f).answer a) ((outer.leave frame' f).answer a) := by
  rcases h.frames.exists_top with ⟨top, below, below', htop, htop', hrest⟩ | ⟨bottom, hbottom, hfresh, hbottom'⟩
  · rw [hitems] at htop
    rw [hitems'] at htop'
    cases htop
    cases htop'
    exact (h.leave hitems hitems' hrest hf htally hmade).answer hbase a
  · rw [hitems] at hbottom
    rw [hitems'] at hbottom'
    cases hbottom
    cases hbottom'
    have hreceives := h.receives hitems hfresh hitems' htally f a.result a.tainted
    have hnil : (inner.leave frame f).frames.items = [] := by
      have hslots := (leave_pops hitems hmade).slots
      rw [slots, hitems] at hslots
      exact List.map_eq_nil_iff.1 (List.tail_eq_of_cons_eq hslots).symm
    have hend : (inner.leave frame f).answer a = .finish ⟨a.result, a.tainted, inner.leave frame f⟩ := by
      simp only [Run.answer, hnil]
    rw [hend]
    exact .finish hreceives

/-! ## Turns -/

/-- **What a task asks for is done in both.** -/
theorem Encloses.serve (hdet : E.registry.Deterministic) (h : base.Encloses inner outer) (step : Step) :
    Next.Mirrors base (inner.serve E step) (outer.serve E step) := by
  have hdepth : outer.scope.depth = inner.scope.depth := congrArg Scope.depth h.scope
  have hvisit : ∀ id fresh, Next.Mirrors base (inner.visit E id inner.scope.depth fresh)
      (outer.visit E id outer.scope.depth fresh) := by
    intro id fresh
    have hsame : { outer with scope := inner.scope } = outer := by rw [← h.scope]
    have hvisited := h.visit hbase hdet inner.scope.truncate_depth id fresh
    rw [hsame] at hvisited
    rw [hdepth]
    exact hvisited
  cases step with
  | done value =>
    obtain ⟨frame, rest, fresh, rest', hitems, hitems'⟩ := h.frames.exists_frames
    have hput : ∀ m : Memo,
        (m.put frame.node value (frame.volatile || frame.tainted)).resetTally =
          m.resetTally.put frame.node value (frame.volatile || frame.tainted) ∧
        (m.put frame.node value (frame.volatile || frame.tainted)).tally = m.tally := by
      intro m
      cases frame.volatile || frame.tainted <;> exact ⟨rfl, rfl⟩
    simp only [Run.serve, succeed_eq hitems, succeed_eq hitems']
    exact h.leave_answer hbase hitems hitems' (fun m => (hput m).1) (fun m => (hput m).2)
      (fun _ => .put frame.node value (frame.volatile || frame.tainted)) _
  | fail error =>
    obtain ⟨frame, rest, fresh, rest', hitems, hitems'⟩ := h.frames.exists_frames
    simp only [Run.serve, fail_eq hitems, fail_eq hitems']
    exact h.leave_answer hbase hitems hitems' (f := id) (fun _ => rfl) (fun _ => rfl)
      (fun _ hm => hm) _
  | request request =>
    cases request with
    | child id => exact hvisit id false
    | under id bindings =>
      have hunder : (inner.scope.push bindings).truncate inner.scope.depth = inner.scope :=
        inner.scope.truncate_push bindings
      have hvisited := h.visit hbase hdet hunder id false
      unfold Run.serve
      rw [hdepth, h.scope]
      exact hvisited
    | fresh id => exact hvisit id true
    | await await => exact .wait await h

omit hbase in
/-- **The task on top does the same in both.** -/
theorem Encloses.resumeFrame (hdet : E.registry.Deterministic) (h : base.Encloses inner outer)
    (hstaffed : inner.Staffed E) (input : Input) :
    base.Encloses (inner.resumeFrame input).1 (outer.resumeFrame input).1 ∧
      (outer.resumeFrame input).2 = (inner.resumeFrame input).2 := by
  obtain ⟨frame, rest, fresh, rest', hitems, hitems'⟩ := h.frames.exists_frames
  have hframe : E.registry.Makes frame.task := hstaffed frame (by rw [hitems]; exact List.mem_cons_self)
  obtain ⟨step, task, shared, shared', hresume, hresume'⟩ :=
    hdet.exists_resume hframe ⟨frame.node, inner.scope⟩ input inner.world.shared outer.world.shared
  unfold Run.resumeFrame
  rw [hitems, hitems']
  dsimp only
  rw [h.scope, hresume, hresume']
  have hresumed := h.mapTop (f := fun frame => { frame with task }) (fun _ _ => rfl) fun _ => rfl
  exact ⟨hresumed.withWorld _ _, rfl⟩

/-- **A turn is the same in both,** if the steps are not limited. -/
theorem Encloses.turn (hdet : E.registry.Deterministic) (hlimit : E.limits.maxSteps = none)
    (h : base.Encloses inner outer) (hstaffed : inner.Staffed E) (input : Input) :
    Next.Mirrors base (inner.turn E input) (outer.turn E input) := by
  have hcounted : base.Encloses inner.countTurn outer.countTurn := by
    have hmapped := h.mapTally .countResumption .countResumption Tally.zero.countResumption
      (fun _ => rfl) fun _ => rfl
    exact ⟨hmapped.frames, hmapped.scope, hmapped.caches, hmapped.counts, hmapped.order.overlays,
      hmapped.order.depths, hmapped.order.whole, hmapped.order.base⟩
  have hwithin : ∀ r : Run P, r.exceeded? E.limits = none := by
    intro r
    rw [exceeded?, hlimit]
    rfl
  obtain ⟨hresumed, hstep⟩ := hcounted.resumeFrame hdet hstaffed input
  rw [turn_of_within (hwithin _), turn_of_within (hwithin _), hstep]
  exact hresumed.serve hbase hdet _

/-- **The same comes of a wait in both,** whatever their worlds are by then. -/
theorem Encloses.wake (h : base.Encloses inner outer) (world world' : World P) (wake : Wake) :
    Next.Mirrors base (inner.wake world wake) (outer.wake world' wake) := by
  have hworld := h.withWorld world world'
  cases wake with
  | elapsed => exact .resume _ hworld
  | settled c =>
    have hmerged := hworld.mapTally (·.merge c.tally) (·.merge c.tally) c.tally.counts
      (fun t => Tally.counts_merge t _) fun t => Tally.counts_merge t _
    have hobserved := hmerged.mapTop (f := fun frame => { frame with tainted := frame.tainted || c.tainted })
      (fun _ _ => rfl) fun _ => rfl
    exact Encloses.handOver hbase hobserved c.result

/-! ## The request -/

omit hbase in
/-- **A request for a node afresh begins like an evaluation of the node,** unless the node is
a parameter. -/
theorem mirrors_begin (hdet : E.registry.Deterministic) {id : NodeId}
    (hparam : ∀ node, E.graph.get? id = some node → node.param? = none) (world : World P) :
    Next.Mirrors base (Run.begin E { scope := base.scope, world } id)
      (base.serve E (.request (.fresh id))) := by
  have hidle : InOrder base.scope { scope := base.scope, world } :=
    inOrder_of_idle (r := { scope := base.scope, world }) rfl rfl .empty
  have hshifts : Shifts E { scope := base.scope, world }
      (Run.begin E { scope := base.scope, world } id).run := begin_shifts _ id
  -- an answer without a frame is the end of the evaluation, and nothing has been counted
  have hready : ∀ (a : Answer) (world world' : World P),
      Next.Mirrors base (answer { scope := base.scope, world } a)
        (answer { base with world := world' } a) := by
    intro a world world'
    exact .finish (o := ⟨a.result, a.tainted, { scope := base.scope, world }⟩)
      (r := { base with world := world' }) ⟨rfl, rfl, rfl, (Tally.merge_zero _).symm⟩
  have hback : base.scope.truncate base.scope.depth = base.scope := base.scope.truncate_depth
  have hkept : (innermost { scope := base.scope, world }).kept? id = none := Memo.kept?_empty id
  cases hnode : E.graph.get? id with
  | none =>
    simp only [Run.begin, Run.serve, Run.visit, Run.arrive, truncate, hback, hnode]
    exact hready _ world base.world
  | some node =>
    have hno : node.param? = none := hparam node hnode
    cases hentry : E.registry.get node.tag with
    | error error =>
      simp only [Run.begin, Run.serve, Run.visit, Run.arrive, truncate, hback, hnode, hno, hkept, hentry,
        if_true, if_false, Bool.false_eq_true]
      exact hready _ world base.world
    | ok entry =>
      obtain ⟨made, shared, shared', hmade, hmade'⟩ :=
        hdet.exists_start hentry id node world.shared base.world.shared
      cases made with
      | error error =>
        simp only [Run.begin, Run.serve, Run.visit, Run.arrive, truncate, hback, hnode, hno, hkept, hentry,
          hmade, hmade', if_true, if_false, Bool.false_eq_true]
        exact hready _ _ _
      | ok task =>
        simp only [Run.begin, Run.visit, Run.arrive, hnode, hno, hkept, hentry, hmade, if_false,
          Bool.false_eq_true] at hshifts
        simp only [Run.begin, Run.serve, Run.visit, Run.arrive, hnode, hno, hkept, hentry, hmade, hmade',
          if_true, if_false, Bool.false_eq_true]
        refine .resume _ ⟨⟨[], _, rfl, rfl, rfl⟩, rfl, ?_, ?_, hshifts.inOrder hidle⟩
        · simp only [Run.caches, List.map_append]
          rfl
        · rfl

end Run

end ProgramGraph
