import ProgramGraph.Graph.Families
import ProgramGraph.Proofs.Passage.Basic
import ProgramGraph.Proofs.Solo.Stand
import ProgramGraph.Registry.Standard
/-!
# The order of frames

Frames, scope and overlays are three stacks that are cut back in different
places: at the end of a frame, when a visit needs no frame, and when a run is
ended at once. They never come apart, whatever the tasks do and whatever the
graph is like: `Engine.disciplined`. A frame that is resumed sees the scope that
it started under, and a run that ends has its scope as it was and no overlay.
-/

namespace ProgramGraph

variable {P : Plugins}

/-- The scope that a request is served under. -/
def Request.scope (s : Scope) : Request → Scope
  | under _ bindings => s.push bindings
  | _ => s

/-- What a run can do next while its lowest `n` frames last. -/
def Next.LeadsAbove (E : Engine P) (n : Nat) (x y : Next P) : Prop :=
  x.Leads E y ∧ n ≤ y.run.frames.size

/-- **The frames of a run are in order.** -/
structure Run.Ordered (r : Run P) : Prop where
  /-- There are as many overlays as frames that have one. -/
  overlays : r.overlays.length = r.frames.items.countP Frame.fresh
  /-- No frame goes back to a deeper scope than one above it, or than the scope
  at hand. -/
  depths : (r.scope.depth :: r.frames.items.map Frame.scopeDepth).Pairwise (· ≥ ·)
  /-- No memo keeps a node that it marks as tainted. -/
  memos : ∀ m ∈ r.memo :: r.overlays, ∀ id, m.isTainted id = true → id ∉ m.results

/-- **A run at a root keeps its frames in order.** -/
structure Engine.Disciplined (E : Engine P) (root : NodeId) (memo : Memo) (scope : Scope)
    (world : World P) : Prop where
  /-- The frames are in order at every point. -/
  ordered : ∀ next, E.MayReach root memo scope world next → next.run.Ordered
  /-- The task of the root starts under the scope of the run. -/
  begins : ∀ r, Run.begin E { memo, scope, world } root = .resume r .start → r.scope = scope
  /-- Every other task starts with a request of the top frame, under the scope of
  the request. -/
  starts : ∀ next r, E.MayReach root memo scope world next → next.Leads E (.resume r .start) →
    ∃ r₀ input request, next = .resume r₀ input ∧
      (r₀.countTurn.resumeFrame input).2 = .request request ∧
      r.scope = request.scope r₀.scope ∧ r.frames.size = r₀.frames.size + 1
  /-- A task that is resumed has started before, and its frame has been there ever
  since. -/
  resumes : ∀ r input, E.MayReach root memo scope world (.resume r input) →
    ∃ r₀, E.MayReach root memo scope world (.resume r₀ .start) ∧
      Relation.ReflTransGen (Next.LeadsAbove E r₀.frames.size) (.resume r₀ .start) (.resume r input) ∧
      r.frames.size = r₀.frames.size
  /-- A task that has started is on top again only together with the frames that
  were below it, and under the scope that it started under. -/
  returns : ∀ r next, E.MayReach root memo scope world (.resume r .start) →
    Relation.ReflTransGen (Next.LeadsAbove E r.frames.size) (.resume r .start) next →
    next.run.frames.size = r.frames.size → next.run.slots = r.slots ∧ next.run.scope = r.scope
  /-- At the end all is as it was at the beginning. -/
  ends : ∀ o, E.MayReach root memo scope world (.finish o) →
    o.run.scope = scope ∧ o.run.overlays = [] ∧ o.run.frames.items = []

namespace Run

variable {E : Engine P} {r r' : Run P} {base : Scope}

/-- The frames are in order, and the scope below them is the one given. -/
structure InOrder (base : Scope) (r : Run P) : Prop where
  overlays : r.overlays.length = r.slots.countP Slot.fresh
  depths : (r.scope.depth :: r.slots.map Slot.depth).Pairwise (· ≥ ·)
  whole : r.Whole
  base : r.scopeAt 0 = base

theorem InOrder.ordered (h : r.InOrder base) : r.Ordered where
  overlays := by
    rw [h.overlays, slots, List.countP_map]
    rfl
  depths := by
    have hdepths := h.depths
    rw [slots, List.map_map] at hdepths
    exact hdepths
  memos m hm _ hid := (h.whole m hm).notMem_results hid

/-- A run that has not begun is in order. -/
theorem inOrder_of_idle (hframes : r.frames.items = []) (hoverlays : r.overlays = [])
    (hmemo : r.memo.Made) : r.InOrder r.scope where
  overlays := by simp [slots, hframes, hoverlays]
  depths := by simp [slots, hframes]
  whole := by simpa [Whole, hoverlays] using hmemo
  base := scopeAt_length (by simp [slots, hframes])

/-- Frames that stay what they are stay in order. -/
theorem Rests.inOrder (h : r.Rests r') (hr : r.InOrder base) : r'.InOrder base := by
  refine ⟨?_, ?_, h.whole hr.whole, (h.scopeAt_eq 0).trans hr.base⟩
  · rw [h.overlays, h.slots, hr.overlays]
  · rw [h.scope, h.slots]
    exact hr.depths

/-- The frames below one that has ended are in order. -/
theorem Pops.inOrder {slot : Slot} (h : r.Pops slot r') (hr : r.InOrder base) : r'.InOrder base := by
  have hdepths := hr.depths
  rw [h.slots, List.map_cons] at hdepths
  have hscope : r'.scope.depth = slot.depth := by
    rw [h.scope, Scope.depth_truncate]
    exact Nat.min_eq_left (List.rel_of_pairwise_cons hdepths List.mem_cons_self)
  have hbase : r.scopeAt 0 = r'.scopeAt 0 := scopeAt_of_cons h.slots h.scope.symm (Nat.zero_le _)
  refine ⟨?_, ?_, h.whole hr.whole, hbase.symm.trans hr.base⟩
  · rw [h.overlays, hr.overlays, h.slots, List.countP_cons]
    cases slot.fresh <;> simp
  · rw [hscope]
    exact hdepths.of_cons

/-- **Whatever happens to the frames, they stay in order.** -/
theorem Shifts.inOrder (h : r.Shifts E r') (hr : r.InOrder base) : r'.InOrder base := by
  have hbase : r'.scopeAt 0 = base :=
    (h.scopeAt_eq (Nat.zero_le _) (Nat.zero_le _)).trans hr.base
  have hwhole := h.whole hr.whole
  have hdepths := hr.depths
  cases h with
  | stay h => exact h.inOrder hr
  | push slot h =>
    refine ⟨?_, ?_, hwhole, hbase⟩
    · rw [h.overlays, h.slots, List.countP_cons, hr.overlays]
      cases slot.fresh <;> rfl
    · -- the scope at hand is at least as deep as the one that it goes back to
      have htop : slot.depth ≤ r'.scope.depth := by
        have := congrArg Scope.depth h.scope
        rw [Scope.depth_truncate, ← h.depth] at this
        omega
      rw [h.slots, List.map_cons, List.pairwise_cons]
      rw [← h.depth] at hdepths
      refine ⟨List.forall_mem_cons.2 ⟨htop, fun depth hdepth => ?_⟩, hdepths⟩
      exact Nat.le_trans (List.rel_of_pairwise_cons hdepths hdepth) htop
  | pop slot h => exact h.inOrder hr
  | stop h =>
    refine ⟨?_, ?_, hwhole, hbase⟩
    · rw [h.overlays, h.slots]
      rfl
    · rw [h.slots]
      exact List.pairwise_singleton _ _

end Run

/-! ## Beginnings and ends of tasks -/

/-- **There are frames** as long as the run has not ended. -/
def Next.Manned : Next P → Prop
  | .resume r _ => r.frames.size ≠ 0
  | .wait r _ => r.frames.size ≠ 0
  | .finish o => o.run.frames.size = 0

/-- No task starts, and there are `n` frames at most. -/
def Next.Quiet (n : Nat) (next : Next P) : Prop :=
  (∀ r, next ≠ .resume r .start) ∧ next.run.frames.size ≤ n

namespace Run

variable {E : Engine P}

theorem manned_handOver {r : Run P} (h : r.frames.size ≠ 0) (result : Except EvalError Value) :
    (r.handOver result).Manned := by
  unfold handOver
  split
  · exact h
  · split
    · exact rfl
    · dsimp only
      split <;> exact h

theorem manned_answer (r : Run P) (a : Answer) : (r.answer a).Manned := by
  unfold answer
  split
  next hnil => exact r.frames.size_eq_zero_iff.2 hnil
  next hcons =>
    refine manned_handOver ?_ _
    rw [observe, Stack.size_mapTop, r.frames.size_eq, hcons]
    exact Nat.succ_ne_zero _

theorem manned_visit (E : Engine P) (r : Run P) (id : NodeId) (restore : Nat) (fresh : Bool) :
    (r.visit E id restore fresh).Manned := by
  have harrives := r.arrives E id restore fresh
  unfold visit
  generalize r.arrive E id restore fresh = arrived at harrives
  cases harrives with
  | started => exact Nat.succ_ne_zero _
  | _ => exact manned_answer _ _

theorem manned_turn (E : Engine P) (r : Run P) (input : Input) : (r.turn E input).Manned := by
  -- without a frame there is no task that could ask for anything
  have hresumed : ∀ request, (r.countTurn.resumeFrame input).2 = .request request →
      (r.countTurn.resumeFrame input).1.frames.size ≠ 0 := by
    intro request h
    have hsize := congrArg List.length (r.countTurn.rests_resumeFrame input).slots
    rw [length_slots, length_slots] at hsize
    rw [hsize, Stack.size_eq]
    unfold resumeFrame at h
    split at h
    next => cases h
    next hcons =>
      rw [hcons]
      exact nofun
  unfold turn
  dsimp only
  split
  · exact rfl
  · generalize r.countTurn.resumeFrame input = resumed at hresumed
    obtain ⟨r', step⟩ := resumed
    cases step with
    | done value => exact manned_answer _ _
    | fail error => exact manned_answer _ _
    | request request =>
      cases request with
      | await await => exact hresumed _ rfl
      | _ => exact manned_visit _ _ _ _ _

theorem quiet_of_rests_or_drops {r : Run P} {next : Next P} (hnext : ∀ r, next ≠ .resume r .start)
    (h : r.Rests next.run ∨ r.Drops next.run) : next.Quiet r.frames.size := by
  refine ⟨hnext, ?_⟩
  rw [← length_slots, ← length_slots]
  rcases h with h | h
  · exact Nat.le_of_eq (congrArg List.length h.slots)
  · rw [h.slots]
    exact Nat.zero_le _

theorem quiet_handOver (r : Run P) (result : Except EvalError Value) :
    (r.handOver result).Quiet r.frames.size := by
  refine quiet_of_rests_or_drops ?_ (r.handOver_rests_or_drops result)
  unfold handOver
  split
  · exact fun _ h => by cases h
  · split
    · exact nofun
    · exact fun _ h => by cases h

theorem quiet_answer (r : Run P) (a : Answer) : (r.answer a).Quiet r.frames.size := by
  refine quiet_of_rests_or_drops ?_ (r.answer_rests_or_drops a)
  unfold answer
  split
  · exact nofun
  · exact (quiet_handOver _ _).1

/-- **A visit starts one task at most,** under the scope that it is made under. -/
theorem visit_quiet_or_starts (E : Engine P) (r : Run P) (id : NodeId) (restore : Nat)
    (fresh : Bool) : (r.visit E id restore fresh).Quiet r.frames.size ∨
      ∃ r', r.visit E id restore fresh = .resume r' .start ∧ r'.scope = r.scope ∧
        r'.frames.size = r.frames.size + 1 := by
  have harrives := r.arrives E id restore fresh
  unfold visit
  generalize r.arrive E id restore fresh = arrived at harrives
  cases harrives with
  | started => exact .inr ⟨_, rfl, rfl, rfl⟩
  | param =>
    refine .inl ?_
    have hrests := ((r.truncate restore).mapTally .countLookup).rests_mapInnermost
      fun m => Memo.Made.setTainted id
    have hsize := congrArg List.length hrests.slots
    rw [length_slots, length_slots] at hsize
    exact hsize ▸ quiet_answer (note _ (.lookedUp id)) _
  | _ => exact .inl (quiet_answer _ _)

theorem serve_quiet_or_starts (E : Engine P) (r : Run P) (step : Step) :
    (r.serve E step).Quiet r.frames.size ∨ ∃ r' request, r.serve E step = .resume r' .start ∧
      step = .request request ∧ r'.scope = request.scope r.scope ∧
      r'.frames.size = r.frames.size + 1 := by
  cases step with
  | done value =>
    obtain ⟨hstart, hsize⟩ := quiet_answer (r.succeed value).1 (r.succeed value).2
    rw [frames_succeed] at hsize
    exact .inl ⟨hstart, Nat.le_trans hsize (Nat.sub_le _ _)⟩
  | fail error =>
    obtain ⟨hstart, hsize⟩ := quiet_answer (r.fail error).1 (r.fail error).2
    rw [frames_fail] at hsize
    exact .inl ⟨hstart, Nat.le_trans hsize (Nat.sub_le _ _)⟩
  | request request =>
    have hvisit : ∀ (r₀ : Run P) (id : NodeId) (restore : Nat) (fresh : Bool),
        r₀.scope = request.scope r.scope → r₀.frames = r.frames →
        (r₀.visit E id restore fresh).Quiet r.frames.size ∨
          ∃ r' q, r₀.visit E id restore fresh = .resume r' .start ∧
            Step.request request = .request q ∧ r'.scope = q.scope r.scope ∧
            r'.frames.size = r.frames.size + 1 := by
      intro r₀ id restore fresh hscope hframes
      rw [← hframes]
      refine (r₀.visit_quiet_or_starts E id restore fresh).imp_right ?_
      rintro ⟨r', hnext, hscope', hsize⟩
      exact ⟨r', request, hnext, rfl, hscope'.trans hscope, hsize⟩
    cases request with
    | await await => exact .inl ⟨(fun _ h => by cases h), Nat.le_refl _⟩
    | _ => exact hvisit _ _ _ _ rfl rfl

theorem turn_quiet_or_starts (E : Engine P) (r : Run P) (input : Input) :
    (r.turn E input).Quiet r.frames.size ∨ ∃ r' request, r.turn E input = .resume r' .start ∧
      (r.countTurn.resumeFrame input).2 = .request request ∧
      r'.scope = request.scope r.scope ∧ r'.frames.size = r.frames.size + 1 := by
  have hrests := r.rests_countTurn.trans (r.countTurn.rests_resumeFrame input)
  have hsize : (r.countTurn.resumeFrame input).1.frames.size = r.frames.size := by
    rw [← length_slots, ← length_slots, hrests.slots]
  have hserve := serve_quiet_or_starts E (r.countTurn.resumeFrame input).1
    (r.countTurn.resumeFrame input).2
  rw [hsize, hrests.scope] at hserve
  unfold turn
  dsimp only
  split
  · exact .inl ⟨nofun, Nat.zero_le _⟩
  · exact hserve

theorem manned_wake {r : Run P} (h : r.frames.size ≠ 0) (world : World P) (wake : Wake) :
    (r.wake world wake).Manned := by
  cases wake with
  | elapsed => exact h
  | settled c =>
    let merged : Run P := (mapTally { r with world } (·.merge c.tally)).observe c.tainted
    have hmerged : merged.frames.size ≠ 0 := h
    exact manned_handOver hmerged c.result

theorem quiet_wake (r : Run P) (world : World P) (wake : Wake) :
    (r.wake world wake).Quiet r.frames.size := by
  cases wake with
  | elapsed => exact ⟨(fun _ h => by cases h), Nat.le_refl _⟩
  | settled c => exact quiet_handOver _ _

end Run

/-- **A task starts or no frame is added,** whatever a run does next. -/
theorem Next.Leads.quiet_or_starts {E : Engine P} {next next' : Next P} (h : next.Leads E next') :
    next'.Quiet next.run.frames.size ∨
      ∃ r, next' = .resume r .start ∧ r.frames.size = next.run.frames.size + 1 := by
  cases h with
  | turn r input =>
    refine (r.turn_quiet_or_starts E input).imp_right ?_
    rintro ⟨r', _, hr, -, -, hsize⟩
    exact ⟨r', hr, hsize⟩
  | wake r await world wake => exact .inl (r.quiet_wake world wake)

/-- Frames and runs end together. -/
theorem Next.Leads.manned {E : Engine P} {next next' : Next P} (h : next.Leads E next')
    (hnext : next.Manned) : next'.Manned := by
  cases h with
  | turn r input => exact r.manned_turn E input
  | wake r await world wake => exact Run.manned_wake hnext world wake

/-! ## The order of frames -/

section Discipline

variable {E : Engine P} {root : NodeId} {memo : Memo} {scope : Scope} {world : World P}
  {next : Next P}

/-- **All that a run may come to is in order,** by induction on the way to it. -/
theorem Engine.MayReach.inOrder (hmemo : memo.Made) (h : E.MayReach root memo scope world next) :
    next.run.InOrder scope := by
  induction h with
  | refl =>
    let r : Run P := { memo, scope, world }
    have hidle : r.InOrder r.scope := Run.inOrder_of_idle rfl rfl hmemo
    exact (r.begin_shifts root).inOrder hidle
  | tail _ hleads ih => exact hleads.shifts.inOrder ih

/-- **There are frames until the end.** -/
theorem Engine.MayReach.manned (h : E.MayReach root memo scope world next) : next.Manned := by
  induction h with
  | refl => exact Run.manned_visit _ _ _ _ _
  | tail _ hleads ih => exact hleads.manned ih

/-- **Every frame has been there since its task started,** by induction on the way
to it. -/
theorem Engine.MayReach.exists_start (h : E.MayReach root memo scope world next) {n : Nat}
    (hn : n ≠ 0) (hle : n ≤ next.run.frames.size) :
    ∃ r₀, E.MayReach root memo scope world (.resume r₀ .start) ∧
      Relation.ReflTransGen (Next.LeadsAbove E n) (.resume r₀ .start) next ∧
      r₀.frames.size = n := by
  induction h with
  | refl =>
    let r : Run P := { memo, scope, world }
    have hbegin : r.begin E root = r.visit E root r.scope.depth false := rfl
    rcases r.visit_quiet_or_starts E root r.scope.depth false with ⟨-, hquiet⟩ | ⟨r', hr, -, hsize⟩
    · exact absurd (Nat.le_zero.1 (Nat.le_trans hle hquiet)) hn
    · -- the task of the root is the only one
      have hone : n = r'.frames.size := by
        rw [hbegin, hr] at hle
        have hle : n ≤ r'.frames.size := hle
        rw [hsize] at hle ⊢
        exact Nat.le_antisymm hle (Nat.succ_le_of_lt (Nat.pos_of_ne_zero hn))
      refine ⟨r', ?_, ?_, hone.symm⟩
      · rw [Engine.MayReach, hbegin, hr]
      · rw [hbegin, hr]
  | @tail next next' hreach hleads ih =>
    by_cases hbefore : n ≤ next.run.frames.size
    · obtain ⟨r₀, hr₀, hway, hsize⟩ := ih hbefore
      exact ⟨r₀, hr₀, hway.tail ⟨hleads, hle⟩, hsize⟩
    · rcases hleads.quiet_or_starts with ⟨-, hquiet⟩ | ⟨r, rfl, hsize⟩
      · exact absurd (Nat.le_trans hle hquiet) hbefore
      · have hle : n ≤ r.frames.size := hle
        have htop : r.frames.size = n := by omega
        exact ⟨r, .tail hreach hleads, .refl, htop⟩

/-- **A task that starts** is one that the top frame has asked for. -/
theorem Next.Leads.exists_request {r : Run P} (h : next.Leads E (.resume r .start)) :
    ∃ r₀ input request, next = .resume r₀ input ∧
      (r₀.countTurn.resumeFrame input).2 = .request request ∧
      r.scope = request.scope r₀.scope ∧ r.frames.size = r₀.frames.size + 1 := by
  generalize hlast : Next.resume r .start = last at h
  cases h with
  | turn r₀ input =>
    have hturn := r₀.turn_quiet_or_starts E input
    rw [← hlast] at hturn
    rcases hturn with ⟨hquiet, -⟩ | ⟨r', request, hr, hstep, hscope, hsize⟩
    · exact absurd rfl (hquiet r)
    · cases hr
      exact ⟨r₀, input, request, rfl, hstep, hscope, hsize⟩
  | wake r₀ await world wake => exact absurd hlast.symm ((r₀.quiet_wake world wake).1 r)

/-- **While a frame lasts,** the frames below it and the scope at its level are what
they were. -/
theorem Next.LeadsAbove.kept {r : Run P} {input : Input}
    (h : Relation.ReflTransGen (Next.LeadsAbove E r.frames.size) (.resume r input) next) :
    r.slots.length ≤ next.run.slots.length ∧
      next.run.scopeAt r.slots.length = r.scopeAt r.slots.length ∧
      next.run.slots.drop (next.run.slots.length - r.slots.length) = r.slots := by
  induction h with
  | refl => exact ⟨Nat.le_refl _, rfl, by simp only [Next.run, Nat.sub_self, List.drop_zero]⟩
  | tail _ hlast ih =>
    obtain ⟨hleads, hle⟩ := hlast
    obtain ⟨hlength, hscope, hslots⟩ := ih
    rw [← Run.length_slots, ← Run.length_slots] at hle
    exact ⟨hle, (hleads.shifts.scopeAt_eq hlength hle).trans hscope,
      (hleads.shifts.drop_slots_eq hlength hle).trans hslots⟩

/-- **Frames, scope and overlays never come apart,** in any graph and whatever
the tasks do. -/
theorem Engine.disciplined (E : Engine P) (root : NodeId) (hmemo : memo.Made) (scope : Scope)
    (world : World P) : E.Disciplined root memo scope world where
  ordered next h := (h.inOrder hmemo).ordered
  begins r h := by
    rcases Run.visit_quiet_or_starts E { memo, scope, world } root scope.depth false with
      ⟨hquiet, -⟩ | ⟨r', hr, hscope, -⟩
    · exact absurd h (hquiet r)
    · cases h.symm.trans hr
      exact hscope
  starts next r _ hleads := hleads.exists_request
  resumes r input h := by
    obtain ⟨r₀, hr₀, hway, hsize⟩ := h.exists_start h.manned (Nat.le_refl _)
    exact ⟨r₀, hr₀, by rw [hsize]; exact hway, hsize.symm⟩
  returns r next _ hway hsize := by
    obtain ⟨-, hscope, hslots⟩ := Next.LeadsAbove.kept hway
    have hlength : next.run.slots.length = r.slots.length := by
      rw [Run.length_slots, Run.length_slots, hsize]
    rw [hlength, Nat.sub_self, List.drop_zero] at hslots
    rw [Run.scopeAt_length (Nat.le_of_eq hlength), Run.scopeAt_length (Nat.le_refl _)] at hscope
    exact ⟨hslots, hscope⟩
  ends o h := by
    have horder : o.run.InOrder scope := h.inOrder hmemo
    have hframes : o.run.frames.items = [] := o.run.frames.size_eq_zero_iff.1 h.manned
    have hslots : o.run.slots = [] := by simp only [Run.slots, hframes, List.map_nil]
    refine ⟨?_, ?_, hframes⟩
    · rw [← horder.base]
      exact (Run.scopeAt_length (by rw [hslots]; exact Nat.le_refl 0)).symm
    · rw [← List.length_eq_zero_iff, horder.overlays, hslots]
      rfl

/-- So do those of a list that contains itself, which goes on for ever. -/
theorem Engine.disciplined_ring :
    Memo.empty.Made ∧ Engine.Disciplined (P := .none)
      ⟨⟨#[Graph.listNode [⟨0⟩]]⟩, .standard, {}⟩ ⟨0⟩ .empty .empty { shared := () } :=
  ⟨.empty, Engine.disciplined _ _ .empty _ _⟩

end Discipline

end ProgramGraph
