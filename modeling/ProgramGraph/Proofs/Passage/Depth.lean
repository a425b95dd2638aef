import ProgramGraph.Proofs.Passage.Conduct
import ProgramGraph.Proofs.Passage.Discipline
/-!
# How deep frames stand

The depth that is counted is at most what it was, or as many frames as there are. It
grows in two ways only: a frame is pushed, or the counters of a job are taken over,
which has a stack of its own. In a valid graph frames are for smaller nodes the higher
they stand, and jobs are for smaller nodes than the frame that waits for them, so the
depth has a bound that the root sets (`Passes.depth_le`).
-/

namespace ProgramGraph

variable {P : Plugins} {E : Engine P}

namespace Run

variable (r : Run P)

theorem depth_handOver (result : Except EvalError Value) :
    (r.handOver result).run.memo.tally.depth = r.memo.tally.depth := by
  unfold handOver
  split
  next => rfl
  next =>
    split
    next => rfl
    next =>
      dsimp only
      split <;> rfl

theorem depth_answer (a : Answer) : (r.answer a).run.memo.tally.depth = r.memo.tally.depth := by
  unfold answer
  split
  next => rfl
  next => exact depth_handOver _ _

/-- **The depth goes with the frames:** it is as it was if there are no more of them, or else
it takes note of them. -/
def Deepens (r : Run P) (next : Next P) : Prop :=
  (next.run.memo.tally.depth = r.memo.tally.depth ∧ next.run.frames.size ≤ r.frames.size) ∨
    next.run.memo.tally.depth = max r.memo.tally.depth next.run.frames.size

/-- An answer adds no frame. -/
theorem deepens_answer (r' : Run P) (a : Answer)
    (hdepth : r'.memo.tally.depth = r.memo.tally.depth)
    (hsize : r'.frames.size ≤ r.frames.size) : r.Deepens (r'.answer a) :=
  .inl ⟨(depth_answer r' a).trans hdepth, Nat.le_trans (quiet_answer r' a).2 hsize⟩

theorem deepens_visit (id : NodeId) (restore : Nat) (fresh : Bool) :
    r.Deepens (r.visit E id restore fresh) := by
  have harrives := r.arrives E id restore fresh
  unfold visit
  generalize r.arrive E id restore fresh = arrived at harrives
  cases harrives with
  | param =>
    have htally := tally_mapInnermost ((r.truncate restore).mapTally .countLookup)
      (f := (·.setTainted id)) fun _ => rfl
    have hframes := frames_mapInnermost ((r.truncate restore).mapTally .countLookup) (·.setTainted id)
    have hdepth := congrArg Tally.depth htally
    exact r.deepens_answer _ _ hdepth (Nat.le_of_eq (congrArg Stack.size hframes))
  | started => exact .inr rfl
  | _ => exact r.deepens_answer _ _ rfl (Nat.le_refl _)

theorem deepens_serve (step : Step) : r.Deepens (r.serve E step) := by
  cases step with
  | done value =>
    refine r.deepens_answer (r.succeed value).1 (r.succeed value).2
      (congrArg Tally.depth (r.tally_succeed value)) ?_
    rw [frames_succeed]
    exact Nat.sub_le _ _
  | fail error =>
    refine r.deepens_answer (r.fail error).1 (r.fail error).2
      (congrArg Tally.depth (r.tally_fail error)) ?_
    rw [frames_fail]
    exact Nat.sub_le _ _
  | request request =>
    cases request with
    | child id => exact deepens_visit r id _ _
    | under id bindings => exact deepens_visit { r with scope := r.scope.push bindings } id _ _
    | fresh id => exact deepens_visit r id _ _
    | await await => exact .inl ⟨rfl, Nat.le_refl _⟩

/-- **A turn.** -/
theorem deepens_turn (input : Input) : r.Deepens (r.turn E input) := by
  unfold turn
  dsimp only
  split
  next => exact .inl ⟨rfl, Nat.zero_le _⟩
  next =>
    have hserve := deepens_serve (E := E) (r.countTurn.resumeFrame input).1
      (r.countTurn.resumeFrame input).2
    have hmemo : (r.countTurn.resumeFrame input).1.memo = r.countTurn.memo := by
      unfold resumeFrame
      split <;> rfl
    have hsize : (r.countTurn.resumeFrame input).1.frames.size = r.frames.size := by
      unfold resumeFrame
      split <;> rfl
    unfold Deepens at hserve
    rw [hmemo, hsize] at hserve
    exact hserve

/-- The depth is at most what it was, or as many frames as there are. -/
theorem Deepens.le {r : Run P} {next : Next P} (h : r.Deepens next) :
    next.run.memo.tally.depth ≤ max r.memo.tally.depth next.run.frames.size := by
  rcases h with ⟨hdepth, -⟩ | hdepth
  · exact Nat.le_trans (Nat.le_of_eq hdepth) (Nat.le_max_left _ _)
  · exact Nat.le_of_eq hdepth

/-- **The end of a wait** adds the depth of what was waited for. -/
theorem depth_wake_le (world : World P) {wake : Wake} {n : Nat}
    (hn : ∀ c, wake = .settled c → c.tally.depth ≤ n) :
    (r.wake world wake).run.memo.tally.depth ≤ max r.memo.tally.depth n := by
  cases wake with
  | elapsed => exact Nat.le_max_left _ _
  | settled c =>
    have hdepth : (r.wake world (.settled c)).run.memo.tally.depth =
        max r.memo.tally.depth c.tally.depth := depth_handOver _ _
    have hc := hn c rfl
    omega

end Run

/-! ## A bound -/

/-- **The frames of a run are for smaller nodes the higher they stand,** and for none
greater than the root. -/
theorem Next.Conducted.pairwise {g : Graph} (hg : g.validate = .ok ()) {root : NodeId}
    {next : Next P} (h : next.Conducted g root) (hmanned : next.Manned) :
    (next.run.frames.items.map Frame.node).Pairwise (· < ·) ∧
      (∀ frame ∈ next.run.frames.items, frame.node ≤ root) ∧
      next.run.frames.size ≤ root.index + 1 := by
  have hline : ∀ {r : Run P} {frame : Frame P} {rest : List (Frame P)},
      r.frames.items = frame :: rest → Frame.Line g root rest frame.node →
      (r.frames.items.map Frame.node).Pairwise (· < ·) ∧
        (∀ frame ∈ r.frames.items, frame.node ≤ root) ∧ r.frames.size ≤ root.index + 1 := by
    intro r frame rest hitems hline
    obtain ⟨hpairwise, hle⟩ := hline.pairwise hg
    have hlength := hline.length_le hg
    refine ⟨by rw [hitems]; exact hpairwise, fun other hother => ?_, ?_⟩
    · rw [hitems] at hother
      refine hle other.node ?_
      rw [← List.map_cons]
      exact List.mem_map_of_mem hother
    · rw [r.frames.size_eq, hitems, List.length_cons]
      omega
  cases next with
  | resume r input =>
    obtain ⟨frame, rest, hitems, -, h⟩ := h
    exact hline hitems h
  | wait r await =>
    obtain ⟨frame, rest, hitems, -, h⟩ := h
    exact hline hitems h
  | finish o =>
    have hsize : o.run.frames.size = 0 := hmanned
    have hnil : o.run.frames.items = [] := o.run.frames.size_eq_zero_iff.1 hsize
    refine ⟨?_, ?_, ?_⟩
    · simp [Next.run, hnil]
    · simp [Next.run, hnil]
    · exact Nat.le_trans (Nat.le_of_eq hsize) (Nat.zero_le _)

/-- What a job passes through has its frames. -/
theorem Passes.manned {W : World P → Prop} {m : Memo} {job : Job} {next : Next P}
    (h : Passes E W m job next) : next.Manned := by
  obtain ⟨world, hreach⟩ := h.mayReach
  exact hreach.manned

/-- **The depth has a bound,** by induction on what a job passes through. The jobs that
it waits for are for smaller nodes, and so are their bounds. -/
theorem Passes.depth_le (hg : E.graph.validate = .ok ()) (hr : E.registry.Native)
    (ho : E.registry.Ordinary) {W : World P → Prop} {m : Memo} {job : Job} {next : Next P}
    (h : Passes E W m job next) :
    next.run.memo.tally.depth ≤ max m.tally.depth (job.node.index + 1) := by
  have hsize : ∀ {m : Memo} {job : Job} {next : Next P}, Passes E W m job next →
      next.run.frames.size ≤ job.node.index + 1 :=
    fun h => ((h.conducted hr ho).pairwise hg h.manned).2.2
  induction h with
  | @begin m job world hworld =>
    have hdepth := (Run.deepens_visit (E := E) { memo := m, scope := job.scope, world } job.node
      job.scope.depth false).le
    have hpasses : Passes E W m job (Run.begin E { memo := m, scope := job.scope, world } job.node) :=
      .begin hworld
    have hframes := hsize hpasses
    exact Nat.le_trans hdepth
      (Nat.max_le.2 ⟨Nat.le_max_left _ _, Nat.le_trans hframes (Nat.le_max_right _ _)⟩)
  | @turn m job r input hpasses ih =>
    have hdepth := (r.deepens_turn (E := E) input).le
    have hframes := hsize hpasses.turn
    have ih : r.memo.tally.depth ≤ max m.tally.depth (job.node.index + 1) := ih
    omega
  | @wake m job r await world wake ends hpasses hworld hends hcomes ih ihends =>
    have ih : r.memo.tally.depth ≤ max m.tally.depth (job.node.index + 1) := ih
    obtain ⟨frame, rest, hitems, ⟨hjobs, htimer, -⟩, hline⟩ := hpasses.conducted hr ho
    obtain ⟨-, hle⟩ := hline.pairwise hg
    have hn : ∀ c, wake = .settled c → c.tally.depth ≤ job.node.index + 1 := by
      rintro c rfl
      refine hcomes.conclude (p := fun c => c.tally.depth ≤ job.node.index + 1) htimer ?_
        fun found hfound => Conclusion.depth_gather_le hfound
      rintro asked hasked c ⟨o, hends', rfl⟩
      have hlt : asked.node.index < frame.node.index := (hjobs asked hasked).lt hg
      have hframe : frame.node.index ≤ job.node.index := hle _ List.mem_cons_self
      have hdepth : o.run.memo.tally.depth ≤ max 0 (asked.node.index + 1) := ihends asked o hends'
      have hconclusion : o.conclusion.tally.depth = o.run.memo.tally.depth := rfl
      omega
    have hdepth := r.depth_wake_le world hn
    omega

end ProgramGraph
