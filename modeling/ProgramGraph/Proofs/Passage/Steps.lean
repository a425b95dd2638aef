import Mathlib.Algebra.Ring.Nat
import ProgramGraph.Proofs.Passage.Carry
import ProgramGraph.Proofs.Passage.Conduct
/-!
# Resumptions, counted twice

A run counts its resumptions to compare them with the limit, and the counters of its
memo count them as well. The two differ in what becomes of the jobs that are waited
for: their counters are taken over, their steps are not (`Run.toll_wake`). So the
limit is a limit for each run by itself (`Next.Allowed`), whatever the counters come to.
-/

namespace ProgramGraph

variable {P : Plugins} {E : Engine P}

namespace Run

/-- The resumptions that a run has counted, and those that its counters show. -/
def toll (r : Run P) : Nat × Nat := (r.steps, r.memo.tally.steps)

variable (r : Run P)

theorem toll_mapInnermost {f : Memo → Memo} (hf : ∀ m : Memo, (f m).tally = m.tally) :
    (r.mapInnermost f).toll = r.toll := by
  have hsteps : (r.mapInnermost f).steps = r.steps := by
    unfold mapInnermost
    split <;> rfl
  exact Prod.ext hsteps (congrArg Tally.steps (tally_mapInnermost r hf))

theorem toll_handOver (result : Except EvalError Value) : (r.handOver result).run.toll = r.toll := by
  unfold handOver
  split
  next => rfl
  next =>
    split
    next => rfl
    next =>
      dsimp only
      split <;> rfl

theorem toll_answer (a : Answer) : (r.answer a).run.toll = r.toll := by
  unfold answer
  split
  next => rfl
  next => exact toll_handOver _ _

theorem toll_visit (id : NodeId) (restore : Nat) (fresh : Bool) :
    (r.visit E id restore fresh).run.toll = r.toll := by
  have harrives := r.arrives E id restore fresh
  unfold visit
  generalize r.arrive E id restore fresh = arrived at harrives
  cases harrives with
  | param =>
    exact (toll_answer _ _).trans
      (toll_mapInnermost ((r.truncate restore).mapTally .countLookup) fun _ => rfl)
  | started => rfl
  | _ => exact toll_answer _ _

theorem toll_serve (step : Step) : (r.serve E step).run.toll = r.toll := by
  cases step with
  | done value =>
    refine (toll_answer (r.succeed value).1 _).trans ?_
    unfold succeed
    split
    next => rfl
    next =>
      dsimp only
      split
      next => rfl
      next frame _ _ _ =>
        refine toll_mapInnermost _ fun m => ?_
        cases frame.volatile || frame.tainted <;> rfl
  | fail error =>
    refine (toll_answer (r.fail error).1 _).trans ?_
    unfold fail
    split
    next => rfl
    next =>
      dsimp only
      split <;> rfl
  | request request =>
    cases request with
    | child id => exact toll_visit r id _ _
    | under id bindings => exact toll_visit { r with scope := r.scope.push bindings } id _ _
    | fresh id => exact toll_visit r id _ _
    | await await => rfl

/-- **A turn** is one resumption more, for both. -/
theorem toll_turn (input : Input) :
    (r.turn E input).run.toll = (r.steps + 1, r.memo.tally.steps + 1) := by
  unfold turn
  dsimp only
  split
  next => rfl
  next =>
    refine (toll_serve _ _).trans ?_
    unfold resumeFrame
    split <;> rfl

/-- **The end of a wait** adds what was waited for, to the counters alone. -/
theorem toll_wake (world : World P) (wake : Wake) :
    (r.wake world wake).run.toll = match wake with
      | .elapsed => r.toll
      | .settled c => (r.steps, r.memo.tally.steps + c.tally.steps) := by
  cases wake with
  | elapsed => rfl
  | settled c => exact toll_handOver _ _

/-- A run that has not taken too many steps. -/
theorem exceeded?_eq_none {r : Run P} {limits : Limits} {limit : Nat}
    (hlimit : limits.maxSteps = some limit) (h : r.steps ≤ limit) : r.exceeded? limits = none := by
  rw [exceeded?, hlimit, Option.filter_some, if_neg]
  exact fun hlt => absurd (of_decide_eq_true hlt) (Nat.not_lt.2 h)

/-- A turn that is one too many for the limit ends the run. -/
theorem turn_of_lt {limit : Nat} (hlimit : E.limits.maxSteps = some limit) (h : limit < r.steps + 1)
    (input : Input) : ∃ o : Outcome P, r.turn E input = .finish o ∧
      o.result = .error (.stepLimitExceeded limit) := by
  have hexceeded : r.countTurn.exceeded? E.limits = some limit := by
    rw [exceeded?, hlimit]
    exact Option.filter_eq_some_iff.2 ⟨rfl, decide_eq_true h⟩
  exact ⟨_, turn_of_exceeded hexceeded input, rfl⟩

end Run

/-! ## One run -/

/-- **The run keeps to the limit:** it has ended if it has taken more steps, and then it
has taken one more and ended with the error that says so. -/
def Next.Allowed (limit : Nat) (next : Next P) : Prop :=
  next.run.steps ≤ limit ∨ next.run.steps = limit + 1 ∧
    ∃ o, next = .finish o ∧ o.result = .error (.stepLimitExceeded limit)

/-- **All that a job passes through keeps to the limit.** -/
theorem Passes.allowed {W : World P → Prop} {m : Memo} {job : Job} {next : Next P} {limit : Nat}
    (hlimit : E.limits.maxSteps = some limit) (h : Passes E W m job next) : next.Allowed limit := by
  induction h with
  | @begin m job world _ =>
    have hsteps := congrArg Prod.fst (Run.toll_visit (E := E)
      { memo := m, scope := job.scope, world } job.node job.scope.depth false)
    exact .inl (Nat.le_trans (Nat.le_of_eq hsteps) (Nat.zero_le limit))
  | @turn m job r input _ ih =>
    have hsteps : (r.turn E input).run.steps = r.steps + 1 :=
      congrArg Prod.fst (r.toll_turn (E := E) input)
    -- a run that goes on has not gone beyond the limit yet
    have hr : r.steps ≤ limit := by
      rcases ih with hle | ⟨-, o, hfinish, -⟩
      · exact hle
      · cases hfinish
    rcases Nat.lt_or_ge limit (r.steps + 1) with hlt | hle
    · have heq : r.steps + 1 = limit + 1 := Nat.le_antisymm (Nat.succ_le_succ hr) hlt
      exact .inr ⟨hsteps.trans heq, r.turn_of_lt hlimit hlt input⟩
    · exact .inl (Nat.le_trans (Nat.le_of_eq hsteps) hle)
  | @wake m job r await world wake _ _ _ _ _ ih =>
    have hsteps : (r.wake world wake).run.steps = r.steps := by
      have htoll := congrArg Prod.fst (r.toll_wake world wake)
      cases wake <;> exact htoll
    have hr : r.steps ≤ limit := by
      rcases ih with hle | ⟨-, o, hfinish, -⟩
      · exact hle
      · cases hfinish
    exact .inl (Nat.le_trans (Nat.le_of_eq hsteps) hr)

/-! ## What the counters come to -/

/-- **The number is made up** of the resumptions of some runs that have ended as given,
and of some more. -/
def Outcome.MakeUp (ended : Outcome P → Prop) (own total : Nat) : Prop :=
  ∃ outcomes : List (Outcome P), (∀ o ∈ outcomes, ended o) ∧
    total = own + (outcomes.map fun o => o.run.steps).sum

namespace Outcome.MakeUp

variable {ended : Outcome P → Prop} {own own' total total' : Nat}

theorem of_eq (h : total = own) : MakeUp ended own total := ⟨[], nofun, h⟩

theorem add (h : MakeUp ended own total) (h' : MakeUp ended own' total') :
    MakeUp ended (own + own') (total + total') := by
  obtain ⟨os, hos, rfl⟩ := h
  obtain ⟨os', hos', rfl⟩ := h'
  refine ⟨os ++ os', fun o ho => (List.mem_append.1 ho).elim (hos o) (hos' o), ?_⟩
  rw [List.map_append, List.sum_append]
  omega

/-- The resumptions of a run that has ended as given need not be counted apart. -/
theorem absorb (h : MakeUp ended own total) {o : Outcome P} (ho : ended o) (hown : own = o.run.steps) :
    MakeUp ended 0 total := by
  obtain ⟨os, hos, rfl⟩ := h
  refine ⟨o :: os, List.forall_mem_cons.2 ⟨ho, hos⟩, ?_⟩
  rw [List.map_cons, List.sum_cons, hown, Nat.zero_add]

/-- **No more than so much for each run.** -/
theorem le {limit : Nat} (h : MakeUp ended own total) (hended : ∀ o, ended o → o.run.steps ≤ limit) :
    ∃ outcomes : List (Outcome P), (∀ o ∈ outcomes, ended o) ∧
      total = own + (outcomes.map fun o => o.run.steps).sum ∧
      total ≤ own + limit * outcomes.length := by
  obtain ⟨os, hos, rfl⟩ := h
  refine ⟨os, hos, rfl, Nat.add_le_add_left ?_ own⟩
  induction os with
  | nil => exact Nat.zero_le _
  | cons o os ih =>
    rw [List.forall_mem_cons] at hos
    rw [List.map_cons, List.sum_cons, List.length_cons, Nat.mul_succ, Nat.add_comm]
    exact Nat.add_le_add (ih hos.2) (hended o hos.1)

end Outcome.MakeUp

/-- Some conclusions together show what each of them does. -/
theorem Conclusion.steps_gather (found : List Conclusion) :
    (gather found).tally.steps = (found.map fun c => c.tally.steps).sum := by
  have hfold : ∀ t : Tally, ((found.map Conclusion.tally).foldl Tally.merge t).steps =
      t.steps + (found.map fun c => c.tally.steps).sum := by
    induction found with
    | nil => exact fun t => rfl
    | cons c rest ih =>
      intro t
      rw [List.map_cons, List.foldl_cons, ih, List.map_cons, List.sum_cons]
      exact Nat.add_assoc _ _ _
  rw [gather]
  exact (hfold .zero).trans (Nat.zero_add _)

namespace Engine

variable {root : NodeId} {memo : Memo} {scope : Scope} {shared : P.Shared}

/-- **A job of the evaluation ends** with an outcome. -/
def EndsJob (E : Engine P) (root : NodeId) (memo : Memo) (scope : Scope) (shared : P.Shared)
    (o : Outcome P) : Prop :=
  ∃ s id, E.GetsTo root memo scope shared s ∧ s.focus = .job id (.finish o) ∧ id ≠ Schedule.root

/-- **The counters show the steps of the run and those of some jobs that have ended.** -/
theorem carries_steps (hr : E.registry.Native) (ho : E.registry.Ordinary) (root : NodeId)
    (memo : Memo) (scope : Scope) (shared : P.Shared) :
    E.Carries root memo scope shared
      (fun id next => Outcome.MakeUp (E.EndsJob root memo scope shared)
        ((Schedule.memoOf memo id).tally.steps + next.run.steps) next.run.memo.tally.steps)
      fun c => Outcome.MakeUp (E.EndsJob root memo scope shared) 0 c.tally.steps where
  start := by
    have htoll : (Run.begin E { memo, scope, world := { shared } } root).run.toll = _ :=
      Run.toll_visit _ _ _ _
    obtain ⟨hsteps, htally⟩ := Prod.mk.inj htoll
    refine .of_eq ?_
    rw [hsteps, htally, Schedule.memoOf_root]
    rfl
  begins id job world hid := by
    have htoll : (Run.begin E { scope := job.scope, world } job.node).run.toll = _ :=
      Run.toll_visit _ _ _ _
    obtain ⟨hsteps, htally⟩ := Prod.mk.inj htoll
    refine .of_eq ?_
    rw [hsteps, htally, Schedule.memoOf_of_ne memo hid]
    rfl
  turn id r input h := by
    obtain ⟨hsteps, htally⟩ := Prod.mk.inj (r.toll_turn (E := E) input)
    rw [hsteps, htally, ← Nat.add_assoc]
    exact h.add (.of_eq rfl)
  wake id r await world wake h hwake := by
    have htoll := r.toll_wake world wake
    cases wake with
    | elapsed => exact h
    | settled c =>
      obtain ⟨hsteps, htally⟩ := Prod.mk.inj htoll
      rw [hsteps, htally]
      exact h.add (hwake c rfl)
  finish s id o hgets hfocus hid h := by
    rw [Schedule.memoOf_of_ne memo hid] at h
    exact h.absorb ⟨s, id, hgets, hfocus, hid⟩ (Nat.zero_add _)
  gather found hfound := by
    rw [Conclusion.steps_gather]
    induction found with
    | nil => exact .of_eq rfl
    | cons c rest ih =>
      rw [List.forall_mem_cons] at hfound
      rw [List.map_cons, List.sum_cons]
      exact hfound.1.add (ih hfound.2)
  timer s id r ms c hgets hfocus := by
    have hattends : E.AttendsTo root memo scope shared (.wait r (.timer ms (.settled c))) :=
      ⟨s, id, hgets, hfocus⟩
    have hconducted : ∃ job, (Next.wait r (.timer ms (.settled c))).Conducted E.graph job := by
      rcases hattends.exists_passes (Schedule.closed_true E memo) trivial trivial with
        hpasses | ⟨job, -, hpasses⟩
      · exact ⟨_, hpasses.conducted hr ho⟩
      · exact ⟨_, hpasses.conducted hr ho⟩
    obtain ⟨job, frame, rest, -, ⟨-, htimer, -⟩, -⟩ := hconducted
    cases htimer ms _ rfl

/-! ## Evaluations without jobs -/

/-- Only a wait for jobs makes jobs. -/
theorem size_step {s s' : Schedule P} (h : s.step E = .going s')
    (hnone : ∀ id r await, s.focus = .job id (.wait r await) → await.jobs = []) :
    s'.jobs.size = s.jobs.size := by
  have hlook : ∀ (t : Schedule P) (id : JobId) (run : Run P) (wait : Wait) (alarm : Option Place)
      (world : World P), (t.attend id run wait alarm world).jobs.size = t.jobs.size := by
    intro t id run wait alarm world
    unfold Schedule.attend
    split
    next => rfl
    next => exact Schedule.size_setStage _ _ _
  cases Schedule.steps h with
  | resumes _ => rfl
  | @suspends id run await heq =>
    have hplanned : (s.planAll run.world.clock id await.jobs).2.jobs.size = s.jobs.size := by
      rw [hnone id run await heq]
      rfl
    have hsuspends := s.suspends id run await
    generalize s.suspend id run await = s' at hsuspends ⊢
    cases hsuspends with
    | ends _ => exact hplanned
    | waits _ => exact (Schedule.size_setStage _ _ _).trans hplanned
  | settles _ _ => exact Schedule.size_setStage _ _ _
  | proceeds _ hproceed =>
    obtain ⟨place, id, -, hproceeds⟩ := Schedule.exists_proceeds hproceed
    cases hproceeds with
    | begins _ => exact Schedule.size_setStage _ _ _
    | looks _ => exact (hlook _ _ _ _ _ _).trans (Schedule.size_setStage _ _ _)
    | skips _ _ => rfl

/-- **Without jobs to wait for there is no job but the evaluation itself.** -/
theorem not_endsJob (hnone : ∀ r await, E.AttendsTo root memo scope shared (.wait r await) →
    await.jobs = []) (o : Outcome P) : ¬ E.EndsJob root memo scope shared o := by
  rintro ⟨s, id, hgets, hfocus, hid⟩
  have hsize : s.jobs.size = 1 := by
    clear hfocus
    induction hgets with
    | refl => rfl
    | tail hgets hstep ih =>
      exact (size_step hstep fun id r await hfocus => hnone r await ⟨_, id, hgets, hfocus⟩).trans ih
  obtain ⟨asked, -, htracks⟩ := Schedule.exists_tracksFocus (Schedule.closed_true E memo) trivial
    trivial hgets
  rw [hfocus] at htracks
  have hlt := Schedule.lt_size_of_stage? htracks.2.1
  rw [hsize] at hlt
  exact hid (Nat.lt_one_iff.1 hlt)

end Engine

end ProgramGraph
