import ProgramGraph.Proofs.Passage.Track
import ProgramGraph.Proofs.Solo.Fare
/-!
# What jobs carry along

What a job passes through is told by itself, from any ends that the jobs it waits for
may come to (`Passes`). Where it matters to which ends they have come, something is
carried along every job of an evaluation, and something else by the conclusions that
go from one job to another (`Engine.Carries`). The first then holds at every step of
the schedule (`Engine.Carries.attends`).
-/

namespace ProgramGraph

open Relation

variable {P : Plugins} {E : Engine P} {A : JobId → Next P → Prop} {C : Conclusion → Prop}

/-- **One step leads to the other schedule.** -/
abbrev Schedule.Goes (E : Engine P) (s s' : Schedule P) : Prop := s.step E = .going s'

/-- **The schedule of an evaluation comes to this.** -/
def Engine.GetsTo (E : Engine P) (root : NodeId) (memo : Memo) (scope : Scope)
    (shared : P.Shared) (s : Schedule P) : Prop :=
  ReflTransGen (fun s s' : Schedule P => s.step E = .going s')
    (.start (Run.begin E { memo, scope, world := { shared } } root)) s

/-- **Jobs carry something along,** conclusions take something from one job to another,
and each is known from the other. -/
structure Engine.Carries (E : Engine P) (root : NodeId) (memo : Memo) (scope : Scope)
    (shared : P.Shared) (A : JobId → Next P → Prop) (C : Conclusion → Prop) : Prop where
  /-- The fold itself begins with it, -/
  start : A Schedule.root (Run.begin E { memo, scope, world := { shared } } root)
  /-- and so does every other job, from an empty memo. -/
  begins : ∀ id (job : Job) (world : World P), id ≠ Schedule.root →
    A id (Run.begin E { scope := job.scope, world } job.node)
  /-- A turn carries it along, -/
  turn : ∀ id r input, A id (.resume r input) → A id (r.turn E input)
  /-- and so does the end of a wait, with what conclusions take there. -/
  wake : ∀ id r await world wake, A id (.wait r await) → (∀ c, wake = .settled c → C c) →
    A id (r.wake world wake)
  /-- A job that ends has it for its conclusion. -/
  finish : ∀ s id o, E.GetsTo root memo scope shared s → s.focus = .job id (.finish o) →
    id ≠ Schedule.root → A id (.finish o) → C o.conclusion
  /-- Some conclusions together take what each of them does. -/
  gather : ∀ found : List Conclusion, (∀ c ∈ found, C c) → C (.gather found)
  /-- No other conclusion comes of a wait. -/
  timer : ∀ s id r ms c, E.GetsTo root memo scope shared s →
    s.focus ≠ .job id (.wait r (.timer ms (.settled c)))

/-- **What comes of a wait is such as conclusions are,** if those of its jobs are. -/
def Wait.Offers (C : Conclusion → Prop) (wait : Wait) : Prop :=
  ∀ c, wait.Comes (fun _ => C) (.settled c) → C c

/-- What comes of a wait that has just been arranged. -/
theorem Await.offers_toWait {await : Await} (hgather : ∀ found, (∀ c ∈ found, C c) → C (.gather found))
    (htimer : ∀ ms c, await ≠ .timer ms (.settled c)) (now : Nat) (ids : List JobId) :
    (await.toWait now ids).Offers C := by
  intro c hcomes
  cases await with
  | timer ms answer =>
    have hanswer : Wake.settled c = answer := hcomes
    exact absurd (congrArg (Await.timer ms) hanswer.symm) (htimer ms c)
  | job job =>
    obtain ⟨c', hc', hwake⟩ := hcomes
    cases hwake
    exact hc'
  | all jobs =>
    obtain ⟨later, hlater, hwake⟩ := hcomes
    cases hwake
    refine hgather later fun c hc => ?_
    obtain ⟨id, -, hc⟩ := (exists_mem_of_forall₂ hlater).2 c hc
    exact hc
  | first job others =>
    obtain ⟨id, -, c', hc', hwake⟩ := hcomes
    cases hwake
    exact hc'
  | deadline ms job =>
    rcases hcomes with hwake | ⟨c', hc', hwake⟩ <;> cases hwake
    exact hc'

namespace Schedule

variable {s t : Schedule P} {id j : JobId}

/-- Only jobs that begin are new. -/
theorem stage?_planAll_cases (now : Nat) (parent : JobId) (jobs : List Job) {stage : Stage P}
    (h : (s.planAll now parent jobs).2.stage? j = some stage) :
    s.stage? j = some stage ∨ s.jobs.size ≤ j ∧ ∃ job, stage = .planned job := by
  induction jobs generalizing s with
  | nil => exact .inl h
  | cons job jobs ih =>
    rw [planAll_cons] at h
    rcases ih h with h | ⟨hj, hplanned⟩
    · rw [stage?_plan] at h
      split at h
      next heq =>
        cases h
        exact .inr ⟨Nat.le_of_eq heq.symm, job, rfl⟩
      next => exact .inl h
    · rw [size_plan] at hj
      exact .inr ⟨Nat.le_of_succ_le hj, hplanned⟩

/-- **Every job of a schedule carries it,** and every conclusion. -/
structure Carries (A : JobId → Next P → Prop) (C : Conclusion → Prop) (s : Schedule P) : Prop where
  planned : ∀ id job, s.stage? id = some (.planned job) → id ≠ root
  waiting : ∀ id run wait alarm, s.stage? id = some (.waiting run wait alarm) →
    (∃ await, A id (.wait run await)) ∧ wait.Offers C
  settled : ∀ id c, s.conclusion? id = some c → C c
  exists_root : root < s.jobs.size

namespace Carries

/-- Only the stages matter. -/
theorem of_jobs (h : s.Carries A C) (hjobs : t.jobs = s.jobs) : t.Carries A C := by
  have hstage : t.stage? = s.stage? := funext fun id => by rw [stage?, stage?, hjobs]
  have hconclusion : t.conclusion? = s.conclusion? := funext fun id => by
    rw [conclusion?, conclusion?, hstage]
  refine ⟨?_, ?_, ?_, ?_⟩
  · rw [hstage]; exact h.planned
  · rw [hstage]; exact h.waiting
  · rw [hconclusion]; exact h.settled
  · rw [hjobs]; exact h.exists_root

/-- A job comes to another stage. -/
theorem setStage (h : s.Carries A C) (stage : Stage P) (hplanned : ∀ job, stage ≠ .planned job)
    (hwaiting : ∀ run wait alarm, stage = .waiting run wait alarm →
      (∃ await, A id (.wait run await)) ∧ wait.Offers C)
    (hsettled : ∀ c, stage = .settled c → C c) : (s.setStage id stage).Carries A C where
  planned j job hj := by
    rw [stage?_setStage] at hj
    split at hj
    next => exact absurd (Option.some.inj hj) (hplanned job)
    next => exact h.planned j job hj
  waiting j run wait alarm hj := by
    rw [stage?_setStage] at hj
    split at hj
    next heq => exact heq.1 ▸ hwaiting run wait alarm (Option.some.inj hj)
    next => exact h.waiting j run wait alarm hj
  settled j c hj := by
    rw [conclusion?_eq_some, stage?_setStage] at hj
    split at hj
    next => exact hsettled c (Option.some.inj hj)
    next => exact h.settled j c (conclusion?_eq_some.2 hj)
  exists_root := by
    rw [size_setStage]
    exact h.exists_root

/-- A job is at work. -/
theorem activate (h : s.Carries A C) (id : JobId) : (s.setStage id .active).Carries A C := by
  refine h.setStage .active ?_ ?_ ?_
  · intro job heq
    cases heq
  · intro run wait alarm heq
    cases heq
  · intro c heq
    cases heq

/-- A job waits. -/
theorem park (h : s.Carries A C) {run : Run P} {await : Await} (hrun : A id (.wait run await))
    {wait : Wait} (hoffers : wait.Offers C) (alarm : Option Place) :
    (s.setStage id (.waiting run wait alarm)).Carries A C := by
  refine h.setStage (.waiting run wait alarm) ?_ ?_ ?_
  · intro job heq
    cases heq
  · intro run' wait' alarm' heq
    cases heq
    exact ⟨⟨await, hrun⟩, hoffers⟩
  · intro c heq
    cases heq

/-- A job is over. -/
theorem conclude (h : s.Carries A C) {c : Conclusion} (hc : C c) :
    (s.setStage id (.settled c)).Carries A C := by
  refine h.setStage (.settled c) ?_ ?_ ?_
  · intro job heq
    cases heq
  · intro run wait alarm heq
    cases heq
  · intro c' heq
    cases heq
    exact hc

/-- Jobs are planned. -/
theorem planAll (h : s.Carries A C) (now : Nat) (parent : JobId) (jobs : List Job) :
    (s.planAll now parent jobs).2.Carries A C where
  planned j job hj := by
    rcases stage?_planAll_cases now parent jobs hj with hj | ⟨hle, -⟩
    · exact h.planned j job hj
    · exact Nat.ne_of_gt (Nat.lt_of_lt_of_le h.exists_root hle)
  waiting j run wait alarm hj := by
    rcases stage?_planAll_cases now parent jobs hj with hj | ⟨-, job, hplanned⟩
    · exact h.waiting j run wait alarm hj
    · cases hplanned
  settled j c hj := by
    rcases stage?_planAll_cases now parent jobs (conclusion?_eq_some.1 hj) with hj | ⟨-, job, hplanned⟩
    · exact h.settled j c (conclusion?_eq_some.2 hj)
    · cases hplanned
  exists_root := by
    have hroot := h.exists_root
    clear h
    induction jobs generalizing s with
    | nil => exact hroot
    | cons job jobs ih =>
      rw [planAll_cons]
      refine ih ?_
      rw [size_plan]
      exact Nat.lt_succ_of_lt hroot

/-- What is found when a wait is looked at. -/
theorem offers (h : s.Carries A C) {wait : Wait} (hoffers : wait.Offers C) (now : Nat) :
    (∀ wake, wait.look s.conclusion? now = .inl wake → ∀ c, wake = .settled c → C c) ∧
      ∀ wait', wait.look s.conclusion? now = .inr wait' → wait'.Offers C := by
  constructor
  · rintro wake hlook c rfl
    exact hoffers c (Wait.comes_of_look h.settled hlook)
  · intro wait' hlook c hcomes
    exact hoffers c ((Wait.left_of_look hlook).comes h.settled hcomes)

end Carries

end Schedule

namespace Engine.Carries

variable {root : NodeId} {memo : Memo} {scope : Scope} {shared : P.Shared} {s : Schedule P}
  {id : JobId}

/-- **A job looks at its wait,** and goes on or waits. -/
theorem attend (h : E.Carries root memo scope shared A C) (hs : s.Carries A C) {run : Run P}
    {await : Await} (hrun : A id (.wait run await)) {wait : Wait} (hoffers : wait.Offers C)
    (alarm : Option Place) (world : World P) :
    (s.attend id run wait alarm world).Carries A C ∧
      ∀ j next, (s.attend id run wait alarm world).focus = .job j next → A j next := by
  obtain ⟨hover, hleft⟩ := hs.offers hoffers world.clock
  unfold Schedule.attend
  split
  next wake hwake =>
    refine ⟨hs.of_jobs rfl, fun j next hj => ?_⟩
    cases hj
    exact h.wake id run await world wake hrun (hover wake hwake)
  next wait' hwait =>
    have hpark := hs.park hrun (hleft wait' hwait) alarm
    refine ⟨hpark.of_jobs rfl, fun j next hj => ?_⟩
    cases hj

/-- **A wait begins:** its jobs are planned, and then it is looked at. -/
theorem suspend (h : E.Carries root memo scope shared A C) (hgets : E.GetsTo root memo scope shared s)
    (hs : s.Carries A C) {run : Run P} {await : Await} (hfocus : s.focus = .job id (.wait run await))
    (hrun : A id (.wait run await)) :
    (s.suspend id run await).Carries A C ∧
      ∀ j next, (s.suspend id run await).focus = .job j next → A j next := by
  have ht := hs.planAll run.world.clock id await.jobs
  have htimer : ∀ ms c, await ≠ .timer ms (.settled c) := by
    rintro ms c rfl
    exact h.timer s id run ms c hgets hfocus
  have hoffers := Await.offers_toWait h.gather htimer run.world.clock
    (s.planAll run.world.clock id await.jobs).1
  have hsuspends := s.suspends id run await
  generalize s.suspend id run await = s' at hsuspends ⊢
  generalize (s.planAll run.world.clock id await.jobs).2 = t at ht hsuspends
  obtain ⟨hover, hleft⟩ := ht.offers hoffers run.world.clock
  cases hsuspends with
  | @ends wake hwake =>
    refine ⟨ht.of_jobs rfl, fun j next hj => ?_⟩
    cases hj
    exact h.wake id run await _ wake hrun (hover wake hwake)
  | @waits wait' hwait =>
    have hpark := ht.park hrun (hleft wait' hwait) (wait'.alarm id t.agenda).1
    refine ⟨hpark.of_jobs rfl, fun j next hj => ?_⟩
    cases hj

/-- **A step carries it along.** -/
theorem step (h : E.Carries root memo scope shared A C) (hgets : E.GetsTo root memo scope shared s)
    (hs : s.Carries A C) (hfocus : ∀ id next, s.focus = .job id next → A id next) {s' : Schedule P}
    (hstep : s.step E = .going s') :
    s'.Carries A C ∧ ∀ id next, s'.focus = .job id next → A id next := by
  cases Schedule.steps hstep with
  | @resumes id run input heq =>
    refine ⟨hs.of_jobs rfl, fun j next hj => ?_⟩
    cases hj
    exact h.turn id run input (hfocus id _ heq)
  | suspends heq => exact h.suspend hgets hs heq (hfocus _ _ heq)
  | @settles id o heq hroot =>
    have hconclude : (s.setStage id (.settled o.conclusion)).Carries A C :=
      hs.conclude (h.finish s id o hgets heq hroot (hfocus id _ heq))
    refine ⟨hconclude.of_jobs rfl, fun j next hj => ?_⟩
    cases hj
  | proceeds _ hproceed =>
    obtain ⟨place, id, -, hproceeds⟩ := Schedule.exists_proceeds hproceed
    have hs' : ({ s with agenda := s.agenda.remove place } : Schedule P).Carries A C := hs.of_jobs rfl
    cases hproceeds with
    | @begins job hstage =>
      refine ⟨(hs'.activate id).of_jobs rfl, fun j next hj => ?_⟩
      cases hj
      exact h.begins id job _ (hs.planned id job hstage)
    | @looks run wait alarm hstage =>
      obtain ⟨⟨await, hrun⟩, hoffers⟩ := hs.waiting id run wait alarm hstage
      exact h.attend (hs'.activate id) hrun hoffers alarm _
    | skips _ _ =>
      refine ⟨hs'.of_jobs rfl, fun j next hj => ?_⟩
      cases hj

/-- **All that an evaluation attends to carries it,** by induction on the steps. -/
theorem attends (h : E.Carries root memo scope shared A C)
    (hgets : E.GetsTo root memo scope shared s) {next : Next P} (hfocus : s.focus = .job id next) :
    A id next := by
  have hall : s.Carries A C ∧ ∀ id next, s.focus = .job id next → A id next := by
    clear hfocus
    induction hgets with
    | refl =>
      refine ⟨⟨fun j job hj => ?_, fun j run wait alarm hj => ?_, fun j c hj => ?_, Nat.zero_lt_one⟩,
        fun j next hj => ?_⟩
      · cases Nat.lt_one_iff.1 (Schedule.lt_size_of_stage? hj)
        cases hj
      · cases Nat.lt_one_iff.1 (Schedule.lt_size_of_stage? hj)
        cases hj
      · have hstage := Schedule.conclusion?_eq_some.1 hj
        cases Nat.lt_one_iff.1 (Schedule.lt_size_of_stage? hstage)
        cases hstage
      · cases hj
        exact h.start
    | tail hgets hstep ih => exact h.step hgets ih.1 ih.2 hstep
  exact hall.2 id next hfocus

/-- **What a fold ends with** carries it. -/
theorem evaluates (h : E.Carries root memo scope shared A C) {fuel : Nat}
    {o : Outcome P} (ho : E.evaluate? fuel root memo scope shared = some o) :
    A Schedule.root (.finish o) := by
  have hfollow : ∀ fuel (s : Schedule P), E.GetsTo root memo scope shared s →
      s.follow E fuel = some o → A Schedule.root (.finish o) := by
    intro fuel
    induction fuel with
    | zero => exact fun s _ ho => by cases ho
    | succ fuel ih =>
      intro s hgets ho
      unfold Schedule.follow at ho
      split at ho
      next s' hstep => exact ih s' (hgets.tail hstep) ho
      next o' hstep =>
        cases ho
        exact h.attends hgets (Schedule.focus_of_ended hstep)
      next => cases ho
  exact hfollow fuel _ .refl ho

end Engine.Carries

end ProgramGraph
