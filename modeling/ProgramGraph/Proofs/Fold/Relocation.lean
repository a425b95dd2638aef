import ProgramGraph.Proofs.Fold.Basic
import ProgramGraph.Proofs.Passage.Await
import ProgramGraph.Proofs.Passage.Guest
/-!
# Evaluations elsewhere

A job carries its bindings with it as one frame, and is evaluated among other jobs, after
some time has passed, with data of the plug-ins that others have changed. None of that shows
in what comes of it: it settles as its node ends by itself, at the time 0 and with nothing
else on the schedule, under the scope that the job was made in with its own bindings as one
more frame (`Engine.relocates`). The jobs that it asks for are such jobs again.

Nothing is assumed of the graph, which may have cycles, nor of the limits. What comes first
where two things happen at one time is the same in both places.
-/

namespace ProgramGraph

open Relation

variable {P : Plugins} {E : Engine P} {root node : NodeId} {memo : Memo} {scope s t : Scope}
  {shared shared' : P.Shared}

/-- **An evaluation that ends** takes steps until one ends it. -/
theorem Engine.evaluates_iff {o : Outcome P} : E.Evaluates root memo scope shared o ↔
    ∃ here, E.GetsTo root memo scope shared here ∧ here.step E = .ended o := by
  constructor
  · rintro ⟨fuel, ho⟩
    unfold Engine.evaluate? at ho
    unfold Engine.GetsTo
    generalize Schedule.start _ = here at ho ⊢
    induction fuel generalizing here with
    | zero => cases ho
    | succ fuel ih =>
      unfold Schedule.follow at ho
      split at ho
      next next hstep =>
        obtain ⟨last, hreach, hended⟩ := ih next ho
        exact ⟨last, hreach.head hstep, hended⟩
      next o' hended =>
        cases ho
        exact ⟨here, .refl, hended⟩
      next => cases ho
  · rintro ⟨here, hreach, hended⟩
    have hfollow : ∃ fuel, here.follow E fuel = some o :=
      ⟨1, by simp only [Schedule.follow, hended]⟩
    unfold Engine.GetsTo at hreach
    unfold Engine.Evaluates Engine.evaluate?
    generalize Schedule.start _ = first at hreach ⊢
    induction hreach using ReflTransGen.head_induction_on with
    | refl => exact hfollow
    | head hstep _ ih =>
      obtain ⟨fuel, ho⟩ := ih
      exact ⟨fuel + 1, by simp only [Schedule.follow, hstep]; exact ho⟩

/-- Only the root is in common. -/
def Lodging.ofRoot (lag : Nat) (k : JobId) : Lodging lag :=
  ⟨fun i k' => i = Schedule.root ∧ k' = k, fun _ _ => False⟩

namespace Schedule

/-- **A job of a schedule fares as a node does by itself:** the evaluation of the node is
lodged in the schedule with the job as its root, or it has ended as the job has settled. -/
def Boards (E : Engine P) (node : NodeId) (memo : Memo) (s : Scope) (shared : P.Shared)
    (k : JobId) (here : Schedule P) : Prop :=
  (∃ (lag : Nat) (l : Lodging lag) (g : Schedule P), E.GetsTo node memo s shared g ∧
      l.job Schedule.root k ∧ g.Lodges l here ∧ g.focus.Lodges l here.focus) ∨
    ∃ o, E.Evaluates node memo s shared o ∧ here.conclusion? k = some o.conclusion

variable {here there : Schedule P} {k : JobId}

/-- **A job that has just begun** is all that an evaluation by itself has in common with the
schedule. -/
theorem lodges_start (lag : Nat) (hstage : here.stage? k = some .active) (hnumbered : here.Numbered)
    (hentry : ∀ q, ¬ here.agenda.Has q k) (hchildren : ∀ child, here.parent? child ≠ some k)
    (next : Next P) : (start next).Lodges (Lodging.ofRoot lag k) here where
  stages i k' hjob := by
    obtain ⟨rfl, rfl⟩ := hjob
    exact ⟨.active, .active, rfl, hstage, .active⟩
  unique i k₁ i' k₂ hjob hjob' := by
    obtain ⟨rfl, rfl⟩ := hjob
    obtain ⟨rfl, rfl⟩ := hjob'
    exact ⟨fun _ => rfl, fun _ => rfl⟩
  parents i k' hjob hroot := absurd hjob.1 hroot
  children i k' child hjob hchild := by
    obtain ⟨-, rfl⟩ := hjob
    exact absurd hchild (hchildren child)
  agenda :=
    { issued := Agenda.issued_empty
      hostIssued := hnumbered.issued
      bounds := nofun
      order := nofun
      guest := fun _ _ hp => absurd hp Agenda.not_has_empty
      host := fun q i k' hjob hq => by
        obtain ⟨-, rfl⟩ := hjob
        exact absurd hq (hentry q) }
  numbered := hnumbered

namespace Boards

/-- **It goes on to,** whatever the schedule does next. -/
theorem step (hr : E.registry.Native) (h : Boards E node memo s shared k here) {memo' : Memo}
    (hgets : E.GetsTo root memo' scope shared' here) (hstep : here.step E = .going there) :
    Boards E node memo s shared k there := by
  rcases h with ⟨lag, l, g, hg, hroot, hlodges, hfocus⟩ | ⟨o, ho, hc⟩
  · rcases hlodges.step hr hfocus hg.prompt hgets.prompt hstep with
      ⟨g', hgoes, l', hwithin, hlodges', hfocus'⟩ | ⟨o, k', hended, hk', hc⟩
    · exact .inl ⟨lag, l', g', hg.trans hgoes.to_reflTransGen, hwithin.job _ _ hroot, hlodges', hfocus'⟩
    · obtain rfl := (hlodges.unique _ _ _ _ hroot hk').1 rfl
      exact .inr ⟨o, Engine.evaluates_iff.2 ⟨g, hg, hended⟩, hc⟩
  · exact .inr ⟨o, ho, conclusion?_of_step hgets.prompt.active hc hstep⟩

/-- **What the job settles with** the node ends with. -/
theorem exists_evaluates (h : Boards E node memo s shared k here) {c : Conclusion}
    (hc : here.conclusion? k = some c) :
    ∃ o, E.Evaluates node memo s shared o ∧ o.conclusion = c := by
  rcases h with ⟨lag, l, g, hg, hroot, hlodges, -⟩ | ⟨o, ho, hconclusion⟩
  · -- the root of an evaluation does not settle
    rw [hlodges.conclusion?_eq hroot, conclusion?_eq_some] at hc
    obtain ⟨asked, -, htracks⟩ := exists_tracksFocus (closed_true E memo) trivial trivial hg
    cases hfocus : g.focus with
    | job id next =>
      rw [hfocus] at htracks
      exact absurd rfl (htracks.1.stages _ _ hc).1
    | agenda world =>
      rw [hfocus] at htracks
      exact absurd rfl (htracks.1.stages _ _ hc).1
  · rw [hc] at hconclusion
    exact ⟨o, ho, (Option.some.inj hconclusion).symm⟩

/-- **If it is the fold itself that ends,** the node ends with it. -/
theorem exists_evaluates_of_ended (h : Boards E node memo s shared Schedule.root here) {memo' : Memo}
    (hgets : E.GetsTo root memo' scope shared' here) {o' : Outcome P}
    (hended : here.step E = .ended o') :
    ∃ o, E.Evaluates node memo s shared o ∧ o.conclusion = o'.conclusion ∧
      o.run.memo = o'.run.memo := by
  have hs := focus_of_ended hended
  rcases h with ⟨lag, l, g, hg, hroot, hlodges, hfocus⟩ | ⟨o, -, hc⟩
  · rw [hs] at hfocus
    generalize hgfocus : g.focus = focus at hfocus
    cases hfocus with
    | common hjob hnext =>
      obtain rfl := hlodges.eq_guest hroot hjob
      cases hnext with
      | @finish run _ result tainted hrun =>
        refine ⟨⟨result, tainted, run⟩, Engine.evaluates_iff.2 ⟨g, hg, ?_⟩, ?_, hrun.memo.symm⟩
        · simp only [Schedule.step, hgfocus, if_true]
        · simp only [Outcome.conclusion, hrun.memo]
    | aside world next hout => exact absurd hroot (hout _)
  · have hactive := hgets.prompt.active _ _ hs
    rw [conclusion?_eq_some, hactive] at hc
    cases hc

end Boards

/-- **A job begins** as its node does by itself, under any scope that is alike. -/
theorem planned_or_boards (hr : E.registry.Native) {memo' : Memo}
    (hgets : E.GetsTo root memo' scope shared' here) {job : Job} (hst : s.Alike job.scope)
    (hplanned : here.stage? k = some (.planned job)) (hstep : here.step E = .going there) :
    there.stage? k = some (.planned job) ∨ Boards E job.node .empty s shared k there := by
  have hprompt := hgets.prompt
  have hidle : ∀ next, here.focus ≠ .job k next := fun next hfocus =>
    nomatch (hprompt.active k next hfocus).symm.trans hplanned
  rcases stage?_of_step hstep (lt_size_of_stage? hplanned) hidle with
    hsame | ⟨world, place, hplace, hproceeds⟩
  · exact .inl (hsame.trans hplanned)
  · -- its turn has come, and the entry that it was planned with is taken off
    obtain ⟨hentry, hchildren⟩ := hgets.tidy.fallow k job hplanned
    cases hproceeds with
    | looks hstage => cases hstage.symm.trans hplanned
    | skips hnone _ => exact absurd hplanned (hnone job)
    | begins hstage =>
      cases hstage.symm.trans hplanned
      have hlodges := lodges_start (max world.clock place.time)
        (stage?_setStage_self (s := { here with agenda := here.agenda.remove place }) .active
          (lt_size_of_stage? hplanned))
        ((hgets.tidy.numbered.remove place).setStage k .active)
        (fun q hq => (Agenda.has_remove.1 hq).1 (hentry q place (Agenda.has_remove.1 hq).2 hplace))
        (fun child => by rw [parent?_setStage]; exact hchildren child)
        (Run.begin E { memo := .empty, scope := s, world := { shared } } job.node)
      refine .inr (.inl ⟨_, .ofRoot _ k, _, .refl, ⟨rfl, rfl⟩, hlodges.withFocus _ _,
        .common ⟨rfl, rfl⟩ ?_⟩)
      exact Run.Alike.begin hr hst job.node .empty (Nat.zero_add _).symm

end Schedule

/-! ## Relocation -/

namespace Engine

/-- **Where an evaluation takes place does not matter,** nor how its bindings are spread over
frames. -/
structure Relocates (E : Engine P) : Prop where
  /-- All visible bindings in one frame answer every look-up as the scope does. -/
  snapshot : ∀ (s : Scope) (p : ParamId), (Scope.ofBindings s.flatten).lookup? p = s.lookup? p
  /-- An evaluation depends on its scope by look-ups only: under a scope that is alike it
  ends as well, with the same conclusion and the same memo. -/
  alike : ∀ (root : NodeId) (memo : Memo) (s t : Scope) (shared shared' : P.Shared) (o : Outcome P),
    s.Alike t → E.Evaluates root memo s shared o →
    ∃ o', E.Evaluates root memo t shared' o' ∧ o'.conclusion = o.conclusion ∧
      o'.run.memo = o.run.memo
  /-- So a job ends by itself as its node does under the scope that it was made in, with its
  own bindings as one more frame. -/
  detached : ∀ (cx : Context) (id : NodeId) (bindings : Bindings) (shared shared' : P.Shared)
    (c : Conclusion),
    (∃ o, E.Evaluates id .empty (cx.job id bindings).scope shared o ∧ o.conclusion = c) ↔
      ∃ o, E.Evaluates id .empty (cx.scope.push bindings) shared' o ∧ o.conclusion = c
  /-- Jobs that are asked for, at whatever depth, are made in the scope of the run that asks
  for them. -/
  spawned : ∀ (root : NodeId) (memo : Memo) (scope : Scope) (shared : P.Shared) (s : Schedule P)
    (k : JobId) (r : Run P) (await : Await), E.GetsTo root memo scope shared s →
    s.focus = .job k (.wait r await) → ∀ job ∈ await.jobs, ∃ node id bindings,
      job = Context.job ⟨node, r.scope⟩ id bindings
  /-- Among all others, each of them settles as its node ends by itself under that scope, at
  the time 0 and with nothing else on the schedule. -/
  settles : ∀ (root : NodeId) (memo : Memo) (scope : Scope) (shared : P.Shared) (s s' : Schedule P)
    (k : JobId) (r : Run P) (await : Await) (i : Nat) (node id : NodeId) (bindings : Bindings)
    (c : Conclusion), E.GetsTo root memo scope shared s → s.focus = .job k (.wait r await) →
    await.jobs[i]? = some (Context.job ⟨node, r.scope⟩ id bindings) →
    ReflTransGen (Schedule.Goes E) s s' → s'.conclusion? (s.jobs.size + i) = some c →
    ∀ shared', ∃ o, E.Evaluates id .empty (r.scope.push bindings) shared' o ∧ o.conclusion = c

/-- **An evaluation under a scope that is alike** ends alike. -/
theorem Evaluates.exists_alike (hr : E.registry.Native) (hst : s.Alike t) {o : Outcome P}
    (h : E.Evaluates root memo s shared o) (shared' : P.Shared) :
    ∃ o', E.Evaluates root memo t shared' o' ∧ o'.conclusion = o.conclusion ∧
      o'.run.memo = o.run.memo := by
  obtain ⟨here, hgets, hended⟩ := evaluates_iff.1 h
  have hboards : Schedule.Boards E root memo t shared' Schedule.root here := by
    clear hended
    induction hgets with
    | refl =>
      have htidy := Schedule.Tidy.start (Run.begin E { memo, scope := s, world := { shared } } root)
      have hlodges := Schedule.lodges_start (k := Schedule.root) 0 rfl htidy.numbered
        (fun _ => Agenda.not_has_empty) (fun child hchild => ?_)
        (Run.begin E { memo, scope := t, world := { shared := shared' } } root)
      · refine .inl ⟨0, .ofRoot 0 Schedule.root, _, .refl, ⟨rfl, rfl⟩, hlodges, .common ⟨rfl, rfl⟩ ?_⟩
        exact Run.Alike.begin hr hst.symm root memo rfl
      · cases Nat.lt_one_iff.1 (Schedule.lt_size_of_parent? hchild)
        cases hchild
    | tail hgets hstep ih => exact ih.step hr hgets hstep
  exact hboards.exists_evaluates_of_ended hgets hended

/-- **A job of a schedule settles as its node ends** under any scope that is alike. -/
theorem GetsTo.exists_evaluates_of_planned (hr : E.registry.Native)
    {here there : Schedule P} {k : JobId} {job : Job} {c : Conclusion}
    (hgets : E.GetsTo root memo scope shared here) (hst : s.Alike job.scope)
    (hplanned : here.stage? k = some (.planned job))
    (hgoes : ReflTransGen (Schedule.Goes E) here there) (hc : there.conclusion? k = some c)
    (shared' : P.Shared) : ∃ o, E.Evaluates job.node .empty s shared' o ∧ o.conclusion = c := by
  have hboards : there.stage? k = some (.planned job) ∨
      Schedule.Boards E job.node .empty s shared' k there := by
    clear hc
    induction hgoes with
    | refl => exact .inl hplanned
    | tail hgoes hstep ih =>
      have hgets' := hgets.trans hgoes
      rcases ih with hplanned' | hboards
      · exact Schedule.planned_or_boards hr hgets' hst hplanned' hstep
      · exact .inr (hboards.step hr hgets' hstep)
  rcases hboards with hplanned' | hboards
  · rw [Schedule.conclusion?_eq_some, hplanned'] at hc
    cases hc
  · exact hboards.exists_evaluates hc

/-- **Evaluations take place anywhere,** in every graph, cyclic or not, and within any
limits. -/
theorem relocates (hr : E.registry.Native) : E.Relocates where
  snapshot s := Scope.alike_ofBindings_flatten s
  alike root memo s t shared shared' o hst h := h.exists_alike hr hst shared'
  detached cx node bindings shared shared' c := by
    have halike := cx.alike_job node bindings
    constructor
    · rintro ⟨o, ho, rfl⟩
      obtain ⟨o', ho', hconclusion, -⟩ := ho.exists_alike hr halike shared'
      exact ⟨o', ho', hconclusion⟩
    · rintro ⟨o, ho, rfl⟩
      obtain ⟨o', ho', hconclusion, -⟩ := ho.exists_alike hr halike.symm shared
      exact ⟨o', ho', hconclusion⟩
  spawned root memo scope shared s k r await hgets hfocus := by
    obtain ⟨m, job, world, -, hreach⟩ := Schedule.exists_mayReach hgets hfocus
    exact hreach.exists_job_of_wait hr
  settles root memo scope shared s s' k r await i node id bindings c hgets hfocus hjob hgoes hc
      shared' := by
    have hk := Schedule.lt_size_of_stage? (hgets.prompt.active k _ hfocus)
    rcases hgoes.cases_head with rfl | ⟨s₁, hstep, hgoes⟩
    · -- it is about to be planned
      have hsize := Schedule.lt_size_of_stage? (Schedule.conclusion?_eq_some.1 hc)
      exact absurd hsize (Nat.not_lt.2 (Nat.le_add_right _ _))
    · have hgoes₁ : s.step E = .going s₁ := hstep
      simp only [Schedule.step, hfocus] at hgoes₁
      cases hgoes₁
      have hgets₁ : E.GetsTo root memo scope shared (s.suspend k r await) := hgets.tail hstep
      exact hgets₁.exists_evaluates_of_planned hr (Context.alike_job ⟨node, r.scope⟩ id bindings).symm
        (Schedule.stage?_suspend_of_getElem? hk r hjob) hgoes hc shared'

end Engine

/-! ## A race for a parameter -/

/-- A parameter, and a race for it. -/
def Graph.hearsay : Graph := ⟨#[Node.ofParam ⟨0⟩, ⟨Tag.race, .args [⟨0⟩]⟩]⟩

/-- Two frames that bind a parameter twice each. -/
def Scope.babel : Scope :=
  (empty.push [(⟨0⟩, .nat 1), (⟨0⟩, .nat 2)]).push [(⟨0⟩, .nat 3), (⟨0⟩, .nat 4)]

namespace Engine

/-- The race asks for one job, which looks the parameter up and settles. -/
theorem exists_settled_hearsay :
    let E : Engine .none := ⟨.hearsay, .standard, {}⟩
    let job := Context.job ⟨⟨1⟩, .babel⟩ ⟨0⟩ []
    ∃ (s s' : Schedule .none) (r : Run .none) (c : Conclusion),
      E.GetsTo ⟨1⟩ .empty .babel () s ∧ s.focus = .job Schedule.root (.wait r (.first job [])) ∧
      r.scope = .babel ∧ s.jobs.size = 1 ∧ ReflTransGen (Schedule.Goes E) s s' ∧
      s'.conclusion? 1 = some c ∧ c.result = .ok (.nat 4) := by
  intro E job
  have hget : E.registry.get Tag.race = .ok ⟨.builtin .race, true⟩ := by cbv
  have hrace : E.Starts ⟨1⟩ (.race ⟨⟨0⟩, []⟩) true := ⟨_, _, _, rfl, rfl, hget, rfl, rfl, rfl⟩
  let started : Run .none := Run.note
    { memo := Memo.empty.mapTally fun tally => tally.countStart.reachDepth 1
      scope := .babel
      frames := Stack.empty.push ⟨⟨1⟩, .builtin (.race ⟨⟨0⟩, []⟩), true, false, 2, false⟩
      world := { shared := () } } (.started ⟨1⟩ false true)
  let resumed := started.countTurn.note (.resumed ⟨1⟩ .start)
  let s : Schedule .none :=
    { Schedule.start (.resume started .start) with
      focus := .job Schedule.root (.wait resumed (.first job [])) }
  have hgets : E.GetsTo ⟨1⟩ .empty .babel () s := by
    have hbegin : Run.begin E { scope := .babel, world := { shared := () } } ⟨1⟩ =
        .resume started .start := hrace.visit (Memo.kept?_empty ⟨1⟩)
    have hturn : started.turn E .start = .wait resumed (.first job []) :=
      (Run.turn_of_steady rfl rfl rfl rfl).trans rfl
    unfold GetsTo
    rw [hbegin]
    exact .single (congrArg (fun next => Progress.going { Schedule.start (.resume started .start) with
      focus := .job Schedule.root next }) hturn)
  -- the entry of the job is the only one
  let s₁ := s.suspend Schedule.root resumed (.first job [])
  have hnext : s₁.agenda.next? = some ((⟨0, 0⟩, 1), s₁.agenda.remove ⟨0, 0⟩) := by
    refine Agenda.next?_of_isLE (Agenda.has_add_self Agenda.issued_empty 0) fun place j hplace => ?_
    rcases (Agenda.has_add Agenda.issued_empty 0).1 hplace with ⟨rfl, -⟩ | hplace
    · exact Std.ReflOrd.isLE_rfl
    · exact absurd hplace Agenda.not_has_empty
  have hstage : ({ s₁ with agenda := s₁.agenda.remove ⟨0, 0⟩ } : Schedule .none).stage? 1 =
      some (.planned job) := rfl
  have hproceeds : s₁.step E = s₁.proceed E resumed.world := rfl
  simp only [Schedule.proceed, hnext, hstage] at hproceeds
  obtain ⟨s₂, o, hbegins, hfocus, hsize, hvalue⟩ : ∃ s₂ o, s₁.step E = .going s₂ ∧
      s₂.focus = .job 1 (.finish o) ∧ 1 < s₂.jobs.size ∧ o.result = .ok (.nat 4) :=
    ⟨_, _, hproceeds, rfl, by decide, rfl⟩
  have hsettles : Schedule.Goes E s₂ (s₂.settle 1 o) := by
    simp only [Schedule.Goes, Schedule.step, hfocus]
    rfl
  have hc : (s₂.settle 1 o).conclusion? 1 = some o.conclusion :=
    Schedule.conclusion?_eq_some.2 (Schedule.stage?_setStage_self _ hsize)
  exact ⟨s, _, resumed, _, hgets, rfl, rfl, rfl, .head (b := s₁) rfl (.head hbegins (.single hsettles)),
    hc, hvalue⟩

/-- **So the parameter comes to the same by itself,** under the two frames and an empty
one. -/
theorem relocates_hearsay :
    let E : Engine .none := ⟨.hearsay, .standard, {}⟩
    E.registry.Native ∧ E.Relocates ∧ ∃ o, E.Evaluates ⟨0⟩ .empty (Scope.babel.push []) () o ∧
      o.result = .ok (.nat 4) := by
  intro E
  have hnative : E.registry.Native := Registry.native_standard
  have hrelocates := relocates hnative
  obtain ⟨s, s', r, c, hgets, hfocus, hscope, hsize, hgoes, hc, hvalue⟩ := exists_settled_hearsay
  have hjob : (Await.first (Context.job ⟨⟨1⟩, .babel⟩ ⟨0⟩ []) []).jobs[0]? =
      some (Context.job ⟨⟨1⟩, r.scope⟩ ⟨0⟩ []) := by
    rw [hscope]
    rfl
  have hsettled : s'.conclusion? (s.jobs.size + 0) = some c := by
    rw [hsize]
    exact hc
  obtain ⟨o, ho, hconclusion⟩ := hrelocates.settles ⟨1⟩ .empty .babel () s s' Schedule.root r _ 0 ⟨1⟩ ⟨0⟩
    [] c hgets hfocus hjob hgoes hsettled ()
  rw [hscope] at ho
  exact ⟨hnative, hrelocates, o, ho, (congrArg Conclusion.result hconclusion).trans hvalue⟩

end Engine

end ProgramGraph
