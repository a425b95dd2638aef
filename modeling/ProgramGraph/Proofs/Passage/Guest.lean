import ProgramGraph.Proofs.Passage.Carry
import ProgramGraph.Proofs.Passage.Lodge
import ProgramGraph.Proofs.Transcript.Punctual
/-!
# A guest keeps pace with its host

If a schedule is lodged in another, it goes on to be. Whenever the host attends to a common
job, the guest takes the same step; whenever the host attends to a job of its own, the guest
stays where it is. So when the root of the guest has come to an end, it has done so in the
host with the same conclusion (`Schedule.Lodges.step`).

Nothing that other jobs do matters to the common ones: not how many there are, not what they
wait for, not whether they have ended.
-/

namespace ProgramGraph

open Relation

variable {P : Plugins} {E : Engine P} {lag : Nat}

/-- **What guest and host attend to.** While the host attends to a job of its own, the guest
is between two jobs. -/
inductive Focus.Lodges (l : Lodging lag) : Focus P → Focus P → Prop
  | common {i k : JobId} {next next' : Next P} : l.job i k → next.Alike lag next' →
    Lodges l (.job i next) (.job k next')
  | aside {k : JobId} (world : World P) (next : Next P) : l.Outside k →
    Lodges l (.agenda world) (.job k next)
  | between (world world' : World P) : Lodges l (.agenda world) (.agenda world')

namespace Schedule

/-- **The guest is still lodged in the host,** and attends to the same. -/
def StillLodges (l : Lodging lag) (g s : Schedule P) : Prop :=
  ∃ l', l.Within l' ∧ g.Lodges l' s ∧ g.focus.Lodges l' s.focus

namespace Lodges

variable {l : Lodging lag} {g s s' : Schedule P} {i k : JobId} {run run' : Run P} {wait wait' : Wait}
  {alarm alarm' : Option Place}

/-! ## What a common job does -/

/-- **A common job looks at its wait,** and goes on or waits. -/
theorem attend (h : g.Lodges l s) (hjob : l.job i k) (hrun : run.Alike lag run')
    (hwait : wait.Lodges l wait') (halarm : Option.Rel l.Place alarm alarm') {world world' : World P}
    (hclock : world'.clock = world.clock + lag) :
    StillLodges l (g.attend i run wait alarm world) (s.attend k run' wait' alarm' world') := by
  refine ⟨l, .refl l, ?_⟩
  unfold Schedule.attend
  rw [hclock]
  rcases hwait.look (fun _ _ => h.conclusion?_eq) world.clock with
    ⟨wake, hlook, hlook'⟩ | ⟨left, left', hlook, hlook', hleft⟩
  · simp only [hlook, hlook']
    refine ⟨?_, .common hjob (hrun.wake hclock wake)⟩
    cases halarm with
    | none => exact h.withFocus _ _
    | some hplace =>
      exact (h.withAgenda (.refl l) (fun _ _ hjob => hjob) (h.agenda.remove hplace)
        (h.numbered.remove _)).withFocus _ _
  · simp only [hlook, hlook']
    exact ⟨(h.setStage hjob (.waiting hrun hleft halarm)).withFocus _ _, .between _ _⟩

/-- The time of a wait is put on both agendas. -/
theorem exists_alarm (h : g.Lodges l s) (hjob : l.job i k) (hwait : wait.Lodges l wait') :
    ∃ l', l.Within l' ∧ Option.Rel l'.Place (wait.alarm i g.agenda).1 (wait'.alarm k s.agenda).1 ∧
      Lodges l' { g with agenda := (wait.alarm i g.agenda).2 }
        { s with agenda := (wait'.alarm k s.agenda).2 } := by
  unfold Wait.alarm
  rw [hwait.due?]
  cases wait.due? with
  | none => exact ⟨l, .refl l, .none, h⟩
  | some due =>
    obtain ⟨l', hwithin, hplace, hadded⟩ := h.add hjob due
    exact ⟨l', hwithin, .some hplace, hadded⟩

/-- A second look is put on both agendas. -/
theorem exists_secondLook (h : g.Lodges l s) (hjob : l.job i k) (hwait : wait.Lodges l wait')
    (now : Nat) :
    ∃ l', l.Within l' ∧ Lodges l' { g with agenda := wait.secondLook now i g.agenda }
      { s with agenda := wait'.secondLook (now + lag) k s.agenda } := by
  unfold Wait.secondLook
  rw [hwait.isLarge]
  split
  · obtain ⟨l', hwithin, -, hadded⟩ := h.add hjob now
    exact ⟨l', hwithin, hadded⟩
  · exact ⟨l, .refl l, h⟩

/-- **A common job begins to wait.** -/
theorem suspend (h : g.Lodges l s) (hjob : l.job i k) (hrun : run.Alike lag run')
    {await await' : Await} (hawait : await.Matches await') :
    StillLodges l (g.suspend i run await) (s.suspend k run' await') := by
  obtain ⟨l₁, hwithin, hids, hplanned⟩ := h.planAll hjob hawait.jobs run.world.clock
  have hlength : (g.planAll run.world.clock i await.jobs).1.length = await.jobs.length := by
    rw [planAll_ids, List.length_range']
  have hwait := hawait.lodges_toWait hids hlength run.world.clock
  have hjob₁ := hwithin.job i k hjob
  unfold Schedule.suspend
  dsimp only
  rw [arrange_eq, arrange_eq, hrun.clock]
  dsimp only
  generalize (g.planAll run.world.clock i await.jobs).2 = g₁ at hplanned
  generalize (s.planAll (run.world.clock + lag) k await'.jobs).2 = s₁ at hplanned
  rcases hwait.look (fun _ _ => hplanned.conclusion?_eq) run.world.clock with
    ⟨wake, hlook, hlook'⟩ | ⟨left, left', hlook, hlook', hleft⟩
  · simp only [hlook, hlook']
    exact ⟨l₁, hwithin, hplanned.withFocus _ _, .common hjob₁ (hrun.wake hrun.clock wake)⟩
  · simp only [hlook, hlook']
    obtain ⟨l₂, hwithin₂, halarm, hlodges₂⟩ := hplanned.exists_alarm hjob₁ hleft
    have hjob₂ := hwithin₂.job i k hjob₁
    have hleft₂ := hleft.mono hwithin₂
    obtain ⟨l₃, hwithin₃, hlodges₃⟩ := hlodges₂.exists_secondLook hjob₂ hleft₂ run.world.clock
    have hstage := Stage.Lodges.waiting hrun hleft₂ halarm
    refine ⟨l₃, (hwithin.trans hwithin₂).trans hwithin₃, ?_, .between _ _⟩
    exact (hlodges₃.setStage (hwithin₃.job i k hjob₂) (hstage.mono hwithin₃)).withFocus _ _

/-- **A common job settles,** and whoever asked for it is told. -/
theorem settle (h : g.Lodges l s) (hjob : l.job i k) (hi : i ≠ root) {o o' : Outcome P}
    (hrun : o.run.Alike lag o'.run) (hconclusion : o'.conclusion = o.conclusion) :
    StillLodges l (g.settle i o) (s.settle k o') := by
  obtain ⟨i', k', hparent, hparent', hjob'⟩ := h.parents i k hjob hi
  have hsettled := h.setStage hjob (.settled o.conclusion)
  obtain ⟨l', hwithin, -, hadded⟩ := hsettled.add hjob' o.run.world.clock
  refine ⟨l', hwithin, ?_, ?_⟩
  · have hasked : g.jobs[i]?.bind ScheduledJob.parent = some i' := hparent
    have hasked' : s.jobs[k]?.bind ScheduledJob.parent = some k' := hparent'
    simp only [Schedule.settle, hasked, hasked', hconclusion, hrun.clock]
    exact hadded.withFocus _ _
  · exact .between _ _

/-! ## What a job of the host does -/

variable {world : World P}

/-- The guest stays where it is while the host attends to a job of its own. -/
theorem stillLodges_aside (h : g.Lodges l s) (hfocus : g.focus = .agenda world) (hout : l.Outside k)
    (next : Next P) : StillLodges l g { s with focus := .job k next } := by
  refine ⟨l, .refl l, h.withFocus g.focus _, ?_⟩
  rw [hfocus]
  exact .aside world next hout

theorem stillLodges_between (h : g.Lodges l s) (hfocus : g.focus = .agenda world)
    (world' : World P) : StillLodges l g { s with focus := .agenda world' } := by
  refine ⟨l, .refl l, h.withFocus g.focus _, ?_⟩
  rw [hfocus]
  exact .between world world'

/-- **A job of the host looks at its wait.** -/
theorem hostAttend (h : g.Lodges l s) (hfocus : g.focus = .agenda world) (hout : l.Outside k)
    (hown : ∀ place ∈ alarm, ∀ j, s.agenda.Has place j → j = k) (world' : World P) :
    StillLodges l g (s.attend k run wait alarm world') := by
  unfold Schedule.attend
  split
  next wake _ =>
    cases alarm with
    | none => exact h.stillLodges_aside hfocus hout _
    | some place =>
      have hremoved : g.agenda.Lodges l (s.agenda.remove place) := by
        refine h.agenda.hostRemove fun j hj => ?_
        rw [hown place rfl j hj]
        exact hout
      exact (h.hostWithAgenda hremoved (h.numbered.remove place)).stillLodges_aside hfocus hout _
  next left _ =>
    exact (h.hostSetStage hout (.waiting run left alarm)).stillLodges_between hfocus _

/-- **A job of the host begins to wait.** -/
theorem hostSuspend (h : g.Lodges l s) (hfocus : g.focus = .agenda world) (hout : l.Outside k)
    (hk : k < s.jobs.size) (run : Run P) (await : Await) :
    StillLodges l g (s.suspend k run await) := by
  have hplanned := h.hostPlanAll hout hk run.world.clock await.jobs
  have hsize : k < (s.planAll run.world.clock k await.jobs).2.jobs.size := by
    rw [size_planAll]
    exact Nat.lt_of_lt_of_le hk (Nat.le_add_right _ _)
  have hsuspends := s.suspends k run await
  generalize s.suspend k run await = s' at hsuspends ⊢
  generalize (s.planAll run.world.clock k await.jobs).2 = t at hplanned hsize hsuspends
  cases hsuspends with
  | ends _ => exact hplanned.stillLodges_aside hfocus hout _
  | @waits left _ =>
    have hlook := left.agenda_induction (motive := fun b => Lodges l g { t with agenda := b })
      run.world.clock k hplanned fun _ time hb => hb.hostAdd hout hsize time
    exact (hlook.hostSetStage hout (.waiting run left _)).stillLodges_between hfocus _

/-- **A job of the host settles.** Whoever asked for it is the host's own. -/
theorem hostSettle (h : g.Lodges l s) (hfocus : g.focus = .agenda world) (hout : l.Outside k)
    (o : Outcome P) : StillLodges l g (s.settle k o) := by
  have hsettled := h.hostSetStage hout (.settled o.conclusion)
  unfold Schedule.settle
  dsimp only
  split
  next parent hparent =>
    have hasked : s.parent? k = some parent := hparent
    have houtside : l.Outside parent := fun i hjob => by
      obtain ⟨i', hi'⟩ := h.children i parent k hjob hasked
      exact hout i' hi'
    have hsize : parent < (s.setStage k (.settled o.conclusion)).jobs.size := by
      rw [size_setStage]
      exact h.numbered.parents k parent hasked
    exact (hsettled.hostAdd houtside hsize _).stillLodges_between hfocus _
  next => exact hsettled.stillLodges_between hfocus _

end Lodges

/-! ## Steps -/

/-- **The schedule is on time:** the job that is attended to is active, no entry is late, and
the place that is kept for the time of a wait is nobody else's. -/
structure Prompt (s : Schedule P) : Prop where
  active : ∀ id next, s.focus = .job id next → s.stage? id = some .active
  due : ∀ world, s.focus = .agenda world → ∀ place id, s.agenda.Has place id →
    world.clock ≤ place.time
  own : ∀ id run wait alarm, s.stage? id = some (.waiting run wait alarm) → ∀ place ∈ alarm,
    ∀ j, s.agenda.Has place j → j = id

/-- **The guest follows the host:** it is still lodged there, or it has come to an end that is
known in the host. -/
def Follows (E : Engine P) (l : Lodging lag) (g s' : Schedule P) : Prop :=
  (∃ g', ReflGen (Goes E) g g' ∧ StillLodges l g' s') ∨
    ∃ o k, g.step E = .ended o ∧ l.job root k ∧ s'.conclusion? k = some o.conclusion

namespace Lodges

variable {l : Lodging lag} {g s s' : Schedule P} {i k : JobId}

/-- **The host attends to a common job.** -/
theorem step_common (hr : E.registry.Native) (h : g.Lodges l s) (hjob : l.job i k)
    {next next' : Next P} (hnext : next.Alike lag next') (hg : g.focus = .job i next)
    (hs : s.focus = .job k next') (hstep : s.step E = .going s') : Follows E l g s' := by
  cases hnext with
  | resume input hrun =>
    simp only [Schedule.step, hs] at hstep
    cases hstep
    refine .inl ⟨_, .single (by simp only [Goes, Schedule.step, hg]), l, .refl l,
      h.withFocus _ _, .common hjob (hrun.turn hr input)⟩
  | wait hrun hawait =>
    simp only [Schedule.step, hs] at hstep
    cases hstep
    exact .inl ⟨_, .single (by simp only [Goes, Schedule.step, hg]), h.suspend hjob hrun hawait⟩
  | @finish run run' result tainted hrun =>
    have hconclusion : Outcome.conclusion ⟨result, tainted, run'⟩ =
        Outcome.conclusion ⟨result, tainted, run⟩ := by
      simp only [Outcome.conclusion, hrun.memo]
    simp only [Schedule.step, hs] at hstep
    split at hstep
    next => cases hstep
    next =>
      cases hstep
      by_cases hi : i = root
      · obtain rfl := hi
        refine .inr ⟨_, k, by simp only [Schedule.step, hg, if_true]; rfl, hjob, ?_⟩
        rw [← hconclusion]
        exact conclusion?_eq_some.2 (stage?_setStage_self _ (h.lt_size hjob).2)
      · exact .inl ⟨_, .single (by simp only [Goes, Schedule.step, hg, if_neg hi]),
          h.settle hjob hi hrun hconclusion⟩

/-- **The host attends to a job of its own.** -/
theorem step_aside (h : g.Lodges l s) {world : World P} (hout : l.Outside k) {next : Next P}
    (hg : g.focus = .agenda world) (hs : s.focus = .job k next) (hprompt : s.Prompt)
    (hstep : s.step E = .going s') : StillLodges l g s' := by
  have hk := lt_size_of_stage? (hprompt.active k next hs)
  cases next with
  | resume run input =>
    simp only [Schedule.step, hs] at hstep
    cases hstep
    exact h.stillLodges_aside hg hout _
  | wait run await =>
    simp only [Schedule.step, hs] at hstep
    cases hstep
    exact h.hostSuspend hg hout hk run await
  | finish o =>
    simp only [Schedule.step, hs] at hstep
    split at hstep
    next => cases hstep
    next =>
      cases hstep
      exact h.hostSettle hg hout o

/-- **The host turns to the next job of its agenda.** If it is a common one, it is next on the
guest's as well, and its time has come in both. -/
theorem step_between (hr : E.registry.Native) (h : g.Lodges l s) {world world' : World P}
    (hg : g.focus = .agenda world) (hs : s.focus = .agenda world') (hgprompt : g.Prompt)
    (hprompt : s.Prompt) (hstep : s.step E = .going s') :
    ∃ g', ReflGen (Goes E) g g' ∧ StillLodges l g' s' := by
  have hturn : s.step E = s.proceed E world' := by simp only [Schedule.step, hs]
  obtain ⟨q, k, hnext, hproceeds⟩ := exists_proceeds (hturn.symm.trans hstep)
  have hq := (Agenda.next?_eq_some hnext).1
  by_cases hcommon : ∃ i, l.job i k
  · obtain ⟨i, hjob⟩ := hcommon
    obtain ⟨p, hplace, hp, hgnext⟩ := h.agenda.next? hnext hjob
    have htime : max world.clock p.time = p.time := Nat.max_eq_right (hgprompt.due world hg p i hp)
    have htime' : max world'.clock q.time = p.time + lag := by
      rw [Nat.max_eq_right (hprompt.due world' hs q k hq), hplace.time]
    have hremoved := h.withAgenda (.refl l) (fun _ _ hjob => hjob) (h.agenda.remove hplace)
      (h.numbered.remove q)
    have hactive := hremoved.setStage hjob .active
    obtain ⟨stage, stage', hi, hk, hstage⟩ := h.stages i k hjob
    have hi' : ({ g with agenda := g.agenda.remove p } : Schedule P).stage? i = some stage := hi
    have hgoes : g.step E = g.proceed E world := by simp only [Schedule.step, hg]
    simp only [Schedule.proceed, hgnext, htime, hi'] at hgoes
    cases hproceeds with
    | begins hplanned =>
      cases hk.symm.trans hplanned
      cases hstage with
      | @planned job _ halike =>
        refine ⟨_, .single hgoes, l, .refl l, hactive.withFocus _ _, .common hjob ?_⟩
        rw [htime', halike.node]
        exact Run.Alike.begin hr halike.scope job.node .empty rfl
    | looks hwaiting =>
      cases hk.symm.trans hwaiting
      cases hstage with
      | waiting hrun hwait halarm =>
        rw [htime']
        exact ⟨_, .single hgoes, hactive.attend hjob hrun hwait halarm rfl⟩
    | skips hplanned hwaiting =>
      have hskips : g.step E = .going { g with
          agenda := g.agenda.remove p
          focus := .agenda { world with clock := p.time } } := by
        cases hstage with
        | planned _ => exact absurd hk (hplanned _)
        | waiting _ _ _ => exact absurd hk (hwaiting _ _ _)
        | active => exact hgoes
        | settled _ => exact hgoes
      exact ⟨_, .single hskips, l, .refl l, hremoved.withFocus _ _, .between _ _⟩
  · have hout : l.Outside k := fun i hjob => hcommon ⟨i, hjob⟩
    have hremoved : Lodges l g { s with agenda := s.agenda.remove q } := by
      refine h.hostWithAgenda (h.agenda.hostRemove fun j hj => ?_) (h.numbered.remove q)
      rw [hj.unique hq]
      exact hout
    refine ⟨g, .refl, ?_⟩
    cases hproceeds with
    | begins _ => exact (hremoved.hostSetStage hout .active).stillLodges_aside hg hout _
    | @looks run wait alarm hstage =>
      refine (hremoved.hostSetStage hout .active).hostAttend hg hout (fun place hplace j hj => ?_) _
      exact hprompt.own k run wait alarm hstage place hplace j (Agenda.has_remove.1 hj).2
    | skips _ _ => exact hremoved.stillLodges_between hg _

/-- **The guest follows every step of the host.** -/
theorem step (hr : E.registry.Native) (h : g.Lodges l s) (hfocus : g.focus.Lodges l s.focus)
    (hgprompt : g.Prompt) (hprompt : s.Prompt) (hstep : s.step E = .going s') :
    Follows E l g s' := by
  generalize hg : g.focus = focus at hfocus
  generalize hs : s.focus = focus' at hfocus
  cases hfocus with
  | common hjob hnext => exact h.step_common hr hjob hnext hg hs hstep
  | aside world next hout =>
    exact .inl ⟨g, .refl, h.step_aside hout hg hs hprompt hstep⟩
  | between world world' => exact .inl (h.step_between hr hg hs hgprompt hprompt hstep)

end Lodges

end Schedule

/-! ## Evaluations -/

namespace Engine.GetsTo

variable {root : NodeId} {memo : Memo} {scope : Scope} {shared : P.Shared} {s : Schedule P}

/-- **An evaluation is on time,** wherever it gets. -/
theorem prompt (h : E.GetsTo root memo scope shared s) : s.Prompt := by
  obtain ⟨asked, begun, hfocus⟩ := Schedule.exists_datesFocus h
  have hown : ∀ now, Schedule.Dates E memo asked begun s now → ∀ id run wait alarm,
      s.stage? id = some (.waiting run wait alarm) → ∀ place ∈ alarm,
      ∀ j, s.agenda.Has place j → j = id := fun now hdates id run wait alarm hstage place hplace =>
    ((hdates.stages id _ hstage).own place hplace).2
  cases hs : s.focus with
  | job id next =>
    rw [hs] at hfocus
    obtain ⟨hdates, hactive, -⟩ := hfocus
    refine ⟨fun id' next' heq => ?_, fun world heq => ?_, hown _ hdates⟩
    · rw [hs] at heq
      cases heq
      exact hactive
    · rw [hs] at heq
      cases heq
  | agenda world =>
    rw [hs] at hfocus
    refine ⟨fun id' next' heq => ?_, fun world' heq => ?_, hown _ hfocus⟩
    · rw [hs] at heq
      cases heq
    · rw [hs] at heq
      cases heq
      exact hfocus.due

/-- **Jobs that have not begun lie fallow,** wherever it gets. -/
theorem tidy (h : E.GetsTo root memo scope shared s) : s.Tidy := by
  induction h with
  | refl => exact .start _
  | tail hgets hstep ih => exact ih.step (prompt hgets).active hstep

end Engine.GetsTo

end ProgramGraph
