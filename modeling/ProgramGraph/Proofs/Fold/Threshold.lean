import Mathlib.Logic.Relation
import ProgramGraph.Proofs.Fold.Account
import ProgramGraph.Proofs.Fold.Ledger
import ProgramGraph.Proofs.Fold.Ration
import ProgramGraph.Proofs.Solo.Limit
/-!
# Where a limit strikes

The run of an evaluation without jobs has all its resumptions to itself. Within a limit it
cannot go on for ever, whatever the graph is like, and up to the resumption that is one too
many it goes on as it would without a limit. So an evaluation that is cut off leaves just
what there is when the unlimited one is about to make that resumption, but for counting it
(`Engine.Solitary.capped`).
-/

namespace ProgramGraph

open Relation

variable {P : Plugins} {E : Engine P}

/-! ## Steps of a run that is alone -/

/-- No step takes a resumption back. -/
theorem Next.Strolls.steps_le {next next' : Next P} (h : ReflTransGen (Next.Strolls E) next next') :
    next.run.steps ≤ next'.run.steps := by
  induction h with
  | refl => exact Nat.le_refl _
  | tail _ hstep ih =>
    cases hstep with
    | turn r input =>
      have hsteps : (r.turn E input).run.steps = r.steps + 1 :=
        congrArg Prod.fst (r.toll_turn (E := E) input)
      exact Nat.le_trans ih (Nat.le_of_lt (Nat.lt_of_lt_of_eq (Nat.lt_succ_self _) hsteps.symm))
    | pause r ms clock => exact ih

/-- A run that is resumed has made one resumption more ever after. -/
theorem Next.Strolls.eq_or_steps_lt {r : Run P} {input : Input} {next : Next P}
    (h : ReflTransGen (Next.Strolls E) (.resume r input) next) :
    next = .resume r input ∨ r.steps < next.run.steps := by
  rcases ReflTransGen.cases_head h with heq | ⟨between, hstep, hrest⟩
  · exact .inl heq.symm
  · cases hstep with
    | turn =>
      have hsteps : (r.turn E input).run.steps = r.steps + 1 :=
        congrArg Prod.fst (r.toll_turn (E := E) input)
      exact .inr (Nat.lt_of_lt_of_le (Nat.lt_of_lt_of_eq (Nat.lt_succ_self _) hsteps.symm)
        (steps_le hrest))

/-! ## Schedules with one run -/

namespace Schedule

variable {begin : Next P} {s s' : Schedule P} {o : Outcome P}

/-- What a schedule comes to is what it comes to from wherever it gets. -/
theorem exists_follow_of_goes (h : ReflTransGen (Goes E) s s') {fuel : Nat}
    (ho : s.follow E fuel = some o) : ∃ fuel', s'.follow E fuel' = some o := by
  induction h with
  | refl => exact ⟨fuel, ho⟩
  | tail _ hgoes ih =>
    obtain ⟨more, hmore⟩ := ih
    cases more with
    | zero => cases hmore
    | succ more =>
      have hgoes : _ = Progress.going _ := hgoes
      rw [follow, hgoes] at hmore
      exact ⟨more, hmore⟩

variable (hpaused : ∀ r await, ReflTransGen (Next.Strolls E) begin (.wait r await) →
  ∃ ms, await = .timer ms .elapsed)

include hpaused

/-- The run stays alone. -/
theorem Alone.goes (h : s.Alone E begin) (hreach : ReflTransGen (Goes E) s s') :
    s'.Alone E begin := by
  induction hreach with
  | refl => exact h
  | tail _ hgoes ih =>
    have hstep := ih.step hpaused
    have hgoes : _ = Progress.going _ := hgoes
    rw [hgoes] at hstep
    exact hstep

omit hpaused in
/-- A pause that is over is not the end. -/
theorem attend_focus_ne {r : Run P} {due : Nat} (alarm : Option Place) (world : World P)
    (id : JobId) : (s.attend root r (.timer due .elapsed) alarm world).focus ≠ .job id (.finish o) := by
  unfold attend
  rcases Wait.look_pause s.conclusion? world.clock due with hlook | hlook
  · simp only [hlook]
    exact nofun
  · simp only [hlook]
    exact nofun

omit hpaused in
/-- What is attended to is what the run has come to. -/
theorem Alone.strolls (h : s.Alone E begin) {id : JobId} {next : Next P}
    (hfocus : s.focus = .job id next) : id = root ∧ ReflTransGen (Next.Strolls E) begin next := by
  have hlingers := h.lingers
  rw [hfocus] at hlingers
  cases hlingers with
  | going hnext => exact ⟨rfl, hnext⟩

/-- **The run ends in a turn,** and not after a pause. -/
theorem Alone.turn_of_finish (h : s.Alone E begin) (hgoes : s.Goes E s') {id : JobId}
    (hfocus : s'.focus = .job id (.finish o)) :
    ∃ r input, s.focus = .job root (.resume r input) ∧ r.turn E input = .finish o := by
  cases steps hgoes with
  | @resumes _ r input hold =>
    obtain ⟨rfl, -⟩ := h.strolls hold
    exact ⟨r, input, hold, (Focus.job.inj hfocus).2⟩
  | @suspends _ r await hold =>
    obtain ⟨rfl, hnext⟩ := h.strolls hold
    obtain ⟨ms, rfl⟩ := hpaused r await hnext
    have hsuspends := s.suspends root r (.timer ms .elapsed)
    generalize s.suspend root r (.timer ms .elapsed) = s' at hsuspends hfocus
    cases hsuspends with
    | waits _ => cases hfocus
    | @ends wake hlook =>
      obtain rfl : wake = .elapsed := by
        rcases Wait.look_pause _ r.world.clock (Wait.dueAfter r.world.clock ms) with hpause | hpause
        · exact (Sum.inl.inj (hpause.symm.trans hlook)).symm
        · cases hpause.symm.trans hlook
      cases hfocus
  | settles hold hid => exact absurd (h.strolls hold).1 hid
  | proceeds hold hproceed =>
    have hlingers := h.lingers
    rw [hold] at hlingers
    cases hlingers with
    | pausing _ hstage =>
      obtain ⟨place, next, -, hproceeds⟩ := exists_proceeds hproceed
      have hroot : ∀ stage, s.stage? next = some stage → next = root := fun stage hsome => by
        have hlt := lt_size_of_stage? hsome
        rw [h.size] at hlt
        exact Nat.lt_one_iff.1 hlt
      cases hproceeds with
      | begins hplanned =>
        obtain rfl := hroot _ hplanned
        cases hplanned.symm.trans hstage
      | looks hwaiting =>
        obtain rfl := hroot _ hwaiting
        cases hwaiting.symm.trans hstage
        exact absurd hfocus (attend_focus_ne _ _ _)
      | skips _ _ => cases hfocus

variable {g : Graph} {reg : Registry P} {limit : Nat}

omit hpaused in
/-- **Steps are the same without a limit** until a run has used it up. -/
theorem step_of_within
    (h : ∀ id r input, s.focus = .job id (.resume r input) → r.steps + 1 ≤ limit) :
    s.step (⟨g, reg, { maxSteps := some limit }⟩ : Engine P) = s.step ⟨g, reg, {}⟩ := by
  unfold step
  cases hfocus : s.focus with
  | agenda world => rfl
  | job id next =>
    cases next with
    | wait r await => rfl
    | finish o => rfl
    | resume r input =>
      have hwithin : r.countTurn.exceeded? ({ maxSteps := some limit } : Limits) = none :=
        Run.exceeded?_eq_none rfl (h id r input hfocus)
      have hturn := Run.turn_withLimits (E := (⟨g, reg, {}⟩ : Engine P)) (r := r) rfl hwithin input
      exact congrArg (fun next => Progress.going { s with focus := .job id next }) hturn

omit hpaused in
/-- **Up to the limit an evaluation goes on as it would without one.** It comes to the same, or
it gets where the one without a limit gets and is about to make a resumption too many. -/
theorem Alone.exists_cutoff
    (hpaused : ∀ r await,
      ReflTransGen (Next.Strolls (⟨g, reg, { maxSteps := some limit }⟩ : Engine P)) begin (.wait r await) →
      ∃ ms, await = .timer ms .elapsed)
    (h : s.Alone ⟨g, reg, { maxSteps := some limit }⟩ begin)
    (hends : ∀ id o, s.focus = .job id (.finish o) → o.run.steps ≤ limit) {fuel : Nat}
    (ho : s.follow ⟨g, reg, { maxSteps := some limit }⟩ fuel = some o) :
    s.follow ⟨g, reg, {}⟩ fuel = some o ∧ o.run.steps ≤ limit ∨
    ∃ s' r input, ReflTransGen (Goes ⟨g, reg, {}⟩) s s' ∧
      ReflTransGen (Goes ⟨g, reg, { maxSteps := some limit }⟩) s s' ∧
      s'.focus = .job root (.resume r input) ∧ limit < r.steps + 1 ∧
      r.turn ⟨g, reg, { maxSteps := some limit }⟩ input = .finish o := by
  induction fuel generalizing s with
  | zero => cases ho
  | succ fuel ih =>
    by_cases hcut : ∃ r input, s.focus = .job root (.resume r input) ∧ limit < r.steps + 1
    · -- the resumption is one too many, and the schedule ends with what it comes to
      obtain ⟨r, input, hfocus, hlt⟩ := hcut
      obtain ⟨o', hturn, -⟩ := r.turn_of_lt (E := ⟨g, reg, { maxSteps := some limit }⟩) rfl hlt input
      refine .inr ⟨s, r, input, .refl, .refl, hfocus, hlt, ?_⟩
      simp only [Schedule.follow, Schedule.step, hfocus, hturn] at ho
      cases fuel with
      | zero => cases ho
      | succ fuel =>
        simp only [Schedule.follow, Schedule.step, if_true, Option.some.injEq] at ho
        rw [hturn, ho]
    · have hwithin : ∀ id r input, s.focus = .job id (.resume r input) → r.steps + 1 ≤ limit := by
        intro id r input hfocus
        obtain ⟨rfl, -⟩ := h.strolls hfocus
        exact Nat.le_of_not_lt fun hlt => hcut ⟨r, input, hfocus, hlt⟩
      have hsame : s.step ⟨g, reg, { maxSteps := some limit }⟩ = s.step ⟨g, reg, {}⟩ :=
        step_of_within hwithin
      have hstep := h.step hpaused
      simp only [Schedule.follow] at ho ⊢
      rw [← hsame]
      cases hnext : s.step ⟨g, reg, { maxSteps := some limit }⟩ with
      | stuck =>
        rw [hnext] at ho
        cases ho
      | ended o' =>
        rw [hnext] at ho
        cases ho
        exact .inl ⟨rfl, hends root o (focus_of_ended hnext)⟩
      | going s₁ =>
        rw [hnext] at ho hstep
        have hends₁ : ∀ id o, s₁.focus = .job id (.finish o) → o.run.steps ≤ limit := by
          intro id o₁ hfocus₁
          obtain ⟨r, input, hfocus, hturn⟩ := h.turn_of_finish hpaused hnext hfocus₁
          have hsteps := congrArg Prod.fst
            (r.toll_turn (E := ⟨g, reg, { maxSteps := some limit }⟩) input)
          rw [hturn] at hsteps
          exact Nat.le_trans (Nat.le_of_eq hsteps) (hwithin root r input hfocus)
        refine (ih hstep hends₁ ho).imp id ?_
        rintro ⟨s', r, input, hreach, hreach', hrest⟩
        exact ⟨s', r, input, .head (hsame.symm.trans hnext) hreach, .head hnext hreach', hrest⟩

end Schedule

/-! ## Evaluations without jobs -/

namespace Engine

variable {root : NodeId} {memo : Memo} {scope : Scope} {shared : P.Shared} {next : Next P}
  {limit : Nat}

/-- **What an evaluation without jobs attends to,** its run has come to by itself. -/
theorem Solitary.strolls_of_attendsTo (h : E.Solitary)
    (hattends : E.AttendsTo root memo scope shared next) :
    ReflTransGen (Next.Strolls E) (Run.begin E { memo, scope, world := { shared } } root) next := by
  obtain ⟨s, id, hreach, hfocus⟩ := hattends
  have halone := (Schedule.alone_start (E := E) _).goes
    (fun r await hwait => h.paused (mayReach_of_strolls hwait)) hreach
  exact (halone.strolls hfocus).2

/-- **Without a limit every resumption is written down,** and both counters count it. -/
theorem resumptions_of_strolls (hlimit : E.limits.maxSteps = none)
    (hstrolls : ReflTransGen (Next.Strolls E)
      (Run.begin E { memo, scope, world := { shared } } root) next) :
    next.run.steps = next.run.world.journal.countP Event.isResumption ∧
      next.run.memo.tally.steps = memo.tally.steps + next.run.steps := by
  let r₀ : Run P := { memo, scope, world := { shared } }
  have hboth : r₀.Books next.run ∧
      next.run.toll = (next.run.steps, memo.tally.steps + next.run.steps) := by
    induction hstrolls with
    | refl =>
      have htoll : (r₀.begin E root).run.toll = r₀.toll := r₀.toll_visit root _ false
      have hsteps : (r₀.begin E root).run.steps = 0 := congrArg Prod.fst htoll
      refine ⟨r₀.books_visit root _ _, ?_⟩
      rw [hsteps]
      exact htoll
    | @tail next next' hbefore hstep ih =>
      obtain ⟨hbooks, htoll⟩ := ih
      cases hstep with
      | turn r input =>
        have hframes : r.frames.items ≠ [] := fun hnil =>
          MayReach.manned (mayReach_of_strolls hbefore) (r.frames.size_eq_zero_iff.2 hnil)
        have hwithin : r.countTurn.exceeded? E.limits = none := by
          rw [Run.exceeded?, hlimit]
          rfl
        refine ⟨hbooks.trans (r.books_turn hframes hwithin input), ?_⟩
        have hturn := r.toll_turn (E := E) input
        have hsteps : (r.turn E input).run.steps = r.steps + 1 := congrArg Prod.fst hturn
        have htally : r.memo.tally.steps = memo.tally.steps + r.steps := congrArg Prod.snd htoll
        rw [hturn, hsteps, htally]
        rfl
      | pause r ms clock => exact ⟨hbooks.trans (.of_eq rfl rfl), htoll⟩
  obtain ⟨⟨events, hjournal, hcounts⟩, htoll⟩ := hboth
  have htally : next.run.memo.tally.steps = memo.tally.steps + next.run.steps :=
    congrArg Prod.snd htoll
  refine ⟨?_, htally⟩
  have hevents : events = next.run.world.journal := by
    rw [hjournal]
    exact (List.append_nil events).symm
  have hsteps : next.run.memo.tally.steps = memo.tally.steps + (Event.total events).steps :=
    congrArg Tally.steps hcounts
  rw [Event.total_eq_counts, hevents] at hsteps
  dsimp only at hsteps
  omega

/-- **A run that only pauses cannot go on for ever within a limit,** by induction on the
resumptions that are left. -/
theorem Solitary.ceases (h : E.Solitary) (hlimit : E.limits.maxSteps = some limit) {world : World P}
    (hreach : E.MayReach root memo scope world next) (hsteps : next.run.steps ≤ limit) :
    next.Ceases E := by
  induction hleft : limit - next.run.steps using Nat.strongRecOn generalizing next with
  | _ left ih =>
  have hturn : ∀ r input, E.MayReach root memo scope world (.resume r input) →
      r.steps = next.run.steps → (r.turn E input).Ceases E := by
    intro r input hr hsame
    have htoll : (r.turn E input).run.steps = r.steps + 1 :=
      congrArg Prod.fst (r.toll_turn (E := E) input)
    rcases Nat.lt_or_ge limit (r.steps + 1) with hlt | hle
    · obtain ⟨o, hfinish, -⟩ := r.turn_of_lt hlimit hlt input
      rw [hfinish]
      exact Next.ceases_finish o
    · exact ih (limit - (r.turn E input).run.steps) (by omega) (hr.tail (.turn r input))
        (by omega) rfl
  cases next with
  | finish o => exact Next.ceases_finish o
  | resume r input => exact Next.ceases_resume (hturn r input hreach rfl)
  | wait r await =>
    obtain ⟨ms, rfl⟩ := h.paused hreach
    refine Next.ceases_wait nofun fun world' wake hcomes => ?_
    obtain rfl : wake = .elapsed := hcomes
    exact Next.ceases_resume (hturn _ _ (hreach.tail (.wake r _ world' .elapsed)) rfl)

/-- **So the evaluation ends.** -/
theorem Solitary.exists_evaluates (h : E.Solitary) (hlimit : E.limits.maxSteps = some limit)
    (root : NodeId) (memo : Memo) (scope : Scope) (shared : P.Shared) :
    ∃ o, E.Evaluates root memo scope shared o := by
  have hreach : E.MayReach root memo scope { shared }
      (Run.begin E { memo, scope, world := { shared } } root) := .refl
  refine exists_evaluates_of_ceases (h.ceases hlimit hreach ?_)
  have htoll := Run.toll_visit (E := E) { memo, scope, world := { shared } } root scope.depth false
  exact Nat.le_trans (Nat.le_of_eq (congrArg Prod.fst htoll)) (Nat.zero_le limit)

/-- **An evaluation without jobs is about to make a resumption once only.** -/
theorem Solitary.resume_unique (h : E.Solitary) {r r' : Run P} {input input' : Input}
    (hattends : E.AttendsTo root memo scope shared (.resume r input))
    (hattends' : E.AttendsTo root memo scope shared (.resume r' input'))
    (hsteps : r.steps = r'.steps) : r = r' ∧ input = input' := by
  have hpaused : ∀ {begin : Next P},
      ReflTransGen (Next.Strolls E) (Run.begin E { memo, scope, world := { shared } } root) begin →
      ∀ r await, ReflTransGen (Next.Strolls E) begin (.wait r await) → ∃ ms, await = .timer ms .elapsed :=
    fun hbegin r await hwait => h.paused (mayReach_of_strolls (hbegin.trans hwait))
  have hlater : ∀ {s s' : Schedule P} {id id' : JobId} {r r' : Run P} {input input' : Input},
      E.GetsTo root memo scope shared s → ReflTransGen (Schedule.Goes E) s s' →
      s.focus = .job id (.resume r input) → s'.focus = .job id' (.resume r' input') →
      r.steps = r'.steps → r = r' ∧ input = input' := by
    intro s s' id id' r r' input input' hgets hgoes hfocus hfocus' hsteps
    have halone := (Schedule.alone_start (E := E) _).goes (hpaused .refl) hgets
    obtain ⟨rfl, hstrolls⟩ := halone.strolls hfocus
    have halone' : s.Alone E (.resume r input) := ⟨halone.size, by rw [hfocus]; exact .going .refl⟩
    obtain ⟨-, hstrolls'⟩ := (halone'.goes (hpaused hstrolls) hgoes).strolls hfocus'
    rcases Next.Strolls.eq_or_steps_lt hstrolls' with heq | hlt
    · cases heq
      exact ⟨rfl, rfl⟩
    · exact absurd hsteps (Nat.ne_of_lt hlt)
  obtain ⟨s, id, hgets, hfocus⟩ := hattends
  obtain ⟨s', id', hgets', hfocus'⟩ := hattends'
  have hunique : Relator.RightUnique (Schedule.Goes E) := fun _ _ _ hgoes hgoes' =>
    Progress.going.inj (Eq.trans (Eq.symm hgoes) hgoes')
  rcases ReflTransGen.total_of_right_unique hunique hgets hgets' with hgoes | hgoes
  · exact hlater hgets hgoes hfocus hfocus' hsteps
  · obtain ⟨hrun, hinput⟩ := hlater hgets' hgoes hfocus' hfocus hsteps.symm
    exact ⟨hrun.symm, hinput.symm⟩

/-- **What a limit makes of an evaluation.** -/
structure Capped (g : Graph) (reg : Registry P) (limit : Nat) (root : NodeId) (memo : Memo)
    (scope : Scope) (shared : P.Shared) : Prop where
  /-- Within the limit the evaluation ends. -/
  ends : ∃ o, Engine.Evaluates ⟨g, reg, { maxSteps := some limit }⟩ root memo scope shared o
  /-- Without one its steps are the resumptions that it has made, and so many have been
  counted. -/
  counts : ∀ next, Engine.AttendsTo ⟨g, reg, {}⟩ root memo scope shared next →
    next.run.steps = next.run.world.journal.countP Event.isResumption ∧
      next.run.memo.tally.steps = memo.tally.steps + next.run.steps
  /-- If it ends then after no more resumptions than the limit, it comes to the same within. -/
  within : ∀ o, Engine.Evaluates ⟨g, reg, {}⟩ root memo scope shared o → o.run.steps ≤ limit →
    Engine.Evaluates ⟨g, reg, { maxSteps := some limit }⟩ root memo scope shared o
  /-- Otherwise it is cut off, and leaves what there is when the unlimited one is about to
  make the resumption after the limit. Only the counter of resumptions is one ahead. -/
  beyond : (∀ o, Engine.Evaluates ⟨g, reg, {}⟩ root memo scope shared o → limit < o.run.steps) →
    ∃ o r input, Engine.Evaluates ⟨g, reg, { maxSteps := some limit }⟩ root memo scope shared o ∧
      o.result = .error (.stepLimitExceeded limit) ∧
      o.run.memo.tally.steps = memo.tally.steps + (limit + 1) ∧
      Engine.AttendsTo ⟨g, reg, {}⟩ root memo scope shared (.resume r input) ∧ r.steps = limit ∧
      o.run.memo = r.memo.mapTally .countResumption
  /-- There is one such resumption only. -/
  once : ∀ r r' input input', Engine.AttendsTo ⟨g, reg, {}⟩ root memo scope shared (.resume r input) →
    Engine.AttendsTo ⟨g, reg, {}⟩ root memo scope shared (.resume r' input') →
    r.steps = r'.steps → r = r' ∧ input = input'

/-- **The limit strikes at the resumption after it,** and not before, in any graph, from any
memo and under any scope, if nothing is started that asks for jobs. -/
theorem Solitary.capped {g : Graph} {reg : Registry P} (h : Engine.Solitary ⟨g, reg, {}⟩)
    (limit : Nat) (root : NodeId) (memo : Memo) (scope : Scope) (shared : P.Shared) :
    Capped g reg limit root memo scope shared := by
  let E : Engine P := ⟨g, reg, {}⟩
  let E' : Engine P := ⟨g, reg, { maxSteps := some limit }⟩
  have h' : E'.Solitary := ⟨h.native, h.starts⟩
  obtain ⟨o, ho⟩ := h'.exists_evaluates rfl root memo scope shared
  obtain ⟨fuel, hfuel⟩ := ho
  let begin := Run.begin E { memo, scope, world := { shared } } root
  have hbegin : begin.run.toll = (0, memo.tally.steps) :=
    Run.toll_visit { memo, scope, world := { shared } } root scope.depth false
  have hends : ∀ id o, (Schedule.start begin).focus = .job id (.finish o) → o.run.steps ≤ limit := by
    intro id o hfocus
    have hfinish : begin = .finish o := (Focus.job.inj hfocus).2
    rw [hfinish] at hbegin
    exact Nat.le_trans (Nat.le_of_eq (congrArg Prod.fst hbegin)) (Nat.zero_le limit)
  have hcutoff := (Schedule.alone_start (E := E') begin).exists_cutoff
    (fun r await hwait => h'.paused (mayReach_of_strolls hwait)) hends hfuel
  have hcounts : ∀ next, E.AttendsTo root memo scope shared next →
      next.run.steps = next.run.world.journal.countP Event.isResumption ∧
        next.run.memo.tally.steps = memo.tally.steps + next.run.steps :=
    fun next hattends => resumptions_of_strolls rfl (h.strolls_of_attendsTo hattends)
  refine ⟨⟨o, fuel, hfuel⟩, hcounts, fun found hfound hle => ?within, fun hmore => ?beyond,
    fun r r' input input' hr hr' => h.resume_unique hr hr'⟩
  case within =>
    rcases hcutoff with ⟨hsame, -⟩ | ⟨s, r, input, hgets, -, hfocus, hlt, -⟩
    · exact (Evaluates.unique hfound ⟨fuel, hsame⟩).symm ▸ ⟨fuel, hfuel⟩
    · -- the unlimited evaluation makes the resumption, and so one more than the limit
      obtain ⟨more, hmore⟩ := hfound
      obtain ⟨rest, hrest⟩ := Schedule.exists_follow_of_goes hgets hmore
      have hpaused : ∀ r await, ReflTransGen (Next.Strolls E) begin (.wait r await) →
          ∃ ms, await = .timer ms .elapsed := fun r await hwait => h.paused (mayReach_of_strolls hwait)
      have halone := (Schedule.alone_start (E := E) begin).goes hpaused hgets
      obtain ⟨-, hstrolls⟩ := halone.strolls hfocus
      have halone' : s.Alone E (.resume r input) := ⟨halone.size, by rw [hfocus]; exact .going .refl⟩
      have hfinish := halone'.follow (fun r await hwait => hpaused r await (hstrolls.trans hwait)) hrest
      rcases Next.Strolls.eq_or_steps_lt hfinish with heq | hsteps
      · cases heq
      · have hsteps : r.steps < found.run.steps := hsteps
        omega
  case beyond =>
    rcases hcutoff with ⟨hsame, hle⟩ | ⟨s, r, input, hgets, hgets', hfocus, hlt, hturn⟩
    · exact absurd (hmore o ⟨fuel, hsame⟩) (Nat.not_lt_of_le hle)
    · have hattends : E.AttendsTo root memo scope shared (.resume r input) :=
        ⟨s, Schedule.root, hgets, hfocus⟩
      have hattends' : E'.AttendsTo root memo scope shared (.resume r input) :=
        ⟨s, Schedule.root, hgets', hfocus⟩
      have hsteps : r.steps = limit := by
        rcases hattends'.allowed rfl with hle | ⟨-, o, hfinish, -⟩
        · exact Nat.le_antisymm hle (Nat.le_of_lt_succ hlt)
        · cases hfinish
      have hexceeded : r.countTurn.exceeded? E'.limits = some limit :=
        Option.filter_eq_some_iff.2 ⟨rfl, decide_eq_true hlt⟩
      rw [Run.turn_of_exceeded hexceeded] at hturn
      have ho : _ = o := Next.finish.inj hturn
      have htally : r.memo.tally.steps = memo.tally.steps + r.steps := (hcounts _ hattends).2
      subst ho
      refine ⟨_, r, input, ⟨fuel, hfuel⟩, rfl, ?_, hattends, hsteps, rfl⟩
      rw [← hsteps, ← Nat.add_assoc, ← htally]
      rfl

/-- **Ten resumptions are enough** for the retry of a failure, and nine are not. -/
theorem Solitary.capped_retrial :
    Engine.Solitary (P := .none) ⟨.retrial, .standardSequential, {}⟩ ∧
      (∃ o : Outcome .none, Engine.Evaluates ⟨.retrial, .standardSequential, { maxSteps := some 10 }⟩
        ⟨2⟩ .empty .empty () o ∧ o.result = .error (.failed (.nat 7))) ∧
      ∃ o : Outcome .none, Engine.Evaluates ⟨.retrial, .standardSequential, { maxSteps := some 9 }⟩
        ⟨2⟩ .empty .empty () o ∧ o.result = .error (.stepLimitExceeded 9) := by
  have hsolitary : Engine.Solitary (P := .none) ⟨.retrial, .standardSequential, {}⟩ :=
    solitary_of_untimed rfl (by decide)
  obtain ⟨hresult, htied, -, -, -, hcost⟩ := Graph.course_retrial
  obtain ⟨o, ho, hreport, -⟩ := evaluates_of_course (E := ⟨.retrial, .standardSequential, {}⟩) rfl
    Registry.native_standardSequential rfl ⟨2⟩ .empty .empty () rfl htied
  obtain ⟨fuel, hfuel⟩ := ho
  have hfailed : o.result = .error (.failed (.nat 7)) := (congrArg Report.result hreport).trans hresult
  -- without a limit there are ten
  have htally : o.run.memo.tally = Tally.zero.merge _ :=
    congrArg (fun report : Report => report.memo.tally) hreport
  have hsteps : o.run.steps = 10 := by
    obtain ⟨-, hcount⟩ := resumptions_of_strolls rfl (hsolitary.strolls hfuel)
    have hten : o.run.memo.tally.steps = 10 := by
      rw [htally, Tally.zero_merge]
      exact hcost
    have hzero : (Memo.empty.tally).steps = 0 := rfl
    have hcount : o.run.memo.tally.steps = Memo.empty.tally.steps + o.run.steps := hcount
    omega
  refine ⟨hsolitary, ⟨o, ?_, hfailed⟩, ?_⟩
  · exact (hsolitary.capped 10 ⟨2⟩ .empty .empty ()).within o ⟨fuel, hfuel⟩ (Nat.le_of_eq hsteps)
  · obtain ⟨cut, _, _, hcut, hexceeded, -⟩ :=
      (hsolitary.capped 9 ⟨2⟩ .empty .empty ()).beyond fun found hfound => by
        obtain rfl : o = found := Evaluates.unique ⟨fuel, hfuel⟩ hfound
        omega
    exact ⟨cut, hcut, hexceeded⟩

end Engine

end ProgramGraph
