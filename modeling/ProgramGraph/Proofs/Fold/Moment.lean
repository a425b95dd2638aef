import ProgramGraph.Proofs.Fold.Basic
import ProgramGraph.Proofs.Passage.Fatal
/-!
# The life of a memo

A memo rests between two folds and is worked on while a fold is under way, by the run
of the fold itself; jobs have memos of their own. `Moment` says what there is at a
time, `Moment.Then` what there is next, and so on from one fold to another, in
whatever way folds end. From each moment to the next the memo grows
(`Moment.Then.grows`).
-/

namespace ProgramGraph

open Relation

variable {P : Plugins}

namespace Schedule

/-- The run of a job that has been put aside. -/
def aside? (s : Schedule P) (id : JobId) : Option (Run P) :=
  match s.stage? id with
  | some (.waiting run _ _) => some run
  | _ => none

/-- The run of the fold itself. -/
def main? (s : Schedule P) : Option (Run P) :=
  match s.focus with
  | .job id next => if id = root then some next.run else s.aside? root
  | .agenda _ => s.aside? root

end Schedule

/-- **A moment in the life of a memo.** -/
inductive Moment (P : Plugins)
  /-- No fold is under way. -/
  | rest (memo : Memo)
  /-- A fold is under way. -/
  | fold (limits : Limits) (s : Schedule P)

namespace Moment

/-- The memo as it is. -/
def memo? : Moment P → Option Memo
  | rest memo => some memo
  | fold _ s => s.main?.map Run.memo

variable (g : Graph) (reg : Registry P)

/-- **One moment and the next.** -/
inductive Then : Moment P → Moment P → Prop
  /-- A fold begins. -/
  | begin (memo : Memo) (limits : Limits) (root : Root) (shared : P.Shared) :
    Then (.rest memo) (.fold limits
      (.start (Run.begin ⟨g, reg, limits⟩ { memo, world := { shared } } root.target)))
  /-- It takes a step. -/
  | step {limits : Limits} {s s' : Schedule P} : s.step ⟨g, reg, limits⟩ = .going s' →
    Then (.fold limits s) (.fold limits s')
  /-- It has ended. -/
  | finish {limits : Limits} {s : Schedule P} {o : Outcome P} : s.step ⟨g, reg, limits⟩ = .ended o →
    Then (.fold limits s) (.rest o.run.memo)

/-- **A moment and any later one.** -/
def Reaches : Moment P → Moment P → Prop := ReflTransGen (Then g reg)

/-- **A request is answered from the memo,** by a fold that begins with the node or
by a task of the fold that asks for it. -/
inductive Visits : Moment P → Limits → Run P → NodeId → Nat → Prop
  | root (memo : Memo) (limits : Limits) (root : Root) (shared : P.Shared) :
    Visits (.rest memo) limits { memo, world := { shared } } root.target Scope.empty.depth
  | turn {limits : Limits} {s : Schedule P} {next : Next P} {r : Run P} {id : NodeId} {restore : Nat} :
    s.focus = .job Schedule.root next → next.Visits ⟨g, reg, limits⟩ r id restore false →
    r.overlays = [] → Visits (.fold limits s) limits r id restore

end Moment

/-! ## Folds -/

section Folds

variable {g : Graph} {reg : Registry P} {limits : Limits}

/-- A fold that is followed to its end. -/
theorem Moment.reaches_of_follow {fuel : Nat} {s : Schedule P} {o : Outcome P}
    (h : s.follow ⟨g, reg, limits⟩ fuel = some o) :
    Reaches g reg (.fold limits s) (.rest o.run.memo) := by
  induction fuel generalizing s with
  | zero => cases h
  | succ fuel ih =>
    unfold Schedule.follow at h
    split at h
    next s' hstep => exact .head (.step hstep) (ih h)
    next o' hstep =>
      cases h
      exact .single (.finish hstep)
    next => cases h

/-- **A fold leads from the memo that it is given to the one that it leaves.** -/
theorem Moment.reaches_of_folds {root : Root} {m : Memo} {shared : P.Shared} {o : Outcome P}
    (h : Engine.Folds ⟨g, reg, limits⟩ root m shared o) :
    Reaches g reg (.rest m) (.rest o.run.memo) := by
  obtain ⟨fuel, hfuel⟩ := h
  exact .head (.begin m limits root shared) (reaches_of_follow hfuel)

end Folds

/-! ## The run of the fold itself -/

namespace Run

/-- A result that is handed over changes the counters at most. -/
theorem grows_handOver (g : Graph) (reg : Registry P) (r : Run P) (result : Except EvalError Value) :
    r.memo.Grows g reg (r.handOver result).run.memo := by
  unfold handOver
  cases result with
  | ok value => exact .refl
  | error error =>
    dsimp only
    split
    · exact .refl
    · split <;> exact .mapTally _ .refl

/-- So does the end of a wait. -/
theorem grows_wake (g : Graph) (reg : Registry P) (r : Run P) (world : World P) (wake : Wake) :
    r.memo.Grows g reg (r.wake world wake).run.memo := by
  cases wake with
  | elapsed => exact .refl
  | settled c =>
    let merged : Run P := (Run.mapTally { r with world } (·.merge c.tally)).observe c.tainted
    have hmerged : r.memo.Grows g reg merged.memo := .mapTally (·.merge c.tally) .refl
    exact hmerged.trans (grows_handOver g reg merged c.result)

end Run

namespace Schedule

variable {E : Engine P} {s s' : Schedule P} {next : Next P} {id : JobId}

theorem main?_of_root (h : s.focus = .job root next) : s.main? = some next.run := by
  rw [main?, h]
  exact if_pos rfl

theorem main?_of_job_ne (h : s.focus = .job id next) (hid : id ≠ root) :
    s.main? = s.aside? root := by
  rw [main?, h]
  exact if_neg hid

theorem main?_of_agenda {world : World P} (h : s.focus = .agenda world) :
    s.main? = s.aside? root := by
  rw [main?, h]

theorem aside?_congr (h : s'.stage? id = s.stage? id) : s'.aside? id = s.aside? id := by
  rw [aside?, aside?, h]

theorem aside?_setStage_of_ne {j : JobId} (stage : Stage P) (h : j ≠ id) :
    (s.setStage id stage).aside? j = s.aside? j :=
  aside?_congr (stage?_setStage_of_ne stage h)

theorem aside?_setStage_self {run : Run P} {wait : Wait} {alarm : Option Place}
    (h : id < s.jobs.size) : (s.setStage id (.waiting run wait alarm)).aside? id = some run := by
  rw [aside?, stage?_setStage_self _ h]

variable {run : Run P}

/-- **A run waits.** The memo of the fold grows, whoever's run it is. -/
theorem main?_suspend (g : Graph) (reg : Registry P) (hid : id < s.jobs.size)
    (hroot : root < s.jobs.size) (await : Await) :
    (id = root → ∃ r', (s.suspend id run await).main? = some r' ∧ run.memo.Grows g reg r'.memo) ∧
      (id ≠ root → (s.suspend id run await).main? = s.aside? root) := by
  have hplanned : ∀ j, j < s.jobs.size →
      (s.planAll run.world.clock id await.jobs).2.stage? j = s.stage? j :=
    fun _ hj => stage?_planAll _ hj
  have hsize : s.jobs.size ≤ (s.planAll run.world.clock id await.jobs).2.jobs.size := by
    rw [size_planAll]
    exact Nat.le_add_right _ _
  have hsuspends := s.suspends id run await
  generalize s.suspend id run await = s' at hsuspends ⊢
  generalize (s.planAll run.world.clock id await.jobs).2 = t at hplanned hsize hsuspends
  cases hsuspends with
  | @ends wake _ =>
    refine ⟨?_, fun hne => ?_⟩
    · rintro rfl
      exact ⟨_, main?_of_root rfl, run.grows_wake g reg _ wake⟩
    · exact (main?_of_job_ne rfl hne).trans (aside?_congr (hplanned root hroot))
  | waits _ =>
    rw [main?_of_agenda rfl]
    refine ⟨?_, fun hne => ?_⟩
    · rintro rfl
      exact ⟨run, aside?_setStage_self (Nat.lt_of_lt_of_le hid hsize), .refl⟩
    · exact aside?_congr
        ((stage?_setStage_of_ne _ (Ne.symm hne)).trans (hplanned root hroot))

/-- **A job looks at its wait.** -/
theorem main?_attend (g : Graph) (reg : Registry P) (hid : id < s.jobs.size) (run : Run P)
    (wait : Wait) (alarm : Option Place) (world : World P) :
    (id = root → ∃ r', (s.attend id run wait alarm world).main? = some r' ∧
        run.memo.Grows g reg r'.memo) ∧
      (id ≠ root → (s.attend id run wait alarm world).main? = s.aside? root) := by
  unfold attend
  split
  next wake _ =>
    refine ⟨?_, fun hne => ?_⟩
    · rintro rfl
      exact ⟨_, main?_of_root rfl, run.grows_wake g reg _ wake⟩
    · exact main?_of_job_ne rfl hne
  next wait' _ =>
    rw [main?_of_agenda rfl]
    refine ⟨?_, fun hne => ?_⟩
    · rintro rfl
      exact ⟨run, aside?_setStage_self hid, .refl⟩
    · exact aside?_setStage_of_ne _ (Ne.symm hne)

variable {E : Engine P} {m : Memo} {asked : JobId → Job}

/-- **The run of the fold itself** is at a point that the fold passes through. -/
theorem TracksFocus.exists_main {W : World P → Prop} {Ok : Job → Prop}
    (h : TracksFocus E Ok W m asked s s.focus) :
    ∃ next, Passes E W m (asked root) next ∧ s.main? = some next.run := by
  have haside : ∀ busy, Tracks E Ok W m asked s busy → busy ≠ some root →
      ∃ next, Passes E W m (asked root) next ∧ s.aside? root = some next.run := by
    intro busy htracks hbusy
    obtain ⟨stage, hstage⟩ := exists_stage? htracks.exists_root
    have htracked := htracks.stages root stage hstage
    cases stage with
    | planned job => exact absurd rfl htracked.1
    | active => exact absurd (htracks.active root hstage) hbusy
    | settled c => exact absurd rfl htracked.1
    | waiting run wait alarm =>
      obtain ⟨-, await, hpasses, -⟩ := htracked
      rw [memoOf_root] at hpasses
      exact ⟨_, hpasses, by rw [aside?, hstage]; rfl⟩
  cases hfocus : s.focus with
  | agenda world =>
    rw [hfocus] at h
    rw [main?_of_agenda hfocus]
    exact haside none h.1 nofun
  | job id next =>
    rw [hfocus] at h
    by_cases hid : id = root
    · subst hid
      have hpasses := h.2.2
      rw [memoOf_root] at hpasses
      exact ⟨next, hpasses, main?_of_root hfocus⟩
    · rw [main?_of_job_ne hfocus hid]
      exact haside (some id) h.1 fun heq => hid (Option.some.inj heq)

/-- **The memo of the fold grows** from one schedule to another. -/
def GrowsTo (E : Engine P) (s s' : Schedule P) : Prop :=
  ∃ r r', s.main? = some r ∧ s'.main? = some r' ∧ r.memo.Grows E.graph E.registry r'.memo

/-- The run of the fold is left where it is put aside. -/
theorem GrowsTo.of_left {r : Run P} (hmain : s.main? = some r) (hbefore : s.main? = s.aside? root)
    (hafter : s'.main? = s.aside? root) : GrowsTo E s s' :=
  ⟨r, r, hmain, hafter.trans (hbefore.symm.trans hmain), .refl⟩

/-- **The run of the fold itself** takes a step. -/
theorem growsTo_of_root (hg : E.graph.validate = .ok ()) (hr : E.registry.Native)
    (hm : m.Sound E.graph E.registry) {W : World P → Prop} {job : Job}
    (hroot : root < s.jobs.size) (hfocus : s.focus = .job root next)
    (hpasses : Passes E W m job next) (hstep : s.step E = .going s') : GrowsTo E s s' := by
  have hmain := main?_of_root hfocus
  cases next with
  | resume run input =>
    simp only [Schedule.step, hfocus] at hstep
    cases hstep
    have hrun := (hpasses.sound hg hr hm).1
    have hturn := Run.turn_sound hg hr (hrun.grown.memo.sound hm) hrun.anew
    exact ⟨run, _, hmain, main?_of_root rfl, hturn.grown.memo⟩
  | wait run await =>
    simp only [Schedule.step, hfocus] at hstep
    cases hstep
    obtain ⟨r', hafter, hgrows⟩ := (main?_suspend E.graph E.registry hroot hroot await).1 rfl
    exact ⟨run, r', hmain, hafter, hgrows⟩
  | finish o =>
    simp only [Schedule.step, hfocus, if_true] at hstep
    cases hstep

/-- The run of another job takes a step. -/
theorem main?_of_step_of_ne (hroot : root < s.jobs.size) (hid : id < s.jobs.size) (hne : id ≠ root)
    (hfocus : s.focus = .job id next) (hstep : s.step E = .going s') :
    s'.main? = s.aside? root := by
  cases next with
  | resume run input =>
    simp only [Schedule.step, hfocus] at hstep
    cases hstep
    exact main?_of_job_ne rfl hne
  | wait run await =>
    simp only [Schedule.step, hfocus] at hstep
    cases hstep
    exact (main?_suspend E.graph E.registry hid hroot await).2 hne
  | finish o =>
    simp only [Schedule.step, hfocus, if_neg hne] at hstep
    cases hstep
    exact (main?_of_agenda rfl).trans (aside?_setStage_of_ne _ (Ne.symm hne))

/-- **The next job of the agenda** has its turn. -/
theorem growsTo_of_proceed {r : Run P} {world : World P} (hmain : s.main? = some r)
    (hplanned : ∀ job, s.stage? root ≠ some (.planned job)) (hfocus : s.focus = .agenda world)
    (hstep : s.proceed E world = .going s') : GrowsTo E s s' := by
  have hbefore := main?_of_agenda hfocus
  obtain ⟨place, id, -, hproceeds⟩ := exists_proceeds hstep
  cases hproceeds with
  | @begins job hstage =>
    have hne : id ≠ root := by
      rintro rfl
      exact hplanned job hstage
    exact .of_left hmain hbefore
      ((main?_of_job_ne rfl hne).trans (aside?_setStage_of_ne _ (Ne.symm hne)))
  | @looks run wait alarm hstage =>
    have hid := lt_size_of_stage?
      (stage?_setStage_self (s := { s with agenda := s.agenda.remove place }) .active
        (lt_size_of_stage? hstage))
    have hattend := main?_attend E.graph E.registry hid run wait alarm
      { world with clock := max world.clock place.time }
    by_cases hroot : id = root
    · subst hroot
      have haside : s.aside? root = some run := by rw [aside?, hstage]
      obtain ⟨r', hafter, hgrows⟩ := hattend.1 rfl
      exact ⟨run, r', hbefore.trans haside, hafter, hgrows⟩
    · exact .of_left hmain hbefore
        ((hattend.2 hroot).trans (aside?_setStage_of_ne _ (Ne.symm hroot)))
  | skips _ _ => exact .of_left hmain hbefore (main?_of_agenda rfl)

/-- **At every step the memo of a fold grows.** -/
theorem TracksFocus.growsTo (hg : E.graph.validate = .ok ()) (hr : E.registry.Native)
    (hm : m.Sound E.graph E.registry) {W : World P → Prop} {Ok : Job → Prop}
    (h : TracksFocus E Ok W m asked s s.focus) (hstep : s.step E = .going s') : GrowsTo E s s' := by
  obtain ⟨next, -, hmain⟩ := h.exists_main
  cases hfocus : s.focus with
  | job id next' =>
    rw [hfocus] at h
    obtain ⟨htracks, hactive, hpasses⟩ := h
    by_cases hid : id = root
    · subst hid
      rw [memoOf_root] at hpasses
      exact growsTo_of_root hg hr hm htracks.exists_root hfocus hpasses hstep
    · exact .of_left hmain (main?_of_job_ne hfocus hid)
        (main?_of_step_of_ne htracks.exists_root (lt_size_of_stage? hactive) hid hfocus hstep)
  | agenda world =>
    rw [hfocus] at h
    simp only [Schedule.step, hfocus] at hstep
    exact growsTo_of_proceed hmain (fun job hjob => (h.1.stages root _ hjob).1 rfl) hfocus hstep

end Schedule

end ProgramGraph
