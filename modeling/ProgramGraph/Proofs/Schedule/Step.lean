import ProgramGraph.Proofs.Schedule.Stage
/-!
# What a step of a schedule does

The cases of a step, told once. The job that is attended to is resumed, begins to wait or
settles; otherwise the first entry of the agenda is taken off, and the job that it is for has
its turn. What steps keep is proved along these cases.
-/

namespace ProgramGraph

variable {P : Plugins} {E : Engine P}

/-- **A wait that begins puts entries for its job on the agenda,** and does nothing else to
it. -/
theorem Wait.agenda_induction {motive : Agenda → Prop} (wait : Wait) (now : Nat) (id : JobId)
    {a : Agenda} (h : motive a) (hadd : ∀ b time, motive b → motive (b.add time id).2) :
    motive (wait.secondLook now id (wait.alarm id a).2) := by
  have halarm : motive (wait.alarm id a).2 := by
    unfold alarm
    split
    · exact hadd a _ h
    · exact h
  unfold secondLook
  split
  · exact hadd _ _ halarm
  · exact halarm

namespace Schedule

/-- **What comes of a wait that begins,** once its jobs have been planned. It may be over at
once. Otherwise its time goes on the agenda, and a second look if there are many jobs. -/
inductive Suspends (t : Schedule P) (id : JobId) (run : Run P) (wait : Wait) : Schedule P → Prop
  | ends {wake : Wake} (hlook : wait.look t.conclusion? run.world.clock = .inl wake) :
      Suspends t id run wait { t with focus := .job id (run.wake run.world wake) }
  | waits {left : Wait} (hlook : wait.look t.conclusion? run.world.clock = .inr left) :
      Suspends t id run wait
        { ({ t with
            agenda := left.secondLook run.world.clock id (left.alarm id t.agenda).2 } :
            Schedule P).setStage id (.waiting run left (left.alarm id t.agenda).1) with
          focus := .agenda run.world }

/-- **What the job does whose turn it is.** It begins, it looks at its wait, or there is
nothing for it to do. -/
inductive Proceeds (E : Engine P) (s : Schedule P) (world : World P) (place : Place) (id : JobId) :
    Schedule P → Prop
  | begins {job : Job} (hstage : s.stage? id = some (.planned job)) :
      Proceeds E s world place id
        { ({ s with agenda := s.agenda.remove place } : Schedule P).setStage id .active with
          focus := .job id (Run.begin E
            { scope := job.scope, world := { world with clock := max world.clock place.time } }
            job.node) }
  | looks {run : Run P} {wait : Wait} {alarm : Option Place}
      (hstage : s.stage? id = some (.waiting run wait alarm)) :
      Proceeds E s world place id
        ((({ s with agenda := s.agenda.remove place } : Schedule P).setStage id .active).attend id
          run wait alarm { world with clock := max world.clock place.time })
  | skips (hplanned : ∀ job, s.stage? id ≠ some (.planned job))
      (hwaiting : ∀ run wait alarm, s.stage? id ≠ some (.waiting run wait alarm)) :
      Proceeds E s world place id
        { s with
          agenda := s.agenda.remove place
          focus := .agenda { world with clock := max world.clock place.time } }

/-- **What a step does** if it does not end the fold. -/
inductive Steps (E : Engine P) (s : Schedule P) : Schedule P → Prop
  | resumes {id : JobId} {run : Run P} {input : Input} (hfocus : s.focus = .job id (.resume run input)) :
      Steps E s { s with focus := .job id (run.turn E input) }
  | suspends {id : JobId} {run : Run P} {await : Await} (hfocus : s.focus = .job id (.wait run await)) :
      Steps E s (s.suspend id run await)
  | settles {id : JobId} {o : Outcome P} (hfocus : s.focus = .job id (.finish o)) (hid : id ≠ root) :
      Steps E s (s.settle id o)
  | proceeds {world : World P} {s' : Schedule P} (hfocus : s.focus = .agenda world)
      (hstep : s.proceed E world = .going s') : Steps E s s'

variable {s s' : Schedule P} {world : World P}

/-- **A wait begins** after its jobs have been planned. -/
theorem suspends (s : Schedule P) (id : JobId) (run : Run P) (await : Await) :
    Suspends (s.planAll run.world.clock id await.jobs).2 id run
      (await.toWait run.world.clock (s.planAll run.world.clock id await.jobs).1)
      (s.suspend id run await) := by
  unfold suspend
  dsimp only
  rw [arrange_eq]
  dsimp only
  split
  next wake hlook => exact .ends hlook
  next left hlook => exact .waits hlook

/-- **The first entry of the agenda is taken off,** and its job has its turn. -/
theorem exists_proceeds (h : s.proceed E world = .going s') : ∃ place id,
    s.agenda.next? = some ((place, id), s.agenda.remove place) ∧
      Proceeds E s world place id s' := by
  unfold proceed at h
  split at h
  next => cases h
  next place id rest hnext =>
    obtain ⟨-, rfl, -⟩ := Agenda.next?_eq_some hnext
    refine ⟨place, id, hnext, ?_⟩
    dsimp only at h
    split at h
    next job hstage =>
      cases h
      exact .begins hstage
    next run wait alarm hstage =>
      cases h
      exact .looks hstage
    next hplanned hwaiting =>
      cases h
      exact .skips hplanned hwaiting

theorem steps (h : s.step E = .going s') : s.Steps E s' := by
  unfold step at h
  split at h
  next hfocus =>
    cases h
    exact .resumes hfocus
  next hfocus =>
    cases h
    exact .suspends hfocus
  next hfocus =>
    split at h
    next => cases h
    next hid =>
      cases h
      exact .settles hfocus hid
  next hfocus => exact .proceeds hfocus h

/-- Only the run of the fold itself ends a fold. -/
theorem focus_of_ended {o : Outcome P} (h : s.step E = .ended o) :
    s.focus = .job root (.finish o) := by
  unfold step at h
  split at h
  next => cases h
  next => cases h
  next id outcome hfocus =>
    split at h
    next hid =>
      cases h
      rw [hfocus, hid]
    next => cases h
  next world _ =>
    unfold proceed at h
    split at h
    next => cases h
    next =>
      dsimp only at h
      split at h <;> cases h

end Schedule

end ProgramGraph
