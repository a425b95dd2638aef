import ProgramGraph.Proofs.Schedule.Step
/-!
# Jobs that have not begun

A job that has been planned has one entry on the agenda, the one that it was planned with,
and nothing else on the schedule is about it: it has asked for no other job, so nobody tells
it anything, and it has no wait that could be due. So when its turn comes it begins, and no
entry for it is left behind.

Whether it has begun or not, a job stays at its stage for as long as it is not its turn. What
it has settled with stays for good.
-/

namespace ProgramGraph

variable {P : Plugins}

namespace Schedule

/-- **Whatever is on a schedule is about a job of it.** -/
structure Numbered (s : Schedule P) : Prop where
  issued : s.agenda.Issued
  entries : ∀ place id, s.agenda.Has place id → id < s.jobs.size
  parents : ∀ id parent, s.parent? id = some parent → parent < s.jobs.size

/-- There is nothing about a job but one entry at most. -/
structure Fallow (s : Schedule P) (id : JobId) : Prop where
  entry : ∀ p q, s.agenda.Has p id → s.agenda.Has q id → p = q
  children : ∀ child, s.parent? child ≠ some id

/-- **Jobs that have not begun lie fallow.** -/
structure Tidy (s : Schedule P) : Prop where
  numbered : s.Numbered
  fallow : ∀ id job, s.stage? id = some (.planned job) → s.Fallow id

/-- The job has begun. -/
def Begun (s : Schedule P) (id : JobId) : Prop :=
  ∃ stage, s.stage? id = some stage ∧ ∀ job, stage ≠ .planned job

variable {s s' : Schedule P} {id : JobId}

theorem Begun.lt_size (h : s.Begun id) : id < s.jobs.size := by
  obtain ⟨stage, hstage, -⟩ := h
  exact lt_size_of_stage? hstage

theorem begun_of_active (h : s.stage? id = some .active) : s.Begun id := ⟨.active, h, nofun⟩

theorem Begun.setStage (h : s.Begun id) (j : JobId) (stage : Stage P)
    (hstage : ∀ job, stage ≠ .planned job) : (s.setStage j stage).Begun id := by
  obtain ⟨before, hbefore, hopen⟩ := h
  by_cases hj : id = j
  · subst hj
    exact ⟨stage, stage?_setStage_self stage (lt_size_of_stage? hbefore), hstage⟩
  · exact ⟨before, (stage?_setStage_of_ne stage hj).trans hbefore, hopen⟩

theorem Begun.plan (h : s.Begun id) (now : Nat) (parent : JobId) (job : Job) :
    (s.plan now parent job).2.Begun id := by
  have hlt := h.lt_size
  obtain ⟨stage, hstage, hopen⟩ := h
  exact ⟨stage, by rw [stage?_plan, if_neg (Nat.ne_of_lt hlt), hstage], hopen⟩

/-! ## Numbers -/

namespace Numbered

theorem setStage (h : s.Numbered) (id : JobId) (stage : Stage P) : (s.setStage id stage).Numbered where
  issued := h.issued
  entries place j hplace := by
    rw [size_setStage]
    exact h.entries place j hplace
  parents j parent hparent := by
    rw [parent?_setStage] at hparent
    rw [size_setStage]
    exact h.parents j parent hparent

theorem add (h : s.Numbered) (hid : id < s.jobs.size) (time : Nat) :
    Numbered { s with agenda := (s.agenda.add time id).2 } where
  issued := h.issued.add time id
  entries place j hplace := by
    rcases (Agenda.has_add h.issued time).1 hplace with ⟨-, rfl⟩ | hplace
    · exact hid
    · exact h.entries place j hplace
  parents := h.parents

theorem remove (h : s.Numbered) (place : Place) :
    Numbered { s with agenda := s.agenda.remove place } where
  issued := h.issued.remove place
  entries other j hother := h.entries other j (Agenda.has_remove.1 hother).2
  parents := h.parents

theorem plan (h : s.Numbered) {parent : JobId} (hparent : parent < s.jobs.size) (now : Nat)
    (job : Job) : (s.plan now parent job).2.Numbered where
  issued := h.issued.add now s.jobs.size
  entries place j hplace := by
    rw [size_plan]
    rcases (Agenda.has_add h.issued now).1 hplace with ⟨-, rfl⟩ | hplace
    · exact Nat.lt_succ_self _
    · exact Nat.lt_succ_of_lt (h.entries place j hplace)
  parents j other hother := by
    rw [parent?_plan] at hother
    rw [size_plan]
    split at hother
    · cases hother
      exact Nat.lt_succ_of_lt hparent
    · exact Nat.lt_succ_of_lt (h.parents j other hother)

/-- Nothing is about a job that does not exist yet. -/
theorem fallow (h : s.Numbered) (hid : s.jobs.size ≤ id) : s.Fallow id where
  entry p _ hp _ := absurd (h.entries p id hp) (Nat.not_lt.2 hid)
  children child hchild := absurd (h.parents child id hchild) (Nat.not_lt.2 hid)

end Numbered

/-! ## What the operations of a schedule do -/

namespace Tidy

theorem setStage (h : s.Tidy) (id : JobId) (stage : Stage P) (hstage : ∀ job, stage ≠ .planned job) :
    (s.setStage id stage).Tidy where
  numbered := h.numbered.setStage id stage
  fallow j job hj := by
    rw [stage?_setStage] at hj
    split at hj
    · exact absurd (Option.some.inj hj) (hstage job)
    · obtain ⟨hentry, hchildren⟩ := h.fallow j job hj
      exact ⟨hentry, fun child => by rw [parent?_setStage]; exact hchildren child⟩

/-- An entry more for a job that has begun. -/
theorem add (h : s.Tidy) (hid : s.Begun id) (time : Nat) :
    Tidy { s with agenda := (s.agenda.add time id).2 } where
  numbered := h.numbered.add hid.lt_size time
  fallow j job hj := by
    obtain ⟨hentry, hchildren⟩ := h.fallow j job hj
    obtain ⟨stage, hstage, hopen⟩ := hid
    have hother : ∀ p, (s.agenda.add time id).2.Has p j → s.agenda.Has p j := by
      intro p hp
      rcases (Agenda.has_add h.numbered.issued time).1 hp with ⟨-, rfl⟩ | hp
      · have hplanned : s.stage? j = some (.planned job) := hj
        rw [hstage] at hplanned
        exact absurd (Option.some.inj hplanned) (hopen job)
      · exact hp
    exact ⟨fun p q hp hq => hentry p q (hother p hp) (hother q hq), hchildren⟩

/-- An entry less. -/
theorem remove (h : s.Tidy) (place : Place) : Tidy { s with agenda := s.agenda.remove place } where
  numbered := h.numbered.remove place
  fallow j job hj := by
    obtain ⟨hentry, hchildren⟩ := h.fallow j job hj
    exact ⟨fun p q hp hq => hentry p q (Agenda.has_remove.1 hp).2 (Agenda.has_remove.1 hq).2,
      hchildren⟩

/-- What is attended to is of no account. -/
theorem withFocus (h : s.Tidy) (focus : Focus P) : Tidy { s with focus } :=
  ⟨⟨h.numbered.issued, h.numbered.entries, h.numbered.parents⟩,
    fun id job hid => ⟨(h.fallow id job hid).entry, (h.fallow id job hid).children⟩⟩

/-- A job more, for one that has begun. -/
theorem plan (h : s.Tidy) (hid : s.Begun id) (now : Nat) (job : Job) :
    (s.plan now id job).2.Tidy where
  numbered := h.numbered.plan hid.lt_size now job
  fallow j other hj := by
    -- it is fallow before, and the new entry is for the new job
    have hbefore : s.Fallow j := by
      rw [stage?_plan] at hj
      split at hj
      next hnew => exact h.numbered.fallow (Nat.le_of_eq hnew.symm)
      next => exact h.fallow j other hj
    have hparent : ∀ child, (s.plan now id job).2.parent? child ≠ some j := by
      intro child hchild
      rw [parent?_plan] at hchild
      split at hchild
      · cases hchild
        obtain ⟨stage, hstage, hopen⟩ := hid.plan now id job
        rw [hj] at hstage
        exact hopen other (Option.some.inj hstage).symm
      · exact hbefore.children child hchild
    refine ⟨fun p q hp hq => ?_, hparent⟩
    rcases (Agenda.has_add h.numbered.issued now).1 hp with ⟨rfl, hj⟩ | hp <;>
      rcases (Agenda.has_add h.numbered.issued now).1 hq with ⟨rfl, hj'⟩ | hq
    · rfl
    · exact absurd (h.numbered.entries q j hq) (hj ▸ Nat.lt_irrefl _)
    · exact absurd (h.numbered.entries p j hp) (hj' ▸ Nat.lt_irrefl _)
    · exact hbefore.entry p q hp hq

theorem planAll (h : s.Tidy) (hid : s.Begun id) (now : Nat) (jobs : List Job) :
    (s.planAll now id jobs).2.Tidy ∧ (s.planAll now id jobs).2.Begun id := by
  induction jobs generalizing s with
  | nil => exact ⟨h, hid⟩
  | cons job jobs ih =>
    rw [planAll_cons]
    exact ih (h.plan hid now job) (hid.plan now id job)

/-! ## Steps -/

theorem suspend (h : s.Tidy) (hid : s.Begun id) (run : Run P) (await : Await) :
    (s.suspend id run await).Tidy := by
  obtain ⟨hplanned, hbegun⟩ := h.planAll hid run.world.clock await.jobs
  have hsuspends := s.suspends id run await
  generalize s.suspend id run await = s' at hsuspends ⊢
  cases hsuspends with
  | ends _ => exact hplanned.withFocus _
  | @waits left _ =>
    generalize (s.planAll run.world.clock id await.jobs).2 = t at hplanned hbegun
    have hlook := left.agenda_induction (motive := fun b => Tidy { t with agenda := b })
      run.world.clock id (hplanned.withFocus t.focus)
      fun b time hb => hb.add (s := { t with agenda := b }) hbegun time
    exact (hlook.setStage id (.waiting run left _) nofun).withFocus _

theorem settle (h : s.Tidy) (id : JobId) (o : Outcome P) : (s.settle id o).Tidy := by
  have hstage := h.setStage id (.settled o.conclusion) nofun
  unfold Schedule.settle
  dsimp only
  split
  next parent hparent =>
    -- who asked for a job has begun
    have hasked : s.parent? id = some parent := hparent
    obtain ⟨stage, hparent⟩ := exists_stage? (h.numbered.parents id parent hasked)
    have hbegun : s.Begun parent := by
      refine ⟨stage, hparent, ?_⟩
      rintro job rfl
      exact (h.fallow parent job hparent).children id hasked
    exact (hstage.add (hbegun.setStage id (.settled o.conclusion) nofun) _).withFocus _
  next => exact hstage.withFocus _

theorem attend (h : s.Tidy) (id : JobId) (run : Run P) (wait : Wait) (alarm : Option Place)
    (world : World P) : (s.attend id run wait alarm world).Tidy := by
  unfold Schedule.attend
  split
  next =>
    cases alarm with
    | none => exact h.withFocus _
    | some place => exact (h.remove place).withFocus _
  next left _ => exact (h.setStage id (.waiting run left alarm) nofun).withFocus _

theorem proceed {E : Engine P} (h : s.Tidy) {world : World P}
    (hstep : s.proceed E world = .going s') : s'.Tidy := by
  obtain ⟨place, id, -, hproceeds⟩ := exists_proceeds hstep
  have hremoved := h.remove place
  cases hproceeds with
  | begins _ => exact (hremoved.setStage id .active nofun).withFocus _
  | looks _ => exact (hremoved.setStage id .active nofun).attend id _ _ _ _
  | skips _ _ => exact hremoved.withFocus _

/-- **A step leaves jobs that have not begun fallow.** -/
theorem step {E : Engine P} (h : s.Tidy)
    (hactive : ∀ id next, s.focus = .job id next → s.stage? id = some .active)
    (hstep : s.step E = .going s') : s'.Tidy := by
  cases steps hstep with
  | resumes _ => exact h.withFocus _
  | suspends hfocus => exact h.suspend (begun_of_active (hactive _ _ hfocus)) _ _
  | settles _ _ => exact h.settle _ _
  | proceeds _ hproceed => exact h.proceed hproceed

/-- **A fold that begins.** -/
theorem start (next : Next P) : (start next).Tidy where
  numbered := by
    refine ⟨Agenda.issued_empty, fun _ _ h => absurd h Agenda.not_has_empty, fun id parent h => ?_⟩
    cases Nat.lt_one_iff.1 (lt_size_of_parent? h)
    cases h
  fallow id job h := by
    cases Nat.lt_one_iff.1 (lt_size_of_stage? h)
    cases h

end Tidy

/-! ## Jobs whose turn it is not -/

variable {j : JobId}

theorem stage?_suspend_of_ne (hj : j < s.jobs.size) (hne : j ≠ id) (run : Run P) (await : Await) :
    (s.suspend id run await).stage? j = s.stage? j := by
  have hplanned : (s.planAll run.world.clock id await.jobs).2.stage? j = s.stage? j :=
    stage?_planAll await.jobs hj
  have hsuspends := s.suspends id run await
  generalize s.suspend id run await = s' at hsuspends ⊢
  cases hsuspends with
  | ends _ => exact hplanned
  | waits _ => exact (stage?_setStage_of_ne _ hne).trans hplanned

/-- **The jobs that a run waits for** are planned, in order. -/
theorem stage?_suspend_of_getElem? (hid : id < s.jobs.size) (run : Run P) {await : Await} {i : Nat}
    {job : Job} (h : await.jobs[i]? = some job) :
    (s.suspend id run await).stage? (s.jobs.size + i) = some (.planned job) := by
  have hplanned : (s.planAll run.world.clock id await.jobs).2.stage? (s.jobs.size + i) =
      some (.planned job) := stage?_planAll_of_getElem? h
  have hne : s.jobs.size + i ≠ id := Nat.ne_of_gt (Nat.lt_of_lt_of_le hid (Nat.le_add_right _ i))
  have hsuspends := s.suspends id run await
  generalize s.suspend id run await = s' at hsuspends ⊢
  cases hsuspends with
  | ends _ => exact hplanned
  | waits _ => exact (stage?_setStage_of_ne _ hne).trans hplanned

theorem stage?_attend_of_ne (hne : j ≠ id) (run : Run P) (wait : Wait) (alarm : Option Place)
    (world : World P) : (s.attend id run wait alarm world).stage? j = s.stage? j := by
  unfold Schedule.attend
  split
  next => rfl
  next => exact stage?_setStage_of_ne _ hne

/-- **A job stays at its stage until its turn comes.** -/
theorem stage?_of_step {E : Engine P} (hstep : s.step E = .going s') (hj : j < s.jobs.size)
    (hidle : ∀ next, s.focus ≠ .job j next) :
    s'.stage? j = s.stage? j ∨
      ∃ world place, s.agenda.Has place j ∧ Proceeds E s world place j s' := by
  cases steps hstep with
  | resumes _ => exact .inl rfl
  | suspends hfocus =>
    exact .inl (stage?_suspend_of_ne hj (fun heq => hidle _ (heq ▸ hfocus)) _ _)
  | settles hfocus _ =>
    exact .inl (stage?_setStage_of_ne _ fun heq => hidle _ (heq ▸ hfocus))
  | @proceeds world _ _ hproceed =>
    obtain ⟨place, id, hnext, hproceeds⟩ := exists_proceeds hproceed
    by_cases hne : j = id
    · obtain rfl := hne
      exact .inr ⟨world, place, (Agenda.next?_eq_some hnext).1, hproceeds⟩
    · cases hproceeds with
      | begins _ => exact .inl (stage?_setStage_of_ne _ hne)
      | looks _ => exact .inl ((stage?_attend_of_ne hne _ _ _ _).trans (stage?_setStage_of_ne _ hne))
      | skips _ _ => exact .inl rfl

/-- **What a job has settled with stays.** -/
theorem conclusion?_of_step {E : Engine P}
    (hactive : ∀ id next, s.focus = .job id next → s.stage? id = some .active) {c : Conclusion}
    (hc : s.conclusion? j = some c) (hstep : s.step E = .going s') : s'.conclusion? j = some c := by
  rw [conclusion?_eq_some] at hc ⊢
  have hidle : ∀ next, s.focus ≠ .job j next := fun next hfocus =>
    nomatch (hactive j next hfocus).symm.trans hc
  rcases stage?_of_step hstep (lt_size_of_stage? hc) hidle with hsame | ⟨world, place, -, hproceeds⟩
  · exact hsame.trans hc
  · -- there is nothing for it to do
    cases hproceeds with
    | begins hstage => cases hstage.symm.trans hc
    | looks hstage => cases hstage.symm.trans hc
    | skips _ _ => exact hc

end Schedule

end ProgramGraph
