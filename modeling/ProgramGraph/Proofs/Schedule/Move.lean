import ProgramGraph.Proofs.Schedule.Prospect
/-!
# Moves of one job

What the job whose turn it is can do to a schedule, one thing at a time: change
its stage, plan jobs, put entries on the agenda and take them off, or be handed
the turn by the first entry. Each keeps what is expected of the schedule
(`Schedule.Holds`), and the steps of a schedule are made of these.
-/

namespace ProgramGraph

variable {P : Plugins} {E : Engine P}

namespace Schedule

variable {p : Prospect} {s s' : Schedule P} {now : Nat} {id : JobId} {busy : Option JobId}

/-- What a job waits for can be told from the jobs and the agenda. -/
theorem Awaits.congr {wait : Wait} {alarm : Option Place} {wake : Wake} {time : Nat}
    (h : s.Awaits p now id wait alarm wake time) (hjobs : s'.jobs = s.jobs)
    (hagenda : s'.agenda = s.agenda) : s'.Awaits p now id wait alarm wake time := by
  obtain ⟨jobs, agenda, focus⟩ := s
  obtain ⟨jobs', agenda', focus'⟩ := s'
  cases hjobs
  cases hagenda
  exact ⟨h.resolves, h.later, h.children, h.cause, h.alarm⟩

/-- A move that changes nothing but the agenda. -/
theorem Moves.of_agenda {agenda : Agenda} {now' : Nat} (hle : now ≤ now')
    (hkept : ∀ place j, j ≠ id → s.agenda.Has place j → agenda.Has place j)
    (hnew : ∀ place j, agenda.Has place j → s.agenda.Has place j ∨
      s.agenda.ticket ≤ place.ticket ∧ (j < s.jobs.size → ∀ job, s.stage? j ≠ some (.planned job)))
    (hticket : s.agenda.ticket ≤ agenda.ticket) (hissued : agenda.Issued)
    (hentries : ∀ place j, agenda.Has place j → j < s.jobs.size ∧ now' ≤ place.time) :
    Moves p s now p { s with agenda } now' id where
  now_le := hle
  report := fun _ _ => rfl
  due := fun _ _ => rfl
  work := fun _ _ _ => rfl
  stage := fun _ _ _ => rfl
  parent := fun _ _ => rfl
  told := fun _ _ hopen => .inl hopen
  begun := fun _ hjob => hjob
  grown := fun _ _ hj hparent => absurd (lt_size_of_parent? hparent) (Nat.not_lt.2 hj)
  kept := hkept
  new := hnew
  ticket := hticket
  issued := hissued
  entries := hentries

namespace Holds

/-- **What is attended to is of no account.** -/
theorem congr (h : Holds E p s now busy) (hjobs : s'.jobs = s.jobs)
    (hagenda : s'.agenda = s.agenda) : Holds E p s' now busy := by
  have hstage : ∀ j, s'.stage? j = s.stage? j := fun j => by rw [stage?, stage?, hjobs]
  have hparent : ∀ j, s'.parent? j = s.parent? j := fun j => by rw [parent?, parent?, hjobs]
  have hconclusion : ∀ j, s'.conclusion? j = s.conclusion? j := fun j => by
    rw [conclusion?, conclusion?, hstage]
  refine ⟨by rw [hagenda]; exact h.issued, by rw [hagenda, hjobs]; exact h.entries, fun j parent => ?_,
    fun j stage hj hfree => ?_, fun j hj => ?_⟩
  · rw [hparent, hstage]
    exact h.parents j parent
  · rw [hstage] at hj
    have hfits := h.stages j stage hj hfree
    cases stage with
    | planned job =>
      rw [Fits, hagenda]
      exact hfits
    | active => exact hfits
    | waiting run wait alarm =>
      obtain ⟨wake, time, d, hsolo, htime, hawaits⟩ := hfits
      exact ⟨wake, time, d, hsolo, htime, hawaits.congr hjobs hagenda⟩
    | settled c => exact hfits
  · rw [hconclusion]
    exact h.busy j hj

/-- **The turn of a job ends** if its stage fits. -/
theorem release (h : Holds E p s now (some id))
    (hfits : ∀ stage, s.stage? id = some stage → s.Fits E p now id stage) :
    Holds E p s now none where
  issued := h.issued
  entries := h.entries
  parents := h.parents
  stages := by
    intro j stage hstage _
    by_cases hj : j = id
    · subst hj
      exact hfits stage hstage
    · exact h.stages j stage hstage fun hid => hj (Option.some.inj hid).symm
  busy := by
    intro j hj
    cases hj

/-- A step of the job whose turn it is, which it keeps, and with which no job
is added and no time passes. -/
theorem of_own_move (h : Holds E p s now (some id)) {p' : Prospect}
    (m : Moves p s now p' s' now id) (hsize : s'.jobs.size = s.jobs.size)
    (hdue : s'.conclusion? id = none → now ≤ p'.due id) : Holds E p' s' now (some id) := by
  have hself : ∀ j, some id = some j → j = id := fun j hj => (Option.some.inj hj).symm
  refine h.of_moves m hself hself (fun j wait alarm wake time hawaits => hawaits.later)
    (fun stage _ hfree => absurd rfl hfree) (fun j stage hj hstage => ?_) hdue
  have hlt := lt_size_of_stage? hstage
  rw [hsize] at hlt
  exact absurd hlt (Nat.not_lt.2 hj)

/-- **The work that is left of a job** whose turn it is can be told anew. -/
theorem setWork (h : Holds E p s now (some id)) (w : Nat) :
    Holds E (p.setWork id w) s now (some id) := by
  refine h.of_own_move ?_ rfl (h.busy id rfl)
  have m : Moves p s now p s now id :=
    .of_agenda (Nat.le_refl _) (fun _ _ _ hplace => hplace) (fun _ _ hplace => .inl hplace)
      (Nat.le_refl _) h.issued h.entries
  exact { m with work := fun j _ hj => if_neg hj }

/-- **The job whose turn it is changes its stage.** If it settles, then on
time, and the job that asked for it is on the agenda. -/
theorem setStage (h : Holds E p s now (some id)) (hopen : s.conclusion? id = none)
    (stage : Stage P) (hbegun : ∀ job, stage ≠ .planned job)
    (htold : ∀ c, stage = .settled c → p.due id = now ∧ ∀ parent, s.parent? id = some parent →
      ∃ place, s.agenda.Has place parent ∧ place.time = now) :
    Holds E p (s.setStage id stage) now (some id) := by
  refine h.of_own_move ?_ (size_setStage s id stage) fun _ => h.busy id rfl hopen
  exact {
    now_le := Nat.le_refl _
    report := fun j _ => rfl
    due := fun j _ => rfl
    work := fun j _ _ => rfl
    stage := fun j _ hj => stage?_setStage_of_ne stage hj
    parent := fun j _ => parent?_setStage s id stage j
    told := by
      intro parent hparent _
      have hstage := stage?_setStage_self stage (lt_size_of_parent? hparent)
      cases hconclusion : (s.setStage id stage).conclusion? id with
      | none => exact .inl rfl
      | some c =>
        rw [conclusion?_eq_some, hstage] at hconclusion
        obtain ⟨hdue, hentry⟩ := htold c (Option.some.inj hconclusion)
        exact .inr ⟨hdue, hentry parent hparent⟩
    begun := by
      intro job hjob
      rw [stage?_setStage] at hjob
      split at hjob
      · exact absurd (Option.some.inj hjob) (hbegun job)
      · exact hjob
    grown := by
      intro j parent hj hparent
      rw [parent?_setStage] at hparent
      exact absurd (lt_size_of_parent? hparent) (Nat.not_lt.2 hj)
    kept := fun place j _ hplace => hplace
    new := fun place j hplace => .inl hplace
    ticket := Nat.le_refl _
    issued := h.issued
    entries := by
      intro place j hplace
      rw [size_setStage]
      exact h.entries place j hplace }

/-- **An entry is put on the agenda** for a job that has begun. -/
theorem add (h : Holds E p s now (some id)) {time : Nat} (htime : now ≤ time) {job : JobId}
    (hjob : job < s.jobs.size) (hbegun : ∀ asked, s.stage? job ≠ some (.planned asked)) :
    Holds E p { s with agenda := (s.agenda.add time job).2 } now (some id) := by
  have m : Moves p s now p { s with agenda := (s.agenda.add time job).2 } now id := by
    refine .of_agenda (Nat.le_refl _) (fun place j _ hplace => hplace.add h.issued time job) ?_
      (Nat.le_succ _) (h.issued.add time job) ?_
    · intro place j hplace
      rcases (Agenda.has_add h.issued time).1 hplace with ⟨rfl, rfl⟩ | hplace
      · exact .inr ⟨Nat.le_refl _, fun _ => hbegun⟩
      · exact .inl hplace
    · intro place j hplace
      rcases (Agenda.has_add h.issued time).1 hplace with ⟨rfl, rfl⟩ | hplace
      · exact ⟨hjob, htime⟩
      · exact h.entries place j hplace
  exact h.of_own_move m rfl (h.busy id rfl)

/-- **An entry of the job whose turn it is** is taken off the agenda. -/
theorem remove (h : Holds E p s now (some id)) {place : Place}
    (hplace : ∀ job, s.agenda.Has place job → job = id) :
    Holds E p { s with agenda := s.agenda.remove place } now (some id) := by
  have m : Moves p s now p { s with agenda := s.agenda.remove place } now id := by
    refine .of_agenda (Nat.le_refl _) ?_ (fun other j hother => .inl (Agenda.has_remove.1 hother).2)
      (Nat.le_refl _) (h.issued.remove place)
      (fun other j hother => h.entries other j (Agenda.has_remove.1 hother).2)
    intro other j hj hother
    refine Agenda.has_remove.2 ⟨?_, hother⟩
    rintro rfl
    exact hj (hplace j hother)
  exact h.of_own_move m rfl (h.busy id rfl)

/-- **Some job is next** if the fold is not over. -/
theorem next?_ne_none (h : Holds E p s now none) (hid : id < s.jobs.size)
    (hopen : s.conclusion? id = none) : s.agenda.next? ≠ none := by
  obtain ⟨place, job, hplace, -⟩ := h.exists_entry hid hopen
  exact Agenda.next?_ne_none hplace

/-- **The turn goes to the job of the first entry,** at the time of that
entry. Nothing should have happened before. -/
theorem take (h : Holds E p s now none) {place : Place} {rest : Agenda}
    (hnext : s.agenda.next? = some ((place, id), rest)) :
    Holds E p { s with agenda := rest } place.time (some id) ∧ now ≤ place.time ∧
      ∀ wait alarm wake time, s.Awaits p now id wait alarm wake time → place.time ≤ time := by
  obtain ⟨hplace, rfl, hfirst⟩ := Agenda.next?_eq_some hnext
  have hlater : ∀ j wait alarm wake time, s.Awaits p now j wait alarm wake time →
      place.time ≤ time := by
    intro j wait alarm wake time hawaits
    obtain ⟨other, job, hother, hle⟩ := h.exists_entry_of_awaits hawaits
    exact Nat.le_trans (hfirst other job hother) hle
  have m : Moves p s now p { s with agenda := s.agenda.remove place } place.time id := by
    refine .of_agenda (h.entries place id hplace).2 ?_
      (fun other j hother => .inl (Agenda.has_remove.1 hother).2) (Nat.le_refl _)
      (h.issued.remove place) ?_
    · intro other j hj hother
      refine Agenda.has_remove.2 ⟨?_, hother⟩
      rintro rfl
      exact hj (hother.unique hplace)
    · intro other j hother
      have hother := (Agenda.has_remove.1 hother).2
      exact ⟨(h.entries other j hother).1, hfirst other j hother⟩
  refine ⟨?_, (h.entries place id hplace).2, hlater id⟩
  refine h.of_moves m (fun j hj => by cases hj) (fun j hj => (Option.some.inj hj).symm) hlater
    (fun stage _ hfree => absurd rfl hfree)
    (fun j stage hj hstage => absurd (lt_size_of_stage? hstage) (Nat.not_lt.2 hj))
    (fun hopen => ?_)
  obtain ⟨other, job, hother, hle⟩ := h.exists_entry (h.entries place id hplace).1 hopen
  exact Nat.le_trans (hfirst other job hother) hle

/-- **The job whose turn it is plans another one.** -/
theorem plan (h : Holds E p s now (some id)) (hid : id < s.jobs.size)
    (hbegun : ∀ job, s.stage? id ≠ some (.planned job)) {job : Job} {fate : Fate}
    (hfate : ∀ world : World P, Solo E (Run.begin E { scope := job.scope, world } job.node)
      fate.report fate.duration fate.work) :
    Holds E (p.add s.jobs.size fate now) (s.plan now id job).2 now (some id) := by
  have hne : id ≠ s.jobs.size := Nat.ne_of_lt hid
  have hold : ∀ j, j < s.jobs.size → j ≠ s.jobs.size := fun j hj => Nat.ne_of_lt hj
  have hstage : ∀ j, j < s.jobs.size → (s.plan now id job).2.stage? j = s.stage? j := fun j hj => by
    rw [stage?_plan, if_neg (hold j hj)]
  have hparent : ∀ j, j < s.jobs.size → (s.plan now id job).2.parent? j = s.parent? j :=
    fun j hj => by rw [parent?_plan, if_neg (hold j hj)]
  have hconclusion : (s.plan now id job).2.conclusion? id = s.conclusion? id := by
    rw [conclusion?, conclusion?, hstage id hid]
  have hhas : ∀ place j, (s.plan now id job).2.agenda.Has place j ↔
      place = ⟨now, s.agenda.ticket⟩ ∧ j = s.jobs.size ∨ s.agenda.Has place j :=
    fun place j => Agenda.has_add h.issued now
  have m : Moves p s now (p.add s.jobs.size fate now) (s.plan now id job).2 now id := {
    now_le := Nat.le_refl _
    report := fun j hj => if_neg (hold j hj)
    due := fun j hj => if_neg (hold j hj)
    work := fun j hj _ => if_neg (hold j hj)
    stage := fun j hj _ => hstage j hj
    parent := hparent
    told := fun parent _ hopen => .inl (hconclusion.trans hopen)
    begun := by
      intro asked hasked
      rw [hstage id hid] at hasked
      exact hasked
    grown := by
      intro j parent hj hj'
      rw [parent?_plan] at hj'
      split at hj'
      · exact ⟨(Option.some.inj hj').symm, hid, hbegun⟩
      · exact absurd (lt_size_of_parent? hj') (Nat.not_lt.2 hj)
    kept := fun place j _ hplace => hplace.add h.issued now s.jobs.size
    new := by
      intro place j hplace
      rcases (hhas place j).1 hplace with ⟨rfl, rfl⟩ | hplace
      · exact .inr ⟨Nat.le_refl _, fun hlt => absurd hlt (Nat.lt_irrefl _)⟩
      · exact .inl hplace
    ticket := Nat.le_succ _
    issued := h.issued.add now s.jobs.size
    entries := by
      intro place j hplace
      rw [size_plan]
      rcases (hhas place j).1 hplace with ⟨rfl, rfl⟩ | hplace
      · exact ⟨Nat.lt_succ_self _, Nat.le_refl _⟩
      · obtain ⟨hlt, hle⟩ := h.entries place j hplace
        exact ⟨Nat.lt_succ_of_lt hlt, hle⟩ }
  have hself : ∀ j, some id = some j → j = id := fun j hj => (Option.some.inj hj).symm
  refine h.of_moves m hself hself (fun j wait alarm wake time hawaits => hawaits.later)
    (fun stage _ hfree => absurd rfl hfree) ?_ ?_
  · intro j stage hj hj'
    rw [stage?_plan] at hj'
    split at hj'
    next hnew =>
      subst hnew
      cases hj'
      refine ⟨fate.duration, ?_, ⟨⟨now, s.agenda.ticket⟩, (hhas _ _).2 (.inl ⟨rfl, rfl⟩)⟩, ?_⟩
      · have hreport : (p.add s.jobs.size fate now).report s.jobs.size = fate.report := if_pos rfl
        have hwork : (p.add s.jobs.size fate now).work s.jobs.size = fate.work := if_pos rfl
        rw [hreport, hwork]
        exact hfate
      · intro place hplace
        have hdue : (p.add s.jobs.size fate now).due s.jobs.size = now + fate.duration := if_pos rfl
        rw [hdue]
        rcases (hhas _ _).1 hplace with ⟨rfl, -⟩ | hplace
        · rfl
        · exact absurd (h.entries _ _ hplace).1 (Nat.lt_irrefl _)
    next => exact absurd (lt_size_of_stage? hj') (Nat.not_lt.2 hj)
  · intro hopen
    rw [hconclusion] at hopen
    have hdue : (p.add s.jobs.size fate now).due id = p.due id := if_neg hne
    rw [hdue]
    exact h.busy id rfl hopen

end Holds

end Schedule

end ProgramGraph
