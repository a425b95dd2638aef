import ProgramGraph.Proofs.Schedule.Step
/-!
# What a move of one job leaves alone

Whatever the job whose turn it is does, other jobs stay at the stage that they
have come to, with the entries that they have on the agenda, and a place that has
been given out is never given to another job. So whatever is true of another job
by its stage, its children and its entries stays true, as long as it is told when a
child of it settles.
-/

namespace ProgramGraph

variable {P : Plugins}

/-- **The entries of other jobs stay,** and entries that are new have new
places. -/
structure Agenda.Spares (id : JobId) (a a' : Agenda) : Prop where
  entries : ∀ place j, j ≠ id → a.Has place j → a'.Has place j
  ticket : a.ticket ≤ a'.ticket
  old : ∀ place j, a'.Has place j → a.Has place j ∨ a.ticket ≤ place.ticket
  issued : a'.Issued

namespace Agenda.Spares

variable {id : JobId} {a a' a'' : Agenda}

theorem refl (ha : a.Issued) : a.Spares id a :=
  ⟨fun _ _ _ h => h, Nat.le_refl _, fun _ _ h => .inl h, ha⟩

theorem trans (h : a.Spares id a') (h' : a'.Spares id a'') : a.Spares id a'' where
  entries place j hj hplace := h'.entries place j hj (h.entries place j hj hplace)
  ticket := Nat.le_trans h.ticket h'.ticket
  old place j hplace := by
    rcases h'.old place j hplace with hplace | hticket
    · exact h.old place j hplace
    · exact .inr (Nat.le_trans h.ticket hticket)
  issued := h'.issued

/-- An entry more, for whatever job. -/
theorem add (ha : a.Issued) (time : Nat) (job : JobId) : a.Spares id (a.add time job).2 where
  entries _ _ _ hplace := hplace.add ha time job
  ticket := Nat.le_succ _
  old place j hplace := by
    rcases (has_add ha time).1 hplace with ⟨rfl, -⟩ | hplace
    · exact .inr (Nat.le_refl _)
    · exact .inl hplace
  issued := ha.add time job

/-- An entry less, if there is one and it is for the job itself. -/
theorem remove (ha : a.Issued) {place : Place} (hown : ∀ j, a.Has place j → j = id) :
    a.Spares id (a.remove place) where
  entries other j hj hother := by
    refine has_remove.2 ⟨?_, hother⟩
    rintro rfl
    exact hj (hown j hother)
  ticket := Nat.le_refl _
  old _ _ hother := .inl (has_remove.1 hother).2
  issued := ha.remove place

end Agenda.Spares

namespace Schedule

/-- **All jobs but one are left alone.** -/
structure Spares (id : JobId) (s s' : Schedule P) : Prop where
  size : s.jobs.size ≤ s'.jobs.size
  stage : ∀ j, j < s.jobs.size → j ≠ id → s'.stage? j = s.stage? j
  parent : ∀ j, j < s.jobs.size → s'.parent? j = s.parent? j
  agenda : s.agenda.Spares id s'.agenda

/-- **Who waits for a job is told** when it settles. -/
def Tells (id : JobId) (s s' : Schedule P) : Prop :=
  s.conclusion? id = none → ∀ parent, s.parent? id = some parent →
    s'.conclusion? id = none ∨ ∃ place, s'.agenda.Has place parent

/-- **A wait that somebody is going to look at again.** Its jobs know who waits for
them, and come after the one that does. The place that is kept for its time is
nobody else's, and is still there if only the time is waited for. There is an entry
for the wait, or a job that has not settled. -/
structure Minds (s : Schedule P) (id : JobId) (wait : Wait) (alarm : Option Place) : Prop where
  children : ∀ child ∈ wait.ids, id < child ∧ child < s.jobs.size ∧ s.parent? child = some id
  own : ∀ place ∈ alarm, place.ticket < s.agenda.ticket ∧ ∀ j, s.agenda.Has place j → j = id
  timer : ∀ due answer, wait = .timer due answer →
    ∃ place ∈ alarm, s.agenda.Has place id ∧ place.time = due
  ids : (∀ due answer, wait ≠ .timer due answer) → wait.ids ≠ []
  reason : (∃ place, s.agenda.Has place id) ∨ ∃ child ∈ wait.ids, s.conclusion? child = none

variable {id j : JobId} {s s' s'' : Schedule P}

/-- A job that does not settle has nothing to tell. -/
theorem tells_of_open {stage : Stage P} (hstage : s'.stage? id = some stage)
    (hopen : ∀ c, stage ≠ .settled c) : s.Tells id s' := by
  refine fun _ _ _ => .inl ?_
  unfold Schedule.conclusion?
  rw [hstage]
  cases stage with
  | settled c => exact absurd rfl (hopen c)
  | _ => rfl

namespace Spares

theorem refl (hs : s.agenda.Issued) : s.Spares id s :=
  ⟨Nat.le_refl _, fun _ _ _ => rfl, fun _ _ => rfl, .refl hs⟩

theorem trans (h : s.Spares id s') (h' : s'.Spares id s'') : s.Spares id s'' where
  size := Nat.le_trans h.size h'.size
  stage j hj hne := (h'.stage j (Nat.lt_of_lt_of_le hj h.size) hne).trans (h.stage j hj hne)
  parent j hj := (h'.parent j (Nat.lt_of_lt_of_le hj h.size)).trans (h.parent j hj)
  agenda := h.agenda.trans h'.agenda

theorem withAgenda (h : s.Spares id s') {agenda : Agenda} (hagenda : s'.agenda.Spares id agenda) :
    s.Spares id { s' with agenda } :=
  ⟨h.size, h.stage, h.parent, h.agenda.trans hagenda⟩

/-- The job comes to another stage. -/
theorem setStage (h : s.Spares id s') (stage : Stage P) : s.Spares id (s'.setStage id stage) where
  size := by
    rw [size_setStage]
    exact h.size
  stage j hj hne := (stage?_setStage_of_ne stage hne).trans (h.stage j hj hne)
  parent j hj := (parent?_setStage s' id stage j).trans (h.parent j hj)
  agenda := h.agenda

/-- The job plans another one. -/
theorem plan (hs : s.agenda.Issued) (now : Nat) (parent : JobId) (job : Job) :
    s.Spares id (s.plan now parent job).2 where
  size := by
    rw [size_plan]
    exact Nat.le_succ _
  stage j hj _ := by rw [stage?_plan, if_neg (Nat.ne_of_lt hj)]
  parent j hj := by rw [parent?_plan, if_neg (Nat.ne_of_lt hj)]
  agenda := .add hs now s.jobs.size

/-- Who has settled stays so. -/
theorem conclusion? (h : s.Spares id s') (hj : j < s.jobs.size) (hne : j ≠ id) :
    s'.conclusion? j = s.conclusion? j := by
  unfold Schedule.conclusion?
  rw [h.stage j hj hne]

/-- **The waits of other jobs are minded as before,** if who waits for the job is
told when it settles. -/
theorem minds (h : s.Spares id s') (hne : j ≠ id) (htold : s.Tells id s') {wait : Wait} {alarm : Option Place}
    (hminds : s.Minds j wait alarm) : s'.Minds j wait alarm where
  children child hchild := by
    obtain ⟨hlt, hsize, hparent⟩ := hminds.children child hchild
    exact ⟨hlt, Nat.lt_of_lt_of_le hsize h.size, (h.parent child hsize).trans hparent⟩
  own place hplace := by
    obtain ⟨hticket, hown⟩ := hminds.own place hplace
    refine ⟨Nat.lt_of_lt_of_le hticket h.agenda.ticket, fun other hother => ?_⟩
    rcases h.agenda.old place other hother with hother | hnew
    · exact hown other hother
    · exact absurd hticket (Nat.not_lt.2 hnew)
  timer due answer htimer := by
    obtain ⟨place, hplace, hhas, htime⟩ := hminds.timer due answer htimer
    exact ⟨place, hplace, h.agenda.entries place j hne hhas, htime⟩
  ids := hminds.ids
  reason := by
    rcases hminds.reason with ⟨place, hplace⟩ | ⟨child, hchild, hopen⟩
    · exact .inl ⟨place, h.agenda.entries place j hne hplace⟩
    · obtain ⟨-, hsize, hparent⟩ := hminds.children child hchild
      by_cases hid : child = id
      · subst hid
        rcases htold hopen j hparent with hopen | hplace
        · exact .inr ⟨child, hchild, hopen⟩
        · exact .inl hplace
      · exact .inr ⟨child, hchild, (h.conclusion? hsize hid).trans hopen⟩

end Spares

/-- **What is planned is left alone by nobody but the agenda:** new jobs have
numbers of their own, wait for their turn and know who has asked for them. -/
structure Planned (asked : JobId → Job) (parent : JobId) (s s' : Schedule P) : Prop where
  spares : ∀ id, s.Spares id s'
  new : ∀ j, s.jobs.size ≤ j → j < s'.jobs.size →
    s'.stage? j = some (.planned (asked j)) ∧ s'.parent? j = some parent ∧
      ∃ place, s'.agenda.Has place j

/-- **Jobs are planned,** each under a number that stands for it from then on. -/
theorem exists_planned (hs : s.agenda.Issued) (now : Nat) (parent : JobId) (asked : JobId → Job)
    (jobs : List Job) :
    ∃ asked', (∀ j, j < s.jobs.size → asked' j = asked j) ∧
      (s.planAll now parent jobs).1.map asked' = jobs ∧
      Planned asked' parent s (s.planAll now parent jobs).2 ∧
      ∀ j ∈ (s.planAll now parent jobs).1,
        s.jobs.size ≤ j ∧ j < (s.planAll now parent jobs).2.jobs.size := by
  induction jobs generalizing s asked with
  | nil =>
    refine ⟨asked, fun _ _ => rfl, rfl, ⟨fun _ => .refl hs, fun j hj hj' => ?_⟩, nofun⟩
    exact absurd hj (Nat.not_le.2 hj')
  | cons job jobs ih =>
    have hfirst : ∀ id, s.Spares id (s.plan now parent job).2 := fun id => .plan hs now parent job
    have hsize : (s.plan now parent job).2.jobs.size = s.jobs.size + 1 := size_plan s now parent job
    obtain ⟨asked', hsame, hmap, ⟨hspares, hnew⟩, hids⟩ := ih (hfirst parent).agenda.issued
      fun j => if j = s.jobs.size then job else asked j
    rw [planAll_cons]
    rw [hsize] at hsame hnew hids
    have hjob : asked' s.jobs.size = job := (hsame _ (Nat.lt_succ_self _)).trans (if_pos rfl)
    refine ⟨asked', fun j hj => ?_, ?_, ⟨fun id => (hfirst id).trans (hspares id), ?_⟩, ?_⟩
    · exact (hsame j (Nat.lt_succ_of_lt hj)).trans (if_neg (Nat.ne_of_lt hj))
    · rw [List.map_cons, hjob, hmap]
    · intro j hj hj'
      rcases Nat.eq_or_lt_of_le hj with rfl | hlt
      · -- the first of them is not touched by the others
        have hin : s.jobs.size < (s.plan now parent job).2.jobs.size := by omega
        have hspare := hspares (s.jobs.size + 1)
        refine ⟨?_, ?_, _, hspare.agenda.entries _ _ (Nat.ne_of_lt (Nat.lt_succ_self _))
          (Agenda.has_add_self hs now)⟩
        · rw [hspare.stage _ hin (Nat.ne_of_lt (Nat.lt_succ_self _)), stage?_plan, if_pos rfl, hjob]
        · rw [hspare.parent _ hin, parent?_plan, if_pos rfl]
      · exact hnew j hlt hj'
    · have hle := (hspares parent).size
      rw [hsize] at hle
      refine List.forall_mem_cons.2 ⟨⟨Nat.le_refl _, hle⟩, fun j hj => ?_⟩
      exact ⟨Nat.le_of_succ_le (hids j hj).1, (hids j hj).2⟩

end Schedule

end ProgramGraph
