import ProgramGraph.Proofs.Schedule.Move
/-!
# The beginning of a wait

A run that has to wait has its jobs planned, and then is put aside or, if there
is nothing to wait for, goes on at once. What is known of the jobs' fates
(`Solo`) becomes part of what is expected of the schedule.
-/

namespace ProgramGraph

variable {P : Plugins} {E : Engine P}

namespace Prospect

variable {p : Prospect} {now : Nat} {ids : List JobId}

/-- **Jobs have fates** that begin now. -/
def Tells (p : Prospect) (now : Nat) (ids : List JobId) (fates : List (Conclusion × Nat)) : Prop :=
  ids.map (fun id => (p.ending id, p.due id)) = fates.map fun fate => (fate.1, now + fate.2)

namespace Tells

variable {fates : List (Conclusion × Nat)}

theorem length_eq (h : p.Tells now ids fates) : ids.length = fates.length := by
  have := congrArg List.length h
  simpa only [List.length_map] using this

theorem ending_eq (h : p.Tells now ids fates) : ids.map p.ending = fates.map Prod.fst := by
  have := congrArg (List.map Prod.fst) h
  simpa only [List.map_map, Function.comp_def] using this

theorem exists_id (h : p.Tells now ids fates) {fate : Conclusion × Nat} (hfate : fate ∈ fates) :
    ∃ id ∈ ids, p.ending id = fate.1 ∧ p.due id = now + fate.2 := by
  have hmem : (fate.1, now + fate.2) ∈ ids.map fun id => (p.ending id, p.due id) := by
    rw [h]
    exact List.mem_map.2 ⟨fate, hfate, rfl⟩
  obtain ⟨id, hid, hpair⟩ := List.mem_map.1 hmem
  rw [Prod.mk.injEq] at hpair
  exact ⟨id, hid, hpair⟩

theorem exists_fate (h : p.Tells now ids fates) {id : JobId} (hid : id ∈ ids) :
    ∃ fate ∈ fates, p.ending id = fate.1 ∧ p.due id = now + fate.2 := by
  have hmem : (p.ending id, p.due id) ∈ fates.map fun fate => (fate.1, now + fate.2) := by
    rw [← h]
    exact List.mem_map.2 ⟨id, hid, rfl⟩
  obtain ⟨fate, hfate, hpair⟩ := List.mem_map.1 hmem
  rw [Prod.mk.injEq] at hpair
  exact ⟨fate, hfate, hpair.1.symm, hpair.2.symm⟩

/-- The fate of one job. -/
theorem of_single {fate : Conclusion × Nat} (h : p.Tells now ids [fate]) :
    ∃ id, ids = [id] ∧ p.ending id = fate.1 ∧ p.due id = now + fate.2 := by
  obtain ⟨id, rfl⟩ := List.length_eq_one_iff.1 h.length_eq
  obtain ⟨other, hother, hpair⟩ := h.exists_id List.mem_cons_self
  rw [List.mem_singleton.1 hother] at hpair
  exact ⟨id, rfl, hpair⟩

end Tells

end Prospect

/-- The latest of some times is one of them, or there is nothing to wait for. -/
theorem foldl_max_spec (times : List Nat) (bound : Nat) :
    (∀ time ∈ times, time ≤ times.foldl max bound) ∧ bound ≤ times.foldl max bound ∧
      (times.foldl max bound = bound ∨ times.foldl max bound ∈ times) := by
  induction times generalizing bound with
  | nil => exact ⟨by simp, Nat.le_refl _, .inl rfl⟩
  | cons time times ih =>
    obtain ⟨hall, hbound, hattained⟩ := ih (max bound time)
    rw [List.foldl_cons]
    refine ⟨List.forall_mem_cons.2 ⟨by omega, hall⟩, by omega, ?_⟩
    rcases hattained with heq | hmem
    · rw [heq]
      rcases Nat.le_total bound time with hle | hle
      · exact .inr (List.mem_cons.2 (.inl (Nat.max_eq_right hle)))
      · exact .inl (Nat.max_eq_left hle)
    · exact .inr (List.mem_cons_of_mem _ hmem)

/-- **A wait for jobs that have been planned** comes to what the wait comes to by
itself. -/
theorem Await.Resolves.toWait {await : Await} {fates : List (Conclusion × Nat)} {wake : Wake}
    {delay : Nat} (h : await.Resolves fates wake delay) (hlength : fates.length = await.jobs.length)
    {p : Prospect} {now : Nat} {ids : List JobId} (htells : p.Tells now ids fates) :
    (await.toWait now ids).Resolves p.ending p.due wake (now + delay) ∧
      ((await.toWait now ids).due? = some (now + delay) ∨ now + delay ≤ now ∨
        ∃ id ∈ (await.toWait now ids).ids, p.due id = now + delay) := by
  cases await with
  | timer ms answer =>
    obtain ⟨rfl, rfl⟩ := h
    exact ⟨⟨rfl, rfl⟩, .inl rfl⟩
  | job job =>
    obtain ⟨fate, rfl⟩ := List.length_eq_one_iff.1 hlength
    obtain ⟨id, rfl, hending, hdue⟩ := htells.of_single
    obtain ⟨other, hother, rfl, rfl⟩ := h
    rw [List.mem_singleton.1 hother]
    refine ⟨⟨by rw [← hending]; rfl, hdue.symm⟩, .inr (.inr ⟨id, List.mem_cons_self, hdue⟩)⟩
  | all jobs =>
    obtain ⟨rfl, rfl⟩ := h
    obtain ⟨hall, -, hattained⟩ := foldl_max_spec (fates.map Prod.snd) 0
    -- the last of the jobs ends the wait; without jobs it is over at once
    refine ⟨⟨by rw [← htells.ending_eq]; rfl, fun id hid => ?_⟩, .inr ?_⟩
    · obtain ⟨fate, hfate, -, hdue⟩ := htells.exists_fate hid
      have := hall fate.2 (List.mem_map.2 ⟨fate, hfate, rfl⟩)
      omega
    · rcases hattained with hzero | hmem
      · exact .inl (by omega)
      · obtain ⟨fate, hfate, hlast⟩ := List.mem_map.1 hmem
        obtain ⟨id, hid, -, hdue⟩ := htells.exists_id hfate
        exact .inr ⟨id, hid, by rw [hdue, hlast]⟩
  | first job others =>
    obtain ⟨fate, hfate, rfl, rfl, hfirst⟩ := h
    obtain ⟨id, hid, hending, hdue⟩ := htells.exists_id hfate
    refine ⟨⟨id, hid, by rw [hending], hdue.symm, fun other hother => ?_⟩,
      .inr (.inr ⟨id, hid, hdue⟩)⟩
    -- a branch that is as fast as the winner ends as the winner does
    obtain ⟨fate', hfate', hending', hdue'⟩ := htells.exists_fate hother
    obtain ⟨hle, hsame⟩ := hfirst fate' hfate'
    refine ⟨by omega, fun htie => ?_⟩
    rw [hending, hending', hsame (by omega)]
  | deadline ms job =>
    obtain ⟨fate, rfl⟩ := List.length_eq_one_iff.1 hlength
    obtain ⟨id, rfl, hending, hdue⟩ := htells.of_single
    obtain ⟨other, hother, hres⟩ := h
    rw [List.mem_singleton.1 hother] at hres
    have hlimit : Wait.dueAfter now ms = now + min ms Wait.longest := rfl
    rcases hres with ⟨hlt, rfl, rfl⟩ | ⟨hlt, rfl, rfl⟩
    · refine ⟨.inl ⟨?_, by rw [← hending]; rfl, hdue.symm⟩,
        .inr (.inr ⟨id, List.mem_cons_self, hdue⟩)⟩
      show p.due id < Wait.dueAfter now ms
      omega
    · refine ⟨.inr ⟨?_, rfl, rfl⟩, .inl rfl⟩
      show Wait.dueAfter now ms < p.due id
      omega

namespace Schedule

variable {p p' : Prospect} {s s' : Schedule P} {now : Nat} {id : JobId} {ids : List JobId}
  {fates : List Fate}

/-- **Jobs have been planned** for a job, and nothing else has changed. -/
structure Plans (p : Prospect) (s : Schedule P) (p' : Prospect) (s' : Schedule P) (now : Nat)
    (id : JobId) (ids : List JobId) (fates : List Fate) : Prop where
  report : ∀ j, j < s.jobs.size → p'.report j = p.report j
  due : ∀ j, j < s.jobs.size → p'.due j = p.due j
  work : ∀ j, j < s.jobs.size → p'.work j = p.work j
  stage : ∀ j, j < s.jobs.size → s'.stage? j = s.stage? j
  tells : p'.Tells now ids (fates.map Fate.ending)
  children : ∀ child ∈ ids, s'.parent? child = some id ∧ s'.conclusion? child = none
  parent : ∀ j, j < s.jobs.size → s'.parent? j = s.parent? j
  size : s.jobs.size ≤ s'.jobs.size
  total : p'.total s'.jobs.size = p.total s.jobs.size + Fate.total fates
  agenda : s'.agenda.size ≤ s.agenda.size + fates.length

theorem Plans.refl : Plans p s p s now id [] [] where
  report := fun _ _ => rfl
  due := fun _ _ => rfl
  work := fun _ _ => rfl
  stage := fun _ _ => rfl
  tells := rfl
  children := fun _ h => by cases h
  parent := fun _ _ => rfl
  size := Nat.le_refl _
  total := rfl
  agenda := Nat.le_refl _

/-- One job, and then the others. -/
theorem Plans.cons {job : Job} {fate : Fate}
    (h : Plans (p.add s.jobs.size fate now) (s.plan now id job).2 p' s' now id ids fates) :
    Plans p s p' s' now id (s.jobs.size :: ids) (fate :: fates) := by
  have hsize : (s.plan now id job).2.jobs.size = s.jobs.size + 1 := size_plan s now id job
  have hself : s.jobs.size < (s.plan now id job).2.jobs.size := by
    rw [hsize]
    exact Nat.lt_succ_self _
  have hlift : ∀ j, j < s.jobs.size → j < (s.plan now id job).2.jobs.size := fun j hj =>
    Nat.lt_trans hj hself
  have hne : ∀ j, j < s.jobs.size → j ≠ s.jobs.size := fun j hj => Nat.ne_of_lt hj
  refine ⟨?_, ?_, ?_, ?_, ?_, ?_, ?_, ?_, ?_, ?_⟩
  · intro j hj
    rw [h.report j (hlift j hj)]
    exact if_neg (hne j hj)
  · intro j hj
    rw [h.due j (hlift j hj)]
    exact if_neg (hne j hj)
  · intro j hj
    rw [h.work j (hlift j hj)]
    exact if_neg (hne j hj)
  · intro j hj
    rw [h.stage j (hlift j hj), stage?_plan, if_neg (hne j hj)]
  · have hreport : p'.report s.jobs.size = fate.report :=
      (h.report _ hself).trans (if_pos rfl)
    have hdue : p'.due s.jobs.size = now + fate.duration := (h.due _ hself).trans (if_pos rfl)
    have htail := h.tells
    unfold Prospect.Tells at htail ⊢
    rw [List.map_cons, List.map_cons, List.map_cons, htail, Prospect.ending, hreport, hdue]
    rfl
  · rw [List.forall_mem_cons]
    refine ⟨⟨?_, ?_⟩, h.children⟩
    · rw [h.parent _ hself, parent?_plan, if_pos rfl]
    · rw [conclusion?, h.stage _ hself, stage?_plan, if_pos rfl]
  · intro j hj
    rw [h.parent j (hlift j hj), parent?_plan, if_neg (hne j hj)]
  · exact Nat.le_of_lt (Nat.lt_of_lt_of_le hself h.size)
  · have hnew : (p.add s.jobs.size fate now).work s.jobs.size = fate.work := if_pos rfl
    have hold : (p.add s.jobs.size fate now).total s.jobs.size = p.total s.jobs.size :=
      Prospect.total_congr fun j hj => if_neg (hne j hj)
    rw [h.total, hsize, Prospect.total, hold, hnew, Fate.total_cons]
    omega
  · have hadd : (s.plan now id job).2.agenda.size ≤ s.agenda.size + 1 :=
      Agenda.size_add_le now s.jobs.size
    have hrest := h.agenda
    rw [List.length_cons]
    omega

/-- **The jobs that a run waits for are planned.** -/
theorem Holds.planAll (h : Holds E p s now (some id)) (hid : id < s.jobs.size)
    (hbegun : ∀ job, s.stage? id ≠ some (.planned job)) {jobs : List Job}
    (hlength : fates.length = jobs.length)
    (hfates : ∀ (i : Nat) (job : Job) (fate : Fate), jobs[i]? = some job → fates[i]? = some fate →
      ∀ world : World P, Solo E (Run.begin E { scope := job.scope, world } job.node)
        fate.report fate.duration fate.work) :
    ∃ p', Holds E p' (s.planAll now id jobs).2 now (some id) ∧
      Plans p s p' (s.planAll now id jobs).2 now id (s.planAll now id jobs).1 fates := by
  induction jobs generalizing s p fates with
  | nil =>
    obtain rfl := List.length_eq_zero_iff.1 hlength
    exact ⟨p, h, .refl⟩
  | cons job jobs ih =>
    obtain ⟨fate, fates, rfl⟩ := List.exists_cons_of_length_eq_add_one hlength
    have hplan := h.plan hid hbegun (hfates 0 job fate rfl rfl)
    have hid' : id < (s.plan now id job).2.jobs.size := by
      rw [size_plan]
      exact Nat.lt_succ_of_lt hid
    have hbegun' : ∀ asked, (s.plan now id job).2.stage? id ≠ some (.planned asked) := by
      rw [stage?_plan, if_neg (Nat.ne_of_lt hid)]
      exact hbegun
    obtain ⟨p', hholds, hplans⟩ := ih hplan hid' hbegun' (Nat.succ.inj hlength)
      fun i job fate hjob hfate => hfates (i + 1) job fate hjob hfate
    rw [planAll_cons]
    exact ⟨p', hholds, hplans.cons⟩

end Schedule

end ProgramGraph
