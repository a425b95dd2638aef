import ProgramGraph.Proofs.Schedule.Step
/-!
# Schedules that keep what is expected of them

A prospect says how each job of a schedule is going to end, at what time, and
how much work it still makes. `Schedule.Holds` is the invariant that ties a
schedule to it: a job that is planned, or waits, becomes by itself what the
prospect says, at the time that the prospect says if it goes on when it should;
and there is something on the agenda, for it or for a job that it waits for,
because of which it will.

So the first entry of the agenda is never later than a job has to go on
(`Holds.exists_entry`). One job at a time may be exempt, namely the one whose
turn it is.
-/

namespace ProgramGraph

variable {P : Plugins} {E : Engine P}

/-- What is to become of the jobs of a schedule. -/
structure Prospect where
  report : JobId → Report
  /-- When the job settles. -/
  due : JobId → Nat
  /-- How much work it still makes. -/
  work : JobId → Nat

namespace Prospect

/-- How a job ends, for the one who waits for it. -/
def ending (p : Prospect) (id : JobId) : Conclusion := (p.report id).conclusion

/-- The prospect with other work left of a job. -/
def setWork (p : Prospect) (id : JobId) (n : Nat) : Prospect :=
  { p with work := fun j => if j = id then n else p.work j }

/-- The prospect with the fate of one more job, which begins now. -/
def add (p : Prospect) (id : JobId) (fate : Fate) (now : Nat) : Prospect where
  report j := if j = id then fate.report else p.report j
  due j := if j = id then now + fate.duration else p.due j
  work j := if j = id then fate.work else p.work j

/-- The work of the first `n` jobs. -/
def total (p : Prospect) : Nat → Nat
  | 0 => 0
  | n + 1 => p.total n + p.work n

theorem total_congr {p p' : Prospect} {n : Nat} (h : ∀ id, id < n → p'.work id = p.work id) :
    p'.total n = p.total n := by
  induction n with
  | zero => rfl
  | succ n ih => rw [total, total, ih fun id hid => h id (by omega), h n (by omega)]

theorem total_setWork {p : Prospect} {id n : Nat} (h : id < n) (w : Nat) :
    (p.setWork id w).total n + p.work id = p.total n + w := by
  induction n with
  | zero => omega
  | succ n ih =>
    rw [total, total]
    by_cases hid : id = n
    · subst hid
      have hrest : (p.setWork id w).total id = p.total id :=
        total_congr fun j hj => if_neg (Nat.ne_of_lt hj)
      have hwork : (p.setWork id w).work id = w := if_pos rfl
      omega
    · have hwork : (p.setWork id w).work n = p.work n := if_neg fun h => hid h.symm
      have := ih (by omega)
      omega

end Prospect

namespace Schedule

variable {p : Prospect} {s : Schedule P} {now : Nat} {id : JobId}

/-- **A job waits for good reason.** What comes of its wait is known, and at
that time it goes on: because a job that it waits for settles then, or because
of an entry of its own. -/
structure Awaits (p : Prospect) (s : Schedule P) (now : Nat) (id : JobId) (wait : Wait)
    (alarm : Option Place) (wake : Wake) (time : Nat) : Prop where
  resolves : wait.Resolves p.ending p.due wake time
  later : now ≤ time
  children : ∀ child ∈ wait.ids, s.parent? child = some id
  cause : (∃ child ∈ wait.ids, s.conclusion? child = none ∧ p.due child = time) ∨
    ∃ place, s.agenda.Has place id ∧ place.time = time ∧ (wait.due? = some time ∨ time ≤ now)
  alarm : ∀ place ∈ alarm, place.ticket < s.agenda.ticket ∧
    ∀ job, s.agenda.Has place job → job = id

/-- **The stage of a job fits the prospect.** -/
def Fits (E : Engine P) (p : Prospect) (s : Schedule P) (now : Nat) (id : JobId) :
    Stage P → Prop
  | .planned job => ∃ d,
      (∀ world : World P, Solo E (Run.begin E { scope := job.scope, world } job.node)
        (p.report id) d (p.work id)) ∧
      (∃ place, s.agenda.Has place id) ∧
      ∀ place, s.agenda.Has place id → place.time + d = p.due id
  | .active => False
  | .waiting run wait alarm => ∃ wake time d,
      (∀ world : World P, Solo E (run.wake world wake) (p.report id) d (p.work id)) ∧
      time + d = p.due id ∧ s.Awaits p now id wait alarm wake time
  | .settled c => c = p.ending id ∧ p.due id ≤ now

/-- **A schedule keeps what is expected of it** at a time. The job whose turn
it is may be in the middle of something. -/
structure Holds (E : Engine P) (p : Prospect) (s : Schedule P) (now : Nat)
    (busy : Option JobId) : Prop where
  issued : s.agenda.Issued
  entries : ∀ place id, s.agenda.Has place id → id < s.jobs.size ∧ now ≤ place.time
  parents : ∀ id parent, s.parent? id = some parent →
    parent < id ∧ ∀ job, s.stage? parent ≠ some (.planned job)
  stages : ∀ id stage, s.stage? id = some stage → busy ≠ some id → s.Fits E p now id stage
  busy : ∀ id, busy = some id → s.conclusion? id = none → now ≤ p.due id

namespace Holds

variable {busy : Option JobId}

/-- **A job that has not settled is not late.** -/
theorem now_le_due (h : Holds E p s now busy) (hid : id < s.jobs.size)
    (hopen : s.conclusion? id = none) : now ≤ p.due id := by
  by_cases hbusy : busy = some id
  · exact h.busy id hbusy hopen
  · obtain ⟨stage, hstage⟩ := exists_stage? hid
    have hfits := h.stages id stage hstage hbusy
    cases stage with
    | planned job =>
      obtain ⟨d, -, ⟨place, hplace⟩, hall⟩ := hfits
      have := (h.entries place id hplace).2
      have := hall place hplace
      omega
    | active => exact hfits.elim
    | waiting run wait alarm =>
      obtain ⟨wake, time, d, -, hdue, hawaits⟩ := hfits
      have := hawaits.later
      omega
    | settled c =>
      rw [conclusion?_eq_some.2 hstage] at hopen
      cases hopen

/-- A job that has settled did so in time, and as it was to. -/
theorem settled (h : Holds E p s now busy) (hbusy : busy ≠ some id) {c : Conclusion}
    (hc : s.conclusion? id = some c) : c = p.ending id ∧ p.due id ≤ now :=
  h.stages id (.settled c) (conclusion?_eq_some.1 hc) hbusy

/-- **Something on the agenda is not later** than a job that has not settled is
due. -/
theorem exists_entry (h : Holds E p s now none) (hid : id < s.jobs.size)
    (hopen : s.conclusion? id = none) :
    ∃ place job, s.agenda.Has place job ∧ place.time ≤ p.due id := by
  -- jobs that are waited for have greater numbers
  induction hn : s.jobs.size - id using Nat.strongRecOn generalizing id with
  | _ n ih =>
    obtain ⟨stage, hstage⟩ := exists_stage? hid
    have hfits := h.stages id stage hstage (by simp)
    cases stage with
    | planned job =>
      obtain ⟨d, -, ⟨place, hplace⟩, hall⟩ := hfits
      exact ⟨place, id, hplace, by have := hall place hplace; omega⟩
    | active => exact hfits.elim
    | waiting run wait alarm =>
      obtain ⟨wake, time, d, -, hdue, hawaits⟩ := hfits
      rcases hawaits.cause with ⟨child, hchild, hopen, htime⟩ | ⟨place, hplace, htime, -⟩
      · have hparent := hawaits.children child hchild
        have hlt := (h.parents child id hparent).1
        have hsize := lt_size_of_parent? hparent
        have hless : s.jobs.size - child < n := by
          rw [← hn]
          exact Nat.sub_lt_sub_left hid hlt
        obtain ⟨place, job, hplace, hle⟩ := ih (s.jobs.size - child) hless hsize hopen rfl
        exact ⟨place, job, hplace, by omega⟩
      · exact ⟨place, id, hplace, by omega⟩
    | settled c =>
      rw [conclusion?_eq_some.2 hstage] at hopen
      cases hopen

/-- **Nor later than a job that waits has to go on.** -/
theorem exists_entry_of_awaits (h : Holds E p s now none) {wait : Wait} {alarm : Option Place}
    {wake : Wake} {time : Nat} (hawaits : s.Awaits p now id wait alarm wake time) :
    ∃ place job, s.agenda.Has place job ∧ place.time ≤ time := by
  rcases hawaits.cause with ⟨child, hchild, hopen, rfl⟩ | ⟨place, hplace, htime, -⟩
  · exact h.exists_entry (lt_size_of_parent? (hawaits.children child hchild)) hopen
  · exact ⟨place, id, hplace, by omega⟩

end Holds

/-! ## What a step leaves to the other jobs -/

/-- A wait resolves in the same way if its jobs end in the same way. -/
theorem resolves_congr {ending ending' : JobId → Conclusion} {due due' : JobId → Nat}
    {wait : Wait} {wake : Wake} {time : Nat} (h : wait.Resolves ending due wake time)
    (hsame : ∀ id ∈ wait.ids, ending' id = ending id ∧ due' id = due id) :
    wait.Resolves ending' due' wake time := by
  cases wait with
  | timer limit answer => exact h
  | job id =>
    obtain ⟨hending, hdue⟩ := hsame id (List.mem_singleton.2 rfl)
    rw [Wait.Resolves, hending, hdue]
    exact h
  | all found rest =>
    obtain ⟨hwake, hall⟩ := h
    have hmap : rest.map ending' = rest.map ending :=
      List.map_congr_left fun id hid => (hsame id hid).1
    refine ⟨by rw [hmap]; exact hwake, fun id hid => ?_⟩
    rw [(hsame id hid).2]
    exact hall id hid
  | first ids =>
    obtain ⟨id, hid, hwake, htime, hfirst⟩ := h
    obtain ⟨hending, hdue⟩ := hsame id hid
    refine ⟨id, hid, by rw [hending]; exact hwake, by rw [hdue]; exact htime,
      fun other hother => ?_⟩
    obtain ⟨hending', hdue'⟩ := hsame other hother
    rw [hending, hdue, hending', hdue']
    exact hfirst other hother
  | deadline limit id =>
    obtain ⟨hending, hdue⟩ := hsame id (List.mem_singleton.2 rfl)
    rw [Wait.Resolves, hending, hdue]
    exact h

/-- **Only one job takes a step.** The others keep their stages and entries,
and a job that waits for the one that moves is told when that one settles. -/
structure Moves (p : Prospect) (s : Schedule P) (now : Nat) (p' : Prospect) (s' : Schedule P)
    (now' : Nat) (id : JobId) : Prop where
  now_le : now ≤ now'
  report : ∀ j, j < s.jobs.size → p'.report j = p.report j
  due : ∀ j, j < s.jobs.size → p'.due j = p.due j
  work : ∀ j, j < s.jobs.size → j ≠ id → p'.work j = p.work j
  stage : ∀ j, j < s.jobs.size → j ≠ id → s'.stage? j = s.stage? j
  parent : ∀ j, j < s.jobs.size → s'.parent? j = s.parent? j
  told : ∀ parent, s.parent? id = some parent → s.conclusion? id = none →
    s'.conclusion? id = none ∨
      p.due id = now' ∧ ∃ place, s'.agenda.Has place parent ∧ place.time = now'
  begun : ∀ job, s'.stage? id = some (.planned job) → s.stage? id = some (.planned job)
  grown : ∀ j parent, s.jobs.size ≤ j → s'.parent? j = some parent →
    parent = id ∧ id < s.jobs.size ∧ ∀ job, s.stage? id ≠ some (.planned job)
  kept : ∀ place j, j ≠ id → s.agenda.Has place j → s'.agenda.Has place j
  new : ∀ place j, s'.agenda.Has place j → s.agenda.Has place j ∨
    s.agenda.ticket ≤ place.ticket ∧ (j < s.jobs.size → ∀ job, s.stage? j ≠ some (.planned job))
  ticket : s.agenda.ticket ≤ s'.agenda.ticket
  issued : s'.agenda.Issued
  entries : ∀ place j, s'.agenda.Has place j → j < s'.jobs.size ∧ now' ≤ place.time

namespace Moves

variable {p' : Prospect} {s' : Schedule P} {now' : Nat}

/-- What a job waits for, it still does. -/
theorem awaits (m : Moves p s now p' s' now' id) {j : JobId} (hj : j ≠ id) {wait : Wait}
    {alarm : Option Place} {wake : Wake} {time : Nat}
    (h : s.Awaits p now j wait alarm wake time) (hlater : now' ≤ time) :
    s'.Awaits p' now' j wait alarm wake time := by
  have hsize : ∀ child ∈ wait.ids, child < s.jobs.size := fun child hchild =>
    lt_size_of_parent? (h.children child hchild)
  refine ⟨?_, hlater, fun child hchild => ?_, ?_, fun place hplace => ?_⟩
  · refine resolves_congr h.resolves fun child hchild => ⟨?_, m.due child (hsize child hchild)⟩
    rw [Prospect.ending, m.report child (hsize child hchild)]
    rfl
  · rw [m.parent child (hsize child hchild)]
    exact h.children child hchild
  · rcases h.cause with ⟨child, hchild, hopen, rfl⟩ | ⟨place, hplace, rfl, hwhy⟩
    · have hdue := m.due child (hsize child hchild)
      by_cases hmoves : child = id
      -- the job that is waited for is the one that moves: it has not settled, or it has told
      · subst hmoves
        rcases m.told j (h.children child hchild) hopen with hopen | ⟨rfl, place, hplace, htime⟩
        · exact .inl ⟨child, hchild, hopen, hdue⟩
        · exact .inr ⟨place, hplace, htime, .inr (Nat.le_refl _)⟩
      · refine .inl ⟨child, hchild, ?_, hdue⟩
        rw [conclusion?, m.stage child (hsize child hchild) hmoves]
        exact hopen
    · refine .inr ⟨place, m.kept place j hj hplace, rfl, hwhy.imp_right fun hle => ?_⟩
      exact Nat.le_trans hle m.now_le
  · obtain ⟨hticket, honly⟩ := h.alarm place hplace
    refine ⟨Nat.lt_of_lt_of_le hticket m.ticket, fun job hjob => ?_⟩
    rcases m.new place job hjob with hhas | ⟨hle, -⟩
    · exact honly job hhas
    · omega

/-- **The stage of another job still fits.** -/
theorem fits (m : Moves p s now p' s' now' id) {j : JobId} (hj : j ≠ id) {stage : Stage P}
    (hstage : s.stage? j = some stage) (h : s.Fits E p now j stage)
    (hlater : ∀ wait alarm wake time, s.Awaits p now j wait alarm wake time → now' ≤ time) :
    s'.Fits E p' now' j stage := by
  have hsize := lt_size_of_stage? hstage
  have hreport := m.report j hsize
  have hdue := m.due j hsize
  have hwork := m.work j hsize hj
  cases stage with
  | planned job =>
    obtain ⟨d, hsolo, ⟨place, hplace⟩, hall⟩ := h
    refine ⟨d, ?_, ⟨place, m.kept place j hj hplace⟩, fun place hplace => ?_⟩
    · rw [hreport, hwork]
      exact hsolo
    · rw [hdue]
      rcases m.new place j hplace with hhas | ⟨-, hnot⟩
      · exact hall place hhas
      · exact absurd hstage (hnot hsize job)
  | active => exact h
  | waiting run wait alarm =>
    obtain ⟨wake, time, d, hsolo, htime, hawaits⟩ := h
    refine ⟨wake, time, d, ?_, by rw [hdue]; exact htime, ?_⟩
    · rw [hreport, hwork]
      exact hsolo
    · exact m.awaits hj hawaits (hlater _ _ _ _ hawaits)
  | settled c =>
    obtain ⟨rfl, hle⟩ := h
    refine ⟨?_, by rw [hdue]; exact Nat.le_trans hle m.now_le⟩
    rw [Prospect.ending, Prospect.ending, hreport]

end Moves

namespace Holds

variable {busy busy' : Option JobId} {p' : Prospect} {s' : Schedule P} {now' : Nat}

/-- **A schedule in which one job takes a step** keeps what is expected of it,
if that job does. -/
theorem of_moves (h : Holds E p s now busy) (m : Moves p s now p' s' now' id)
    (hbusy : ∀ j, busy = some j → j = id) (hbusy' : ∀ j, busy' = some j → j = id)
    (hlater : ∀ j wait alarm wake time, s.Awaits p now j wait alarm wake time → now' ≤ time)
    (hself : ∀ stage, s'.stage? id = some stage → busy' ≠ some id → s'.Fits E p' now' id stage)
    (hnew : ∀ j stage, s.jobs.size ≤ j → s'.stage? j = some stage → s'.Fits E p' now' j stage)
    (hdue : s'.conclusion? id = none → now' ≤ p'.due id) :
    Holds E p' s' now' busy' where
  issued := m.issued
  entries := m.entries
  parents := by
    intro j parent hparent
    rcases Nat.lt_or_ge j s.jobs.size with hj | hj
    · rw [m.parent j hj] at hparent
      obtain ⟨hlt, hnot⟩ := h.parents j parent hparent
      refine ⟨hlt, fun job => ?_⟩
      by_cases hmoves : parent = id
      · rw [hmoves] at hnot ⊢
        exact fun hjob => hnot job (m.begun job hjob)
      · rw [m.stage parent (Nat.lt_trans hlt hj) hmoves]
        exact hnot job
    -- a job that is new was planned by the one that moves
    · obtain ⟨rfl, hlt, hnot⟩ := m.grown j parent hj hparent
      exact ⟨Nat.lt_of_lt_of_le hlt hj, fun job hjob => hnot job (m.begun job hjob)⟩
  stages := by
    intro j stage hstage hfree
    by_cases hmoves : j = id
    · subst hmoves
      exact hself stage hstage hfree
    · rcases Nat.lt_or_ge j s.jobs.size with hj | hj
      · rw [m.stage j hj hmoves] at hstage
        have hfits := h.stages j stage hstage fun hj => hmoves (hbusy j hj)
        exact m.fits hmoves hstage hfits (hlater j)
      · exact hnew j stage hj hstage
  busy := by
    intro j hj
    obtain rfl := hbusy' j hj
    exact hdue

end Holds

end Schedule

end ProgramGraph
