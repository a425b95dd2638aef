import ProgramGraph.Engine.Fold
import ProgramGraph.Proofs.Schedule.Clock
import ProgramGraph.Proofs.Schedule.Suspend
/-!
# A schedule comes to what its jobs come to

If it is known what becomes of a run by itself (`Solo`), then the schedule that
begins with it ends, and with just that: whatever the order in which the jobs
take turns, and whatever they do to the world. Each step keeps what is expected
of the schedule and makes its effort less, the work that is left of all jobs
and the entries on the agenda.
-/

namespace ProgramGraph

variable {P : Plugins} {E : Engine P}

/-- A time that is waited for is still to come. -/
theorem Await.le_of_due?_toWait {await : Await} {now due : Nat} {ids : List JobId}
    (h : (await.toWait now ids).due? = some due) : now ≤ due := by
  cases await with
  | timer ms answer =>
    cases h
    exact Nat.le_add_right _ _
  | job job => cases h
  | all jobs => cases h
  | first job others => cases h
  | deadline ms job =>
    cases h
    exact Nat.le_add_right _ _

namespace Schedule

variable {p : Prospect} {s : Schedule P} {now : Nat} {id : JobId}

/-- **What is attended to fits the prospect:** a job that becomes what is
expected of it, or the agenda. -/
def Attends (E : Engine P) (p : Prospect) (s : Schedule P) (now : Nat) : Focus P → Prop
  | .job id next => next.world.clock = now ∧ s.stage? id = some .active ∧
      Holds E p s now (some id) ∧
      ∃ d, Solo E next (p.report id) d (p.work id) ∧ now + d = p.due id
  | .agenda world => world.clock = now ∧ Holds E p s now none

/-- **A schedule that is going on as expected.** -/
structure Keeps (E : Engine P) (p : Prospect) (s : Schedule P) (now : Nat) : Prop where
  attends : s.Attends E p now s.focus
  exists_root : root < s.jobs.size
  root_open : s.conclusion? root = none

/-- The effort that a schedule still takes. -/
def effort (p : Prospect) (s : Schedule P) : Nat := p.total s.jobs.size + s.agenda.size

/-- **A step has led on:** the schedule is going on, nothing is expected anew
of the fold, and less effort is left. -/
def LeadsOn (E : Engine P) (p : Prospect) (s s' : Schedule P) : Prop :=
  ∃ p' now', Keeps E p' s' now' ∧ p'.report root = p.report root ∧ p'.due root = p.due root ∧
    s'.effort p' < s.effort p

/-- A job at another stage has not settled if the stage is not the last. -/
theorem conclusion?_setStage_eq_none {j : JobId} {stage : Stage P} (h : s.conclusion? j = none)
    (hstage : j = id → ∀ c, stage ≠ .settled c) : (s.setStage id stage).conclusion? j = none := by
  cases hc : (s.setStage id stage).conclusion? j with
  | none => rfl
  | some c =>
    rw [conclusion?_eq_some, stage?_setStage] at hc
    split at hc
    next hj => exact absurd (Option.some.inj hc) (hstage hj.1 c)
    next => rw [conclusion?_eq_some.2 hc] at h; cases h

theorem conclusion?_setStage_active {j : JobId} (h : s.conclusion? j = none) :
    (s.setStage id .active).conclusion? j = none :=
  conclusion?_setStage_eq_none h fun _ c h => by cases h

/-- **A turn leads on.** -/
theorem Keeps.resume {run : Run P} {input : Input} (h : Keeps E p s now)
    (hfocus : s.focus = .job id (.resume run input)) :
    LeadsOn E p s { s with focus := .job id (run.turn E input) } := by
  have hattends := h.attends
  rw [hfocus] at hattends
  obtain ⟨hclock, hactive, hholds, d, hsolo, hdue⟩ := hattends
  -- the turn is paid for with the work of the job
  obtain ⟨left, hwork, hturn⟩ := hsolo.of_resume
  have hset : (p.setWork id left).work id = left := if_pos rfl
  refine ⟨p.setWork id left, now, ⟨⟨?_, hactive, ?_, d, ?_, hdue⟩, h.exists_root, h.root_open⟩,
    rfl, rfl, ?_⟩
  · rw [run.world_turn_clock]
    exact hclock
  · exact (hholds.setWork left).congr rfl rfl
  · rw [hset]
    exact hturn
  · have htotal := Prospect.total_setWork (p := p) (lt_size_of_stage? hactive) left
    show (p.setWork id left).total s.jobs.size + s.agenda.size < p.total s.jobs.size + s.agenda.size
    omega

/-- **A job that ends settles,** and the job that asked for it is told. -/
theorem Keeps.settle {o : Outcome P} (h : Keeps E p s now) (hroot : id ≠ root)
    (hfocus : s.focus = .job id (.finish o)) : LeadsOn E p s (s.settle id o) := by
  have hattends := h.attends
  rw [hfocus] at hattends
  obtain ⟨hclock, hactive, hholds, d, hsolo, hdue⟩ := hattends
  obtain ⟨hreport, rfl, hwork⟩ := hsolo.of_finish
  have hid := lt_size_of_stage? hactive
  have hopen : s.conclusion? id = none := by rw [conclusion?, hactive]
  have hconclusion : o.conclusion = p.ending id := by
    rw [Prospect.ending, hreport]
    rfl
  -- the entry for the job that asked, if there is one, is made first
  obtain ⟨agenda, hagenda, hadded, htold, hsize⟩ : ∃ agenda,
      (s.settle id o).agenda = agenda ∧ Holds E p { s with agenda } now (some id) ∧
      (∀ parent, s.parent? id = some parent → ∃ place, agenda.Has place parent ∧
        place.time = now) ∧ agenda.size ≤ s.agenda.size + 1 := by
    cases hparent : s.parent? id with
    | none =>
      refine ⟨s.agenda, ?_, hholds, (fun parent h => by cases h), Nat.le_succ _⟩
      unfold parent? at hparent
      simp only [Schedule.settle, hparent]
      rfl
    | some parent =>
      obtain ⟨hlt, hnot⟩ := hholds.parents id parent hparent
      refine ⟨(s.agenda.add now parent).2, ?_,
        hholds.add (Nat.le_refl _) (Nat.lt_trans hlt hid) hnot, ?_, Agenda.size_add_le _ _⟩
      · unfold parent? at hparent
        have hclock : o.run.world.clock = now := hclock
        simp only [Schedule.settle, hparent, hclock]
        rfl
      · intro other hother
        cases hother
        exact ⟨_, Agenda.has_add_self hholds.issued now, rfl⟩
  have hset := (hadded.setStage hopen (.settled o.conclusion) (fun job h => by cases h)
    fun c _ => ⟨hdue.symm, htold⟩).setWork 0
  have hsettled : (s.settle id o).stage? id = some (.settled o.conclusion) :=
    stage?_setStage_self (.settled o.conclusion) hid
  have hjobs : (s.settle id o).jobs.size = s.jobs.size := size_setStage s id _
  -- a job that has settled makes no more work, which pays for the new entry
  refine ⟨p.setWork id 0, now, ⟨⟨hclock, ?_⟩, ?_, ?_⟩, rfl, rfl, ?_⟩
  · have hself : Holds E (p.setWork id 0) (s.settle id o) now (some id) := hset.congr rfl hagenda
    refine hself.release fun stage hstage => ?_
    rw [hsettled] at hstage
    cases hstage
    exact ⟨hconclusion, Nat.le_of_eq hdue.symm⟩
  · rw [hjobs]
    exact h.exists_root
  · exact conclusion?_setStage_eq_none h.root_open fun hj => absurd hj.symm hroot
  · have htotal := Prospect.total_setWork (p := p) hid 0
    unfold effort
    rw [hjobs, hagenda]
    omega

/-- **The time of a wait** is put on the agenda. -/
theorem Holds.alarm (h : Holds E p s now (some id)) (hid : id < s.jobs.size)
    (hbegun : ∀ job, s.stage? id ≠ some (.planned job)) (wait : Wait)
    (hfuture : ∀ due, wait.due? = some due → now ≤ due) :
    Holds E p { s with agenda := (wait.alarm id s.agenda).2 } now (some id) ∧
      (wait.alarm id s.agenda).2.size ≤ s.agenda.size + 1 ∧
      (∀ due, wait.due? = some due → ∃ place, (wait.alarm id s.agenda).2.Has place id ∧
        place.time = due) ∧
      ∀ place ∈ (wait.alarm id s.agenda).1, place.ticket < (wait.alarm id s.agenda).2.ticket ∧
        (wait.alarm id s.agenda).2.Has place id := by
  unfold Wait.alarm
  cases hdue : wait.due? with
  | none => exact ⟨h, Nat.le_succ _, nofun, nofun⟩
  | some due =>
    have hself : (s.agenda.add due id).2.Has (s.agenda.add due id).1 id :=
      Agenda.has_add_self h.issued due
    refine ⟨h.add (hfuture due hdue) hid hbegun, Agenda.size_add_le _ _, ?_, ?_⟩
    · intro other hother
      cases hother
      exact ⟨_, hself, rfl⟩
    · intro place hplace
      cases hplace
      exact ⟨Nat.lt_succ_self _, hself⟩

/-- **A second look** is put on the agenda. -/
theorem Holds.secondLook (h : Holds E p s now (some id)) (hid : id < s.jobs.size)
    (hbegun : ∀ job, s.stage? id ≠ some (.planned job)) (wait : Wait) :
    Holds E p { s with agenda := wait.secondLook now id s.agenda } now (some id) ∧
      (wait.secondLook now id s.agenda).size ≤ s.agenda.size + 1 ∧
      s.agenda.ticket ≤ (wait.secondLook now id s.agenda).ticket ∧
      ∀ place, s.agenda.Has place id → (wait.secondLook now id s.agenda).Has place id := by
  unfold Wait.secondLook
  split
  · exact ⟨h.add (Nat.le_refl _) hid hbegun, Agenda.size_add_le _ _, Nat.le_succ _,
      fun place hplace => hplace.add h.issued now id⟩
  · exact ⟨h, Nat.le_succ _, Nat.le_refl _, fun _ h => h⟩

/-- **A job is put aside** if there is good reason to wait. -/
theorem Holds.park (h : Holds E p s now (some id)) (hid : id < s.jobs.size)
    (hopen : s.conclusion? id = none) {run : Run P} {wait : Wait} {alarm : Option Place}
    {wake : Wake} {time d : Nat}
    (hsolo : ∀ world : World P, Solo E (run.wake world wake) (p.report id) d (p.work id))
    (hdue : time + d = p.due id) (hawaits : s.Awaits p now id wait alarm wake time) :
    Holds E p (s.setStage id (.waiting run wait alarm)) now none := by
  have hset := h.setStage hopen (.waiting run wait alarm) (fun job h => by cases h)
    (fun c h => by cases h)
  refine hset.release fun stage hstage => ?_
  rw [stage?_setStage_self _ hid] at hstage
  cases hstage
  refine ⟨wake, time, d, hsolo, hdue, hawaits.resolves, hawaits.later, ?_, ?_, hawaits.alarm⟩
  · intro child hchild
    rw [parent?_setStage]
    exact hawaits.children child hchild
  · refine hawaits.cause.imp_left fun ⟨child, hchild, hnone, htime⟩ => ⟨child, hchild, ?_, htime⟩
    exact conclusion?_setStage_eq_none hnone fun _ c h => by cases h

/-- **The job whose turn it is looks at its wait.** It is known what comes of the
wait, when, why just then, and how the run goes on. -/
structure LooksAt (E : Engine P) (p : Prospect) (s : Schedule P) (now : Nat) (id : JobId)
    (run : Run P) (wait : Wait) (wake : Wake) (time d : Nat) : Prop where
  holds : Holds E p s now (some id)
  active : s.stage? id = some .active
  solo : ∀ world : World P, Solo E (run.wake world wake) (p.report id) d (p.work id)
  due : time + d = p.due id
  later : now ≤ time
  resolves : wait.Resolves p.ending p.due wake time
  children : ∀ child ∈ wait.ids, s.parent? child = some id
  cause : wait.due? = some time ∨ time ≤ now ∨
    ∃ child ∈ wait.ids, s.conclusion? child = none ∧ p.due child = time

namespace LooksAt

variable {run : Run P} {wait wait' : Wait} {wake wake' : Wake} {time d : Nat}

theorem lt_size (h : LooksAt E p s now id run wait wake time d) : id < s.jobs.size :=
  lt_size_of_stage? h.active

theorem conclusion?_eq (h : LooksAt E p s now id run wait wake time d) :
    s.conclusion? id = none := by
  rw [conclusion?, h.active]

/-- What the job knows of the jobs that it waits for. -/
theorem told (h : LooksAt E p s now id run wait wake time d) :
    Wait.Told p.ending p.due now s.conclusion? wait.ids where
  settled child hchild c hc := by
    have hlt := (h.holds.parents child id (h.children child hchild)).1
    have hne : some id ≠ some child := fun heq => Nat.ne_of_lt hlt (Option.some.inj heq)
    exact h.holds.settled hne hc
  unsettled child hchild hnone :=
    h.holds.now_le_due (lt_size_of_parent? (h.children child hchild)) hnone

/-- **A wait is found over** at its time, and comes to what it is to. -/
theorem settles (h : LooksAt E p s now id run wait wake time d)
    (hlook : wait.look s.conclusion? now = .inl wake') : wake' = wake ∧ time = now := by
  refine Wait.look_inl h.told h.later h.resolves ?_ hlook
  exact h.cause.imp_right (Or.imp_right fun ⟨child, hchild, _, htime⟩ => ⟨child, hchild, htime⟩)

/-- **A wait that is not over** is for good reason, if there is an entry for the
time that it is for. -/
theorem awaits (h : LooksAt E p s now id run wait wake time d)
    (hlook : wait.look s.conclusion? now = .inr wait') {alarm : Option Place} {agenda : Agenda}
    (hentry : (∃ place, agenda.Has place id ∧ place.time = time ∧ wait.due? = some time) ∨
      time ≤ now ∨ ∃ child ∈ wait.ids, s.conclusion? child = none ∧ p.due child = time)
    (halarm : ∀ place ∈ alarm, place.ticket < agenda.ticket ∧
      ∀ job, agenda.Has place job → job = id) :
    ({ s with agenda } : Schedule P).Awaits p now id wait' alarm wake time := by
  obtain ⟨hresolves, hdue?, hsub, hstays, hnow⟩ := Wait.look_inr h.told h.later h.resolves hlook
  refine ⟨hresolves, h.later, fun child hchild => h.children child (hsub child hchild), ?_, halarm⟩
  rcases hentry with ⟨place, hhas, htime, hlimit⟩ | hpast | ⟨child, hchild, hnone, htime⟩
  · rw [← hdue?] at hlimit
    exact .inr ⟨place, hhas, htime, .inl hlimit⟩
  · exact .inl (hnow hpast)
  · exact .inl ⟨child, hstays child hchild hnone, hnone, htime⟩

/-- **A run is put aside** when its wait begins, with entries for the time that
the wait is for and for a second look. -/
theorem aside (h : LooksAt E p s now id run wait wake time d)
    (hfuture : ∀ due, wait.due? = some due → now ≤ due)
    (hlook : wait.look s.conclusion? now = .inr wait') :
    let first := wait'.alarm id s.agenda
    let second := wait'.secondLook now id first.2
    Holds E p (({ s with agenda := second } : Schedule P).setStage id (.waiting run wait' first.1))
      now none ∧ second.size ≤ s.agenda.size + 2 := by
  intro first second
  have hdue? := (Wait.look_inr h.told h.later h.resolves hlook).2.1
  have hbegun : ∀ job, s.stage? id ≠ some (.planned job) := by simp [h.active]
  rw [← hdue?] at hfuture
  obtain ⟨hholds, hsize, hplace, hmine⟩ := h.holds.alarm h.lt_size hbegun wait' hfuture
  obtain ⟨hholds', hsize', hticket, hkept⟩ := hholds.secondLook h.lt_size hbegun wait'
  refine ⟨hholds'.park h.lt_size h.conclusion?_eq h.solo h.due (h.awaits hlook ?_ ?_),
    Nat.le_trans hsize' (Nat.succ_le_succ hsize)⟩
  · refine h.cause.imp_left fun hlimit => ?_
    obtain ⟨place, hhas, htime⟩ := hplace time (hdue?.trans hlimit)
    exact ⟨place, hkept place hhas, htime, hlimit⟩
  · intro place hp
    obtain ⟨hlt, hhas⟩ := hmine place hp
    exact ⟨Nat.lt_of_lt_of_le hlt hticket, fun job hjob => hjob.unique (hkept place hhas)⟩

end LooksAt

/-- Effort changes with the agenda, as long as there are the same jobs. -/
theorem effort_lt {s' : Schedule P} (hjobs : s'.jobs.size = s.jobs.size) {n : Nat}
    (h : s.effort p + s'.agenda.size < n + s.agenda.size) : s'.effort p < n := by
  unfold effort at h ⊢
  rw [hjobs]
  omega

/-- **A run that has to wait has its wait arranged,** and some effort is saved. -/
theorem Keeps.arrange {run : Run P} {await : Await} (h : Keeps E p s now)
    (hfocus : s.focus = .job id (.wait run await)) : ∃ p' t wait wake time d,
      s.arrange now id await = (wait, t) ∧ LooksAt E p' t now id run wait wake time d ∧
      (∀ due, wait.due? = some due → now ≤ due) ∧
      root < t.jobs.size ∧ t.conclusion? root = none ∧ p'.report root = p.report root ∧
      p'.due root = p.due root ∧ t.effort p' + 3 ≤ s.effort p := by
  have hattends := h.attends
  rw [hfocus] at hattends
  obtain ⟨-, hactive, hholds, d, hsolo, hdue⟩ := hattends
  obtain ⟨fates, wake, delay, rest, left, hlength, hfates, hres, hwake, rfl, hwork⟩ := hsolo.of_wait
  have hid := lt_size_of_stage? hactive
  obtain ⟨p', hholds', hplans⟩ := hholds.planAll hid (by simp [hactive]) hlength hfates
  have harrange := s.arrange_eq now id await
  -- how the jobs are numbered is of no account from here on
  generalize (s.planAll now id await.jobs).1 = ids at harrange hplans
  generalize (s.planAll now id await.jobs).2 = t at harrange hplans hholds'
  have hlength' : (fates.map Fate.ending).length = await.jobs.length := by
    rw [List.length_map, hlength]
  obtain ⟨hresolves, hcause⟩ := hres.toWait hlength' hplans.tells
  have hchildren : ∀ child ∈ (await.toWait now ids).ids,
      t.parent? child = some id ∧ t.conclusion? child = none := fun child hchild =>
    hplans.children child (Await.mem_of_mem_toWait (hplans.tells.length_eq.trans hlength') hchild)
  have hsolo' : ∀ world : World P, Solo E (run.wake world wake) ((p'.setWork id left).report id)
      rest ((p'.setWork id left).work id) := by
    have hset : (p'.setWork id left).work id = left := if_pos rfl
    have hreport : (p'.setWork id left).report id = p.report id := hplans.report id hid
    rw [hset, hreport]
    exact hwake
  have hdue' : now + delay + rest = (p'.setWork id left).due id := by
    have : (p'.setWork id left).due id = p.due id := hplans.due id hid
    omega
  refine ⟨p'.setWork id left, t, await.toWait now ids, wake, now + delay, rest, harrange,
    ⟨hholds'.setWork left, (hplans.stage id hid).trans hactive, hsolo', hdue',
      Nat.le_add_right _ _, hresolves, fun child hchild => (hchildren child hchild).1, ?_⟩,
    fun due => Await.le_of_due?_toWait, Nat.lt_of_lt_of_le h.exists_root hplans.size, ?_,
    hplans.report root h.exists_root, hplans.due root h.exists_root, ?_⟩
  · exact hcause.imp_right (Or.imp_right fun ⟨child, hchild, htime⟩ =>
      ⟨child, hchild, (hchildren child hchild).2, htime⟩)
  · rw [conclusion?, hplans.stage root h.exists_root]
    exact h.root_open
  · have htotal := Prospect.total_setWork (p := p') (Nat.lt_of_lt_of_le hid hplans.size) left
    have hwork' := hplans.work id hid
    have hagenda := hplans.agenda
    have hsum := hplans.total
    have hjobs := Fate.workOf_eq fates
    unfold effort
    omega

/-- **A wait leads on,** whether it is over at once or not. -/
theorem Keeps.suspend {run : Run P} {await : Await} (h : Keeps E p s now)
    (hfocus : s.focus = .job id (.wait run await)) : LeadsOn E p s (s.suspend id run await) := by
  have hclock : run.world.clock = now := by
    have hattends := h.attends
    rw [hfocus] at hattends
    exact hattends.1
  obtain ⟨p', t, wait, wake, time, d, harrange, ha, hfuture, hroot, hopen, hreport, hdue, heffort⟩ :=
    h.arrange hfocus
  cases hlook : wait.look t.conclusion? now with
  | inl wake' =>
    obtain ⟨rfl, rfl⟩ := ha.settles hlook
    have hsuspend : s.suspend id run await =
        { t with focus := .job id (run.wake run.world wake') } := by
      simp only [Schedule.suspend, hclock, harrange, hlook]
    rw [hsuspend]
    refine ⟨p', time, ⟨⟨?_, ha.active, ha.holds.congr rfl rfl, d, ha.solo run.world, ha.due⟩,
      hroot, hopen⟩, hreport, hdue, ?_⟩
    · rw [run.world_wake_clock]
      exact hclock
    · show t.effort p' < s.effort p
      omega
  | inr wait' =>
    obtain ⟨hholds, hsize⟩ := ha.aside hfuture hlook
    have hsuspend : s.suspend id run await =
        { ({ t with agenda := wait'.secondLook now id (wait'.alarm id t.agenda).2 } :
            Schedule P).setStage id (.waiting run wait' (wait'.alarm id t.agenda).1) with
          focus := .agenda run.world } := by
      simp only [Schedule.suspend, hclock, harrange, hlook]
    rw [hsuspend]
    refine ⟨p', now, ⟨⟨hclock, hholds.congr rfl rfl⟩, ?_, ?_⟩, hreport, hdue, ?_⟩
    · exact Nat.lt_of_lt_of_eq hroot (size_setStage t id _).symm
    · exact conclusion?_setStage_eq_none hopen fun _ c h => by cases h
    · refine effort_lt (s := t) ?_ ?_
      · exact size_setStage _ id _
      show t.effort p' + (wait'.secondLook now id (wait'.alarm id t.agenda).2).size < _
      omega

/-- **A job that was told looks at its wait.** -/
theorem Holds.looksAt {place : Place} {rest : Agenda} (h : Holds E p s now none)
    (hnext : s.agenda.next? = some ((place, id), rest)) {run : Run P} {wait : Wait}
    {alarm : Option Place} (hstage : s.stage? id = some (.waiting run wait alarm)) :
    ∃ wake time d,
      LooksAt E p (({ s with agenda := rest } : Schedule P).setStage id .active) place.time id run
        wait wake time d ∧ s.Awaits p now id wait alarm wake time := by
  obtain ⟨wake, time, d, hsolo, hdue, hawaits⟩ := h.stages id _ hstage (by simp)
  obtain ⟨htake, hle, hlater⟩ := h.take hnext
  have hid := lt_size_of_stage? hstage
  have hopen : s.conclusion? id = none := by rw [conclusion?, hstage]
  refine ⟨wake, time, d, ⟨?_, stage?_setStage_self .active hid, hsolo, hdue, hlater _ _ _ _ hawaits,
    hawaits.resolves, fun child hchild => ?_, ?_⟩, hawaits⟩
  · exact htake.setStage hopen .active (fun job h => by cases h) (fun c h => by cases h)
  · rw [parent?_setStage]
    exact hawaits.children child hchild
  · rcases hawaits.cause with ⟨child, hchild, hnone, htime⟩ | ⟨-, -, -, hlimit | hpast⟩
    · exact .inr (.inr ⟨child, hchild, conclusion?_setStage_active hnone, htime⟩)
    · exact .inl hlimit
    · exact .inr (.inl (Nat.le_trans hpast hle))

/-- A step that takes the first entry off the agenda leads on, if what is then
attended to fits. -/
theorem Keeps.leadsOn_of_next {place : Place} {rest : Agenda} {s' : Schedule P} (h : Keeps E p s now)
    (hnext : s.agenda.next? = some ((place, id), rest)) (hagenda : s'.agenda.size ≤ rest.size)
    (hsize : s'.jobs.size = s.jobs.size) (hopen : s'.conclusion? root = none)
    (hattends : s'.Attends E p place.time s'.focus) : LeadsOn E p s s' := by
  refine ⟨p, place.time, ⟨hattends, by rw [hsize]; exact h.exists_root, hopen⟩, rfl, rfl,
    effort_lt hsize ?_⟩
  obtain ⟨hhas, rfl, -⟩ := Agenda.next?_eq_some hnext
  have := Agenda.size_remove_lt hhas
  omega

/-- **A job that is planned begins.** -/
theorem Keeps.begin {world : World P} {place : Place} {rest : Agenda} {job : Job}
    (h : Keeps E p s now) (hholds : Holds E p s now none)
    (hnext : s.agenda.next? = some ((place, id), rest))
    (hstage : s.stage? id = some (.planned job)) (hclock : world.clock = place.time) :
    LeadsOn E p s { ({ s with agenda := rest } : Schedule P).setStage id .active with
      focus := .job id (Run.begin E { scope := job.scope, world } job.node) } := by
  obtain ⟨htake, -, -⟩ := hholds.take hnext
  obtain ⟨d, hsolo, -, hall⟩ := hholds.stages id _ hstage (by simp)
  have hopen : s.conclusion? id = none := by rw [conclusion?, hstage]
  have hset := htake.setStage hopen .active (fun job h => by cases h) (fun c h => by cases h)
  refine h.leadsOn_of_next hnext (Nat.le_refl _) ?_ ?_ ⟨?_, ?_, hset.congr rfl rfl, d, hsolo world,
    hall place (Agenda.next?_eq_some hnext).1⟩
  · exact size_setStage s id .active
  · exact conclusion?_setStage_active (s := s) h.root_open
  · rw [Run.world_begin_clock]
    exact hclock
  · exact stage?_setStage_self .active (lt_size_of_stage? hstage)

/-- **A job that waits goes on, or goes on waiting.** -/
theorem Keeps.attend {world : World P} {place : Place} {rest : Agenda} {run : Run P} {wait : Wait}
    {alarm : Option Place} (h : Keeps E p s now) (hholds : Holds E p s now none)
    (hnext : s.agenda.next? = some ((place, id), rest))
    (hstage : s.stage? id = some (.waiting run wait alarm)) (hclock : world.clock = place.time) :
    LeadsOn E p s ((({ s with agenda := rest } : Schedule P).setStage id .active).attend id run wait
      alarm world) := by
  obtain ⟨wake, time, d, hlooks, hawaits⟩ := hholds.looksAt hnext hstage
  obtain ⟨hhas, hrest, -⟩ := Agenda.next?_eq_some hnext
  have hkept : ∀ other job, rest.Has other job → s.agenda.Has other job := by
    rw [hrest]
    exact fun other job hother => (Agenda.has_remove.1 hother).2
  have hmine : ∀ other ∈ alarm, ∀ job, rest.Has other job → job = id := fun other hother job hjob =>
    (hawaits.alarm other hother).2 job (hkept other job hjob)
  have hactive := size_setStage s id .active
  have hopen : (s.setStage id .active).conclusion? root = none :=
    conclusion?_setStage_active h.root_open
  unfold Schedule.attend
  rw [hclock]
  split
  next wake' hlook =>
    -- the wait is over, and its own entry goes
    obtain ⟨rfl, rfl⟩ := hlooks.settles hlook
    refine h.leadsOn_of_next hnext ?_ hactive hopen
      ⟨?_, hlooks.active, ?_, d, hlooks.solo world, hlooks.due⟩
    · cases alarm with
      | none => exact Nat.le_refl _
      | some other => exact Agenda.size_remove_le other
    · rw [Run.world_wake_clock]
      exact hclock
    · cases alarm with
      | none => exact hlooks.holds.congr rfl rfl
      | some other => exact (hlooks.holds.remove (hmine other rfl)).congr rfl rfl
  next wait' hlook =>
    -- what the job waits for has not come yet, so the reason it had is still good
    have hwaits : (({ s with agenda := rest } : Schedule P).setStage id .active).Awaits p place.time
        id wait' alarm wake time := by
      refine (hlooks.awaits hlook ?_ fun other hother => ?_).congr rfl rfl
      · rcases hawaits.cause with ⟨child, hchild, hnone, htime⟩ | ⟨other, hother, htime, hwhy⟩
        · exact .inr (.inr ⟨child, hchild, conclusion?_setStage_active (s := s) hnone, htime⟩)
        -- the time of the wait may be the very entry that was taken off
        · by_cases hsame : other = place
          · exact .inr (.inl (Nat.le_of_eq (by rw [← htime, hsame])))
          · have hstays : rest.Has other id := by
              rw [hrest]
              exact Agenda.has_remove.2 ⟨hsame, hother⟩
            rcases hwhy with hlimit | hpast
            · exact .inl ⟨other, hstays, htime, hlimit⟩
            · exact .inr (.inl (Nat.le_trans hpast (hholds.entries place id hhas).2))
      · obtain ⟨hlt, -⟩ := hawaits.alarm other hother
        exact ⟨by rw [hrest]; exact hlt, hmine other hother⟩
    have hparked := hlooks.holds.park hlooks.lt_size hlooks.conclusion?_eq hlooks.solo hlooks.due
      hwaits
    refine h.leadsOn_of_next hnext (Nat.le_refl _) ?_ ?_ ⟨hclock, hparked.congr rfl rfl⟩
    · exact (size_setStage (s.setStage id .active) id _).trans hactive
    · exact conclusion?_setStage_eq_none (s := s.setStage id .active) hopen fun _ c h => by cases h

/-- **The first entry of the agenda leads on.** -/
theorem Keeps.proceed {world : World P} (h : Keeps E p s now)
    (hfocus : s.focus = .agenda world) : ∃ s', s.proceed E world = .going s' ∧ LeadsOn E p s s' := by
  have hattends := h.attends
  rw [hfocus] at hattends
  obtain ⟨rfl, hholds⟩ := hattends
  cases hnext : s.agenda.next? with
  | none => exact absurd hnext (hholds.next?_ne_none h.exists_root h.root_open)
  | some entry =>
    obtain ⟨⟨place, id⟩, rest⟩ := entry
    obtain ⟨htake, hle, -⟩ := hholds.take hnext
    have hclock : max world.clock place.time = place.time := Nat.max_eq_right hle
    have hid := (hholds.entries place id (Agenda.next?_eq_some hnext).1).1
    obtain ⟨stage, hstage⟩ := exists_stage? hid
    have hfits := hholds.stages id stage hstage (by simp)
    have hstage' : ({ s with agenda := rest } : Schedule P).stage? id = some stage := hstage
    have hworld : ({ world with clock := place.time } : World P).clock = place.time := rfl
    -- no job is active but the one whose turn it is, and now it is nobody's
    cases stage with
    | planned job =>
      refine ⟨_, ?_, h.begin hholds hnext hstage hworld⟩
      simp only [Schedule.proceed, hnext, hstage', hclock]
    | active => exact hfits.elim
    | waiting run wait alarm =>
      refine ⟨_, ?_, h.attend hholds hnext hstage hworld⟩
      simp only [Schedule.proceed, hnext, hstage', hclock]
    | settled c =>
      -- an entry for a job that has been told before
      refine ⟨{ s with agenda := rest, focus := .agenda { world with clock := place.time } }, ?_, ?_⟩
      · simp only [Schedule.proceed, hnext, hstage', hclock]
      · refine h.leadsOn_of_next hnext (Nat.le_refl _) rfl h.root_open ⟨rfl, ?_⟩
        refine (htake.release fun stage hother => ?_).congr rfl rfl
        rw [hstage'] at hother
        cases hother
        exact ⟨hfits.1, Nat.le_trans hfits.2 hle⟩

/-- **A step leads on, or ends the fold as expected.** -/
theorem Keeps.step (h : Keeps E p s now) :
    (∃ o, s.step E = .ended o ∧ o.report = p.report root ∧ o.run.world.clock = p.due root) ∨
      ∃ s', s.step E = .going s' ∧ LeadsOn E p s s' := by
  cases hfocus : s.focus with
  | agenda world =>
    obtain ⟨s', hstep, hleads⟩ := h.proceed hfocus
    exact .inr ⟨s', by simp only [Schedule.step, hfocus, hstep], hleads⟩
  | job id next =>
    cases next with
    | resume run input =>
      exact .inr ⟨_, by simp only [Schedule.step, hfocus], h.resume hfocus⟩
    | wait run await => exact .inr ⟨_, by simp only [Schedule.step, hfocus], h.suspend hfocus⟩
    | finish o =>
      by_cases hroot : id = root
      · subst hroot
        have hattends := h.attends
        rw [hfocus] at hattends
        obtain ⟨hclock, -, -, d, hsolo, hdue⟩ := hattends
        obtain ⟨hreport, rfl, -⟩ := hsolo.of_finish
        exact .inl ⟨o, by simp only [Schedule.step, hfocus, if_pos], hreport.symm, hclock.trans hdue⟩
      · exact .inr ⟨_, by simp only [Schedule.step, hfocus, if_neg hroot], h.settle hroot hfocus⟩

/-- **A schedule that keeps what is expected of it ends** as expected. -/
theorem Keeps.follow (h : Keeps E p s now) : ∃ fuel o, s.follow E fuel = some o ∧
    o.report = p.report root ∧ o.run.world.clock = p.due root := by
  -- each step leaves less effort
  induction heffort : s.effort p using Nat.strongRecOn generalizing s p now with
  | _ n ih =>
    rcases h.step with ⟨o, hstep, hend⟩ | ⟨s', hstep, p', now', h', hreport, hdue, hless⟩
    · exact ⟨1, o, by simp only [Schedule.follow, hstep], hend⟩
    · obtain ⟨fuel, o, hfollow, hend⟩ := ih (s'.effort p') (by omega) h' rfl
      rw [hreport, hdue] at hend
      exact ⟨fuel + 1, o, by simp only [Schedule.follow, hstep, hfollow], hend⟩

end Schedule

/-- **A fold comes to what its run comes to by itself,** and takes as long. -/
theorem Solo.follow {next : Next P} {e : Report} {d n : Nat} (h : Solo E next e d n) :
    ∃ fuel o, (Schedule.start next).follow E fuel = some o ∧ o.report = e ∧
      o.run.world.clock = next.world.clock + d := by
  let p : Prospect := ⟨fun _ => e, fun _ => next.world.clock + d, fun _ => n⟩
  let s : Schedule P := .start next
  have hnone : ∀ place id, ¬ s.agenda.Has place id := fun _ _ => Agenda.not_has_empty
  have honly : ∀ id, id < s.jobs.size → id = Schedule.root := fun id hid => Nat.lt_one_iff.1 hid
  have hroot : s.parent? Schedule.root = none := rfl
  have hholds : s.Holds E p next.world.clock (some Schedule.root) := by
    refine ⟨Agenda.issued_empty, fun place id hhas => absurd hhas (hnone place id), ?_, ?_, ?_⟩
    · intro id parent hparent
      rw [honly id (Schedule.lt_size_of_parent? hparent), hroot] at hparent
      cases hparent
    · intro id stage hstage hbusy
      exact absurd (congrArg some (honly id (Schedule.lt_size_of_stage? hstage)).symm) hbusy
    · exact fun id _ _ => Nat.le_add_right _ _
  have hkeeps : s.Keeps E p next.world.clock :=
    ⟨⟨rfl, rfl, hholds, d, h, rfl⟩, Nat.zero_lt_one, rfl⟩
  exact hkeeps.follow

end ProgramGraph
