import ProgramGraph.Proofs.Passage.Track
import ProgramGraph.Proofs.Transcript.Wait
/-!
# Schedules are on time

On a schedule jobs take turns, and a job whose time has come may have to wait for others to
have their turns. But turns take no time. So every job begins when it is asked for, every
wait is over when it should be, and whatever a job gets to on a schedule it gets to as
`Next.Talks` says, together with a transcript of all that has been said on the way
(`Engine.AttendsTo.exists_talks`).

What carries this is that the clock never goes beyond an entry of the agenda: an entry is
taken off at the very time that it stands for. A job whose wait is over has an entry for the
time at hand, so it is looked at before the clock moves on.
-/

namespace ProgramGraph

variable {P : Plugins} (E : Engine P) (m : Memo)

namespace Schedule

/-- **The job gets to this point** from its beginning, and there is a transcript of it. -/
def Recounts (asked : JobId → Job) (begun : JobId → Nat) (id : JobId) (next : Next P) : Prop :=
  ∃ (world : World P) (log : Transcript), world.clock = begun id ∧ Next.Talks E 0
    (Run.begin E { memo := memoOf m id, scope := (asked id).scope, world } (asked id).node) log next

/-- How a job may end that has begun when it has. -/
def EndsAt (asked : JobId → Job) (begun : JobId → Nat) (id : JobId) (c : Conclusion) (time : Nat) :
    Prop := (asked id).Lasts E (begun id) c time

/-- **A wait is heeded.** If it is for a time, there is an entry for that time. If it is over,
it is over since just then, and there is an entry for the time at hand. -/
structure Heeds (asked : JobId → Job) (begun : JobId → Nat) (s : Schedule P) (now : Nat)
    (id : JobId) (run : Run P) (wait : Wait) (alarm : Option Place) : Prop where
  children : ∀ child ∈ wait.ids, child < s.jobs.size ∧ s.parent? child = some id
  own : ∀ place ∈ alarm, place.ticket < s.agenda.ticket ∧ ∀ j, s.agenda.Has place j → j = id
  due : ∀ due ∈ wait.due?, ∃ place ∈ alarm, s.agenda.Has place id ∧ place.time = due
  onTime : ∃ await since, since ≤ now ∧ Recounts E m asked begun id (.wait run await) ∧
    (∀ wake time, wait.Takes (EndsAt E asked begun) since wake time →
      await.Takes (Job.Lasts E) run.world.clock wake time) ∧
    wait.OnTime (EndsAt E asked begun) s.conclusion? since now
  news : ∀ wake, wait.look s.conclusion? now = .inl wake →
    ∃ place, s.agenda.Has place id ∧ place.time = now

/-- **The stage of a job is dated.** A job that has not begun has an entry for the time when
it has been asked for. -/
def DatesStage (asked : JobId → Job) (begun : JobId → Nat) (s : Schedule P) (now : Nat)
    (id : JobId) :
    Stage P → Prop
  | .planned job => id ≠ root ∧ asked id = job ∧ begun id ≤ now ∧
      ∃ place, s.agenda.Has place id ∧ place.time = begun id
  | .active => True
  | .waiting run wait alarm => Heeds E m asked begun s now id run wait alarm
  | .settled c => ∃ time ≤ now, EndsAt E asked begun id c time

/-- **All jobs are dated,** and no entry of the agenda is late. -/
structure Dates (asked : JobId → Job) (begun : JobId → Nat) (s : Schedule P) (now : Nat) :
    Prop where
  stages : ∀ id stage, s.stage? id = some stage → DatesStage E m asked begun s now id stage
  issued : s.agenda.Issued
  due : ∀ place id, s.agenda.Has place id → now ≤ place.time
  exists_root : root < s.jobs.size

/-- **The schedule is on time.** -/
def DatesFocus (asked : JobId → Job) (begun : JobId → Nat) (s : Schedule P) : Focus P → Prop
  | .job id next => Dates E m asked begun s next.world.clock ∧ s.stage? id = some .active ∧
      Recounts E m asked begun id next
  | .agenda world => Dates E m asked begun s world.clock

/-- **A job settles or it does not.** If it does, whoever has asked for it has an entry for
the time at hand. -/
def Announces (asked : JobId → Job) (begun : JobId → Nat) (now : Nat) (id : JobId)
    (s s' : Schedule P) : Prop :=
  s'.conclusion? id = s.conclusion? id ∨ ∃ c, s'.conclusion? id = some c ∧
    EndsAt E asked begun id c now ∧
    ∀ parent, s.parent? id = some parent → ∃ place, s'.agenda.Has place parent ∧ place.time = now

variable {E m}
variable {asked asked' : JobId → Job} {begun begun' : JobId → Nat} {s s' : Schedule P} {now : Nat}
  {id : JobId}

/-- A number that stands for no job has no conclusion. -/
theorem conclusion?_of_le (h : s.jobs.size ≤ id) : s.conclusion? id = none := by
  cases hc : s.conclusion? id with
  | none => rfl
  | some c => exact absurd (lt_size_of_stage? (conclusion?_eq_some.1 hc)) (Nat.not_lt.2 h)

/-- A job that has not settled comes to another stage, and still has not. -/
theorem conclusion?_setStage_of_open (s : Schedule P) (stage : Stage P)
    (hopen : s.conclusion? id = none) (hstage : ∀ c, stage ≠ .settled c) (j : JobId) :
    (s.setStage id stage).conclusion? j = s.conclusion? j := by
  by_cases hj : j = id
  · subst hj
    rw [hopen]
    cases hc : (s.setStage j stage).conclusion? j with
    | none => rfl
    | some c =>
      have hsettled := conclusion?_eq_some.1 hc
      rw [stage?_setStage] at hsettled
      split at hsettled
      next => exact absurd (Option.some.inj hsettled) (hstage c)
      next =>
        rw [conclusion?_eq_some.2 hsettled] at hopen
        cases hopen
  · simp only [Schedule.conclusion?, stage?_setStage_of_ne _ hj]

/-- A job that has settled has ended by now. -/
theorem Dates.settled (h : Dates E m asked begun s now) (id : JobId) (c : Conclusion)
    (hc : s.conclusion? id = some c) : ∃ time ≤ now, EndsAt E asked begun id c time :=
  h.stages id _ (conclusion?_eq_some.1 hc)

/-- What is attended to is of no account. -/
theorem Dates.withFocus (h : Dates E m asked begun s now) (focus : Focus P) :
    Dates E m asked begun { s with focus } now where
  stages id stage hstage := by
    have hdates := h.stages id stage hstage
    cases stage with
    | waiting run wait alarm =>
      exact ⟨hdates.children, hdates.own, hdates.due, hdates.onTime, hdates.news⟩
    | _ => exact hdates
  issued := h.issued
  due := h.due
  exists_root := h.exists_root

/-! ## What a job does to the others -/

/-- A wait looks the same if none of its jobs settles. -/
theorem look_of_calm (hother : ∀ other, other ≠ id → s'.conclusion? other = s.conclusion? other)
    {wait : Wait} (hcalm : id ∈ wait.ids → s'.conclusion? id = s.conclusion? id) (now : Nat) :
    wait.look s'.conclusion? now = wait.look s.conclusion? now := by
  refine Wait.look_congr fun child hchild => ?_
  by_cases hid : child = id
  · subst hid
    exact hcalm hchild
  · exact hother child hid

/-- **The wait of another job is heeded as before,** or one of its jobs has just settled. -/
theorem Heeds.spare {j : JobId} {run : Run P} {wait : Wait} {alarm : Option Place}
    (h : Heeds E m asked begun s now j run wait alarm)
    (hsettled : ∀ id c, s.conclusion? id = some c → ∃ time ≤ now, EndsAt E asked begun id c time)
    (hspares : s.Spares id s') (hne : j ≠ id) (hj : j < s.jobs.size)
    (hsame : ∀ j, j < s.jobs.size → asked' j = asked j ∧ begun' j = begun j)
    (hother : ∀ other, other ≠ id → s'.conclusion? other = s.conclusion? other)
    (hnews : Announces E asked begun now id s s') :
    Heeds E m asked' begun' s' now j run wait alarm where
  children child hchild := by
    obtain ⟨hsize, hparent⟩ := h.children child hchild
    exact ⟨Nat.lt_of_lt_of_le hsize hspares.size, (hspares.parent child hsize).trans hparent⟩
  own place hplace := by
    obtain ⟨hticket, hown⟩ := h.own place hplace
    refine ⟨Nat.lt_of_lt_of_le hticket hspares.agenda.ticket, fun other hhas => ?_⟩
    rcases hspares.agenda.old place other hhas with hhas | hnew
    · exact hown other hhas
    · exact absurd hticket (Nat.not_lt.2 hnew)
  due due hdue := by
    obtain ⟨place, hplace, hhas, htime⟩ := h.due due hdue
    exact ⟨place, hplace, hspares.agenda.entries place j hne hhas, htime⟩
  onTime := by
    obtain ⟨await, since, hsince, hrecounts, htakes, honTime⟩ := h.onTime
    have hends : ∀ child ∈ wait.ids, ∀ c time,
        EndsAt E asked' begun' child c time ↔ EndsAt E asked begun child c time := by
      intro child hchild c time
      obtain ⟨hasked, hbegun⟩ := hsame child (h.children child hchild).1
      rw [EndsAt, EndsAt, hasked, hbegun]
    refine ⟨await, since, hsince, ?_, fun wake time hwait => htakes wake time (hwait.mono ?_), ?_⟩
    · obtain ⟨hasked, hbegun⟩ := hsame j hj
      rw [Recounts, hasked, hbegun]
      exact hrecounts
    · exact fun child hchild c time => (hends child hchild c time).1
    · intro wake hlook
      have hnow : wait.Takes (EndsAt E asked begun) since wake now := by
        rcases hnews with hcalm | ⟨c, hc, hended, -⟩
        · exact honTime wake (look_of_calm hother (fun _ => hcalm) now ▸ hlook)
        · exact honTime.settle hsince hsettled hother hc hended wake hlook
      exact hnow.mono fun child hchild c time => (hends child hchild c time).2
  news wake hlook := by
    have hcalm : (id ∈ wait.ids → s'.conclusion? id = s.conclusion? id) →
        ∃ place, s'.agenda.Has place j ∧ place.time = now := by
      intro hcalm
      obtain ⟨place, hplace, htime⟩ := h.news wake (look_of_calm hother hcalm now ▸ hlook)
      exact ⟨place, hspares.agenda.entries place j hne hplace, htime⟩
    -- a job that has just settled tells the one that waits for it
    by_cases hchild : id ∈ wait.ids
    · rcases hnews with hsame | ⟨c, -, -, htold⟩
      · exact hcalm fun _ => hsame
      · exact htold j (h.children id hchild).2
    · exact hcalm fun h => absurd h hchild

/-- **A move of one job** keeps all jobs dated if it keeps that one dated and those that are
new. -/
theorem Dates.move (h : Dates E m asked begun s now) (hspares : s.Spares id s')
    (hsame : ∀ j, j < s.jobs.size → asked' j = asked j ∧ begun' j = begun j)
    (hother : ∀ other, other ≠ id → s'.conclusion? other = s.conclusion? other)
    (hnews : Announces E asked begun now id s s')
    (hown : ∀ stage, s'.stage? id = some stage → DatesStage E m asked' begun' s' now id stage)
    (hnew : ∀ j, s.jobs.size ≤ j → j < s'.jobs.size →
      ∃ job, s'.stage? j = some (.planned job) ∧
        DatesStage E m asked' begun' s' now j (.planned job))
    (hdue : ∀ place j, s'.agenda.Has place j → now ≤ place.time) :
    Dates E m asked' begun' s' now where
  stages j stage hj := by
    by_cases hid : j = id
    · subst hid
      exact hown stage hj
    · rcases Nat.lt_or_ge j s.jobs.size with hlt | hge
      · rw [hspares.stage j hlt hid] at hj
        have hstage := h.stages j stage hj
        obtain ⟨hasked, hbegun⟩ := hsame j hlt
        cases stage with
        | planned job =>
          obtain ⟨hroot, hjob, hle, place, hplace, htime⟩ := hstage
          exact ⟨hroot, hasked.trans hjob, hbegun ▸ hle, place,
            hspares.agenda.entries place j hid hplace, htime.trans hbegun.symm⟩
        | active => trivial
        | waiting run wait alarm =>
          have hheeds : Heeds E m asked begun s now j run wait alarm := hstage
          exact hheeds.spare h.settled hspares hid hlt hsame hother hnews
        | settled c =>
          obtain ⟨time, hle, hends⟩ := hstage
          refine ⟨time, hle, ?_⟩
          rw [EndsAt, hasked, hbegun]
          exact hends
      · obtain ⟨job, hjob, hdates⟩ := hnew j hge (lt_size_of_stage? hj)
        rw [hj] at hjob
        cases hjob
        exact hdates
  issued := hspares.agenda.issued
  due := hdue
  exists_root := Nat.lt_of_lt_of_le h.exists_root hspares.size

/-- A move with which no job is planned. -/
theorem Dates.move_own (h : Dates E m asked begun s now) (hspares : s.Spares id s')
    (hsize : s'.jobs.size = s.jobs.size) (hnews : Announces E asked begun now id s s')
    (hown : ∀ stage, s'.stage? id = some stage → DatesStage E m asked begun s' now id stage)
    (hdue : ∀ place j, s'.agenda.Has place j → now ≤ place.time) :
    Dates E m asked begun s' now := by
  refine h.move hspares (fun _ _ => ⟨rfl, rfl⟩) (fun other hne => ?_) hnews hown
    (fun j hj hj' => absurd hj' (by omega)) hdue
  rcases Nat.lt_or_ge other s.jobs.size with hlt | hge
  · exact hspares.conclusion? hlt hne
  · rw [conclusion?_of_le hge, conclusion?_of_le (hsize ▸ hge)]

/-! ## The clock -/

/-- The clock moves on, and the wait of the job is not over, or its time has come. -/
theorem Heeds.tick {run : Run P} {wait : Wait} {alarm : Option Place}
    (h : Heeds E m asked begun s now id run wait alarm) {now' : Nat} (hlt : now < now')
    (hdue : ∀ place, s.agenda.Has place id → now' ≤ place.time) :
    Heeds E m asked begun s now' id run wait alarm := by
  obtain ⟨await, since, hsince, hrecounts, htakes, -⟩ := h.onTime
  -- if it were over already there would be an entry for the time before
  have hopen : ∀ wake, wait.look s.conclusion? now ≠ .inl wake := by
    intro wake hlook
    obtain ⟨place, hplace, htime⟩ := h.news wake hlook
    exact absurd (htime ▸ hdue place hplace) (Nat.not_le.2 hlt)
  refine ⟨h.children, h.own, h.due, ⟨await, since, Nat.le_trans hsince (Nat.le_of_lt hlt),
    hrecounts, htakes, Wait.onTime_of_later hopen fun due hmem => ?_⟩, fun wake hlook => ?_⟩
  · obtain ⟨place, -, hplace, htime⟩ := h.due due hmem
    exact htime ▸ hdue place hplace
  · obtain ⟨due, hmem, hover, -⟩ :
        ∃ due ∈ wait.due?, due ≤ now' ∧ wait.Takes (EndsAt E asked begun) since wake due :=
      Wait.exists_due_of_look hopen hlook
    obtain ⟨place, -, hplace, htime⟩ := h.due due hmem
    exact ⟨place, hplace, Nat.le_antisymm (htime ▸ hover) (hdue place hplace)⟩

/-- **The clock moves on** to the time of the next entry. Whose wait is over has had its turn
before. -/
theorem Dates.tick (h : Dates E m asked begun s now) {now' : Nat} (hle : now ≤ now')
    (hdue : ∀ place id, s.agenda.Has place id → now' ≤ place.time) :
    Dates E m asked begun s now' := by
  rcases Nat.eq_or_lt_of_le hle with rfl | hlt
  · exact h
  refine ⟨fun id stage hstage => ?_, h.issued, hdue, h.exists_root⟩
  have hdates := h.stages id stage hstage
  cases stage with
  | planned job =>
    obtain ⟨hroot, hjob, hbegun, hplace⟩ := hdates
    exact ⟨hroot, hjob, Nat.le_trans hbegun hle, hplace⟩
  | active => trivial
  | settled c =>
    obtain ⟨time, htime, hends⟩ := hdates
    exact ⟨time, Nat.le_trans htime hle, hends⟩
  | waiting run wait alarm =>
    have hheeds : Heeds E m asked begun s now id run wait alarm := hdates
    exact hheeds.tick hlt fun place => hdue place id

/-! ## Steps -/

variable {run : Run P} {await : Await} {world : World P}

/-- **A job goes on** from where it has got to. -/
theorem Recounts.step {next next' : Next P} {log : Transcript}
    (h : Recounts E m asked begun id next) (hstep : Next.Talks E 0 next log next') :
    Recounts E m asked begun id next' := by
  obtain ⟨world, before, hclock, htalks⟩ := h
  exact ⟨world, _, hclock, htalks.trans hstep⟩

/-- **Jobs that are planned** are on the agenda for the time at hand. -/
theorem planAll_agenda (hs : s.agenda.Issued) (now : Nat) (parent : JobId) (jobs : List Job) :
    (∀ place j, (s.planAll now parent jobs).2.agenda.Has place j →
      s.agenda.Has place j ∨ place.time = now) ∧
    ∀ j, s.jobs.size ≤ j → j < s.jobs.size + jobs.length →
      ∃ place, (s.planAll now parent jobs).2.agenda.Has place j ∧ place.time = now := by
  induction jobs generalizing s with
  | nil => exact ⟨fun _ _ hplace => .inl hplace, fun j hj hj' => absurd hj' (Nat.not_lt.2 hj)⟩
  | cons job jobs ih =>
    have hadd : (s.agenda.add now s.jobs.size).2.Issued := hs.add now _
    obtain ⟨htimes, hnew⟩ := ih (s := (s.plan now parent job).2) hadd
    obtain ⟨_, -, -, hplanned, -⟩ := exists_planned (s := (s.plan now parent job).2) hadd now parent
      (fun _ => job) jobs
    rw [planAll_cons, List.length_cons]
    rw [size_plan] at hnew
    refine ⟨fun place j hplace => ?_, fun j hj hj' => ?_⟩
    · rcases htimes place j hplace with hplace | hnow
      · rcases (Agenda.has_add hs now).1 hplace with ⟨rfl, -⟩ | hplace
        · exact .inr rfl
        · exact .inl hplace
      · exact .inr hnow
    · rcases Nat.eq_or_lt_of_le hj with rfl | hlt
      · exact ⟨_, (hplanned.spares (s.jobs.size + 1)).agenda.entries _ _
          (Nat.ne_of_lt (Nat.lt_succ_self _)) (Agenda.has_add_self hs now), rfl⟩
      · exact hnew j hlt (by omega)

/-- **A wait that goes on** is heeded. -/
theorem Dates.park (h : Dates E m asked begun s now) (hactive : s.stage? id = some .active)
    {wait wait' : Wait} {alarm : Option Place} {since : Nat} (hsince : since ≤ now)
    (hrecounts : Recounts E m asked begun id (.wait run await))
    (htakes : ∀ wake time, wait.Takes (EndsAt E asked begun) since wake time →
      await.Takes (Job.Lasts E) run.world.clock wake time)
    (hlook : wait.look s.conclusion? now = .inr wait')
    (hchildren : ∀ child ∈ wait.ids, child < s.jobs.size ∧ s.parent? child = some id)
    {agenda : Agenda} (hagenda : s.agenda.Spares id agenda)
    (hown : ∀ place ∈ alarm, place.ticket < agenda.ticket ∧ ∀ j, agenda.Has place j → j = id)
    (halarm : (∀ due ∈ wait.due?, now < due) → ∀ due ∈ wait'.due?,
      ∃ place ∈ alarm, agenda.Has place id ∧ place.time = due)
    (hdue : ∀ place j, agenda.Has place j → now ≤ place.time) (focus : Focus P) :
    Dates E m asked begun
      { ({ s with agenda } : Schedule P).setStage id (.waiting run wait' alarm) with focus }
      now := by
  obtain ⟨hopen, -, hlater, hids, since', hsince', hleft⟩ :=
    Wait.exists_since_of_look h.settled hsince hlook
  have hid := lt_size_of_stage? hactive
  have hopenId : s.conclusion? id = none := by simp only [Schedule.conclusion?, hactive]
  have hspares : s.Spares id
      (({ s with agenda } : Schedule P).setStage id (.waiting run wait' alarm)) :=
    ((Spares.refl h.issued).withAgenda hagenda).setStage _
  have hsize : (({ s with agenda } : Schedule P).setStage id (.waiting run wait' alarm)).jobs.size =
      s.jobs.size := size_setStage _ _ _
  have hstage :
      (({ s with agenda } : Schedule P).setStage id (.waiting run wait' alarm)).stage? id =
      some (.waiting run wait' alarm) :=
    stage?_setStage_self (s := { s with agenda }) _ hid
  have hcalm : ∀ j, (({ s with agenda } : Schedule P).setStage id
      (.waiting run wait' alarm)).conclusion? j = s.conclusion? j :=
    conclusion?_setStage_of_open { s with agenda } _ hopenId (by rintro _ ⟨⟩)
  have hstays : wait'.look (({ s with agenda } : Schedule P).setStage id
      (.waiting run wait' alarm)).conclusion? now = wait'.look s.conclusion? now :=
    Wait.look_congr fun child _ => hcalm child
  have hdates : Dates E m asked begun _ now :=
    h.move_own hspares hsize (.inl (hcalm id)) (fun stage hstage' => ?_) hdue
  · exact hdates.withFocus focus
  · rw [hstage] at hstage'
    cases hstage'
    refine ⟨fun child hchild => ?_, hown, halarm hlater, ⟨await, since', hsince', hrecounts,
      fun wake time hwake => htakes wake time (hleft wake time hwake), fun wake hwake => ?_⟩,
      fun wake hwake => ?_⟩
    · obtain ⟨hlt, hparent⟩ := hchildren child (hids child hchild)
      exact ⟨by rw [hsize]; exact hlt, (hspares.parent child hlt).trans hparent⟩
    · exact absurd (hstays ▸ hwake) (hopen wake)
    · exact absurd (hstays ▸ hwake) (hopen wake)

/-- **A job goes on** when its wait is over. -/
theorem Dates.wake (h : Dates E m asked begun s world.clock) (hactive : s.stage? id = some .active)
    (hrecounts : Recounts E m asked begun id (.wait run await)) {wake : Wake}
    (htakes : await.Takes (Job.Lasts E) run.world.clock wake world.clock) :
    DatesFocus E m asked begun { s with focus := .job id (run.wake world wake) }
      (.job id (run.wake world wake)) := by
  refine ⟨?_, hactive, hrecounts.step (.wake_of_lasts (Nat.zero_le _) htakes (.refl 0 _))⟩
  rw [run.world_wake_clock world wake]
  exact h.withFocus _

/-- **Jobs are planned** for a job that is active. They begin now. -/
theorem Dates.planAll (h : Dates E m asked begun s now) (hactive : s.stage? id = some .active)
    (jobs : List Job) : ∃ asked' begun',
    (∀ j, j < s.jobs.size → asked' j = asked j ∧ begun' j = begun j) ∧
    (s.planAll now id jobs).1.map asked' = jobs ∧
    Dates E m asked' begun' (s.planAll now id jobs).2 now ∧
    (s.planAll now id jobs).2.stage? id = some .active ∧
    ∀ child ∈ (s.planAll now id jobs).1, child < (s.planAll now id jobs).2.jobs.size ∧
      (s.planAll now id jobs).2.parent? child = some id ∧
      (s.planAll now id jobs).2.conclusion? child = none ∧ begun' child = now := by
  have hid := lt_size_of_stage? hactive
  obtain ⟨asked', hsame, hmap, ⟨hspares, hnew⟩, hids⟩ :=
    exists_planned h.issued now id asked jobs
  obtain ⟨htimes, hplaces⟩ := planAll_agenda h.issued now id jobs
  have hsize := s.size_planAll now id jobs
  generalize (s.planAll now id jobs).1 = ids at hmap hids
  generalize (s.planAll now id jobs).2 = t at hspares hnew hids htimes hplaces hsize
  rw [← hsize] at hplaces
  let begun' : JobId → Nat := fun j => if j < s.jobs.size then begun j else now
  have hbegun : ∀ j, j < s.jobs.size → begun' j = begun j := fun j hj => if_pos hj
  have hnow : ∀ j, s.jobs.size ≤ j → begun' j = now := fun j hj => if_neg (Nat.not_lt.2 hj)
  have hactive' : t.stage? id = some .active := by
    rw [(hspares (id + 1)).stage id hid (Nat.ne_of_lt (Nat.lt_succ_self id)), hactive]
  have hopen : ∀ j, s.jobs.size ≤ j → t.conclusion? j = none := by
    intro j hj
    rcases Nat.lt_or_ge j t.jobs.size with hlt | hge
    · simp only [Schedule.conclusion?, (hnew j hj hlt).1]
    · exact conclusion?_of_le hge
  refine ⟨asked', begun', fun j hj => ⟨hsame j hj, hbegun j hj⟩, hmap, ?_, hactive',
    fun child hchild => ?_⟩
  · refine h.move (hspares id) (fun j hj => ⟨hsame j hj, hbegun j hj⟩) (fun j hne => ?_) (.inl ?_)
      (fun stage hstage => ?_) (fun j hj hj' => ⟨_, (hnew j hj hj').1, ?_, rfl, ?_, ?_⟩)
      (fun place j hplace => ?_)
    · rcases Nat.lt_or_ge j s.jobs.size with hlt | hge
      · exact (hspares id).conclusion? hlt hne
      · rw [hopen j hge, conclusion?_of_le hge]
    · simp only [Schedule.conclusion?, hactive', hactive]
    · rw [hactive'] at hstage
      cases hstage
      trivial
    · rintro rfl
      exact absurd h.exists_root (Nat.not_lt.2 hj)
    · exact Nat.le_of_eq (hnow j hj)
    · rw [hnow j hj]
      exact hplaces j hj hj'
    · rcases htimes place j hplace with hplace | hnow
      · exact h.due place j hplace
      · exact Nat.le_of_eq hnow.symm
  · obtain ⟨hle, hlt⟩ := hids child hchild
    exact ⟨hlt, (hnew child hle hlt).2.1, hopen child hle, hnow child hle⟩

/-- **A run that has to wait.** -/
theorem Dates.suspend (h : Dates E m asked begun s run.world.clock)
    (hactive : s.stage? id = some .active)
    (hrecounts : Recounts E m asked begun id (.wait run await)) :
    ∃ asked' begun', asked' root = asked root ∧ begun' root = begun root ∧
      DatesFocus E m asked' begun' (s.suspend id run await) (s.suspend id run await).focus := by
  obtain ⟨asked', begun', hsame, hmap, ht, hactive', hnew⟩ := h.planAll hactive await.jobs
  have hsuspends := s.suspends id run await
  have hlength : (s.planAll run.world.clock id await.jobs).1.length = await.jobs.length := by
    rw [planAll_ids, List.length_range']
  generalize (s.planAll run.world.clock id await.jobs).1 = ids at hmap hlength hnew hsuspends
  generalize (s.planAll run.world.clock id await.jobs).2 = t at ht hactive' hnew hsuspends
  generalize s.suspend id run await = s' at hsuspends ⊢
  have hjobs : ∀ child ∈ (await.toWait run.world.clock ids).ids, child < t.jobs.size ∧
      t.parent? child = some id ∧ t.conclusion? child = none ∧ begun' child = run.world.clock :=
    fun child hchild => hnew child (Await.mem_of_mem_toWait hlength hchild)
  have hrecounts' : Recounts E m asked' begun' id (.wait run await) := by
    obtain ⟨hasked, hbegun⟩ := hsame id (lt_size_of_stage? hactive)
    rw [Recounts, hasked, hbegun]
    exact hrecounts
  have hending : ∀ wake time, (await.toWait run.world.clock ids).Takes (EndsAt E asked' begun')
      run.world.clock wake time → await.Takes (Job.Lasts E) run.world.clock wake time := by
    intro wake time htakes
    refine Await.takes_of_toWait hmap (htakes.mono fun child hchild c time hc => ?_)
    rw [EndsAt, (hjobs child hchild).2.2.2] at hc
    exact hc
  obtain ⟨hroot, hroot'⟩ := hsame root h.exists_root
  refine ⟨asked', begun', hroot, hroot', ?_⟩
  cases hsuspends with
  | @ends wake hlook =>
    refine ht.wake hactive' hrecounts' (hending wake _ ?_)
    exact Await.onTime_toWait (fun child hchild => (hjobs child hchild).2.2.1) wake hlook
  | @waits wait' hlook =>
    have halarm := alarm_spec ht.issued wait' run.world.clock id
    dsimp only at halarm
    obtain ⟨hagenda, hown, hplaced, htimed⟩ := halarm
    obtain ⟨-, hsame', hlater, -⟩ := Wait.exists_since_of_look ht.settled (Nat.le_refl _) hlook
    refine ht.park hactive' (Nat.le_refl _) hrecounts' hending hlook
      (fun child hchild => ⟨(hjobs child hchild).1, (hjobs child hchild).2.1⟩) hagenda hown
      (fun _ => hplaced) (fun place j hplace => ?_) _
    rcases htimed place j hplace with hplace | hnow | hdue
    · exact ht.due place j hplace
    · exact Nat.le_of_eq hnow.symm
    · rw [hsame'] at hdue
      exact Nat.le_of_lt (hlater _ hdue)

/-- **A job that settles.** Whoever has asked for it is told at once. -/
theorem Dates.settle {o : Outcome P} (h : Dates E m asked begun s o.run.world.clock)
    (hactive : s.stage? id = some .active) (hid : id ≠ root)
    (hrecounts : Recounts E m asked begun id (.finish o)) :
    DatesFocus E m asked begun (s.settle id o) (s.settle id o).focus := by
  have hstage := stage?_setStage_self (s := s) (.settled o.conclusion) (lt_size_of_stage? hactive)
  have hspares : s.Spares id (s.setStage id (.settled o.conclusion)) :=
    (Spares.refl h.issued).setStage _
  have hends : EndsAt E asked begun id o.conclusion o.run.world.clock := by
    obtain ⟨world, log, hclock, htalks⟩ := hrecounts
    rw [memoOf_of_ne m hid] at htalks
    exact ⟨world, log, o, htalks, hclock, rfl, rfl⟩
  -- what is put on the agenda is all that hangs on whether anybody has asked for the job
  have hmove : ∀ agenda : Agenda, s.agenda.Spares id agenda →
      (∀ parent, s.parent? id = some parent →
        ∃ place, agenda.Has place parent ∧ place.time = o.run.world.clock) →
      (∀ place j, agenda.Has place j → o.run.world.clock ≤ place.time) →
      Dates E m asked begun
        { s.setStage id (.settled o.conclusion) with agenda, focus := .agenda o.run.world }
        o.run.world.clock := by
    intro agenda hagenda htold hdue
    have hconclusion :
        ({ s.setStage id (.settled o.conclusion) with agenda } : Schedule P).conclusion? id =
        some o.conclusion := conclusion?_eq_some.2 hstage
    have hdates : Dates E m asked begun { s.setStage id (.settled o.conclusion) with agenda }
        o.run.world.clock := h.move_own (hspares.withAgenda hagenda) (size_setStage s id _)
      (.inr ⟨_, hconclusion, hends, htold⟩) (fun stage hstage' => ?_) hdue
    · exact hdates.withFocus _
    · have hsame : (s.setStage id (.settled o.conclusion)).stage? id = some stage := hstage'
      rw [hstage] at hsame
      cases hsame
      exact ⟨_, Nat.le_refl _, hends⟩
  cases hparent : s.parent? id with
  | none =>
    have hjob : s.jobs[id]?.bind ScheduledJob.parent = none := hparent
    simp only [Schedule.settle, hjob]
    exact hmove _ (.refl h.issued) (fun parent h => by rw [hparent] at h; cases h) h.due
  | some parent =>
    have hjob : s.jobs[id]?.bind ScheduledJob.parent = some parent := hparent
    simp only [Schedule.settle, hjob]
    refine hmove _ (.add h.issued _ _) (fun other hother => ?_) fun place j hplace => ?_
    · rw [hparent] at hother
      cases hother
      exact ⟨_, Agenda.has_add_self h.issued _, rfl⟩
    · rcases (Agenda.has_add h.issued _).1 hplace with ⟨rfl, -⟩ | hplace
      · exact Nat.le_refl _
      · exact h.due place j hplace

/-- **A job looks at its wait** when it has its turn. -/
theorem Dates.attend (h : Dates E m asked begun s world.clock)
    (hactive : s.stage? id = some .active) {wait : Wait} {alarm : Option Place} {since : Nat}
    (hsince : since ≤ world.clock) (hrecounts : Recounts E m asked begun id (.wait run await))
    (htakes : ∀ wake time, wait.Takes (EndsAt E asked begun) since wake time →
      await.Takes (Job.Lasts E) run.world.clock wake time)
    (honTime : wait.OnTime (EndsAt E asked begun) s.conclusion? since world.clock)
    (hchildren : ∀ child ∈ wait.ids, child < s.jobs.size ∧ s.parent? child = some id)
    (hown : ∀ place ∈ alarm, place.ticket < s.agenda.ticket ∧ ∀ j, s.agenda.Has place j → j = id)
    (halarm : (∀ due ∈ wait.due?, world.clock < due) → ∀ due ∈ wait.due?,
      ∃ place ∈ alarm, s.agenda.Has place id ∧ place.time = due) :
    DatesFocus E m asked begun (s.attend id run wait alarm world)
      (s.attend id run wait alarm world).focus := by
  unfold Schedule.attend
  split
  next wake hlook =>
    have htakes' := htakes wake _ (honTime wake hlook)
    have hmove : ∀ agenda : Agenda, s.agenda.Spares id agenda →
        (∀ place j, agenda.Has place j → s.agenda.Has place j) →
        DatesFocus E m asked begun { s with agenda, focus := .job id (run.wake world wake) }
          (.job id (run.wake world wake)) := by
      intro agenda hagenda hold
      have hdates : Dates E m asked begun { s with agenda } world.clock :=
        h.move_own ((Spares.refl h.issued).withAgenda hagenda) rfl (.inl rfl)
          (fun stage hstage => ?_)
          fun place j hplace => h.due place j (hold place j hplace)
      · exact hdates.wake hactive hrecounts htakes'
      · have hsame : s.stage? id = some stage := hstage
        rw [hactive] at hsame
        cases hsame
        trivial
    cases alarm with
    | none => exact hmove _ (.refl h.issued) fun _ _ hplace => hplace
    | some place =>
      exact hmove _ (.remove h.issued (hown place rfl).2) fun _ _ hplace =>
        (Agenda.has_remove.1 hplace).2
  next wait' hlook =>
    obtain ⟨-, hsame, -⟩ := Wait.exists_since_of_look h.settled hsince hlook
    exact h.park hactive hsince hrecounts htakes hlook hchildren (.refl h.issued) hown
      (fun hlater => hsame ▸ halarm hlater) h.due _

/-- **A job has its turn,** and an entry of its own is taken off. -/
theorem Dates.activate (h : Dates E m asked begun s now) {agenda : Agenda}
    (hagenda : s.agenda.Spares id agenda) (hdue : ∀ place j, agenda.Has place j → now ≤ place.time)
    (hid : id < s.jobs.size) (hopen : s.conclusion? id = none) :
    Dates E m asked begun (({ s with agenda } : Schedule P).setStage id .active) now ∧
      (({ s with agenda } : Schedule P).setStage id .active).stage? id = some .active ∧
      ∀ j, (({ s with agenda } : Schedule P).setStage id .active).conclusion? j =
        s.conclusion? j := by
  have hactive := stage?_setStage_self (s := { s with agenda }) .active hid
  have hcalm := conclusion?_setStage_of_open { s with agenda } .active hopen (by rintro _ ⟨⟩)
  refine ⟨h.move_own (((Spares.refl h.issued).withAgenda hagenda).setStage .active)
    (size_setStage _ _ _) (.inl (hcalm id)) (fun stage hstage => ?_) hdue, hactive, hcalm⟩
  rw [hactive] at hstage
  cases hstage
  trivial

/-- **A job that waits has its turn,** as an entry of its own has come. -/
theorem Dates.revive {place : Place} (h : Dates E m asked begun s place.time)
    (hplace : s.agenda.Has place id) {wait : Wait} {alarm : Option Place}
    (hstage : s.stage? id = some (.waiting run wait alarm)) (hclock : world.clock = place.time) :
    let t := ({ s with agenda := s.agenda.remove place } : Schedule P).setStage id .active
    DatesFocus E m asked begun (t.attend id run wait alarm world)
      (t.attend id run wait alarm world).focus := by
  intro t
  obtain ⟨hchildren, hown, halarm, ⟨await, since, hsince, hrecounts, htakes, honTime⟩, -⟩ :=
    h.stages id _ hstage
  have hremoved : s.agenda.Spares id (s.agenda.remove place) :=
    .remove h.issued fun j hj => hj.unique hplace
  obtain ⟨hdates, hactive, hcalm⟩ := h.activate hremoved
    (fun other j hother => h.due other j (Agenda.has_remove.1 hother).2) (lt_size_of_stage? hstage)
    (by simp only [Schedule.conclusion?, hstage])
  rw [← hclock] at hdates hsince honTime
  refine Dates.attend hdates hactive hsince hrecounts htakes
    (fun wake hlook => honTime wake ?_) (fun child hchild => ?_) (fun other hother => ?_)
    fun hlater due hmem => ?_
  · exact (Wait.look_congr fun child _ => hcalm child) ▸ hlook
  · rw [size_setStage, parent?_setStage]
    exact hchildren child hchild
  · obtain ⟨hticket, hone⟩ := hown other hother
    exact ⟨hticket, fun j hj => hone j (Agenda.has_remove.1 hj).2⟩
  · -- the entry that has come is not that of the time, which has not
    obtain ⟨other, hother, hhas, htime⟩ := halarm due hmem
    refine ⟨other, hother, Agenda.has_remove.2 ⟨?_, hhas⟩, htime⟩
    rintro rfl
    exact absurd (hlater due hmem) (Nat.not_lt.2 (Nat.le_of_eq (htime.symm.trans hclock.symm)))

/-- **The next job of the agenda** has its turn. -/
theorem Dates.proceed (h : Dates E m asked begun s world.clock) {s' : Schedule P}
    (hstep : s.proceed E world = .going s') :
    DatesFocus E m asked begun s' s'.focus := by
  obtain ⟨place, id, hnext, hproceeds⟩ := exists_proceeds hstep
  obtain ⟨hplace, -, hfirst⟩ := Agenda.next?_eq_some hnext
  have hclock : max world.clock place.time = place.time := Nat.max_eq_right (h.due place id hplace)
  -- the clock moves on first, and then the entry is taken off
  have htick : Dates E m asked begun s place.time := h.tick (h.due place id hplace) hfirst
  have hremoved : s.agenda.Spares id (s.agenda.remove place) :=
    .remove h.issued fun j hj => hj.unique hplace
  have hdue : ∀ other j, (s.agenda.remove place).Has other j → place.time ≤ other.time :=
    fun other j hother => hfirst other j (Agenda.has_remove.1 hother).2
  cases hproceeds with
  | @begins job hstage =>
    rw [hclock]
    obtain ⟨hroot, rfl, hbegun, other, hother, htime⟩ := htick.stages id _ hstage
    have hcopy : s.stage? id = some (.planned (asked id)) := hstage
    obtain ⟨hdates, hactive, -⟩ := htick.activate hremoved hdue (lt_size_of_stage? hcopy)
      (by simp only [Schedule.conclusion?, hcopy])
    have hnow : begun id = place.time := Nat.le_antisymm hbegun (htime ▸ hfirst other id hother)
    refine ⟨?_, hactive, { world with clock := place.time }, [], hnow.symm, ?_⟩
    · rw [Run.world_begin_clock]
      exact hdates.withFocus _
    · rw [memoOf_of_ne m hroot]
      exact .refl 0 _
  | looks hstage =>
    rw [hclock]
    exact htick.revive hplace hstage rfl
  | skips hplanned hwaiting =>
    rw [hclock]
    have hdates : Dates E m asked begun { s with agenda := s.agenda.remove place } place.time := by
      refine htick.move_own ((Spares.refl h.issued).withAgenda hremoved) rfl (.inl rfl)
        (fun stage hstage => ?_) hdue
      cases stage with
      | settled c => exact htick.stages id _ hstage
      | active => trivial
      | planned job => exact absurd hstage (hplanned job)
      | waiting run wait alarm => exact absurd hstage (hwaiting run wait alarm)
    exact hdates.withFocus _

/-- **A step keeps the schedule on time.** -/
theorem DatesFocus.step (h : DatesFocus E m asked begun s s.focus) (hstep : s.step E = .going s') :
    ∃ asked' begun', asked' root = asked root ∧ begun' root = begun root ∧
      DatesFocus E m asked' begun' s' s'.focus := by
  cases steps hstep with
  | @resumes id run input hfocus =>
    rw [hfocus] at h
    obtain ⟨hdates, hactive, hrecounts⟩ := h
    refine ⟨asked, begun, rfl, rfl, ?_, hactive, hrecounts.step (.turn (Nat.zero_le _) (.refl 0 _))⟩
    rw [run.world_turn_clock input]
    exact hdates.withFocus _
  | suspends hfocus =>
    rw [hfocus] at h
    obtain ⟨hdates, hactive, hrecounts⟩ := h
    exact hdates.suspend hactive hrecounts
  | settles hfocus hid =>
    rw [hfocus] at h
    obtain ⟨hdates, hactive, hrecounts⟩ := h
    exact ⟨asked, begun, rfl, rfl, hdates.settle hactive hid hrecounts⟩
  | proceeds hfocus hproceed =>
    rw [hfocus] at h
    exact ⟨asked, begun, rfl, rfl, Dates.proceed h hproceed⟩

/-- **What a fold ends with** the run of its root has come to, by induction on the steps. -/
theorem DatesFocus.follow {fuel : Nat} {o : Outcome P} (h : DatesFocus E m asked begun s s.focus)
    (ho : s.follow E fuel = some o) : Recounts E m asked begun root (.finish o) := by
  induction fuel generalizing s asked begun with
  | zero => cases ho
  | succ fuel ih =>
    unfold Schedule.follow at ho
    split at ho
    next s' hstep =>
      obtain ⟨asked', begun', hasked, hbegun, hdates⟩ := h.step hstep
      have hroot := ih hdates ho
      rwa [Recounts, hasked, hbegun] at hroot
    next o' hstep =>
      cases ho
      rw [focus_of_ended hstep] at h
      exact h.2.2
    next => cases ho

/-- **A fold that begins** is on time. -/
theorem datesFocus_start (job : Job) (shared : P.Shared) :
    DatesFocus E m (fun _ => job) (fun _ => 0)
      (.start (Run.begin E { memo := m, scope := job.scope, world := { shared } } job.node))
      (.job root
        (Run.begin E { memo := m, scope := job.scope, world := { shared } } job.node)) := by
  refine ⟨⟨fun id stage hstage => ?_, Agenda.issued_empty, fun place id hplace => ?_,
    Nat.zero_lt_one⟩, rfl, { shared }, [], rfl, ?_⟩
  · cases Nat.lt_one_iff.1 (lt_size_of_stage? hstage)
    cases hstage
    trivial
  · exact absurd hplace Agenda.not_has_empty
  · rw [memoOf_root]
    exact .refl 0 _

/-- **An evaluation is on time,** wherever it gets. -/
theorem exists_datesFocus {root : NodeId} {scope : Scope} {shared : P.Shared}
    (h : Relation.ReflTransGen (fun s s' : Schedule P => s.step E = .going s')
      (.start (Run.begin E { memo := m, scope, world := { shared } } root)) s) :
    ∃ asked begun, DatesFocus E m asked begun s s.focus := by
  induction h with
  | refl => exact ⟨_, _, datesFocus_start ⟨root, scope⟩ shared⟩
  | tail _ hstep ih =>
    obtain ⟨asked, begun, hdates⟩ := ih
    obtain ⟨asked', begun', -, -, hdates'⟩ := hdates.step hstep
    exact ⟨asked', begun', hdates'⟩

end Schedule

/-- **Whatever an evaluation attends to** there is a transcript of: of what has been said in
the run that it is about, from the beginning of the run. -/
theorem Engine.AttendsTo.exists_talks {E : Engine P} {root : NodeId} {memo : Memo} {scope : Scope}
    {shared : P.Shared} {next : Next P} (h : E.AttendsTo root memo scope shared next) :
    ∃ (m : Memo) (job : Job) (world : World P) (log : Transcript), (m = memo ∨ m = .empty) ∧
      Next.Talks E 0 (Run.begin E { memo := m, scope := job.scope, world } job.node) log next := by
  obtain ⟨s, id, hreach, hfocus⟩ := h
  obtain ⟨asked, begun, hdates⟩ := Schedule.exists_datesFocus hreach
  rw [hfocus] at hdates
  obtain ⟨-, -, world, log, -, htalks⟩ := hdates
  exact ⟨_, asked id, world, log,
    Schedule.memoOf_of memo (p := fun m => m = memo ∨ m = .empty) (.inl rfl) (.inr rfl) id, htalks⟩

end ProgramGraph
