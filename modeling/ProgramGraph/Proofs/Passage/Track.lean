import ProgramGraph.Engine.Fold
import ProgramGraph.Proofs.Passage.Job
import ProgramGraph.Proofs.Passage.Spare
/-!
# Schedules keep track of their jobs

Every job on a schedule is at a point that it passes through by itself, whatever
the other jobs are and in whatever order they take turns (`Schedule.Tracks`). No
job is lost either: one that has not begun is on the agenda, and one that waits is
on it, or waits for a job that has not settled. Those come after it, so the last of
all jobs that have not settled is on the agenda, and a schedule is never stuck.

Nothing is assumed of the graph, of the tasks, or of what comes first where two
things happen at one time.
-/

namespace ProgramGraph

variable {P : Plugins} (E : Engine P) (Ok : Job → Prop) (W : World P → Prop) (m : Memo)

namespace Schedule

/-- The memo that a job begins with: the one that is folded with for the fold
itself, and an empty one for every other job. -/
def memoOf (id : JobId) : Memo := if id = root then m else .empty

theorem memoOf_root : memoOf m root = m := if_pos rfl

theorem memoOf_of_ne {id : JobId} (h : id ≠ root) : memoOf m id = .empty := if_neg h

/-- What is true of both is true of the memo of every job. -/
theorem memoOf_of {p : Memo → Prop} (hm : p m) (hempty : p .empty) (id : JobId) : p (memoOf m id) := by
  unfold memoOf
  split
  · exact hm
  · exact hempty

/-- **What holds of jobs and worlds goes on to hold,** as far as jobs bring it
about. -/
structure Closed : Prop where
  jobs : ∀ {id job r await}, Ok job → Passes E W (memoOf m id) job (.wait r await) →
    ∀ asked ∈ await.jobs, Ok asked
  world : ∀ {id job next}, Ok job → Passes E W (memoOf m id) job next → W next.world
  clock : ∀ {world : World P} (clock : Nat), W world → W { world with clock }

/-- **The stage of a job is kept track of.** The job that its number stands for
passes through the point that it has come to. -/
def TracksStage (asked : JobId → Job) (s : Schedule P) (id : JobId) : Stage P → Prop
  | .planned job => id ≠ root ∧ asked id = job ∧ ∃ place, s.agenda.Has place id
  | .active => True
  | .waiting run wait alarm => s.Minds id wait alarm ∧
      ∃ await, Passes E W (memoOf m id) (asked id) (.wait run await) ∧
        ∀ wake, wait.Comes (fun id c => (asked id).Ends E W c) wake → await.Comes (Job.Ends E W) wake
  | .settled c => id ≠ root ∧ (asked id).Ends E W c

/-- All stages are kept track of, and no job is active but the one whose turn it
is. -/
structure Tracks (asked : JobId → Job) (s : Schedule P) (busy : Option JobId) : Prop where
  stages : ∀ id stage, s.stage? id = some stage → TracksStage E W m asked s id stage
  active : ∀ id, s.stage? id = some .active → busy = some id
  ok : ∀ id, id < s.jobs.size → Ok (asked id)
  issued : s.agenda.Issued
  exists_root : root < s.jobs.size

/-- **The schedule keeps track of its jobs,** and the one that it attends to passes
through what is next. -/
def TracksFocus (asked : JobId → Job) (s : Schedule P) : Focus P → Prop
  | .job id next => Tracks E Ok W m asked s (some id) ∧ s.stage? id = some .active ∧
      Passes E W (memoOf m id) (asked id) next
  | .agenda world => Tracks E Ok W m asked s none ∧ W world

variable {E : Engine P} {Ok : Job → Prop} {W : World P → Prop} {m : Memo}
variable {asked asked' : JobId → Job} {s s' : Schedule P} {id : JobId} {busy busy' : Option JobId}

/-- The stage of another job is kept track of as before. -/
theorem Spares.tracksStage (h : s.Spares id s') {j : JobId} (hne : j ≠ id) (hj : j < s.jobs.size)
    (hsame : ∀ j, j < s.jobs.size → asked' j = asked j)
    (htold : s.Tells id s') {stage : Stage P}
    (hstage : TracksStage E W m asked s j stage) : TracksStage E W m asked' s' j stage := by
  cases stage with
  | planned job =>
    obtain ⟨hroot, hjob, place, hplace⟩ := hstage
    exact ⟨hroot, (hsame j hj).trans hjob, place, h.agenda.entries place j hne hplace⟩
  | active => trivial
  | waiting run wait alarm =>
    obtain ⟨hminds, await, hpasses, hcomes⟩ := hstage
    refine ⟨h.minds hne htold hminds, await, ?_, fun wake hwake => hcomes wake (hwake.mono ?_)⟩
    · rw [hsame j hj]
      exact hpasses
    · intro child hchild c hc
      rw [hsame child (hminds.children child hchild).2.1] at hc
      exact hc
  | settled c =>
    obtain ⟨hroot, hends⟩ := hstage
    exact ⟨hroot, by rw [hsame j hj]; exact hends⟩

namespace Tracks

/-- **A move of one job** keeps track of all jobs if it keeps track of that one and
of those that are new. -/
theorem move (h : Tracks E Ok W m asked s busy) (hbusy : ∀ j, busy = some j → j = id)
    (hspares : s.Spares id s') (hsame : ∀ j, j < s.jobs.size → asked' j = asked j)
    (htold : s.Tells id s')
    (hown : ∀ stage, s'.stage? id = some stage → TracksStage E W m asked' s' id stage ∧
      (stage = .active → busy' = some id))
    (hnew : ∀ j, s.jobs.size ≤ j → j < s'.jobs.size → Ok (asked' j) ∧
      ∃ job, s'.stage? j = some (.planned job) ∧ TracksStage E W m asked' s' j (.planned job)) :
    Tracks E Ok W m asked' s' busy' where
  stages j stage hj := by
    by_cases hid : j = id
    · subst hid
      exact (hown stage hj).1
    · rcases Nat.lt_or_ge j s.jobs.size with hlt | hge
      · rw [hspares.stage j hlt hid] at hj
        exact hspares.tracksStage hid hlt hsame htold (h.stages j stage hj)
      · obtain ⟨-, job, hjob, htracks⟩ := hnew j hge (lt_size_of_stage? hj)
        rw [hj] at hjob
        cases hjob
        exact htracks
  active j hj := by
    by_cases hid : j = id
    · subst hid
      exact (hown _ hj).2 rfl
    · rcases Nat.lt_or_ge j s.jobs.size with hlt | hge
      · rw [hspares.stage j hlt hid] at hj
        exact absurd (hbusy j (h.active j hj)) hid
      · obtain ⟨-, job, hjob, -⟩ := hnew j hge (lt_size_of_stage? hj)
        rw [hj] at hjob
        cases hjob
  ok j hj := by
    rcases Nat.lt_or_ge j s.jobs.size with hlt | hge
    · rw [hsame j hlt]
      exact h.ok j hlt
    · exact (hnew j hge hj).1
  issued := hspares.agenda.issued
  exists_root := Nat.lt_of_lt_of_le h.exists_root hspares.size

/-- A move with which no job is planned. -/
theorem move_own (h : Tracks E Ok W m asked s busy) (hbusy : ∀ j, busy = some j → j = id)
    (hspares : s.Spares id s') (hsize : s'.jobs.size = s.jobs.size)
    (htold : s.Tells id s')
    (hown : ∀ stage, s'.stage? id = some stage → TracksStage E W m asked s' id stage ∧
      (stage = .active → busy' = some id)) : Tracks E Ok W m asked s' busy' :=
  h.move hbusy hspares (fun _ _ => rfl) htold hown fun j hj hj' => by omega

/-- What is attended to is of no account. -/
theorem withFocus (h : Tracks E Ok W m asked s busy) (focus : Focus P) :
    Tracks E Ok W m asked { s with focus } busy where
  stages id stage hstage := by
    have htracks := h.stages id stage hstage
    cases stage with
    | waiting run wait alarm =>
      obtain ⟨hminds, hawait⟩ := htracks
      exact ⟨⟨hminds.children, hminds.own, hminds.timer, hminds.ids, hminds.reason⟩, hawait⟩
    | _ => exact htracks
  active := h.active
  ok := h.ok
  issued := h.issued
  exists_root := h.exists_root

/-- A job that has settled has ended as it may. -/
theorem settled (h : Tracks E Ok W m asked s busy) {c : Conclusion} (hc : s.conclusion? id = some c) :
    (asked id).Ends E W c :=
  (h.stages id _ (conclusion?_eq_some.1 hc)).2

/-! ## Schedules are never stuck -/

/-- **Some job is on the agenda** when no job is active. -/
theorem next?_ne_none (h : Tracks E Ok W m asked s none) : s.agenda.next? ≠ none := by
  -- the last of the jobs that have not settled waits for none
  have hlast : ∀ n id, s.jobs.size - id ≤ n → id < s.jobs.size → s.conclusion? id = none →
      ∃ place id', s.agenda.Has place id' := by
    intro n
    induction n with
    | zero => intro id hn hid; omega
    | succ n ih =>
      intro id hn hid hopen
      obtain ⟨stage, hstage⟩ := exists_stage? hid
      have htracks := h.stages id stage hstage
      cases stage with
      | planned job =>
        obtain ⟨-, -, place, hplace⟩ := htracks
        exact ⟨place, id, hplace⟩
      | active => cases h.active id hstage
      | waiting run wait alarm =>
        obtain ⟨hminds, -⟩ := htracks
        rcases hminds.reason with ⟨place, hplace⟩ | ⟨child, hchild, hopen'⟩
        · exact ⟨place, id, hplace⟩
        · obtain ⟨hlt, hsize, -⟩ := hminds.children child hchild
          have hfewer : s.jobs.size - child < s.jobs.size - id := Nat.sub_lt_sub_left hid hlt
          exact ih child (by omega) hsize hopen'
      | settled c =>
        rw [conclusion?_eq_some.2 hstage] at hopen
        cases hopen
  have hroot : s.conclusion? root = none := by
    cases hc : s.conclusion? root with
    | none => rfl
    | some c => exact absurd rfl (h.stages root _ (conclusion?_eq_some.1 hc)).1
  obtain ⟨place, id, hplace⟩ := hlast _ root (Nat.le_refl _) h.exists_root hroot
  exact Agenda.next?_ne_none hplace

/-! ## Steps -/

variable {run : Run P} {await : Await} {wait : Wait} {alarm : Option Place} {world : World P}

/-- **A run that has to wait** plans the jobs that it waits for. -/
theorem planAll (hclosed : Closed E Ok W m) (h : Tracks E Ok W m asked s (some id))
    (hactive : s.stage? id = some .active)
    (hpasses : Passes E W (memoOf m id) (asked id) (.wait run await)) (now : Nat) :
    ∃ asked', asked' root = asked root ∧ asked' id = asked id ∧
      (s.planAll now id await.jobs).1.map asked' = await.jobs ∧
      Tracks E Ok W m asked' (s.planAll now id await.jobs).2 (some id) ∧
      (s.planAll now id await.jobs).2.stage? id = some .active ∧
      ∀ child ∈ (s.planAll now id await.jobs).1, id < child ∧
        child < (s.planAll now id await.jobs).2.jobs.size ∧
        (s.planAll now id await.jobs).2.parent? child = some id := by
  have hid := lt_size_of_stage? hactive
  have hok := hclosed.jobs (h.ok id hid) hpasses
  obtain ⟨asked', hsame, hmap, ⟨hspares, hnew⟩, hids⟩ :=
    exists_planned h.issued now id asked await.jobs
  generalize hjobs : (s.planAll now id await.jobs).1 = ids at hmap hids ⊢
  generalize ht : (s.planAll now id await.jobs).2 = t at hspares hnew hids ⊢
  have hstage : t.stage? id = some .active := by
    rw [(hspares (id + 1)).stage id hid (Nat.ne_of_lt (Nat.lt_succ_self id)), hactive]
  have hnumbers : ∀ j, s.jobs.size ≤ j → j < t.jobs.size → j ∈ ids := by
    intro j hj hj'
    rw [← ht, size_planAll] at hj'
    rw [← hjobs, planAll_ids, List.mem_range'_1]
    exact ⟨hj, hj'⟩
  refine ⟨asked', hsame root h.exists_root, hsame id hid, hmap, ?_, hstage, fun child hchild => ?_⟩
  · refine h.move (fun j hj => (Option.some.inj hj).symm) (hspares id) hsame
      (tells_of_open hstage nofun) (fun stage hstage' => ?_) fun j hj hj' => ?_
    · rw [hstage] at hstage'
      cases hstage'
      exact ⟨trivial, fun _ => rfl⟩
    · obtain ⟨hjob, -, hplace⟩ := hnew j hj hj'
      refine ⟨hok _ ?_, _, hjob, ?_, rfl, hplace⟩
      · rw [← hmap]
        exact List.mem_map_of_mem (hnumbers j hj hj')
      · rintro rfl
        exact absurd h.exists_root (Nat.not_lt.2 hj)
  · obtain ⟨hle, hlt⟩ := hids child hchild
    exact ⟨Nat.lt_of_lt_of_le hid hle, hlt, (hnew child hle hlt).2.1⟩

/-- **A wait that goes on** is minded: its time is on the agenda, or it is for a
job that has not settled. -/
theorem park (h : Tracks E Ok W m asked s (some id)) (hid : id < s.jobs.size)
    {wait' : Wait} {now : Nat} (hpasses : Passes E W (memoOf m id) (asked id) (.wait run await))
    (hcomes : ∀ wake, wait'.Comes (fun id c => (asked id).Ends E W c) wake →
      await.Comes (Job.Ends E W) wake)
    (hleft : wait.Left s.conclusion? now wait')
    (hids : (∀ due answer, wait ≠ .timer due answer) → wait.ids ≠ [])
    (hchildren : ∀ child ∈ wait.ids, id < child ∧ child < s.jobs.size ∧ s.parent? child = some id)
    {agenda : Agenda} (hagenda : s.agenda.Spares id agenda)
    (hown : ∀ place ∈ alarm, place.ticket < agenda.ticket ∧ ∀ j, agenda.Has place j → j = id)
    (htimer : ∀ due answer, wait' = .timer due answer →
      ∃ place ∈ alarm, agenda.Has place id ∧ place.time = due) (focus : Focus P) :
    Tracks E Ok W m asked
      { ({ s with agenda } : Schedule P).setStage id (.waiting run wait' alarm) with focus } none := by
  have hspares : s.Spares id (({ s with agenda } : Schedule P).setStage id (.waiting run wait' alarm)) :=
    ((Spares.refl h.issued).withAgenda hagenda).setStage _
  have hsize : (({ s with agenda } : Schedule P).setStage id (.waiting run wait' alarm)).jobs.size =
      s.jobs.size := size_setStage _ _ _
  have hstage : (({ s with agenda } : Schedule P).setStage id (.waiting run wait' alarm)).stage? id =
      some (.waiting run wait' alarm) :=
    stage?_setStage_self (s := { s with agenda }) _ hid
  -- a wait that is not for a time is for jobs before and after
  have hkind : (∀ due answer, wait' ≠ .timer due answer) → ∃ child ∈ wait'.ids,
      s.conclusion? child = none := by
    intro hkind
    refine hleft.unsettled hkind (hids fun due answer hwait => ?_)
    rcases hleft.same_or_lt with hsame | hlt
    · exact hkind due answer (hsame.trans hwait)
    · rw [hwait] at hlt
      exact absurd hlt (Nat.not_lt_zero _)
  have hbusy : ∀ j, some id = some j → j = id := fun j hj => (Option.some.inj hj).symm
  have htracks : Tracks E Ok W m asked _ none :=
    h.move_own hbusy hspares hsize (tells_of_open hstage nofun) fun stage hstage' => ?_
  · exact htracks.withFocus focus
  · rw [hstage] at hstage'
    cases hstage'
    refine ⟨⟨⟨fun child hchild => ?_, hown, htimer, fun hwait hnil => ?_, ?_⟩, await, hpasses, hcomes⟩,
      nofun⟩
    · obtain ⟨hlt, hsize', hparent⟩ := hchildren child (hleft.ids child hchild)
      exact ⟨hlt, by rw [hsize]; exact hsize', (hspares.parent child hsize').trans hparent⟩
    · obtain ⟨child, hchild, -⟩ := hkind hwait
      rw [hnil] at hchild
      cases hchild
    · by_cases hwait : ∃ due answer, wait' = .timer due answer
      · obtain ⟨due, answer, hwait⟩ := hwait
        obtain ⟨place, -, hplace, -⟩ := htimer due answer hwait
        exact .inl ⟨place, hplace⟩
      · obtain ⟨child, hchild, hopen⟩ := hkind fun due answer hwait' => hwait ⟨due, answer, hwait'⟩
        obtain ⟨hlt, hsize', -⟩ := hchildren child (hleft.ids child hchild)
        refine .inr ⟨child, hchild, ?_⟩
        rw [hspares.conclusion? hsize' (Nat.ne_of_gt hlt)]
        exact hopen

end Tracks

/-- **The time of a wait is on the agenda,** at a place of its own. Whatever else is new
there is for the time at hand. -/
theorem alarm_spec {a : Agenda} (ha : a.Issued) (wait : Wait) (now : Nat) (id : JobId) :
    let (alarm, agenda) := wait.alarm id a
    a.Spares id (wait.secondLook now id agenda) ∧
      (∀ place ∈ alarm, place.ticket < (wait.secondLook now id agenda).ticket ∧
        ∀ j, (wait.secondLook now id agenda).Has place j → j = id) ∧
      (∀ due ∈ wait.due?,
        ∃ place ∈ alarm, (wait.secondLook now id agenda).Has place id ∧ place.time = due) ∧
      ∀ place j, (wait.secondLook now id agenda).Has place j →
        a.Has place j ∨ place.time = now ∨ place.time ∈ wait.due? := by
  have hlarge : ∀ b : Agenda, b.Issued → b.Spares id (wait.secondLook now id b) ∧
      ∀ place j, (wait.secondLook now id b).Has place j → b.Has place j ∨ place.time = now := by
    intro b hb
    unfold Wait.secondLook
    split
    · refine ⟨.add hb now id, fun place j hplace => ?_⟩
      rcases (Agenda.has_add hb now).1 hplace with ⟨rfl, -⟩ | hplace
      · exact .inr rfl
      · exact .inl hplace
    · exact ⟨.refl hb, fun _ _ hplace => .inl hplace⟩
  unfold Wait.alarm
  cases hdue : wait.due? with
  | none =>
    obtain ⟨hspares, htimes⟩ := hlarge a ha
    exact ⟨hspares, nofun, nofun, fun place j hplace => (htimes place j hplace).imp_right .inl⟩
  | some due =>
    have hadd : Agenda.Spares id a (a.add due id).2 := .add ha due id
    have hself : (a.add due id).2.Has (a.add due id).1 id := Agenda.has_add_self ha due
    obtain ⟨hsecond, htimes⟩ := hlarge _ hadd.issued
    have hone : ∀ j, (wait.secondLook now id (a.add due id).2).Has (a.add due id).1 j → j = id := by
      intro j hj
      rcases hsecond.old _ j hj with hj | hticket
      · exact hj.unique hself
      · exact absurd hticket (Nat.not_le.2 (Nat.lt_succ_self _))
    refine ⟨hadd.trans hsecond, fun place hplace => ?_, fun due' hdue' => ?_, fun place j hplace => ?_⟩
    · cases hplace
      exact ⟨Nat.lt_of_lt_of_le (Nat.lt_succ_self _) hsecond.ticket, hone⟩
    · cases hdue'
      refine ⟨_, rfl, ?_, rfl⟩
      unfold Wait.secondLook
      split
      · exact hself.add hadd.issued now id
      · exact hself
    · rcases htimes place j hplace with hplace | hnow
      · rcases (Agenda.has_add ha due).1 hplace with ⟨rfl, -⟩ | hplace
        · exact .inr (.inr rfl)
        · exact .inl hplace
      · exact .inr (.inl hnow)

/-! ## Steps -/

variable {run : Run P} {await : Await} {world : World P}

/-- **A run that has to wait.** -/
theorem Tracks.suspend (hclosed : Closed E Ok W m) (h : Tracks E Ok W m asked s (some id))
    (hactive : s.stage? id = some .active)
    (hpasses : Passes E W (memoOf m id) (asked id) (.wait run await)) :
    ∃ asked', asked' root = asked root ∧
      TracksFocus E Ok W m asked' (s.suspend id run await) (s.suspend id run await).focus := by
  have hid := lt_size_of_stage? hactive
  have hworld : W run.world := hclosed.world (h.ok id hid) hpasses
  obtain ⟨asked', hroot, hself, hmap, ht, hactive', hchildren⟩ :=
    h.planAll hclosed hactive hpasses run.world.clock
  have hsuspends := s.suspends id run await
  have hlength : (s.planAll run.world.clock id await.jobs).1.length = await.jobs.length := by
    rw [planAll_ids, List.length_range']
  generalize (s.planAll run.world.clock id await.jobs).1 = ids at hmap hchildren hlength hsuspends
  generalize (s.planAll run.world.clock id await.jobs).2 = t at ht hactive' hchildren hsuspends
  generalize s.suspend id run await = s' at hsuspends ⊢
  rw [← hself] at hpasses
  have hsettled : ∀ j c, t.conclusion? j = some c → (asked' j).Ends E W c := fun j c => ht.settled
  refine ⟨asked', hroot, ?_⟩
  cases hsuspends with
  | ends hlook =>
    refine ⟨ht.withFocus _, hactive', hpasses.wake_of_comes hworld ?_⟩
    exact Await.comes_of_toWait hmap (Wait.comes_of_look hsettled hlook)
  | @waits wait' hlook =>
    have hleft := Wait.left_of_look hlook
    have halarm := alarm_spec ht.issued wait' run.world.clock id
    dsimp only at halarm
    obtain ⟨hagenda, hown, hdue, -⟩ := halarm
    have htimer : ∀ due answer, wait' = .timer due answer → ∃ place ∈ (wait'.alarm id t.agenda).1,
        (wait'.secondLook run.world.clock id (wait'.alarm id t.agenda).2).Has place id ∧
          place.time = due := by
      rintro due answer rfl
      exact hdue due rfl
    refine ⟨ht.park (lt_size_of_stage? hactive') hpasses (fun wake hwake => ?_) hleft (fun hkind => ?_)
      (fun child hchild => ?_) hagenda hown htimer _, hworld⟩
    · exact Await.comes_of_toWait hmap (hleft.comes hsettled hwake)
    · refine Await.ids_toWait_ne_nil (fun hnil => ?_) hlength
      cases await with
      | timer ms answer => exact hkind _ _ rfl
      | all jobs =>
        -- a wait for no jobs is over at once
        obtain rfl : jobs = [] := hnil
        obtain rfl : ids = [] := List.length_eq_zero_iff.1 hlength
        cases hlook
      | _ => cases hnil
    · exact hchildren child (Await.mem_of_mem_toWait hlength hchild)

/-- **A job that settles.** Whoever has asked for it is told. -/
theorem Tracks.settle (h : Tracks E Ok W m asked s (some id)) (hactive : s.stage? id = some .active)
    (hid : id ≠ root) {o : Outcome P} (hpasses : Passes E W .empty (asked id) (.finish o))
    (hworld : W o.run.world) :
    TracksFocus E Ok W m asked (s.settle id o) (s.settle id o).focus := by
  have hstage := stage?_setStage_self (s := s) (.settled o.conclusion) (lt_size_of_stage? hactive)
  have hspares : s.Spares id (s.setStage id (.settled o.conclusion)) :=
    (Spares.refl h.issued).setStage _
  -- what is put on the agenda is all that hangs on whether anybody has asked for the job
  have hmove : ∀ agenda : Agenda, s.agenda.Spares id agenda →
      (∀ parent, s.parent? id = some parent → ∃ place, agenda.Has place parent) →
      Tracks E Ok W m asked
        { s.setStage id (.settled o.conclusion) with agenda, focus := .agenda o.run.world } none := by
    intro agenda hagenda htold
    refine (h.move_own (fun j hj => (Option.some.inj hj).symm) (hspares.withAgenda hagenda)
      (size_setStage s id _) (fun _ parent hparent => .inr (htold parent hparent))
      fun stage hstage' => ?_).withFocus _
    have hsame : (s.setStage id (.settled o.conclusion)).stage? id = some stage := hstage'
    rw [hstage] at hsame
    cases hsame
    exact ⟨⟨hid, o, hpasses, rfl⟩, nofun⟩
  refine ⟨?_, hworld⟩
  cases hparent : s.parent? id with
  | none =>
    have hjob : s.jobs[id]?.bind ScheduledJob.parent = none := hparent
    simp only [Schedule.settle, hjob]
    exact hmove _ (.refl h.issued) (fun parent h => by rw [hparent] at h; cases h)
  | some parent =>
    have hjob : s.jobs[id]?.bind ScheduledJob.parent = some parent := hparent
    simp only [Schedule.settle, hjob]
    refine hmove _ (.add h.issued _ _) fun other hother => ?_
    rw [hparent] at hother
    cases hother
    exact ⟨_, Agenda.has_add_self h.issued _⟩

/-- **A job looks at its wait** when it has its turn. -/
theorem Tracks.attend (h : Tracks E Ok W m asked s (some id)) (hactive : s.stage? id = some .active)
    {wait : Wait} {alarm : Option Place} (hpasses : Passes E W (memoOf m id) (asked id) (.wait run await))
    (hcomes : ∀ wake, wait.Comes (fun id c => (asked id).Ends E W c) wake →
      await.Comes (Job.Ends E W) wake)
    (hids : (∀ due answer, wait ≠ .timer due answer) → wait.ids ≠ [])
    (hchildren : ∀ child ∈ wait.ids, id < child ∧ child < s.jobs.size ∧ s.parent? child = some id)
    (hown : ∀ place ∈ alarm, place.ticket < s.agenda.ticket ∧ ∀ j, s.agenda.Has place j → j = id)
    (htimer : ∀ due answer, wait = .timer due answer → world.clock < due →
      ∃ place ∈ alarm, s.agenda.Has place id ∧ place.time = due) (hworld : W world) :
    TracksFocus E Ok W m asked (s.attend id run wait alarm world)
      (s.attend id run wait alarm world).focus := by
  unfold Schedule.attend
  split
  next wake hlook =>
    have hwake := hcomes wake (Wait.comes_of_look (fun j c => h.settled) hlook)
    have hmove : ∀ agenda : Agenda, s.agenda.Spares id agenda →
        TracksFocus E Ok W m asked { s with agenda, focus := .job id (run.wake world wake) }
          (.job id (run.wake world wake)) := by
      intro agenda hagenda
      refine ⟨(h.move_own (fun j hj => (Option.some.inj hj).symm)
        ((Spares.refl h.issued).withAgenda hagenda) rfl (tells_of_open hactive nofun)
        fun stage hstage => ?_).withFocus _, hactive, hpasses.wake_of_comes hworld hwake⟩
      have hsame : s.stage? id = some stage := hstage
      rw [hactive] at hsame
      cases hsame
      exact ⟨trivial, fun _ => rfl⟩
    cases alarm with
    | none => exact hmove _ (.refl h.issued)
    | some place => exact hmove _ (.remove h.issued (hown place rfl).2)
  next wait' hlook =>
    have hleft := Wait.left_of_look hlook
    refine ⟨h.park (lt_size_of_stage? hactive) hpasses (fun wake hwake => ?_) hleft hids hchildren
      (.refl h.issued) hown (fun due answer hwait => ?_) _, hworld⟩
    · exact hcomes wake (hleft.comes (fun j c => h.settled) hwake)
    · obtain ⟨hsame, hlt⟩ := hleft.timer due answer hwait
      exact htimer due answer (hsame.trans hwait) hlt

/-- **The next job of the agenda** has its turn. -/
theorem Tracks.proceed (hclosed : Closed E Ok W m) (h : Tracks E Ok W m asked s none) (hworld : W world) :
    ∃ s', s.proceed E world = .going s' ∧ TracksFocus E Ok W m asked s' s'.focus := by
  cases hnext : s.agenda.next? with
  | none => exact absurd hnext h.next?_ne_none
  | some entry =>
  obtain ⟨⟨place, id⟩, rest⟩ := entry
  obtain ⟨hplace, rfl, -⟩ := Agenda.next?_eq_some hnext
  have hworld' : W { world with clock := max world.clock place.time } := hclosed.clock _ hworld
  have hremoved : s.agenda.Spares id (s.agenda.remove place) :=
    .remove h.issued fun j hj => hj.unique hplace
  have hspares : s.Spares id { s with agenda := s.agenda.remove place } :=
    (Spares.refl h.issued).withAgenda hremoved
  -- a job that has its turn is active
  have hturn : id < s.jobs.size → Tracks E Ok W m asked
        (({ s with agenda := s.agenda.remove place } : Schedule P).setStage id .active) (some id) ∧
      (({ s with agenda := s.agenda.remove place } : Schedule P).setStage id .active).stage? id =
        some .active := by
    intro hid
    have hactive := stage?_setStage_self (s := { s with agenda := s.agenda.remove place }) .active hid
    refine ⟨h.move_own nofun (hspares.setStage .active) (size_setStage _ _ _)
      (tells_of_open hactive nofun) fun stage hstage => ?_, hactive⟩
    rw [hactive] at hstage
    cases hstage
    exact ⟨trivial, fun _ => rfl⟩
  -- a job that has nothing to do leaves its turn to the next
  have hskip : (∀ stage, s.stage? id = some stage → ∃ c, stage = .settled c) →
      Tracks E Ok W m asked { s with agenda := s.agenda.remove place } none := by
    intro hsettled
    refine h.move_own nofun hspares rfl (fun hopen parent hparent => ?_) fun stage hstage => ?_
    · -- it has settled before, and whoever waited for it was told then
      obtain ⟨stage, hstage⟩ := exists_stage? (lt_size_of_parent? hparent)
      obtain ⟨c, rfl⟩ := hsettled stage hstage
      rw [conclusion?_eq_some.2 hstage] at hopen
      cases hopen
    · obtain ⟨c, rfl⟩ := hsettled stage hstage
      exact ⟨h.stages id _ hstage, nofun⟩
  unfold Schedule.proceed
  simp only [hnext]
  split
  next job hstage =>
    obtain ⟨hroot, rfl, -⟩ := h.stages id _ hstage
    obtain ⟨htracks, hactive⟩ := hturn (lt_size_of_stage? (s := s) hstage)
    refine ⟨_, rfl, htracks.withFocus _, hactive, ?_⟩
    rw [memoOf_of_ne m hroot]
    exact .begin hworld'
  next run wait alarm hstage =>
    obtain ⟨hminds, await, hpasses, hcomes⟩ := h.stages id _ hstage
    obtain ⟨htracks, hactive⟩ := hturn (lt_size_of_stage? (s := s) hstage)
    refine ⟨_, rfl, htracks.attend hactive hpasses hcomes hminds.ids (fun child hchild => ?_)
      (fun other hother => ?_) (fun due answer hwait hlt => ?_) hworld'⟩
    · obtain ⟨hlt, hsize, hparent⟩ := hminds.children child hchild
      rw [size_setStage, parent?_setStage]
      exact ⟨hlt, hsize, hparent⟩
    · obtain ⟨hticket, hone⟩ := hminds.own other hother
      exact ⟨hticket, fun j hj => hone j (Agenda.has_remove.1 hj).2⟩
    · -- the entry that has come is not that of the time, which has not
      obtain ⟨other, hother, hhas, htime⟩ := hminds.timer due answer hwait
      refine ⟨other, hother, Agenda.has_remove.2 ⟨?_, hhas⟩, htime⟩
      rintro rfl
      have hle : other.time ≤ max world.clock other.time := Nat.le_max_right _ _
      have hlt' : max world.clock other.time < due := hlt
      omega
  next hplanned hwaiting =>
    refine ⟨_, rfl, (hskip fun stage hstage => ?_).withFocus _, hworld'⟩
    cases stage with
    | settled c => exact ⟨c, rfl⟩
    | active => cases h.active id hstage
    | planned job => exact absurd hstage (hplanned job)
    | waiting run wait alarm => exact absurd hstage (hwaiting run wait alarm)

/-- **A step keeps track of all jobs,** or it ends the fold, which has passed
through all that it did. -/
theorem TracksFocus.step (hclosed : Closed E Ok W m) (h : TracksFocus E Ok W m asked s s.focus) :
    (∃ s' asked', s.step E = .going s' ∧ asked' root = asked root ∧
      TracksFocus E Ok W m asked' s' s'.focus) ∨
    ∃ o, s.step E = .ended o ∧ Passes E W m (asked root) (.finish o) ∧ W o.run.world := by
  cases hfocus : s.focus with
  | agenda world =>
    rw [hfocus] at h
    obtain ⟨htracks, hworld⟩ := h
    obtain ⟨s', hstep, hs'⟩ := htracks.proceed hclosed hworld
    exact .inl ⟨s', asked, by simp only [Schedule.step, hfocus]; exact hstep, rfl, hs'⟩
  | job id next =>
    rw [hfocus] at h
    obtain ⟨htracks, hactive, hpasses⟩ := h
    have hid := lt_size_of_stage? hactive
    cases next with
    | resume run input =>
      refine .inl ⟨_, asked, by simp only [Schedule.step, hfocus]; rfl, rfl, ?_⟩
      exact ⟨htracks.withFocus _, hactive, hpasses.turn⟩
    | wait run await =>
      obtain ⟨asked', hroot, hs'⟩ := htracks.suspend hclosed hactive hpasses
      exact .inl ⟨_, asked', by simp only [Schedule.step, hfocus], hroot, hs'⟩
    | finish o =>
      have hworld : W o.run.world := hclosed.world (htracks.ok id hid) hpasses
      by_cases hroot : id = root
      · refine .inr ⟨o, by simp only [Schedule.step, hfocus, if_pos hroot], ?_, hworld⟩
        rw [hroot, memoOf_root] at hpasses
        exact hpasses
      · refine .inl ⟨_, asked, by simp only [Schedule.step, hfocus, if_neg hroot]; rfl, rfl, ?_⟩
        rw [memoOf_of_ne m hroot] at hpasses
        exact htracks.settle hactive hroot hpasses hworld

/-- **A fold that begins.** -/
theorem tracksFocus_start {job : Job} {next : Next P} (hok : Ok job) (hpasses : Passes E W m job next) :
    TracksFocus E Ok W m (fun _ => job) (start next) (start next).focus := by
  refine ⟨⟨fun id stage hstage => ?_, fun id hactive => ?_, fun _ _ => hok, Agenda.issued_empty,
    Nat.zero_lt_one⟩, rfl, hpasses⟩
  · cases Nat.lt_one_iff.1 (lt_size_of_stage? hstage)
    cases hstage
    trivial
  · cases Nat.lt_one_iff.1 (lt_size_of_stage? hactive)
    rfl

/-- **What a fold ends with** its root has passed through, by induction on the
steps. -/
theorem TracksFocus.follow (hclosed : Closed E Ok W m) {fuel : Nat} {o : Outcome P}
    (h : TracksFocus E Ok W m asked s s.focus) (ho : s.follow E fuel = some o) :
    Passes E W m (asked root) (.finish o) ∧ W o.run.world := by
  induction fuel generalizing s asked with
  | zero => cases ho
  | succ fuel ih =>
    unfold Schedule.follow at ho
    rcases h.step hclosed with ⟨s', asked', hstep, hroot, hs'⟩ | ⟨o', hstep, hpasses, hworld⟩
    · rw [hstep] at ho
      rw [← hroot]
      exact ih hs' ho
    · rw [hstep] at ho
      cases ho
      exact ⟨hpasses, hworld⟩

end Schedule

section Evaluation

variable {E : Engine P} {Ok : Job → Prop} {W : World P → Prop} {root : NodeId} {memo : Memo}
  {scope : Scope} {shared : P.Shared}

/-- **What an evaluation ends with** its root has passed through. -/
theorem Engine.passes_of_evaluate? (hclosed : Schedule.Closed E Ok W memo) (hok : Ok ⟨root, scope⟩)
    (hworld : W { shared }) {fuel : Nat} {o : Outcome P}
    (ho : E.evaluate? fuel root memo scope shared = some o) :
    Passes E W memo ⟨root, scope⟩ (.finish o) ∧ W o.run.world :=
  (Schedule.tracksFocus_start hok (.begin hworld)).follow hclosed ho

/-- Nothing has to be known of jobs and worlds. -/
theorem Schedule.closed_true (E : Engine P) (m : Memo) :
    Closed E (fun _ => True) (fun _ => True) m :=
  ⟨fun _ _ _ _ => trivial, fun _ _ => trivial, fun _ _ => trivial⟩

/-- **Wherever an evaluation gets,** its schedule keeps track of its jobs. -/
theorem Schedule.exists_tracksFocus (hclosed : Closed E Ok W memo) (hok : Ok ⟨root, scope⟩)
    (hworld : W { shared }) {s : Schedule P}
    (h : Relation.ReflTransGen (fun s s' : Schedule P => s.step E = .going s')
      (.start (Run.begin E { memo, scope, world := { shared } } root)) s) :
    ∃ asked, asked Schedule.root = ⟨root, scope⟩ ∧ TracksFocus E Ok W memo asked s s.focus := by
  induction h with
  | refl =>
    have hpasses : Passes E W memo ⟨root, scope⟩
        (Run.begin E { memo, scope, world := { shared } } root) := .begin hworld
    exact ⟨_, rfl, tracksFocus_start hok hpasses⟩
  | tail _ hstep ih =>
    obtain ⟨asked, hroot, htracks⟩ := ih
    rcases htracks.step hclosed with ⟨s', asked', hstep', hsame, hs'⟩ | ⟨o, hended, -⟩
    · rw [hstep] at hstep'
      cases hstep'
      exact ⟨asked', hsame.trans hroot, hs'⟩
    · rw [hstep] at hended
      cases hended

/-- **Any run of an evaluation** is one that gets to where it is by itself, from the
memo that is given or from an empty one. So what is true of all that a run may come
to is true at every step. -/
theorem Schedule.exists_mayReach {s : Schedule P} {id : JobId} {next : Next P}
    (h : Relation.ReflTransGen (fun s s' : Schedule P => s.step E = .going s')
      (.start (Run.begin E { memo, scope, world := { shared } } root)) s)
    (hfocus : s.focus = .job id next) :
    ∃ (m : Memo) (job : Job) (world : World P), (m = memo ∨ m = .empty) ∧
      E.MayReach job.node m job.scope world next := by
  obtain ⟨asked, -, htracks⟩ := exists_tracksFocus (closed_true E memo) trivial trivial h
  rw [hfocus] at htracks
  obtain ⟨-, -, hpasses⟩ := htracks
  obtain ⟨world, hreach⟩ := hpasses.mayReach
  have hmemo : memoOf memo id = memo ∨ memoOf memo id = .empty :=
    memoOf_of memo (p := fun m => m = memo ∨ m = .empty) (.inl rfl) (.inr rfl) id
  exact ⟨memoOf memo id, asked id, world, hmemo, hreach⟩

/-- **The evaluation attends to this,** at some step, in its own run or in that of
a job. -/
def Engine.AttendsTo (E : Engine P) (root : NodeId) (memo : Memo) (scope : Scope)
    (shared : P.Shared) (next : Next P) : Prop :=
  ∃ s id, Relation.ReflTransGen (fun s s' : Schedule P => s.step E = .going s')
    (.start (Run.begin E { memo, scope, world := { shared } } root)) s ∧ s.focus = .job id next

/-- **What an evaluation attends to** some job passes through: its root from the memo
that is given, or a job that is one of some kind from an empty memo. -/
theorem Engine.AttendsTo.exists_passes {next : Next P}
    (h : E.AttendsTo root memo scope shared next) (hclosed : Schedule.Closed E Ok W memo)
    (hok : Ok ⟨root, scope⟩) (hworld : W { shared }) :
    Passes E W memo ⟨root, scope⟩ next ∨ ∃ job, Ok job ∧ Passes E W .empty job next := by
  obtain ⟨s, id, hreach, hfocus⟩ := h
  obtain ⟨asked, hroot, htracks⟩ := Schedule.exists_tracksFocus hclosed hok hworld hreach
  rw [hfocus] at htracks
  obtain ⟨htracks, hactive, hpasses⟩ := htracks
  by_cases hid : id = Schedule.root
  · rw [hid, Schedule.memoOf_root, hroot] at hpasses
    exact .inl hpasses
  · rw [Schedule.memoOf_of_ne memo hid] at hpasses
    exact .inr ⟨asked id, htracks.ok id (Schedule.lt_size_of_stage? hactive), hpasses⟩

end Evaluation

end ProgramGraph
