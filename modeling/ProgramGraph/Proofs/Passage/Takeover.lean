import Mathlib.Algebra.BigOperators.Group.Finset.Basic
import Mathlib.Tactic.Abel
import ProgramGraph.Proofs.Passage.Await
import ProgramGraph.Proofs.Passage.Balance
import ProgramGraph.Proofs.Passage.Carry
/-!
# Whose counters are taken over

Every job counts for itself, and whoever waits for it takes its counters over: as a
conclusion that has been found, and then for good. If all waits are for all of some jobs or
for a pause, each job is waited for by the one that has asked for it, until it has been
found. So the counters of those that have not been found, with what has been found and not
been taken over, are at every step all that has been counted (`Schedule.Balanced`). At the
end there is nobody left who waits, so every job has settled and been found, once.
-/

namespace ProgramGraph

open Finset

variable {P : Plugins} {E : Engine P}

/-! ## What is found -/

/-- What some conclusions have counted. -/
def Conclusion.total (found : List Conclusion) : Tally := (found.map Conclusion.tally).sum

theorem Conclusion.tally_gather (found : List Conclusion) :
    (gather found.reverse).tally = total found := by
  have hfoldl : (gather found.reverse).tally = (found.reverse.map Conclusion.tally).foldl (· + ·) 0 := rfl
  rw [hfoldl, ← List.sum_eq_foldl, List.map_reverse, List.sum_reverse, total]

namespace Wait

variable {conclusion? : JobId → Option Conclusion} {now : Nat} {wait wait' : Wait} {wake : Wake}
  {held : JobId → Tally}

/-- What has been found of the jobs that are waited for. -/
def found : Wait → List Conclusion
  | all found _ => found
  | _ => []

/-- The wait is for a pause or for all of some jobs. -/
def Plain : Wait → Prop
  | timer _ .elapsed | all _ _ => True
  | _ => False

/-- **Jobs are found from the front,** and what they hold is found with them. -/
theorem exists_collect (hheld : ∀ id c, conclusion? id = some c → held id = c.tally)
    (found : List Conclusion) (rest : List JobId) :
    ∃ taken, rest = taken ++ (collect conclusion? found rest).2 ∧
      (∀ id ∈ taken, conclusion? id ≠ none) ∧
      Conclusion.total (collect conclusion? found rest).1 =
        Conclusion.total found + (taken.map held).sum := by
  induction rest generalizing found with
  | nil => exact ⟨[], rfl, List.forall_mem_nil _, (add_zero _).symm⟩
  | cons id rest ih =>
    cases hid : conclusion? id with
    | none =>
      simp only [collect, hid]
      exact ⟨[], rfl, List.forall_mem_nil _, (add_zero _).symm⟩
    | some c =>
      obtain ⟨taken, hrest, hsettled, htotal⟩ := ih (c :: found)
      simp only [collect, hid]
      refine ⟨id :: taken, congrArg (List.cons id) hrest, ?_, ?_⟩
      · exact List.forall_mem_cons.2 ⟨hid ▸ Option.some_ne_none c, hsettled⟩
      · have hcons : Conclusion.total (c :: found) = c.tally + Conclusion.total found := rfl
        rw [htotal, hcons, List.map_cons, List.sum_cons, hheld id c hid]
        abel

/-- **A wait that is found over** has found all of its jobs. -/
theorem Plain.of_look_inl (h : wait.Plain)
    (hheld : ∀ id c, conclusion? id = some c → held id = c.tally)
    (hlook : wait.look conclusion? now = .inl wake) :
    (∀ id ∈ wait.ids, conclusion? id ≠ none) ∧
      wake.tally = Conclusion.total wait.found + (wait.ids.map held).sum := by
  cases wait with
  | timer due answer =>
    cases answer with
    | settled c => exact h.elim
    | elapsed =>
      simp only [look] at hlook
      split at hlook <;> cases hlook
      exact ⟨List.forall_mem_nil _, (add_zero _).symm⟩
  | all found rest =>
    obtain ⟨taken, hrest, hsettled, htotal⟩ := exists_collect hheld found rest
    simp only [look] at hlook
    split at hlook
    next found' hcollect =>
      cases hlook
      rw [hcollect] at hrest htotal
      obtain rfl : rest = taken := hrest.trans (List.append_nil taken)
      exact ⟨hsettled, (Conclusion.tally_gather found').trans htotal⟩
    next => cases hlook
  | job | first | deadline => exact h.elim

/-- **A wait that goes on** has found the first of its jobs. -/
theorem Plain.of_look_inr (h : wait.Plain)
    (hheld : ∀ id c, conclusion? id = some c → held id = c.tally)
    (hlook : wait.look conclusion? now = .inr wait') :
    wait'.Plain ∧ ∃ taken, wait.ids = taken ++ wait'.ids ∧ (∀ id ∈ taken, conclusion? id ≠ none) ∧
      Conclusion.total wait'.found = Conclusion.total wait.found + (taken.map held).sum := by
  cases wait with
  | timer due answer =>
    simp only [look] at hlook
    split at hlook <;> cases hlook
    exact ⟨h, [], rfl, List.forall_mem_nil _, (add_zero _).symm⟩
  | all found rest =>
    obtain ⟨taken, hrest, hsettled, htotal⟩ := exists_collect hheld found rest
    simp only [look] at hlook
    split at hlook
    next => cases hlook
    next found' rest' _ hcollect =>
      cases hlook
      rw [hcollect] at hrest htotal
      exact ⟨trivial, taken, hrest, hsettled, htotal⟩
  | job | first | deadline => exact h.elim

end Wait

/-! ## What jobs hold -/

/-- What a job holds at a stage that nobody has taken over: what it has counted so far and
what it has found, if it waits, or what it has counted in the end. -/
def Stage.held : Stage P → Tally
  | .waiting run wait _ => run.memo.tally + Conclusion.total wait.found
  | .settled c => c.tally
  | .planned _ | .active => 0

namespace Schedule

variable {s s' : Schedule P} {live : Finset JobId} {looking looking' : Option (JobId × Wait)}
  {id : JobId} {wait : Wait} {given : Tally}

/-- What a job holds. -/
def held (s : Schedule P) (id : JobId) : Tally := ((s.stage? id).map Stage.held).getD 0

theorem held_of_stage? {stage : Stage P} (h : s.stage? id = some stage) : s.held id = stage.held := by
  rw [held, h]
  rfl

theorem held_of_conclusion? (id : JobId) (c : Conclusion) (h : s.conclusion? id = some c) :
    s.held id = c.tally :=
  held_of_stage? (conclusion?_eq_some.1 h)

theorem held_of_active (h : s.stage? id = some .active) : s.held id = 0 := held_of_stage? h

theorem held_congr (h : s'.stage? id = s.stage? id) : s'.held id = s.held id := by
  rw [held, held, h]

/-- **Another stage** is one thing else that is held. -/
theorem sum_held_setStage (stage : Stage P) (hid : id ∈ live) (hlt : id < s.jobs.size) :
    ∑ j ∈ live, (s.setStage id stage).held j + s.held id = ∑ j ∈ live, s.held j + stage.held := by
  have hothers : ∑ j ∈ live.erase id, (s.setStage id stage).held j = ∑ j ∈ live.erase id, s.held j :=
    sum_congr rfl fun j hj => held_congr (stage?_setStage_of_ne stage (ne_of_mem_erase hj))
  rw [← add_sum_erase live _ hid, ← add_sum_erase live s.held hid, hothers,
    held_of_stage? (stage?_setStage_self stage hlt)]
  abel

/-- What is held by jobs that are taken is held by these and by the others. -/
theorem sum_held_take {taken : List JobId} (hnodup : taken.Nodup) (hlive : ∀ j ∈ taken, j ∈ live) :
    ∑ j ∈ live, s.held j = ∑ j ∈ live \ taken.toFinset, s.held j + (taken.map s.held).sum := by
  rw [← List.sum_toFinset s.held hnodup]
  exact (sum_sdiff fun j hj => hlive j (List.mem_toFinset.1 hj)).symm

/-! ## Who waits for whom -/

/-- A job expects others: it waits for them, or it is about to look at its wait. -/
def Expects (s : Schedule P) (looking : Option (JobId × Wait)) (id : JobId) (wait : Wait) : Prop :=
  looking = some (id, wait) ∨ ∃ run alarm, s.stage? id = some (.waiting run wait alarm)

/-- **Nobody has been found twice or lost.** Those that have not been found are expected by
the one that has asked for them, and whoever has not settled is one of them. -/
structure Kin (s : Schedule P) (looking : Option (JobId × Wait)) (live : Finset JobId) : Prop where
  root : root ∈ live
  lt : ∀ id ∈ live, id < s.jobs.size
  unsettled : ∀ id, id < s.jobs.size → s.conclusion? id = none → id ∈ live
  expected : ∀ id ∈ live, id ≠ Schedule.root → ∃ parent wait, s.Expects looking parent wait ∧ id ∈ wait.ids
  plain : ∀ parent wait, s.Expects looking parent wait → wait.Plain ∧ wait.ids.Nodup
  children : ∀ parent wait, s.Expects looking parent wait → ∀ child ∈ wait.ids,
    child ∈ live ∧ parent < child ∧ s.parent? child = some parent

namespace Kin

/-- Only stages that wait, and those that do not settle, matter. -/
theorem congr (h : s.Kin looking live) (hsize : s'.jobs.size = s.jobs.size)
    (hparent : ∀ j, s'.parent? j = s.parent? j)
    (hexpects : ∀ j wait, s'.Expects looking' j wait ↔ s.Expects looking j wait)
    (hunsettled : ∀ j, s'.conclusion? j = none → s.conclusion? j = none) : s'.Kin looking' live where
  root := h.root
  lt := by
    rw [hsize]
    exact h.lt
  unsettled j hj hopen := h.unsettled j (by rw [← hsize]; exact hj) (hunsettled j hopen)
  expected j hj hroot := by
    obtain ⟨parent, wait, hexpected, hmem⟩ := h.expected j hj hroot
    exact ⟨parent, wait, (hexpects parent wait).2 hexpected, hmem⟩
  plain parent wait hwaits := h.plain parent wait ((hexpects parent wait).1 hwaits)
  children parent wait hwaits child hchild := by
    rw [hparent]
    exact h.children parent wait ((hexpects parent wait).1 hwaits) child hchild

/-- **Jobs that have settled are found** by the one that expects them. -/
theorem take {wait' : Wait} {taken : List JobId} (h : s.Kin (some (id, wait)) live)
    (hactive : s.stage? id = some .active) (hplain : wait'.Plain) (hids : wait.ids = taken ++ wait'.ids)
    (hsettled : ∀ j ∈ taken, s.conclusion? j ≠ none) :
    s.Kin (some (id, wait')) (live \ taken.toFinset) := by
  have hself : s.Expects (some (id, wait)) id wait := .inl rfl
  have htaken : ∀ j ∈ taken, j ∈ live ∧ id < j ∧ s.parent? j = some id := fun j hj =>
    h.children id wait hself j (by rw [hids]; exact List.mem_append_left _ hj)
  have hnodup := (h.plain id wait hself).2
  rw [hids] at hnodup
  obtain ⟨-, hnodup', hdisjoint⟩ := List.nodup_append.1 hnodup
  -- others expect no job that this one has asked for
  have hother : ∀ {parent : JobId} {other : Wait} {run : Run P} {alarm : Option Place},
      s.stage? parent = some (.waiting run other alarm) → ∀ child ∈ other.ids, child ∉ taken := by
    intro parent other run alarm hstage child hchild hmem
    have hparent := (h.children parent other (.inr ⟨run, alarm, hstage⟩) child hchild).2.2
    rw [(htaken child hmem).2.2] at hparent
    obtain rfl : id = parent := Option.some.inj hparent
    rw [hactive] at hstage
    cases hstage
  refine ⟨?root, fun j hj => h.lt j (mem_sdiff.1 hj).1, fun j hj hopen => ?unsettled,
    fun j hj hroot => ?expected, ?plain, ?children⟩
  case root =>
    refine mem_sdiff.2 ⟨h.root, fun hmem => ?_⟩
    exact absurd (htaken _ (List.mem_toFinset.1 hmem)).2.1 (Nat.not_lt_zero _)
  case unsettled =>
    exact mem_sdiff.2 ⟨h.unsettled j hj hopen, fun hmem => hsettled j (List.mem_toFinset.1 hmem) hopen⟩
  case expected =>
    obtain ⟨hlive, hmem⟩ := mem_sdiff.1 hj
    obtain ⟨parent, other, hlooking | ⟨run, alarm, hstage⟩, hchild⟩ := h.expected j hlive hroot
    · cases hlooking
      refine ⟨id, wait', .inl rfl, ?_⟩
      rw [hids] at hchild
      exact (List.mem_append.1 hchild).resolve_left fun htaken => hmem (List.mem_toFinset.2 htaken)
    · exact ⟨parent, other, .inr ⟨run, alarm, hstage⟩, hchild⟩
  case plain =>
    rintro parent other (hlooking | ⟨run, alarm, hstage⟩)
    · cases hlooking
      exact ⟨hplain, hnodup'⟩
    · exact h.plain parent other (.inr ⟨run, alarm, hstage⟩)
  case children =>
    rintro parent other (hlooking | ⟨run, alarm, hstage⟩) child hchild
    · cases hlooking
      obtain ⟨hlive, hchild'⟩ :=
        h.children id wait hself child (by rw [hids]; exact List.mem_append_right _ hchild)
      refine ⟨mem_sdiff.2 ⟨hlive, fun hmem => ?_⟩, hchild'⟩
      exact hdisjoint child (List.mem_toFinset.1 hmem) child hchild rfl
    · obtain ⟨hlive, hchild'⟩ := h.children parent other (.inr ⟨run, alarm, hstage⟩) child hchild
      refine ⟨mem_sdiff.2 ⟨hlive, fun hmem => ?_⟩, hchild'⟩
      exact hother hstage child hchild (List.mem_toFinset.1 hmem)

/-- **At the end nobody is left** but the fold itself: whoever is left is expected by
somebody who came before. -/
theorem eq_root (h : s.Kin none live) (hroot : s.stage? Schedule.root = some .active) :
    live = {Schedule.root} := by
  have hnone : ∀ id, id ∈ live → id = Schedule.root := by
    intro id
    induction id using Nat.strong_induction_on with
    | _ id ih =>
      intro hid
      by_contra hne
      obtain ⟨parent, wait, hexpects, hmem⟩ := h.expected id hid hne
      obtain ⟨-, hlt, -⟩ := h.children parent wait hexpects id hmem
      obtain hlooking | ⟨run, alarm, hstage⟩ := hexpects
      · cases hlooking
      · have hopen : s.conclusion? parent = none := by
          rw [conclusion?, hstage]
        obtain rfl := ih parent hlt (h.unsettled parent (lt_size_of_stage? hstage) hopen)
        rw [hroot] at hstage
        cases hstage
  exact eq_singleton_iff_unique_mem.2 ⟨h.root, hnone⟩

/-- A job whose wait is over expects nobody. -/
theorem release (h : s.Kin (some (id, wait)) live) (hids : wait.ids = []) : s.Kin none live where
  root := h.root
  lt := h.lt
  unsettled := h.unsettled
  expected j hj hroot := by
    obtain ⟨parent, other, hlooking | hstage, hchild⟩ := h.expected j hj hroot
    · cases hlooking
      rw [hids] at hchild
      cases hchild
    · exact ⟨parent, other, .inr hstage, hchild⟩
  plain parent other := by
    rintro (hlooking | hstage)
    · cases hlooking
    · exact h.plain parent other (.inr hstage)
  children parent other := by
    rintro (hlooking | hstage)
    · cases hlooking
    · exact h.children parent other (.inr hstage)

/-- A job that goes on waiting expects whom it has expected. -/
theorem park (h : s.Kin (some (id, wait)) live) (hactive : s.stage? id = some .active) (run : Run P)
    (alarm : Option Place) : (s.setStage id (.waiting run wait alarm)).Kin none live := by
  have hstage := stage?_setStage_self (.waiting run wait alarm) (lt_size_of_stage? hactive)
  refine h.congr (size_setStage s id _) (parent?_setStage s id _) (fun j other => ?_) fun j hopen => ?_
  · by_cases hj : j = id
    · subst hj
      rw [Expects, Expects, hstage, hactive]
      simp
    · have hne : some (id, wait) ≠ some (j, other) := fun heq => hj (congrArg Prod.fst (Option.some.inj heq)).symm
      rw [Expects, Expects, stage?_setStage_of_ne _ hj]
      simp [hne]
  · by_cases hj : j = id
    · rw [hj, conclusion?, hactive]
    · rw [conclusion?, stage?_setStage_of_ne _ hj] at hopen
      exact hopen

/-- **Jobs are planned** by the one that is going to wait for them. They hold nothing yet. -/
theorem planAll (h : s.Kin none live) (hissued : s.agenda.Issued) (hactive : s.stage? id = some .active)
    (now : Nat) (jobs : List Job) {wait : Wait} (hplain : wait.Plain)
    (hids : wait.ids = (s.planAll now id jobs).1) :
    (s.planAll now id jobs).2.Kin (some (id, wait)) (live ∪ wait.ids.toFinset) ∧
      ∑ j ∈ live ∪ wait.ids.toFinset, (s.planAll now id jobs).2.held j = ∑ j ∈ live, s.held j := by
  obtain ⟨asked, -, -, ⟨hspares, hnew⟩, hnumbers⟩ :=
    exists_planned hissued now id (fun _ => ⟨⟨0⟩, .empty⟩) jobs
  have hrange : (s.planAll now id jobs).1 = List.range' s.jobs.size jobs.length := planAll_ids s now id jobs
  have hsize : (s.planAll now id jobs).2.jobs.size = s.jobs.size + jobs.length :=
    size_planAll s now id jobs
  generalize (s.planAll now id jobs).1 = ids at hids hnumbers hrange
  generalize (s.planAll now id jobs).2 = t at hspares hnew hnumbers hsize
  rw [← hids] at hnumbers hrange
  have hlt := lt_size_of_stage? hactive
  have hsame : ∀ j, j < s.jobs.size → t.stage? j = s.stage? j := fun j hj =>
    (hspares (j + 1)).stage j hj (Nat.ne_of_lt (Nat.lt_succ_self j))
  -- only the one that has asked for them expects those that are new
  have hexpects : ∀ {parent other}, t.Expects (some (id, wait)) parent other →
      parent = id ∧ other = wait ∨ s.Expects none parent other := by
    rintro parent other (hlooking | ⟨run, alarm, hstage⟩)
    · cases hlooking
      exact .inl ⟨rfl, rfl⟩
    · refine .inr (.inr ⟨run, alarm, ?_⟩)
      rcases Nat.lt_or_ge parent s.jobs.size with hold | hge
      · exact (hsame parent hold).symm.trans hstage
      · obtain ⟨hplanned, -⟩ := hnew parent hge (lt_size_of_stage? hstage)
        rw [hstage] at hplanned
        cases hplanned
  refine ⟨⟨mem_union_left _ h.root, fun j hj => ?lt, fun j hj hopen => ?unsettled,
    fun j hj hroot => ?expected, fun parent other hwaits => ?plain,
    fun parent other hwaits child hchild => ?children⟩, ?sum⟩
  case lt =>
    rcases mem_union.1 hj with hlive | hmem
    · exact Nat.lt_of_lt_of_le (h.lt j hlive) (hspares j).size
    · exact (hnumbers j (List.mem_toFinset.1 hmem)).2
  case unsettled =>
    rcases Nat.lt_or_ge j s.jobs.size with hold | hge
    · refine mem_union_left _ (h.unsettled j hold ?_)
      rw [conclusion?, ← hsame j hold]
      exact hopen
    · refine mem_union_right _ (List.mem_toFinset.2 ?_)
      rw [hrange, List.mem_range'_1, ← hsize]
      exact ⟨hge, hj⟩
  case expected =>
    rcases mem_union.1 hj with hlive | hmem
    · obtain ⟨parent, other, hwaits, hchild⟩ := h.expected j hlive hroot
      obtain hlooking | ⟨run, alarm, hstage⟩ := hwaits
      · cases hlooking
      · refine ⟨parent, other, .inr ⟨run, alarm, ?_⟩, hchild⟩
        exact (hsame parent (lt_size_of_stage? hstage)).trans hstage
    · exact ⟨id, wait, .inl rfl, List.mem_toFinset.1 hmem⟩
  case plain =>
    rcases hexpects hwaits with ⟨rfl, rfl⟩ | hwaits
    · exact ⟨hplain, by rw [hrange]; exact List.nodup_range'⟩
    · exact h.plain parent other hwaits
  case children =>
    rcases hexpects hwaits with ⟨rfl, rfl⟩ | hwaits
    · obtain ⟨hge, hlt'⟩ := hnumbers child hchild
      exact ⟨mem_union_right _ (List.mem_toFinset.2 hchild), Nat.lt_of_lt_of_le hlt hge,
        (hnew child hge hlt').2.1⟩
    · obtain ⟨hlive, hless, hparent⟩ := h.children parent other hwaits child hchild
      exact ⟨mem_union_left _ hlive, hless, ((hspares child).parent child (h.lt child hlive)).trans hparent⟩
  case sum =>
    have hold : ∑ j ∈ live, t.held j = ∑ j ∈ live, s.held j :=
      sum_congr rfl fun j hj => held_congr (hsame j (h.lt j hj))
    rw [← hold]
    refine (sum_subset subset_union_left fun j hj hlive => ?_).symm
    obtain ⟨hge, hlt'⟩ := hnumbers j (List.mem_toFinset.1 ((mem_union.1 hj).resolve_left hlive))
    rw [held_of_stage? (hnew j hge hlt').1]
    rfl

end Kin

/-! ## Balance -/

/-- **All that has been counted is held by somebody.** What has been given and what has been
written down is what the job has counted whose turn it is, and what those hold that have not
been found. -/
def Balanced (given : Tally) (s : Schedule P) : Focus P → Prop
  | .job id next => ∃ live, s.Kin none live ∧ s.stage? id = some .active ∧
    next.run.memo.tally + ∑ j ∈ live, s.held j =
      given + Event.total next.run.world.journal + .ofDepth next.run.frames.size
  | .agenda world => ∃ live, s.Kin none live ∧
    ∑ j ∈ live, s.held j = given + Event.total world.journal

/-- What is attended to and the agenda are of no account. -/
theorem Kin.of_jobs (h : s.Kin looking live) (hjobs : s'.jobs = s.jobs) : s'.Kin looking live := by
  have hstage : s'.stage? = s.stage? := funext fun j => by rw [stage?, stage?, hjobs]
  have hparent : s'.parent? = s.parent? := funext fun j => by rw [parent?, parent?, hjobs]
  have hopen : s'.conclusion? = s.conclusion? := funext fun j => by
    rw [conclusion?, conclusion?, hstage]
  refine h.congr (by rw [hjobs]) (fun j => congrFun hparent j) (fun j wait => ?_) fun j => ?_
  · rw [Expects, Expects, hstage]
  · rw [hopen]
    exact id

/-- A run that goes on gains what it does. -/
theorem balanced_of_gains {run : Run P} {next : Next P} {gained : Tally} {T : Tally}
    (hgains : run.Gains gained next)
    (hsum : run.memo.tally + gained + T = given + Event.total run.world.journal) :
    next.run.memo.tally + T =
      given + Event.total next.run.world.journal + .ofDepth next.run.frames.size := by
  obtain ⟨events, hjournal, htally⟩ := hgains
  rw [hjournal, htally, Event.total_append, ← Tally.add_def]
  calc run.memo.tally + gained + Event.total events + .ofDepth next.run.frames.size + T
    _ = run.memo.tally + gained + T + Event.total events + .ofDepth next.run.frames.size := by abel
    _ = given + (Event.total events + Event.total run.world.journal) +
        .ofDepth next.run.frames.size := by
      rw [hsum]
      abel

section Look

variable {run : Run P} {world : World P} {now : Nat}

/-- **A wait that is over** has taken over all that it was for. -/
theorem Kin.balanced_wake (h : s.Kin (some (id, wait)) live) (hactive : s.stage? id = some .active)
    (hdeep : run.Deep) (hframes : run.frames.items ≠ [])
    (hsum : run.memo.tally + Conclusion.total wait.found + ∑ j ∈ live, s.held j =
      given + Event.total world.journal)
    {wake : Wake} (hlook : wait.look s.conclusion? now = .inl wake) (agenda : Agenda) :
    Balanced given { s with agenda, focus := .job id (run.wake world wake) }
      (.job id (run.wake world wake)) := by
  obtain ⟨hplain, hnodup⟩ := h.plain id wait (.inl rfl)
  obtain ⟨hsettled, htally⟩ := hplain.of_look_inl held_of_conclusion? hlook
  have hlive : ∀ j ∈ wait.ids, j ∈ live := fun j hj => (h.children id wait (.inl rfl) j hj).1
  have hnone : (Wait.all [] []).Plain := trivial
  have hkin := (h.take hactive hnone (List.append_nil wait.ids).symm hsettled).release rfl
  have hsum' : run.memo.tally + wake.tally + ∑ j ∈ live \ wait.ids.toFinset, s.held j =
      given + Event.total world.journal := by
    rw [← hsum, sum_held_take hnodup hlive, htally]
    abel
  exact ⟨_, hkin.of_jobs rfl, hactive, balanced_of_gains (hdeep.gains_wake hframes world wake) hsum'⟩

/-- **A wait that goes on** has taken over what had settled. -/
theorem Kin.balanced_wait (h : s.Kin (some (id, wait)) live) (hactive : s.stage? id = some .active)
    (hsum : run.memo.tally + Conclusion.total wait.found + ∑ j ∈ live, s.held j =
      given + Event.total world.journal)
    {wait' : Wait} (hlook : wait.look s.conclusion? now = .inr wait') (alarm : Option Place)
    (agenda : Agenda) :
    Balanced given
      { ({ s with agenda } : Schedule P).setStage id (.waiting run wait' alarm) with
        focus := .agenda world } (.agenda world) := by
  obtain ⟨hplain, hnodup⟩ := h.plain id wait (.inl rfl)
  obtain ⟨hplain', taken, hids, hsettled, htotal⟩ := hplain.of_look_inr held_of_conclusion? hlook
  have hlive : ∀ j ∈ taken, j ∈ live := fun j hj =>
    (h.children id wait (.inl rfl) j (by rw [hids]; exact List.mem_append_left _ hj)).1
  rw [hids] at hnodup
  have hkin := h.take hactive hplain' hids hsettled
  have hlt := lt_size_of_stage? hactive
  have hid : id ∈ live \ taken.toFinset := by
    refine hkin.unsettled id hlt ?_
    rw [conclusion?, hactive]
  refine ⟨live \ taken.toFinset, (hkin.park hactive run alarm).of_jobs rfl, ?_⟩
  have hset := sum_held_setStage (s := s) (.waiting run wait' alarm) hid hlt
  rw [held_of_active hactive, add_zero, Stage.held, htotal] at hset
  refine hset.trans ?_
  rw [← hsum, sum_held_take (List.nodup_append.1 hnodup).1 hlive]
  abel

end Look

end Schedule

/-! ## Steps -/

/-- The resumption too many that is counted next. -/
def Next.refusal (E : Engine P) : Next P → Tally
  | .resume r _ => r.refusal E
  | _ => 0

/-- **What is counted and not written down** of what a run is about to do: how deep it stands,
and a resumption too many. -/
def Next.aside (E : Engine P) (next : Next P) : Tally :=
  .ofDepth next.run.frames.size + next.refusal E

/-- What is counted and not written down at a step of a schedule. -/
def Focus.aside (E : Engine P) : Focus P → Tally
  | .job _ next => next.aside E
  | .agenda _ => 0

namespace Schedule

variable {s s' : Schedule P} {live : Finset JobId} {id : JobId} {given : Tally} {run : Run P}
  {world : World P}

/-- A turn. -/
theorem Balanced.turn {input : Input} (h : Balanced given s (.job id (.resume run input)))
    (hdeep : run.Deep) (hframes : run.frames.items ≠ []) :
    Balanced (given + (Next.resume run input).aside E) { s with focus := .job id (run.turn E input) }
      (.job id (run.turn E input)) := by
  obtain ⟨live, hkin, hactive, hsum⟩ := h
  refine ⟨live, hkin.of_jobs rfl, hactive, balanced_of_gains (hdeep.gains_turn hframes input) ?_⟩
  calc run.memo.tally + run.refusal E + ∑ j ∈ live, s.held j
    _ = run.memo.tally + ∑ j ∈ live, s.held j + run.refusal E := by abel
    _ = given + (.ofDepth run.frames.size + run.refusal E) + Event.total run.world.journal := by
      have hsum : run.memo.tally + ∑ j ∈ live, s.held j =
        given + Event.total run.world.journal + .ofDepth run.frames.size := hsum
      rw [hsum]
      abel

/-- What is waited for by a plain wait. -/
theorem plain_toWait {await : Await} (h : (∃ jobs, await = .all jobs) ∨ ∃ ms, await = .timer ms .elapsed)
    (now : Nat) (ids : List JobId) (hids : ids.length = await.jobs.length) :
    (await.toWait now ids).Plain ∧ (await.toWait now ids).ids = ids ∧
      Conclusion.total (await.toWait now ids).found = 0 := by
  obtain ⟨jobs, rfl⟩ | ⟨ms, rfl⟩ := h
  · exact ⟨trivial, rfl, rfl⟩
  · exact ⟨trivial, (List.length_eq_zero_iff.1 hids).symm, rfl⟩

/-- A wait begins. -/
theorem Balanced.suspend {await : Await} (h : Balanced given s (.job id (.wait run await)))
    (hissued : s.agenda.Issued) (hdeep : run.Deep) (hframes : run.frames.items ≠ [])
    (hplain : (∃ jobs, await = .all jobs) ∨ ∃ ms, await = .timer ms .elapsed) :
    Balanced (given + (Next.wait run await).aside E) (s.suspend id run await)
      (s.suspend id run await).focus := by
  obtain ⟨live, hkin, hactive, hsum⟩ := h
  have hlength : (s.planAll run.world.clock id await.jobs).1.length = await.jobs.length := by
    rw [planAll_ids, List.length_range']
  obtain ⟨hplain', hids, hfound⟩ := plain_toWait hplain run.world.clock _ hlength
  obtain ⟨hkin', hsum'⟩ := hkin.planAll hissued hactive run.world.clock await.jobs hplain' hids
  have hactive' : (s.planAll run.world.clock id await.jobs).2.stage? id = some .active := by
    obtain ⟨_, -, -, ⟨hspares, -⟩, -⟩ :=
      exists_planned hissued run.world.clock id (fun _ => ⟨⟨0⟩, .empty⟩) await.jobs
    rw [(hspares (id + 1)).stage id (lt_size_of_stage? hactive) (Nat.ne_of_lt (Nat.lt_succ_self id)),
      hactive]
  have hsuspends := s.suspends id run await
  generalize await.toWait run.world.clock (s.planAll run.world.clock id await.jobs).1 = wait
    at hplain' hids hfound hkin' hsum' hsuspends
  generalize (s.planAll run.world.clock id await.jobs).2 = t at hkin' hsum' hactive' hsuspends
  generalize s.suspend id run await = s' at hsuspends ⊢
  have htotal : run.memo.tally + Conclusion.total wait.found +
      ∑ j ∈ live ∪ wait.ids.toFinset, t.held j =
      given + (Next.wait run await).aside E + Event.total run.world.journal := by
    have hsum : run.memo.tally + ∑ j ∈ live, s.held j =
      given + Event.total run.world.journal + .ofDepth run.frames.size := hsum
    have haside : (Next.wait run await).aside E = .ofDepth run.frames.size := add_zero _
    rw [hfound, hsum', add_zero, hsum, haside]
    abel
  cases hsuspends with
  | ends hlook => exact hkin'.balanced_wake hactive' hdeep hframes htotal hlook _
  | waits hlook => exact hkin'.balanced_wait hactive' htotal hlook _ _

/-- A job that settles holds what it has counted. -/
theorem Balanced.settle {o : Outcome P} (h : Balanced given s (.job id (.finish o))) :
    Balanced (given + (Next.finish o).aside E) (s.settle id o) (s.settle id o).focus := by
  obtain ⟨live, hkin, hactive, hsum⟩ := h
  have hlt := lt_size_of_stage? hactive
  have hstage := stage?_setStage_self (.settled o.conclusion) hlt
  have hid : id ∈ live := hkin.unsettled id hlt (by rw [conclusion?, hactive])
  refine ⟨live, ?_, ?_⟩
  · refine Kin.of_jobs (s := s.setStage id (.settled o.conclusion)) (hkin.congr (size_setStage s id _)
      (parent?_setStage s id _) (fun j wait => ?_) fun j hopen => ?_) rfl
    · by_cases hj : j = id
      · subst hj
        rw [Expects, Expects, hstage, hactive]
        simp
      · rw [Expects, Expects, stage?_setStage_of_ne _ hj]
    · by_cases hj : j = id
      · rw [hj, conclusion?, hactive]
      · rw [conclusion?, stage?_setStage_of_ne _ hj] at hopen
        exact hopen
  · have hset := sum_held_setStage (.settled o.conclusion) hid hlt
    rw [held_of_active hactive, add_zero] at hset
    have hsum : o.run.memo.tally + ∑ j ∈ live, s.held j =
      given + Event.total o.run.world.journal + .ofDepth o.run.frames.size := hsum
    have haside : (Next.finish o).aside E = .ofDepth o.run.frames.size := add_zero _
    refine hset.trans ?_
    rw [haside, add_comm]
    refine hsum.trans ?_
    abel

/-- A job whose turn comes is active, and so it holds nothing. -/
theorem Kin.activate (looking : Option (JobId × Wait)) {stage : Stage P} (h : s.Kin none live)
    (hstage : s.stage? id = some stage) (hopen : ∀ c, stage ≠ .settled c)
    (hlooking : ∀ j wait, looking = some (j, wait) ↔
      j = id ∧ ∃ run alarm, stage = .waiting run wait alarm) :
    (s.setStage id .active).Kin looking live ∧ (s.setStage id .active).stage? id = some .active ∧
      stage.held + ∑ j ∈ live, (s.setStage id .active).held j = ∑ j ∈ live, s.held j := by
  have hlt := lt_size_of_stage? hstage
  have hactive := stage?_setStage_self .active hlt
  have hconclusion : s.conclusion? id = none := by
    rw [conclusion?, hstage]
    cases stage with
    | settled c => exact absurd rfl (hopen c)
    | _ => rfl
  refine ⟨h.congr (size_setStage s id _) (parent?_setStage s id _) (fun j wait => ?_) fun j hj => ?_,
    hactive, ?_⟩
  · rw [Expects, Expects, hlooking]
    by_cases hj : j = id
    · subst hj
      rw [hactive, hstage]
      simp
    · rw [stage?_setStage_of_ne _ hj]
      simp [hj]
  · by_cases hid : j = id
    · rw [hid, hconclusion]
    · rw [conclusion?, stage?_setStage_of_ne _ hid] at hj
      exact hj
  · have hset := sum_held_setStage .active (h.unsettled id hlt hconclusion) hlt
    rw [held_of_stage? hstage, add_comm] at hset
    exact hset.trans (add_zero _)

/-- The next job of the agenda has its turn. -/
theorem Balanced.proceed (h : Balanced given s (.agenda world))
    (hwaits : ∀ id run wait alarm, s.stage? id = some (.waiting run wait alarm) →
      run.Deep ∧ run.frames.items ≠ [])
    (hstep : s.proceed E world = .going s') : Balanced given s' s'.focus := by
  obtain ⟨live, hkin, hsum⟩ := h
  obtain ⟨place, id, -, hproceeds⟩ := exists_proceeds hstep
  have hkin' : ({ s with agenda := s.agenda.remove place } : Schedule P).Kin none live :=
    hkin.of_jobs rfl
  cases hproceeds with
  | @begins job hstage =>
    obtain ⟨hkin'', hactive, hheld⟩ := hkin'.activate none hstage nofun (by simp)
    refine ⟨live, hkin''.of_jobs rfl, hactive, ?_⟩
    refine balanced_of_gains (Run.gains_begin (E := E)
      (r := { scope := job.scope, world := { world with clock := max world.clock place.time } }) rfl
      job.node) ?_
    rw [Stage.held, zero_add] at hheld
    refine Eq.trans ?_ hsum
    refine Eq.trans ?_ hheld
    exact (zero_add _)
  | @looks run wait alarm hstage =>
    obtain ⟨hkin'', hactive, hheld⟩ := hkin'.activate (some (id, wait)) hstage nofun
      (fun j other => by simp [eq_comm])
    obtain ⟨hdeep, hframes⟩ := hwaits id run wait alarm hstage
    have htotal : run.memo.tally + Conclusion.total wait.found +
        ∑ j ∈ live, (({ s with agenda := s.agenda.remove place } : Schedule P).setStage id
          .active).held j =
        given + Event.total { world with clock := max world.clock place.time }.journal :=
      hheld.trans hsum
    unfold Schedule.attend
    split
    next wake hlook => exact hkin''.balanced_wake hactive hdeep hframes htotal hlook _
    next wait' hlook => exact hkin''.balanced_wait hactive htotal hlook _ _
  | skips _ _ => exact ⟨live, hkin.of_jobs rfl, hsum⟩

end Schedule

end ProgramGraph
