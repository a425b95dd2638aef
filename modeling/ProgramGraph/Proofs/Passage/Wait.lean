import Mathlib.Data.List.Forall2
import ProgramGraph.Proofs.Schedule.Step
/-!
# What can come of a wait

Which of some jobs settles first, and whether one settles in time, is not said
here: of how the jobs may end it is told how the wait for them may end. On a
schedule a wait names its jobs by numbers, and it is looked at again and again; no
look makes anything come of it that could not have come of it before.
-/

namespace ProgramGraph

/-- **What can come of a wait,** given how jobs may end. -/
def Await.Comes (ends : Job → Conclusion → Prop) : Await → Wake → Prop
  | timer _ answer, wake => wake = answer
  | job asked, wake => ∃ c, ends asked c ∧ wake = .settled c
  | all asked, wake => ∃ found, List.Forall₂ ends asked found ∧ wake = .settled (.gather found)
  | first asked others, wake => ∃ job ∈ asked :: others, ∃ c, ends job c ∧ wake = .settled c
  | deadline _ asked, wake => wake = .elapsed ∨ ∃ c, ends asked c ∧ wake = .settled c

/-- What can come of a wait for jobs by their numbers. -/
def Wait.Comes (ends : JobId → Conclusion → Prop) : Wait → Wake → Prop
  | timer _ answer, wake => wake = answer
  | job id, wake => ∃ c, ends id c ∧ wake = .settled c
  | all found rest, wake => ∃ later, List.Forall₂ ends rest later ∧
      wake = .settled (.gather (found.reverse ++ later))
  | first ids, wake => ∃ id ∈ ids, ∃ c, ends id c ∧ wake = .settled c
  | deadline _ id, wake => wake = .elapsed ∨ ∃ c, ends id c ∧ wake = .settled c

variable {ends ends' : JobId → Conclusion → Prop}

namespace Wait

variable {conclusion? : JobId → Option Conclusion} {now : Nat} {wait wait' : Wait} {wake : Wake}

/-- Only the jobs that are waited for matter. -/
theorem Comes.mono (h : wait.Comes ends wake)
    (hends : ∀ id ∈ wait.ids, ∀ c, ends id c → ends' id c) : wait.Comes ends' wake := by
  have hsingle : ∀ id ∈ wait.ids, (∃ c, ends id c ∧ wake = .settled c) →
      ∃ c, ends' id c ∧ wake = .settled c := by
    rintro id hid ⟨c, hc, hwake⟩
    exact ⟨c, hends id hid c hc, hwake⟩
  cases wait with
  | timer due answer => exact h
  | job id => exact hsingle id List.mem_cons_self h
  | all found rest =>
    obtain ⟨later, hlater, hwake⟩ := h
    refine ⟨later, ?_, hwake⟩
    clear hwake hsingle
    induction hlater with
    | nil => exact .nil
    | cons hc _ ih =>
      exact .cons (hends _ List.mem_cons_self _ hc)
        (ih fun id hid => hends id (List.mem_cons_of_mem _ hid))
  | first ids =>
    obtain ⟨id, hid, hc⟩ := h
    exact ⟨id, hid, hsingle id hid hc⟩
  | deadline due id => exact h.imp_right (hsingle id List.mem_cons_self)

/-- **Jobs that have settled** can be taken out of a wait. -/
theorem comes_of_collect (hsettled : ∀ id c, conclusion? id = some c → ends id c)
    (found : List Conclusion) (rest : List JobId)
    (h : (all (collect conclusion? found rest).1 (collect conclusion? found rest).2).Comes ends
      wake) : (all found rest).Comes ends wake := by
  induction rest generalizing found with
  | nil => exact h
  | cons id rest ih =>
    cases hid : conclusion? id with
    | none =>
      simp only [collect, hid] at h
      exact h
    | some c =>
      simp only [collect, hid] at h
      obtain ⟨later, hlater, hwake⟩ := ih (c :: found) h
      refine ⟨c :: later, .cons (hsettled id c hid) hlater, ?_⟩
      rw [hwake, List.reverse_cons, List.append_assoc]
      rfl

/-- **What is taken out is taken from the front,** up to a job that has not
settled. -/
theorem collect_left (conclusion? : JobId → Option Conclusion) (found : List Conclusion)
    (rest : List JobId) :
    (collect conclusion? found rest).2 <:+ rest ∧
      ∀ id ∈ (collect conclusion? found rest).2.head?, conclusion? id = none := by
  induction rest generalizing found with
  | nil => exact ⟨List.suffix_refl _, nofun⟩
  | cons id rest ih =>
    cases hid : conclusion? id with
    | none =>
      simp only [collect, hid]
      exact ⟨List.suffix_refl _, by simp [hid]⟩
    | some c =>
      simp only [collect, hid]
      obtain ⟨hsuffix, hhead⟩ := ih (c :: found)
      exact ⟨hsuffix.trans (List.suffix_cons id rest), hhead⟩

/-- **A wait that is found over** comes to what can come of it. -/
theorem comes_of_look (hsettled : ∀ id c, conclusion? id = some c → ends id c)
    (hlook : wait.look conclusion? now = .inl wake) : wait.Comes ends wake := by
  cases wait with
  | timer due answer =>
    simp only [look] at hlook
    split at hlook <;> cases hlook
    rfl
  | job id =>
    simp only [look] at hlook
    split at hlook <;> cases hlook
    exact ⟨_, hsettled id _ ‹_›, rfl⟩
  | all found rest =>
    refine comes_of_collect hsettled found rest ?_
    simp only [look] at hlook
    split at hlook
    next found' hpair =>
      cases hlook
      rw [hpair]
      exact ⟨[], .nil, by rw [List.append_nil]⟩
    next => cases hlook
  | first ids =>
    simp only [look] at hlook
    split at hlook
    next c hc =>
      cases hlook
      obtain ⟨id, hid, hc⟩ := List.exists_of_findSome?_eq_some hc
      exact ⟨id, hid, c, hsettled id c hc, rfl⟩
    next => cases hlook
  | deadline due id =>
    simp only [look] at hlook
    split at hlook
    next c hc =>
      cases hlook
      exact .inr ⟨c, hsettled id c hc, rfl⟩
    next =>
      split at hlook <;> cases hlook
      exact .inl rfl

/-- **What is left of a wait** that is not over. It is the same wait, or one for
fewer jobs. A time that is waited for has not come, and if jobs are waited for,
some of them has not settled. -/
structure Left (conclusion? : JobId → Option Conclusion) (now : Nat) (wait wait' : Wait) : Prop where
  comes : ∀ {ends : JobId → Conclusion → Prop} {wake : Wake},
    (∀ id c, conclusion? id = some c → ends id c) → wait'.Comes ends wake → wait.Comes ends wake
  same_or_lt : wait' = wait ∨ wait'.ids.length < wait.ids.length
  ids : ∀ id ∈ wait'.ids, id ∈ wait.ids
  timer : ∀ due answer, wait' = .timer due answer → wait = wait' ∧ now < due
  unsettled : (∀ due answer, wait' ≠ .timer due answer) → wait.ids ≠ [] →
    ∃ id ∈ wait'.ids, conclusion? id = none

theorem Left.refl (htimer : ∀ due answer, wait = .timer due answer → now < due)
    (hunsettled : wait.ids ≠ [] → ∃ id ∈ wait.ids, conclusion? id = none) :
    Left conclusion? now wait wait where
  comes _ h := h
  same_or_lt := .inl rfl
  ids _ h := h
  timer due answer h := ⟨rfl, htimer due answer h⟩
  unsettled _ h := hunsettled h

/-- **A wait that is found not over.** -/
theorem left_of_look (hlook : wait.look conclusion? now = .inr wait') :
    Left conclusion? now wait wait' := by
  cases wait with
  | timer due answer =>
    simp only [look] at hlook
    split at hlook
    next => cases hlook
    next hlt =>
      cases hlook
      refine .refl (fun due' answer' h => ?_) fun h => absurd rfl h
      cases h
      exact Nat.lt_of_not_le hlt
  | job id =>
    simp only [look] at hlook
    split at hlook
    next => cases hlook
    next hnone =>
      cases hlook
      exact .refl (fun _ _ h => by cases h) fun _ => ⟨id, List.mem_cons_self, hnone⟩
  | all found rest =>
    obtain ⟨hsuffix, hhead⟩ := collect_left conclusion? found rest
    simp only [look] at hlook
    split at hlook
    next => cases hlook
    next found' rest' hne hpair =>
      cases hlook
      rw [hpair] at hsuffix hhead
      refine ⟨fun hsettled h => ?_, ?_, hsuffix.subset,
        (fun _ _ h => by cases h), fun _ _ => ?_⟩
      · refine comes_of_collect hsettled found rest ?_
        rw [hpair]
        exact h
      · rcases Nat.lt_or_eq_of_le hsuffix.length_le with hlt | heq
        · exact .inr hlt
        · -- nothing has been taken out, so nothing has been found
          have hrest : rest' = rest := hsuffix.eq_of_length heq
          subst hrest
          left
          cases rest' with
          | nil => exact absurd rfl hne
          | cons id rest' =>
            have hnone : conclusion? id = none := hhead id rfl
            simp only [collect, hnone] at hpair
            cases hpair
            rfl
      · cases rest' with
        | nil => exact absurd rfl hne
        | cons id rest' => exact ⟨id, List.mem_cons_self, hhead id rfl⟩
  | first ids =>
    simp only [look] at hlook
    split at hlook
    next => cases hlook
    next hnone =>
      cases hlook
      refine .refl (fun _ _ h => by cases h) fun hids => ?_
      obtain ⟨id, hid⟩ := List.exists_mem_of_ne_nil ids hids
      exact ⟨id, hid, List.findSome?_eq_none_iff.1 hnone id hid⟩
  | deadline due id =>
    simp only [look] at hlook
    split at hlook
    next => cases hlook
    next hnone =>
      split at hlook <;> cases hlook
      exact .refl (fun _ _ h => by cases h) fun _ => ⟨id, List.mem_cons_self, hnone⟩

end Wait

/-- What is known of all jobs is known of what has been found of them. -/
theorem exists_job_of_mem {ended : Job → Conclusion → Prop} {jobs : List Job}
    {found : List Conclusion} (h : List.Forall₂ ended jobs found) :
    ∀ c ∈ found, ∃ job ∈ jobs, ended job c := by
  induction h with
  | nil => exact nofun
  | cons hc _ ih =>
    rw [List.forall_mem_cons]
    refine ⟨⟨_, List.mem_cons_self, hc⟩, fun c hmem => ?_⟩
    obtain ⟨job, hjob, hends⟩ := ih c hmem
    exact ⟨job, List.mem_cons_of_mem _ hjob, hends⟩

/-- What goes wrong with some jobs together goes wrong with one of them. -/
theorem Conclusion.exists_of_gather_error {found : List Conclusion} {error : EvalError}
    (h : (gather found).result = .error error) : ∃ c ∈ found, c.result = .error error := by
  have hmap : (found.mapM Conclusion.result).map Value.array = .error error := h
  rcases forall₂_or_exists_of_mapM Conclusion.result found with ⟨values, hvalues, -⟩ |
    ⟨before, c, after, error', rfl, -, hc, herror⟩
  · rw [hvalues] at hmap
    cases hmap
  · rw [herror] at hmap
    cases hmap
    exact ⟨c, List.mem_append_right before List.mem_cons_self, hc⟩

/-- The depth of some jobs together is that of one of them. -/
theorem Conclusion.depth_gather_le {found : List Conclusion} {n : Nat}
    (h : ∀ c ∈ found, c.tally.depth ≤ n) : (gather found).tally.depth ≤ n := by
  have hfold : ∀ t : Tally, t.depth ≤ n →
      ((found.map Conclusion.tally).foldl Tally.merge t).depth ≤ n := by
    induction found with
    | nil => exact fun t ht => ht
    | cons c rest ih =>
      rw [List.forall_mem_cons] at h
      exact fun t ht => ih h.2 _ (Nat.max_le.2 ⟨ht, h.1⟩)
  exact hfold .zero (Nat.zero_le n)

namespace Await

variable {ended : Job → Conclusion → Prop} {await : Await} {wake : Wake}

/-- What can come of a wait, if more can come of its jobs. -/
theorem Comes.mono {ended' : Job → Conclusion → Prop} (h : await.Comes ended wake)
    (hends : ∀ job ∈ await.jobs, ∀ c, ended job c → ended' job c) : await.Comes ended' wake := by
  have hsingle : ∀ job ∈ await.jobs, (∃ c, ended job c ∧ wake = .settled c) →
      ∃ c, ended' job c ∧ wake = .settled c := by
    rintro job hjob ⟨c, hc, hwake⟩
    exact ⟨c, hends job hjob c hc, hwake⟩
  cases await with
  | timer ms answer => exact h
  | job asked => exact hsingle asked List.mem_cons_self h
  | all asked =>
    obtain ⟨found, hfound, hwake⟩ := h
    refine ⟨found, ?_, hwake⟩
    clear hwake hsingle
    induction hfound with
    | nil => exact .nil
    | cons hc _ ih =>
      exact .cons (hends _ List.mem_cons_self _ hc)
        (ih fun job hjob => hends job (List.mem_cons_of_mem _ hjob))
  | first asked others =>
    obtain ⟨job, hjob, hc⟩ := h
    exact ⟨job, hjob, hsingle job hjob hc⟩
  | deadline ms asked => exact h.imp_right (hsingle asked List.mem_cons_self)

/-- **What is known of all jobs is known of what comes of the wait,** if it is
known of some conclusions together when it is known of each. -/
theorem Comes.conclude {p : Conclusion → Prop} {c : Conclusion} (h : await.Comes ended (.settled c))
    (htimer : ∀ ms answer, await = .timer ms answer → answer = .elapsed)
    (hjobs : ∀ job ∈ await.jobs, ∀ c, ended job c → p c)
    (hgather : ∀ found, (∀ c ∈ found, p c) → p (.gather found)) : p c := by
  have hsingle : ∀ job ∈ await.jobs, (∃ c', ended job c' ∧ Wake.settled c = .settled c') → p c := by
    rintro job hjob ⟨c', hc, hwake⟩
    cases hwake
    exact hjobs job hjob c hc
  cases await with
  | timer ms answer =>
    have hwake : Wake.settled c = answer := h
    rw [htimer ms answer rfl] at hwake
    cases hwake
  | job asked => exact hsingle asked List.mem_cons_self h
  | all asked =>
    obtain ⟨found, hfound, hwake⟩ := h
    cases hwake
    refine hgather found fun c hc => ?_
    obtain ⟨job, hjob, hends⟩ := exists_job_of_mem hfound c hc
    exact hjobs job hjob c hends
  | first asked others =>
    obtain ⟨job, hjob, hc⟩ := h
    exact hsingle job hjob hc
  | deadline ms asked =>
    rcases h with hwake | hc
    · cases hwake
    · exact hsingle asked List.mem_cons_self hc

/-- The number that the only job has. -/
theorem asked_headD {ids : List JobId} {asked : JobId → Job} {job : Job}
    (h : ids.map asked = [job]) : asked (ids.headD 0) = job := by
  obtain ⟨id, rfl⟩ :=
    List.length_eq_one_iff.1 ((List.length_map asked).symm.trans (congrArg List.length h))
  exact List.head_eq_of_cons_eq h

/-- **A wait for jobs that have been given numbers** comes to what can come of the
request. -/
theorem comes_of_toWait {now : Nat} {ids : List JobId} {asked : JobId → Job}
    (hids : ids.map asked = await.jobs)
    (h : (await.toWait now ids).Comes (fun id c => ended (asked id) c) wake) :
    await.Comes ended wake := by
  cases await with
  | timer ms answer => exact h
  | job job =>
    obtain ⟨c, hc, hwake⟩ := h
    rw [asked_headD hids] at hc
    exact ⟨c, hc, hwake⟩
  | all jobs =>
    obtain ⟨found, hfound, hwake⟩ := h
    obtain rfl : ids.map asked = jobs := hids
    exact ⟨found, List.forall₂_map_left_iff.2 hfound, hwake⟩
  | first job others =>
    obtain ⟨id, hid, c, hc, hwake⟩ := h
    have hmem : asked id ∈ job :: others := by
      have hids : ids.map asked = job :: others := hids
      rw [← hids]
      exact List.mem_map_of_mem hid
    exact ⟨asked id, hmem, c, hc, hwake⟩
  | deadline ms job =>
    refine h.imp_right ?_
    rintro ⟨c, hc, hwake⟩
    rw [asked_headD hids] at hc
    exact ⟨c, hc, hwake⟩

/-- Jobs that are waited for have numbers. -/
theorem ids_toWait_ne_nil {now : Nat} {ids : List JobId} (hjobs : await.jobs ≠ [])
    (hlength : ids.length = await.jobs.length) : (await.toWait now ids).ids ≠ [] := by
  have hids : ids ≠ [] := by
    rintro rfl
    exact hjobs (List.length_eq_zero_iff.1 hlength.symm)
  cases await with
  | timer ms answer => exact absurd rfl hjobs
  | job job => exact List.cons_ne_nil _ _
  | all jobs => exact hids
  | first job others => exact hids
  | deadline ms job => exact List.cons_ne_nil _ _

end Await

end ProgramGraph
