import ProgramGraph.Proofs.Transcript.Basic
/-!
# Waits that are over in time

A wait on a schedule is looked at now and then. Whenever a look finds it over, it is over
since just then: its time has come, or the last of its jobs has settled (`Wait.OnTime`). So
a wait takes what it should. It stays so whatever happens in between: when the wait begins,
when one of its jobs settles, and when the clock moves on to a time that is not later than
its own.
-/

namespace ProgramGraph

/-- **What comes of a wait for jobs by their numbers, and when.** Jobs that have been found
settled had ended by `since`. -/
def Wait.Takes (ends : JobId → Conclusion → Nat → Prop) (since : Nat) : Wait → Wake → Nat → Prop
  | timer due answer, wake, time => wake = answer ∧ time = due
  | job id, wake, time => ∃ c, ends id c time ∧ wake = .settled c
  | all found rest, wake, time => ∃ later : List (Conclusion × Nat),
      List.Forall₂ (fun id late => ends id late.1 late.2) rest later ∧
      wake = .settled (.gather (found.reverse ++ later.map Prod.fst)) ∧
      time = (later.map Prod.snd).foldl max since
  | first ids, wake, time => ∃ id ∈ ids, ∃ c, ends id c time ∧ wake = .settled c
  | deadline due id, wake, time => (wake = .elapsed ∧ time = due) ∨
      ∃ c, ends id c time ∧ wake = .settled c

namespace Wait

variable {ends ends' : JobId → Conclusion → Nat → Prop} {conclusion? : JobId → Option Conclusion}
  {since now : Nat} {wait wait' : Wait} {wake : Wake} {time : Nat} {id : JobId}

/-- Only the jobs that are waited for matter. -/
theorem Takes.mono (h : wait.Takes ends since wake time)
    (hends : ∀ id ∈ wait.ids, ∀ c time, ends id c time → ends' id c time) :
    wait.Takes ends' since wake time := by
  cases wait with
  | timer due answer => exact h
  | job id =>
    obtain ⟨c, hc, hwake⟩ := h
    exact ⟨c, hends id List.mem_cons_self _ _ hc, hwake⟩
  | all found rest =>
    obtain ⟨later, hlater, hwake⟩ := h
    refine ⟨later, ?_, hwake⟩
    clear hwake
    induction hlater with
    | nil => exact .nil
    | cons hc _ ih =>
      exact .cons (hends _ List.mem_cons_self _ _ hc)
        (ih fun id hid => hends id (List.mem_cons_of_mem _ hid))
  | first ids =>
    obtain ⟨id, hid, c, hc, hwake⟩ := h
    exact ⟨id, hid, c, hends id hid _ _ hc, hwake⟩
  | deadline due id =>
    refine h.imp_right ?_
    rintro ⟨c, hc, hwake⟩
    exact ⟨c, hends id List.mem_cons_self _ _ hc, hwake⟩

/-- **A wait that is found over is over since just then.** -/
def OnTime (ends : JobId → Conclusion → Nat → Prop) (conclusion? : JobId → Option Conclusion)
    (since now : Nat) (wait : Wait) : Prop :=
  ∀ wake, wait.look conclusion? now = .inl wake → wait.Takes ends since wake now

/-- A look sees the jobs that are waited for. -/
theorem look_congr {conclusion?' : JobId → Option Conclusion}
    (h : ∀ id ∈ wait.ids, conclusion?' id = conclusion? id) :
    wait.look conclusion?' now = wait.look conclusion? now := by
  have hcollect : ∀ found (rest : List JobId), (∀ id ∈ rest, conclusion?' id = conclusion? id) →
      collect conclusion?' found rest = collect conclusion? found rest := by
    intro found rest hrest
    induction rest generalizing found with
    | nil => rfl
    | cons id rest ih =>
      rw [List.forall_mem_cons] at hrest
      simp only [collect, hrest.1, ih _ hrest.2]
  have hfirst : ∀ ids : List JobId, (∀ id ∈ ids, conclusion?' id = conclusion? id) →
      ids.findSome? conclusion?' = ids.findSome? conclusion? := by
    intro ids hids
    induction ids with
    | nil => rfl
    | cons id ids ih =>
      rw [List.forall_mem_cons] at hids
      simp only [List.findSome?_cons, hids.1, ih hids.2]
  cases wait with
  | timer due answer => rfl
  | job id => simp only [look, h id List.mem_cons_self]
  | all found rest => simp only [look, hcollect found rest h]
  | first ids => simp only [look, hfirst ids h]
  | deadline due id => simp only [look, h id List.mem_cons_self]

/-- **Jobs that have settled are taken out of a wait,** and are remembered. -/
theorem exists_since_of_collect
    (hsettled : ∀ id c, conclusion? id = some c → ∃ time ≤ now, ends id c time)
    (hsince : since ≤ now) (found : List Conclusion) (rest : List JobId) :
    ∃ since' ≤ now, ∀ wake time,
      (all (collect conclusion? found rest).1 (collect conclusion? found rest).2).Takes ends since'
        wake time → (all found rest).Takes ends since wake time := by
  induction rest generalizing found since with
  | nil => exact ⟨since, hsince, fun _ _ h => h⟩
  | cons id rest ih =>
    cases hid : conclusion? id with
    | none =>
      refine ⟨since, hsince, fun wake time h => ?_⟩
      simp only [collect, hid] at h
      exact h
    | some c =>
      obtain ⟨ended, hended, hc⟩ := hsettled id c hid
      obtain ⟨since', hsince', htakes⟩ := ih (Nat.max_le.2 ⟨hsince, hended⟩) (c :: found)
      refine ⟨since', hsince', fun wake time h => ?_⟩
      simp only [collect, hid] at h
      obtain ⟨later, hlater, hwake, htime⟩ := htakes wake time h
      refine ⟨(c, ended) :: later, .cons hc hlater, ?_, htime⟩
      rw [hwake, List.reverse_cons, List.append_assoc]
      rfl

/-- **If all jobs are found settled,** each has ended at some time. -/
theorem exists_later_of_collect {ended : JobId → Conclusion → Nat → Prop}
    (hsettled : ∀ id c, conclusion? id = some c → ∃ time, ended id c time)
    {found found' : List Conclusion} {rest : List JobId}
    (h : collect conclusion? found rest = (found', [])) :
    ∃ later : List (Conclusion × Nat),
      List.Forall₂ (fun id late => ended id late.1 late.2) rest later ∧
      found'.reverse = found.reverse ++ later.map Prod.fst := by
  induction rest generalizing found with
  | nil =>
    cases h
    exact ⟨[], .nil, (List.append_nil _).symm⟩
  | cons id rest ih =>
    cases hid : conclusion? id with
    | none =>
      simp only [collect, hid] at h
      cases h
    | some c =>
      simp only [collect, hid] at h
      obtain ⟨time, hc⟩ := hsettled id c hid
      obtain ⟨later, hlater, hfound⟩ := ih h
      refine ⟨(c, time) :: later, .cons hc hlater, ?_⟩
      rw [hfound, List.reverse_cons, List.append_assoc]
      rfl

/-- **What is left of a wait** that is not over. -/
theorem exists_since_of_look
    (hsettled : ∀ id c, conclusion? id = some c → ∃ time ≤ now, ends id c time)
    (hsince : since ≤ now) (hlook : wait.look conclusion? now = .inr wait') :
    (∀ wake, wait'.look conclusion? now ≠ .inl wake) ∧ wait'.due? = wait.due? ∧
      (∀ due ∈ wait.due?, now < due) ∧ (∀ id ∈ wait'.ids, id ∈ wait.ids) ∧
      ∃ since' ≤ now, ∀ wake time, wait'.Takes ends since' wake time →
        wait.Takes ends since wake time := by
  -- all but a wait for all of some jobs stay as they are
  have hsame : wait' = wait → (∀ due ∈ wait.due?, now < due) →
      (∀ wake, wait'.look conclusion? now ≠ .inl wake) ∧ wait'.due? = wait.due? ∧
      (∀ due ∈ wait.due?, now < due) ∧ (∀ id ∈ wait'.ids, id ∈ wait.ids) ∧
      ∃ since' ≤ now, ∀ wake time, wait'.Takes ends since' wake time →
        wait.Takes ends since wake time := by
    rintro rfl hdue
    refine ⟨fun wake h => ?_, rfl, hdue, fun _ h => h, since, hsince, fun _ _ h => h⟩
    rw [hlook] at h
    cases h
  cases wait with
  | timer due answer =>
    have hcopy := hlook
    simp only [look] at hcopy
    split at hcopy
    next => cases hcopy
    next hlt =>
      cases hcopy
      refine hsame rfl fun due' hdue' => ?_
      cases hdue'
      exact Nat.lt_of_not_le hlt
  | job id =>
    have hcopy := hlook
    simp only [look] at hcopy
    split at hcopy <;> cases hcopy
    exact hsame rfl (by rintro _ ⟨⟩)
  | all found rest =>
    obtain ⟨since', hsince', htakes⟩ := exists_since_of_collect hsettled hsince found rest
    obtain ⟨hsuffix, hhead⟩ := collect_left conclusion? found rest
    have hcopy := hlook
    simp only [look] at hcopy
    split at hcopy
    next => cases hcopy
    next found' rest' hne hpair =>
      cases hcopy
      rw [hpair] at hsuffix hhead htakes
      refine ⟨fun wake h => ?_, rfl, by rintro _ ⟨⟩, hsuffix.subset, since', hsince', htakes⟩
      cases rest' with
      | nil => exact hne rfl
      | cons id rest' =>
        simp only [look, collect, hhead id rfl] at h
        cases h
  | first ids =>
    have hcopy := hlook
    simp only [look] at hcopy
    split at hcopy <;> cases hcopy
    exact hsame rfl (by rintro _ ⟨⟩)
  | deadline due id =>
    have hcopy := hlook
    simp only [look] at hcopy
    split at hcopy
    next => cases hcopy
    next =>
      split at hcopy
      next => cases hcopy
      next hlt =>
        cases hcopy
        refine hsame rfl fun due' hdue' => ?_
        cases hdue'
        exact Nat.lt_of_not_le hlt

/-- **A wait that begins** is not over, but if there is nothing to wait for. -/
theorem onTime_of_open (hopen : ∀ id ∈ wait.ids, conclusion? id = none)
    (hdue : ∀ due ∈ wait.due?, now ≤ due)
    (hfound : ∀ found rest, wait = .all found rest → found = []) :
    wait.OnTime ends conclusion? now now := by
  intro wake hlook
  cases wait with
  | timer due answer =>
    simp only [look] at hlook
    split at hlook <;> cases hlook
    exact ⟨rfl, Nat.le_antisymm (hdue due rfl) ‹_›⟩
  | job id =>
    have hnone : conclusion? id = none := hopen id List.mem_cons_self
    simp only [look, hnone] at hlook
    cases hlook
  | all found rest =>
    obtain rfl := hfound found rest rfl
    cases rest with
    | nil =>
      cases hlook
      exact ⟨[], .nil, rfl, rfl⟩
    | cons id rest =>
      have hnone : conclusion? id = none := hopen id List.mem_cons_self
      simp only [look, collect, hnone] at hlook
      cases hlook
  | first ids =>
    have hnone : ids.findSome? conclusion? = none := List.findSome?_eq_none_iff.2 hopen
    simp only [look, hnone] at hlook
    cases hlook
  | deadline due id =>
    have hnone : conclusion? id = none := hopen id List.mem_cons_self
    simp only [look, hnone] at hlook
    split at hlook <;> cases hlook
    exact .inl ⟨rfl, Nat.le_antisymm (hdue due rfl) ‹_›⟩

/-- The first of some jobs to be found settled is one that has just settled, or it was found
before. -/
theorem findSome?_of_settle {conclusion?' : JobId → Option Conclusion}
    (hsame : ∀ other, other ≠ id → conclusion?' other = conclusion? other) {c c' : Conclusion}
    (hid : conclusion?' id = some c) {ids : List JobId} (h : ids.findSome? conclusion?' = some c') :
    (c' = c ∧ id ∈ ids) ∨ ids.findSome? conclusion? = some c' := by
  induction ids with
  | nil => cases h
  | cons other ids ih =>
    rw [List.findSome?_cons] at h ⊢
    by_cases heq : other = id
    · subst heq
      rw [hid] at h
      exact .inl ⟨(Option.some.inj h).symm, List.mem_cons_self⟩
    · rw [hsame other heq] at h
      cases hother : conclusion? other with
      | some c'' =>
        rw [hother] at h
        exact .inr h
      | none =>
        rw [hother] at h
        exact (ih h).imp_left fun ⟨hc, hmem⟩ => ⟨hc, List.mem_cons_of_mem _ hmem⟩

/-- The latest of some times is that of the job that has just settled. -/
theorem foldl_max_of_forall₂ {rest : List JobId} {later : List (Conclusion × Nat)}
    (h : List.Forall₂ (fun other late => late.2 ≤ now ∧ (other = id → late.2 = now)) rest later)
    (hmem : id ∈ rest) (hsince : since ≤ now) : (later.map Prod.snd).foldl max since = now := by
  have htimes : (∀ time ∈ later.map Prod.snd, time ≤ now) ∧
      (id ∈ rest → now ∈ later.map Prod.snd) := by
    clear hmem
    induction h with
    | nil => exact ⟨List.forall_mem_nil _, fun hmem => (List.not_mem_nil hmem).elim⟩
    | cons hother _ ih =>
      rw [List.map_cons, List.forall_mem_cons]
      refine ⟨⟨hother.1, ih.1⟩, fun hmem => ?_⟩
      rcases List.mem_cons.1 hmem with rfl | hmem
      · exact List.mem_cons.2 (.inl (hother.2 rfl).symm)
      · exact List.mem_cons_of_mem _ (ih.2 hmem)
  obtain ⟨hall, -, hattained⟩ := foldl_max_spec (later.map Prod.snd) since
  refine Nat.le_antisymm ?_ (hall now (htimes.2 hmem))
  rcases hattained with heq | hin
  · rw [heq]
    exact hsince
  · exact htimes.1 _ hin

/-- **One of the jobs settles.** -/
theorem OnTime.settle (h : wait.OnTime ends conclusion? since now) (hsince : since ≤ now)
    (hsettled : ∀ id c, conclusion? id = some c → ∃ time ≤ now, ends id c time)
    {conclusion?' : JobId → Option Conclusion}
    (hsame : ∀ other, other ≠ id → conclusion?' other = conclusion? other) {c : Conclusion}
    (hid : conclusion?' id = some c) (hends : ends id c now) :
    wait.OnTime ends conclusion?' since now := by
  intro wake hlook
  -- without the job nothing has changed
  by_cases hmem : id ∈ wait.ids
  swap
  · have hcalm : wait.look conclusion?' now = wait.look conclusion? now :=
      look_congr fun other hother => hsame other fun heq => hmem (heq ▸ hother)
    exact h wake (hcalm ▸ hlook)
  cases wait with
  | timer due answer => cases hmem
  | job other =>
    obtain rfl := List.mem_singleton.1 hmem
    simp only [look, hid] at hlook
    cases hlook
    exact ⟨c, hends, rfl⟩
  | all found rest =>
    simp only [look] at hlook
    split at hlook
    swap
    next => cases hlook
    next found' hpair =>
    cases hlook
    have hsettled' : ∀ other c, conclusion?' other = some c →
        ∃ time, ends other c time ∧ time ≤ now ∧ (other = id → time = now) := by
      intro other c' hother
      by_cases heq : other = id
      · subst heq
        rw [hid] at hother
        cases hother
        exact ⟨now, hends, Nat.le_refl now, fun _ => rfl⟩
      · rw [hsame other heq] at hother
        obtain ⟨time, hle, hc⟩ := hsettled other c' hother
        exact ⟨time, hc, hle, fun h => absurd h heq⟩
    obtain ⟨later, hlater, hfound⟩ := exists_later_of_collect hsettled' hpair
    -- the job has been the last of them
    have hnow : (later.map Prod.snd).foldl max since = now :=
      foldl_max_of_forall₂ (hlater.imp fun _ _ h => h.2) hmem hsince
    exact ⟨later, hlater.imp fun _ _ h => h.1, by rw [hfound], hnow.symm⟩
  | first ids =>
    simp only [look] at hlook
    split at hlook
    swap
    next => cases hlook
    next c' hc' =>
    cases hlook
    rcases findSome?_of_settle hsame hid hc' with ⟨rfl, hmem⟩ | hbefore
    · exact ⟨id, hmem, c', hends, rfl⟩
    · refine h (.settled c') ?_
      simp only [look, hbefore]
  | deadline due other =>
    obtain rfl := List.mem_singleton.1 hmem
    simp only [look, hid] at hlook
    cases hlook
    exact .inr ⟨c, hends, rfl⟩

/-- **A wait that has not been over before** is over only as its time has come. -/
theorem exists_due_of_look {now' : Nat} (hopen : ∀ wake, wait.look conclusion? now ≠ .inl wake)
    (hlook : wait.look conclusion? now' = .inl wake) :
    ∃ due ∈ wait.due?, due ≤ now' ∧ wait.Takes ends since wake due := by
  cases wait with
  | timer due answer =>
    simp only [look] at hlook
    split at hlook <;> cases hlook
    exact ⟨due, rfl, ‹_›, rfl, rfl⟩
  | deadline due id =>
    cases hid : conclusion? id with
    | some c =>
      refine absurd ?_ (hopen (.settled c))
      simp only [look, hid]
    | none =>
      simp only [look, hid] at hlook
      split at hlook <;> cases hlook
      exact ⟨due, rfl, ‹_›, .inl ⟨rfl, rfl⟩⟩
  | _ => exact absurd hlook (hopen wake)

/-- **The clock moves on** to a time that is not later than that of the wait, which has not
been over before. -/
theorem onTime_of_later {now' : Nat} (hopen : ∀ wake, wait.look conclusion? now ≠ .inl wake)
    (hdue : ∀ due ∈ wait.due?, now' ≤ due) : wait.OnTime ends conclusion? since now' := by
  intro wake hlook
  obtain ⟨due, hmem, hle, htakes⟩ := exists_due_of_look hopen hlook
  exact Nat.le_antisymm hle (hdue due hmem) ▸ htakes

end Wait

/-- **A wait for jobs that have just been planned** is not over, but if there is nothing to wait
for. -/
theorem Await.onTime_toWait {ends : JobId → Conclusion → Nat → Prop}
    {conclusion? : JobId → Option Conclusion} {await : Await} {now : Nat} {ids : List JobId}
    (hopen : ∀ id ∈ (await.toWait now ids).ids, conclusion? id = none) :
    (await.toWait now ids).OnTime ends conclusion? now now := by
  refine Wait.onTime_of_open hopen (fun due hdue => ?_) fun found rest hwait => ?_
  · cases await with
    | timer ms answer =>
      cases hdue
      exact Nat.le_add_right _ _
    | deadline ms job =>
      cases hdue
      exact Nat.le_add_right _ _
    | _ => cases hdue
  · cases await <;> cases hwait
    rfl

/-- **A wait for jobs that have been given numbers** takes what the request takes. -/
theorem Await.takes_of_toWait {lasts : Job → Nat → Conclusion → Nat → Prop} {await : Await}
    {asked : JobId → Job} {now : Nat} {ids : List JobId} {wake : Wake} {time : Nat}
    (hids : ids.map asked = await.jobs)
    (h : (await.toWait now ids).Takes (fun id c time => lasts (asked id) now c time)
      now wake time) :
    await.Takes lasts now wake time := by
  cases await with
  | timer ms answer => exact h
  | job job =>
    obtain ⟨c, hc, hwake⟩ := h
    rw [asked_headD hids] at hc
    exact ⟨c, hc, hwake⟩
  | all jobs =>
    obtain ⟨found, hfound, hwake⟩ := h
    obtain rfl : ids.map asked = jobs := hids
    exact ⟨found, List.forall₂_map_left_iff.2 hfound, hwake⟩
  | first job others =>
    obtain ⟨id, hid, c, hc, hwake⟩ := h
    have hmem : asked id ∈ job :: others := by
      have hids : ids.map asked = job :: others := hids
      rw [← hids]
      exact List.mem_map_of_mem hid
    exact ⟨asked id, hmem, c, hc, hwake⟩
  | deadline ms job =>
    refine h.imp_right ?_
    rintro ⟨c, hc, hwake⟩
    rw [asked_headD hids] at hc
    exact ⟨c, hc, hwake⟩

end ProgramGraph
