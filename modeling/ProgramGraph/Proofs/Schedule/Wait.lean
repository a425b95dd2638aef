import ProgramGraph.Proofs.Solo.Basic
/-!
# What comes of a wait on a schedule

A wait on a schedule names its jobs by numbers, and is looked at again and
again until it is over. Given how each job is going to end and when, it is
known beforehand what comes of the wait and at what time: `Wait.Resolves`. A
look finds it over at that time and not before, and a look that finds it not
over leaves a wait that resolves in the same way.
-/

namespace ProgramGraph

namespace Wait

/-- The jobs that are still waited for. -/
def ids : Wait → List JobId
  | timer _ _ => []
  | job id => [id]
  | all _ rest => rest
  | first ids => ids
  | deadline _ id => [id]

variable {ending : JobId → Conclusion} {due : JobId → Nat} {wake wake' : Wake} {time now : Nat}
  {wait wait' : Wait} {conclusion? : JobId → Option Conclusion}

/-- **What comes of a wait, and at what time,** given how jobs end and when. -/
def Resolves (ending : JobId → Conclusion) (due : JobId → Nat) : Wait → Wake → Nat → Prop
  | timer due answer, wake, time => wake = answer ∧ time = due
  | job id, wake, time => wake = .settled (ending id) ∧ time = due id
  | all found rest, wake, time =>
    wake = .settled (.gather (found.reverse ++ rest.map ending)) ∧ ∀ id ∈ rest, due id ≤ time
  | first ids, wake, time => ∃ id ∈ ids, wake = .settled (ending id) ∧ time = due id ∧
      ∀ other ∈ ids, due id ≤ due other ∧ (due other = due id → ending other = ending id)
  | deadline limit id, wake, time =>
    (due id < limit ∧ wake = .settled (ending id) ∧ time = due id) ∨
      (limit < due id ∧ wake = .elapsed ∧ time = limit)

/-- What is known of some jobs at a time: those that have settled did so by
then and as they are said to, and those that have not are not late. -/
structure Told (ending : JobId → Conclusion) (due : JobId → Nat) (now : Nat)
    (conclusion? : JobId → Option Conclusion) (ids : List JobId) : Prop where
  settled : ∀ id ∈ ids, ∀ c, conclusion? id = some c → c = ending id ∧ due id ≤ now
  unsettled : ∀ id ∈ ids, conclusion? id = none → now ≤ due id

/-- Jobs that have settled are taken out in order. -/
theorem collect_spec (found : List Conclusion) {rest : List JobId}
    (h : Told ending due now conclusion? rest) :
    ∃ done left, rest = done ++ left ∧ (∀ id ∈ done, conclusion? id ≠ none ∧ due id ≤ now) ∧
      collect conclusion? found rest = ((done.map ending).reverse ++ found, left) ∧
      ∀ id ∈ left.head?, conclusion? id = none := by
  induction rest generalizing found with
  | nil => exact ⟨[], [], rfl, by simp, rfl, by simp⟩
  | cons id rest ih =>
    cases hid : conclusion? id with
    | none =>
      refine ⟨[], id :: rest, rfl, by simp, ?_, by simp [hid]⟩
      simp only [collect, hid]
      rfl
    | some c =>
      obtain ⟨rfl, hdue⟩ := h.settled id List.mem_cons_self c hid
      have hrest : Told ending due now conclusion? rest :=
        ⟨fun id hmem => h.settled id (List.mem_cons_of_mem _ hmem),
          fun id hmem => h.unsettled id (List.mem_cons_of_mem _ hmem)⟩
      obtain ⟨done, left, rfl, hdone, hcollect, hleft⟩ := ih (ending id :: found) hrest
      refine ⟨id :: done, left, rfl, ?_, ?_, hleft⟩
      · rw [List.forall_mem_cons]
        exact ⟨⟨by simp [hid], hdue⟩, hdone⟩
      · simp only [collect, hid, hcollect, List.map_cons, List.reverse_cons, List.append_assoc]
        rfl

/-- **A look that finds a wait over** finds what is said to come of it, and not
before its time. -/
theorem look_inl (h : Told ending due now conclusion? wait.ids) (hnow : now ≤ time)
    (hres : wait.Resolves ending due wake time)
    (hcause : wait.due? = some time ∨ time ≤ now ∨ ∃ id ∈ wait.ids, due id = time)
    (hlook : wait.look conclusion? now = .inl wake') : wake' = wake ∧ time = now := by
  cases wait with
  | timer limit answer =>
    obtain ⟨rfl, rfl⟩ := hres
    simp only [look] at hlook
    split at hlook
    next hle =>
      cases hlook
      exact ⟨rfl, Nat.le_antisymm hle hnow⟩
    next => cases hlook
  | job id =>
    obtain ⟨rfl, rfl⟩ := hres
    simp only [look] at hlook
    split at hlook
    next c hc =>
      cases hlook
      obtain ⟨rfl, hdue⟩ := h.settled id (List.mem_singleton.2 rfl) c hc
      exact ⟨rfl, Nat.le_antisymm hdue hnow⟩
    next => cases hlook
  | all found rest =>
    obtain ⟨rfl, hall⟩ := hres
    obtain ⟨done, left, hrest, hdone, hcollect, -⟩ :=
      collect_spec found (show Told ending due now conclusion? rest from h)
    simp only [look] at hlook
    split at hlook
    next found' hpair =>
      rw [hcollect] at hpair
      cases hpair
      cases hlook
      rw [List.append_nil] at hrest
      obtain rfl : rest = done := hrest
      -- nothing is left, so all have settled, the last of them as well
      refine ⟨?_, ?_⟩
      · rw [List.reverse_append, List.reverse_reverse]
      · rcases hcause with hcause | hcause | ⟨id, hid, rfl⟩
        · cases hcause
        · omega
        · exact Nat.le_antisymm (hdone id hid).2 hnow
    next => cases hlook
  | first ids =>
    obtain ⟨winner, hwinner, rfl, rfl, hfirst⟩ := hres
    simp only [look] at hlook
    split at hlook
    next c hc =>
      cases hlook
      obtain ⟨id, hid, hc⟩ := List.exists_of_findSome?_eq_some hc
      obtain ⟨rfl, hdue⟩ := h.settled id hid c hc
      obtain ⟨hle, hsame⟩ := hfirst id hid
      -- what has settled is no earlier than the winner, and no later than now
      have htie : due id = due winner := by omega
      exact ⟨by rw [hsame htie], by omega⟩
    next => cases hlook
  | deadline limit id =>
    simp only [look] at hlook
    split at hlook
    next c hc =>
      cases hlook
      obtain ⟨rfl, hdue⟩ := h.settled id (List.mem_singleton.2 rfl) c hc
      rcases hres with ⟨hlt, rfl, rfl⟩ | ⟨hlt, rfl, rfl⟩
      · exact ⟨rfl, Nat.le_antisymm hdue hnow⟩
      · omega
    next hnone =>
      split at hlook
      next hle =>
        cases hlook
        have hlate := h.unsettled id (List.mem_singleton.2 rfl) hnone
        rcases hres with ⟨hlt, rfl, rfl⟩ | ⟨hlt, rfl, rfl⟩
        · omega
        · exact ⟨rfl, Nat.le_antisymm hle hnow⟩
      next => cases hlook

/-- **A look that finds a wait not over** leaves it as it is, but for jobs that
have settled. If its time has come, some job is about to settle. -/
theorem look_inr (h : Told ending due now conclusion? wait.ids) (hnow : now ≤ time)
    (hres : wait.Resolves ending due wake time)
    (hlook : wait.look conclusion? now = .inr wait') :
    wait'.Resolves ending due wake time ∧ wait'.due? = wait.due? ∧
      (∀ id ∈ wait'.ids, id ∈ wait.ids) ∧
      (∀ id ∈ wait.ids, conclusion? id = none → id ∈ wait'.ids) ∧
      (time ≤ now → ∃ id ∈ wait'.ids, conclusion? id = none ∧ due id = time) := by
  cases wait with
  | timer limit answer =>
    simp only [look] at hlook
    split at hlook
    next => cases hlook
    next hlt =>
      cases hlook
      refine ⟨hres, rfl, fun _ h => h, fun _ h _ => h, fun hle => ?_⟩
      obtain ⟨-, rfl⟩ := hres
      exact absurd hle hlt
  | job id =>
    simp only [look] at hlook
    split at hlook
    next => cases hlook
    next hnone =>
      cases hlook
      refine ⟨hres, rfl, fun _ h => h, fun _ h _ => h, fun _ => ?_⟩
      exact ⟨id, List.mem_singleton.2 rfl, hnone, hres.2.symm⟩
  | all found rest =>
    obtain ⟨done, left, rfl, hdone, hcollect, hleft⟩ :=
      collect_spec found (show Told ending due now conclusion? rest from h)
    simp only [look] at hlook
    split at hlook
    next => cases hlook
    next found' left' hne hpair =>
      rw [hcollect] at hpair
      cases hpair
      cases hlook
      obtain ⟨rfl, hall⟩ := hres
      refine ⟨⟨?_, fun id hid => hall id (List.mem_append_right _ hid)⟩, rfl,
        fun id hid => List.mem_append_right _ hid, fun id hid hnone => ?_, fun hle => ?_⟩
      · simp only [List.reverse_append, List.reverse_reverse, List.map_append, List.append_assoc]
      · rcases List.mem_append.1 hid with hid | hid
        · exact absurd hnone (hdone id hid).1
        · exact hid
      · cases left with
        | nil => exact (hne rfl).elim
        | cons id left =>
          have hnone := hleft id rfl
          have hmem : id ∈ done ++ id :: left := List.mem_append_right _ List.mem_cons_self
          have hge := h.unsettled id hmem hnone
          -- the first job that is left is due now: not earlier, for it would be late
          have hbound := hall id hmem
          exact ⟨id, List.mem_cons_self, hnone, by omega⟩
  | first ids =>
    simp only [look] at hlook
    split at hlook
    next => cases hlook
    next hnone =>
      cases hlook
      refine ⟨hres, rfl, fun _ h => h, fun _ h _ => h, fun _ => ?_⟩
      obtain ⟨winner, hwinner, -, rfl, -⟩ := hres
      exact ⟨winner, hwinner, List.findSome?_eq_none_iff.1 hnone winner hwinner, rfl⟩
  | deadline limit id =>
    simp only [look] at hlook
    split at hlook
    next => cases hlook
    next hnone =>
      split at hlook
      next => cases hlook
      next hlt =>
        cases hlook
        refine ⟨hres, rfl, fun _ h => h, fun _ h _ => h, fun hle => ?_⟩
        refine ⟨id, List.mem_singleton.2 rfl, hnone, ?_⟩
        rcases hres with ⟨-, -, rfl⟩ | ⟨-, -, rfl⟩
        · rfl
        · exact absurd hle hlt

end Wait

end ProgramGraph
