import ProgramGraph.Proofs.Solo.Plain
/-!
# The same run within two limits

A run within a limit and the same run within a greater one keep in step until the lower
limit is exceeded, jobs included. The lower limit may cut off jobs before they end, and
that shows: whoever waits for a job that was cut off is cut off as well, and no later than
it would have come to anything (`Solo.within`).

There is one wait that may hide what was cut off. Of all jobs of a wait the first failure
in order counts, and it may stand before the job that was cut off; then the wait is over
early, and goes on. An evaluation is candid if that never happens in it (`Next.Candid`).
-/

namespace ProgramGraph

open Relation

variable {P : Plugins} {E : Engine P} {limit : Nat}

/-- The run of the report was cut off by the limit. -/
def Report.CutOff (limit : Nat) (e : Report) : Prop :=
  e.result = .error (.stepLimitExceeded limit)

/-- So was what a wait has come to. -/
def Wake.CutOff (limit : Nat) : Wake → Prop
  | .settled c => c.result = .error (.stepLimitExceeded limit)
  | .elapsed => False

/-- **No job that was cut off is hidden** in an evaluation: where one of all jobs of a
wait was, the wait comes to that too. -/
def Next.Candid (E : Engine P) (limit : Nat) (next : Next P) : Prop :=
  ∀ (r : Run P) (jobs : List Job) (fates : List Fate), next.Involves E (.wait r (.all jobs)) →
    List.Forall₂ E.Fares jobs fates → (∃ fate ∈ fates, fate.report.CutOff limit) →
    (Conclusion.gather (fates.map fun fate => fate.report.conclusion)).result =
      .error (.stepLimitExceeded limit)

/-- What is candid stays so. -/
theorem Next.Candid.of_brings {next next' : Next P} (h : next.Candid E limit)
    (hbrings : next.Brings E next') : next'.Candid E limit :=
  fun r jobs fates hinvolves => h r jobs fates (ReflTransGen.head hbrings hinvolves)

/-! ## Where nothing can be hidden -/

/-- **An evaluation is candid** if no task that a node gets is a parallel map. -/
theorem Run.candid_begin (hr : E.registry.Native)
    (h : ∀ id task volatile, E.Starts id task volatile → task.isMap = false) (root : NodeId)
    (memo : Memo) (scope : Scope) (world : World P) :
    (Run.begin E { memo, scope, world } root).Candid E limit := by
  intro r jobs fates hinvolves
  have hknown : E.Upholds fun _ task => task.isMap = false :=
    Engine.upholds_of_starts hr h fun _ task _ _ hnot => by
      cases task <;> first | rfl | cases hnot
  obtain ⟨_, _, _, _, task, -, -, hnot, hwait⟩ := exists_task_of_wait hknown hinvolves
  -- only parallel maps wait for all of some jobs
  rcases Builtin.Task.wait_of_resume hwait with ⟨_, hmap, -⟩ | ⟨ms, -, hall⟩ | ⟨-, -, htimed⟩
  · exact absurd (hnot.symm.trans hmap) nofun
  · cases hall
  · exact absurd trivial htimed

/-! ## Waits within two limits -/

/-- **How a job fares within a limit and within a greater one:** it is cut off, no later
than it ends within the other, or it fares the same. -/
def Fate.Precedes (limit : Nat) (fate fate' : Fate) : Prop :=
  fate.report.CutOff limit ∧ fate.duration ≤ fate'.duration ∨ fate'.ending = fate.ending

namespace Fate

variable {fate fate' : Fate} {fates fates' : List Fate}

theorem Precedes.duration_le (h : fate.Precedes limit fate') : fate.duration ≤ fate'.duration := by
  rcases h with ⟨-, hle⟩ | heq
  · exact hle
  · exact Nat.le_of_eq (congrArg Prod.snd heq).symm

/-- If no job was cut off, all fare the same. -/
theorem endings_of_precedes (h : List.Forall₂ (Precedes limit) fates fates')
    (hcut : ¬ ∃ fate ∈ fates, fate.report.CutOff limit) :
    fates'.map ending = fates.map ending := by
  induction h with
  | nil => rfl
  | cons hfate _ ih =>
    rw [List.exists_mem_cons_iff, not_or] at hcut
    rw [List.map_cons, List.map_cons, ih hcut.2]
    rcases hfate with ⟨hhead, -⟩ | heq
    · exact absurd hhead hcut.1
    · rw [heq]

/-- The longest of the jobs takes no longer. -/
theorem longest_le (h : List.Forall₂ (Precedes limit) fates fates') {start start' : Nat}
    (hstart : start ≤ start') :
    (fates.map duration).foldl max start ≤ (fates'.map duration).foldl max start' := by
  induction h generalizing start start' with
  | nil => exact hstart
  | cons hfate _ ih =>
    have hle := hfate.duration_le
    exact ih (by omega)

/-- A job by itself. -/
theorem pair_of_length_eq_one (hlength : fates.length = 1)
    (h : List.Forall₂ (Precedes limit) fates fates') :
    ∃ fate fate', fates = [fate] ∧ fates' = [fate'] ∧ fate.Precedes limit fate' := by
  cases h with
  | nil => cases hlength
  | cons hfate hrest =>
    cases hrest with
    | nil => exact ⟨_, _, rfl, rfl, hfate⟩
    | cons => cases hlength

end Fate

namespace Await

variable {await : Await} {fates fates' : List Fate} {wake wake' : Wake} {delay delay' : Nat}

/-- **From how its jobs end** one thing comes of a wait. -/
theorem Resolves.unique {endings : List (Conclusion × Nat)} (hlength : endings.length = await.jobs.length)
    (h : await.Resolves endings wake delay) (h' : await.Resolves endings wake' delay') :
    wake' = wake ∧ delay' = delay := by
  cases await with
  | timer ms answer => exact ⟨h'.1.trans h.1.symm, h'.2.trans h.2.symm⟩
  | job job =>
    obtain ⟨ending, rfl⟩ := List.length_eq_one_iff.1 hlength
    obtain ⟨found, hfound, rfl, rfl⟩ := h
    obtain ⟨found', hfound', rfl, rfl⟩ := h'
    rw [List.mem_singleton.1 hfound, List.mem_singleton.1 hfound']
    exact ⟨rfl, rfl⟩
  | all jobs => exact ⟨h'.1.trans h.1.symm, h'.2.trans h.2.symm⟩
  | first job others =>
    obtain ⟨found, hfound, rfl, rfl, hleast⟩ := h
    obtain ⟨found', hfound', rfl, rfl, hleast'⟩ := h'
    have heq : found'.2 = found.2 :=
      Nat.le_antisymm (hleast' found hfound).1 (hleast found' hfound').1
    exact ⟨congrArg Wake.settled ((hleast found' hfound').2 heq), heq⟩
  | deadline ms job =>
    obtain ⟨ending, rfl⟩ := List.length_eq_one_iff.1 hlength
    obtain ⟨found, hfound, h⟩ := h
    obtain ⟨found', hfound', h'⟩ := h'
    obtain rfl := List.mem_singleton.1 hfound
    obtain rfl := List.mem_singleton.1 hfound'
    rcases h with ⟨hlt, rfl, rfl⟩ | ⟨hgt, rfl, rfl⟩ <;>
      rcases h' with ⟨hlt', rfl, rfl⟩ | ⟨hgt', rfl, rfl⟩ <;>
      first | exact ⟨rfl, rfl⟩ | omega

/-- **A wait within two limits.** It comes to a job that was cut off, no later than it
comes to anything within the greater limit, or it comes to the same. -/
theorem Resolves.within (hlength : fates.length = await.jobs.length)
    (hfates : List.Forall₂ (Fate.Precedes limit) fates fates')
    (hcandid : ∀ jobs, await = .all jobs → (∃ fate ∈ fates, fate.report.CutOff limit) →
      (Conclusion.gather (fates.map fun fate => fate.report.conclusion)).result =
        .error (.stepLimitExceeded limit))
    (h : await.Resolves (fates.map Fate.ending) wake delay)
    (h' : await.Resolves (fates'.map Fate.ending) wake' delay') :
    wake.CutOff limit ∧ delay ≤ delay' ∨ wake' = wake ∧ delay' = delay := by
  by_cases hcut : ∃ fate ∈ fates, fate.report.CutOff limit
  case neg =>
    -- where nothing was cut off there is nothing to tell the waits apart
    rw [Fate.endings_of_precedes hfates hcut] at h'
    exact .inr (h.unique (by rw [List.length_map, hlength]) h')
  cases await with
  | timer ms answer => exact .inr ⟨h'.1.trans h.1.symm, h'.2.trans h.2.symm⟩
  | job job =>
    obtain ⟨fate, fate', rfl, rfl, hfate⟩ := Fate.pair_of_length_eq_one hlength hfates
    obtain ⟨ending, hending, rfl, rfl⟩ := h
    obtain ⟨ending', hending', rfl, rfl⟩ := h'
    obtain rfl := List.mem_singleton.1 hending
    obtain rfl := List.mem_singleton.1 hending'
    have hhead : fate.report.CutOff limit := by simpa using hcut
    exact .inl ⟨hhead, hfate.duration_le⟩
  | all jobs =>
    obtain ⟨rfl, rfl⟩ := h
    obtain ⟨-, rfl⟩ := h'
    refine .inl ⟨?_, ?_⟩
    · rw [List.map_map]
      exact hcandid jobs rfl hcut
    · rw [List.map_map, List.map_map]
      exact Fate.longest_le hfates (Nat.le_refl 0)
  | first job others =>
    obtain ⟨hleft, hright⟩ := exists_mem_of_forall₂ hfates
    simp only [Resolves, List.mem_map, exists_exists_and_eq_and, forall_exists_index, and_imp,
      forall_apply_eq_imp_iff₂] at h h'
    obtain ⟨fate, hfate, rfl, rfl, hleast⟩ := h
    obtain ⟨winner, hwinner, rfl, rfl, hleast'⟩ := h'
    -- what wins within the greater limit takes no less time within the other
    obtain ⟨loser, hloser, hprecedes⟩ := hright winner hwinner
    have hle : fate.duration ≤ winner.duration :=
      Nat.le_trans (hleast loser hloser).1 hprecedes.duration_le
    obtain ⟨fate', hfate', ⟨hhead, -⟩ | heq⟩ := hleft fate hfate
    · exact .inl ⟨hhead, hle⟩
    · have hduration : fate'.duration = fate.duration := congrArg Prod.snd heq
      have hwins : winner.duration = fate'.duration :=
        Nat.le_antisymm (hleast' fate' hfate').1 (hduration ▸ hle)
      have hconclusion := (hleast' fate' hfate').2 hwins.symm
      refine .inr ⟨congrArg Wake.settled ?_, hwins.trans hduration⟩
      exact hconclusion.symm.trans (congrArg Prod.fst heq)
  | deadline ms job =>
    obtain ⟨fate, fate', rfl, rfl, hfate⟩ := Fate.pair_of_length_eq_one hlength hfates
    obtain ⟨ending, hending, h⟩ := h
    obtain ⟨ending', hending', h'⟩ := h'
    obtain rfl := List.mem_singleton.1 hending
    obtain rfl := List.mem_singleton.1 hending'
    have hle := hfate.duration_le
    have hhead : fate.report.CutOff limit := by simpa using hcut
    simp only [Fate.ending] at h h'
    rcases h with ⟨hlt, rfl, rfl⟩ | ⟨hgt, rfl, rfl⟩
    · refine .inl ⟨hhead, ?_⟩
      rcases h' with ⟨-, -, rfl⟩ | ⟨-, -, rfl⟩ <;> omega
    · rcases h' with ⟨hlt', -, -⟩ | ⟨-, rfl, rfl⟩
      · omega
      · exact .inr ⟨rfl, rfl⟩

end Await

/-! ## Runs within two limits -/

namespace Run

variable {r r' : Run P} {limits : Limits}

/-- A turn that exceeds neither limit is the same within both. -/
theorem turn_withLimits (h : r.countTurn.exceeded? E.limits = none)
    (h' : r.countTurn.exceeded? limits = none) (input : Input) :
    r.turn { E with limits } input = r.turn E input := by
  rw [turn_of_within h]
  exact turn_of_within h' input

/-- The limit that is exceeded is the limit that there is. -/
theorem exceeded?_eq_some {other : Nat} (hlimit : E.limits.maxSteps = some limit)
    (h : r.exceeded? E.limits = some other) : other = limit := by
  rw [exceeded?, hlimit] at h
  exact (Option.some.inj (Option.filter_eq_some_iff.1 h).1).symm

/-- What does not exceed a limit exceeds no greater one. -/
theorem exceeded?_of_le (hlimit : E.limits.maxSteps = some limit)
    (hle : ∀ more, limits.maxSteps = some more → limit ≤ more) (hsteps : r'.steps = r.steps)
    (h : r.exceeded? E.limits = none) : r'.exceeded? limits = none := by
  rw [exceeded?, Option.filter_eq_none_iff] at h ⊢
  intro more hmore hlt
  have hless : more < r'.steps := of_decide_eq_true hlt
  have := hle more hmore
  exact h limit hlimit (decide_eq_true (by omega))

/-- **Who waited for a job that was cut off** is cut off at once, and tainted as the job is. -/
theorem solo_of_cutOff {world : World P} {wake : Wake} (hcut : wake.CutOff limit) {e : Report} {d n : Nat}
    (h : Solo E (r.wake world wake) e d n) :
    e.CutOff limit ∧ e.tainted = true ∧ d = 0 := by
  cases wake with
  | elapsed => exact hcut.elim
  | settled c =>
    have hresult : c.result = .error (.stepLimitExceeded limit) := hcut
    simp only [wake, handOver, hresult] at h
    obtain ⟨rfl, rfl, -⟩ := h.of_finish
    exact ⟨rfl, rfl, rfl⟩

end Run

/-- **A run within two limits.** It is cut off by the lower limit, no later than it ends
within the greater one, or it comes to the same after the same time. -/
theorem Solo.within (hr : E.registry.Native) (hlimit : E.limits.maxSteps = some limit)
    {limits : Limits} (hle : ∀ more, limits.maxSteps = some more → limit ≤ more) {next : Next P}
    {e : Report} {d n : Nat} (h : Solo E next e d n) (hcandid : next.Candid E limit)
    {next' : Next P} (hsame : next.Same E (fun _ _ => True) next') {e' : Report} {d' n' : Nat}
    (h' : Solo { E with limits } next' e' d' n') :
    e.CutOff limit ∧ d ≤ d' ∨ e' = e ∧ d' = d := by
  induction h generalizing next' e' d' n' with
  | finish o =>
    cases hsame with
    | finish hreport =>
      obtain ⟨rfl, rfl, -⟩ := h'.of_finish
      exact .inr ⟨hreport, rfl⟩
  | @resume r input e d n hturn ih =>
    cases hsame with
    | @resume _ r' _ hlike _ =>
    obtain ⟨_, -, hturn'⟩ := h'.of_resume
    cases hexceeded : r.countTurn.exceeded? E.limits with
    | some other =>
      obtain rfl := Run.exceeded?_eq_some hlimit hexceeded
      rw [Run.turn_of_exceeded hexceeded] at hturn
      obtain ⟨rfl, rfl, -⟩ := hturn.of_finish
      exact .inl ⟨rfl, Nat.zero_le _⟩
    | none =>
      -- both take the turn, and are equally far after it
      have hsteps := hlike.countTurn.steps
      have hwithin : r'.countTurn.exceeded? E.limits = none :=
        Run.exceeded?_of_le hlimit (fun more hmore => by
          rw [hlimit] at hmore
          exact Nat.le_of_eq (Option.some.inj hmore)) hsteps hexceeded
      rw [Run.turn_withLimits hwithin (Run.exceeded?_of_le hlimit hle hsteps hexceeded)] at hturn'
      exact ih (hcandid.of_brings (.turn r input)) ((Engine.upholds_true hr).turn hlike input) hturn'
  | @wait r await fates wake delay e d n hlength hjobs hres hwake ihjobs ihwake =>
    cases hsame with
    | wait _ hlike _ =>
    obtain ⟨fates', wake', delay', rest', left', hfates', hres', hwake', rfl, -⟩ := h'.exists_fares
    have hfates : List.Forall₂ E.Fares await.jobs fates :=
      Engine.forall₂_fares_iff.2 ⟨hlength, hjobs⟩
    -- each job is cut off, or it fares the same
    have hprecedes : List.Forall₂ (Fate.Precedes limit) fates fates' := by
      obtain ⟨hlength', hjobs'⟩ := Engine.forall₂_fares_iff.1 hfates'
      refine forall₂_of_getElem? hlength hlength' fun i job fate fate' hjob hfate hfate' => ?_
      have hsame := (Engine.upholds_true hr).same_begin job.node .empty job.scope r.world r.world
      rcases ihjobs i job fate hjob hfate r.world
        (hcandid.of_brings (.job r.world (List.mem_of_getElem? hjob))) hsame
        (hjobs' i job fate' hjob hfate' r.world) with hcut | ⟨hreport, hduration⟩
      · exact .inl hcut
      · exact .inr (Prod.ext (congrArg Report.conclusion hreport) hduration)
    rcases hres.within hlength hprecedes (fun jobs hall hcut => by
        subst hall
        exact hcandid r jobs fates .refl hfates hcut) hres' with ⟨hcut, hdelay⟩ | ⟨rfl, rfl⟩
    · obtain ⟨hcutOff, -, rfl⟩ := Run.solo_of_cutOff hcut (hwake r.world)
      exact .inl ⟨hcutOff, by omega⟩
    · rcases ihwake r.world (hcandid.of_brings (.wake r.world hfates hres))
        (hlike.wake r.world r.world fun _ _ _ _ => trivial) (hwake' r.world) with
        ⟨hcutOff, hd⟩ | ⟨rfl, rfl⟩
      · exact .inl ⟨hcutOff, by omega⟩
      · exact .inr ⟨rfl, rfl⟩

end ProgramGraph
