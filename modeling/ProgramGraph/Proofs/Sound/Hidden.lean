import ProgramGraph.Proofs.Passage.Await
import ProgramGraph.Proofs.Passage.Retally
import ProgramGraph.Proofs.Solo.Limit
import ProgramGraph.Proofs.Sound.Passage
/-!
# What a limit may hide

Where the first failure in order counts, a job that was cut off by a limit may stay hidden
behind one that failed. Then the wait is over earlier than it would be within a greater
limit, but nothing else is different: the same failure counts, and it is tainted in both.
For a job that was cut off is tainted, and if within the greater limit none of the jobs were,
the body of the map would be pure, and then its jobs take the same turns, so that either all
of them are cut off or none is.

So a limit may hide something and change nothing but the time and the counters
(`Solo.within_retally`), unless the time matters to a race or a timeout. What they wait for
is asked to be candid (`Next.CandidWhenTimed`).
-/

namespace ProgramGraph

open Relation

variable {P : Plugins} {E : Engine P} {limit : Nat} {limits : Limits}

/-- What was cut off was so by the limit that there is. -/
theorem Answer.Cut.result {a : Answer} (h : a.Cut E) (hlimit : E.limits.maxSteps = some limit) :
    a.result = .error (.stepLimitExceeded limit) := by
  obtain ⟨other, hother, rfl⟩ := h
  rw [Option.some.inj (hlimit.symm.trans hother)]

/-! ## What is asked -/

/-- **What races and timeouts wait for is candid.** -/
def Next.CandidWhenTimed (E : Engine P) (limit : Nat) (next : Next P) : Prop :=
  ∀ (r : Run P) (await : Await), next.Involves E (.wait r await) → ¬ await.Plain →
    ∀ job ∈ await.jobs, ∀ world : World P,
      (Run.begin E { scope := job.scope, world } job.node).Candid E limit

/-- All jobs of a wait for all of them evaluate one node. -/
def Next.Uniform (E : Engine P) (next : Next P) : Prop :=
  ∀ (r : Run P) (jobs : List Job), next.Involves E (.wait r (.all jobs)) →
    ∃ body, ∀ job ∈ jobs, job.node = body

namespace Next

variable {next next' : Next P}

theorem CandidWhenTimed.of_brings (h : next.CandidWhenTimed E limit) (hbrings : next.Brings E next') :
    next'.CandidWhenTimed E limit :=
  fun r await hinvolves => h r await (ReflTransGen.head hbrings hinvolves)

theorem Uniform.of_brings (h : next.Uniform E) (hbrings : next.Brings E next') : next'.Uniform E :=
  fun r jobs hinvolves => h r jobs (ReflTransGen.head hbrings hinvolves)

/-- What is candid is so wherever time counts. -/
theorem Candid.whenTimed (h : next.Candid E limit) : next.CandidWhenTimed E limit :=
  fun _ _ hinvolves _ _ hjob world r jobs fates hlater =>
    h r jobs fates (hinvolves.trans (ReflTransGen.head (.job world hjob) hlater))

end Next

/-- **Nothing is asked** where there are no races and no timeouts. -/
theorem Engine.Unrushed.candidWhenTimed (h : E.Unrushed) (root : NodeId) (memo : Memo) (scope : Scope)
    (world : World P) : (Run.begin E { memo, scope, world } root).CandidWhenTimed E limit := by
  intro r await hinvolves hplain
  obtain ⟨_, _, _, _, task, -, -, hnot, hwait⟩ := Run.exists_task_of_wait h.upholds hinvolves
  rcases Builtin.Task.wait_of_resume hwait with ⟨_, -, rfl⟩ | ⟨_, -, rfl⟩ | ⟨htimed, -, -⟩
  · exact absurd trivial hplain
  · exact absurd trivial hplain
  · exact absurd (hnot.symm.trans htimed) nofun

/-- Nor is anything tied there. -/
theorem Engine.Unrushed.untied (h : E.Unrushed) (root : NodeId) (memo : Memo) (scope : Scope)
    (world : World P) : (Run.begin E { memo, scope, world } root).Untied E :=
  Run.untied_begin h.native fun id _ task volatile _ _ _ hstarts htimed =>
    absurd ((h.starts id task volatile hstarts).symm.trans htimed) nofun

/-- Maps wait for jobs at their body. -/
theorem Run.uniform_begin (hr : E.registry.Native) (root : NodeId) (memo : Memo) (scope : Scope)
    (world : World P) : (Run.begin E { memo, scope, world } root).Uniform E := by
  intro r jobs hinvolves
  obtain ⟨r₀, frame, -, input, task, -, -, -, hwait⟩ :=
    exists_task_of_wait (Engine.upholds_true hr) hinvolves
  have heven := task.resume_even ⟨frame.node, r₀.scope⟩ input
  rw [hwait] at heven
  exact heven

/-! ## Jobs that end by themselves -/

/-- What comes of a wait, if its jobs may end as they do. -/
theorem Await.Resolves.comes_of_ends {await : Await} {endings : List (Conclusion × Nat)} {wake : Wake}
    {delay : Nat} {ends : Job → Conclusion → Prop} (h : await.Resolves endings wake delay)
    (hends : List.Forall₂ (fun job ending => ends job ending.1) await.jobs endings) :
    await.Comes ends wake := by
  obtain ⟨-, hright⟩ := exists_mem_of_forall₂ hends
  cases await with
  | timer ms answer => exact h.1
  | job job =>
    obtain ⟨ending, hending, rfl, -⟩ := h
    obtain ⟨asked, hasked, hc⟩ := hright ending hending
    obtain rfl := List.mem_singleton.1 hasked
    exact ⟨_, hc, rfl⟩
  | all jobs => exact ⟨_, List.forall₂_map_right_iff.2 hends, h.1⟩
  | first job others =>
    obtain ⟨ending, hending, rfl, -⟩ := h
    obtain ⟨asked, hasked, hc⟩ := hright ending hending
    exact ⟨asked, hasked, _, hc, rfl⟩
  | deadline ms job =>
    obtain ⟨ending, hending, ⟨-, rfl, -⟩ | ⟨-, rfl, -⟩⟩ := h
    · obtain ⟨asked, hasked, hc⟩ := hright ending hending
      obtain rfl := List.mem_singleton.1 hasked
      exact .inr ⟨_, hc, rfl⟩
    · exact .inl rfl

/-- **What a job comes to by itself** is what it may pass through. -/
theorem Solo.exists_passes {next : Next P} {e : Report} {d n : Nat} (h : Solo E next e d n) {m : Memo}
    {job : Job} (hpasses : Passes E (fun _ => True) m job next) :
    ∃ o, Passes E (fun _ => True) m job (.finish o) ∧ o.report = e := by
  induction h generalizing m job with
  | finish o => exact ⟨o, hpasses, rfl⟩
  | resume _ ih => exact ih hpasses.turn
  | @wait r await fates wake delay e d n hlength _ hres _ ihjobs ihwake =>
    have hends : List.Forall₂ (Job.Ends E fun _ => True) await.jobs
        (fates.map fun fate => fate.report.conclusion) := by
      rw [List.forall₂_map_right_iff, List.forall₂_iff_get]
      refine ⟨hlength.symm, fun i hi hi' => ?_⟩
      obtain ⟨o, ho, hreport⟩ := ihjobs i _ _ (List.getElem?_eq_getElem hi)
        (List.getElem?_eq_getElem hi') r.world (.begin trivial)
      exact ⟨o, ho, congrArg Report.conclusion hreport⟩
    refine ihwake r.world (hpasses.wake_of_comes trivial (hres.comes_of_ends ?_))
    rw [List.forall₂_map_right_iff] at hends ⊢
    exact hends

/-- So is what becomes of it. -/
theorem Engine.Fares.exists_passes {job : Job} {fate : Fate} (h : E.Fares job fate) (world : World P) :
    ∃ o, Passes E (fun _ => True) .empty job (.finish o) ∧ o.report = fate.report :=
  (h world).exists_passes (.begin trivial)

/-! ## Batches -/

section Batch

variable {jobs : List Job} {fates fates' : List Fate}

/-- **If no job is tainted within the greater limit,** either all are cut off within the lower
one, or none is. -/
theorem Conclusion.even_of_untainted (hg : E.graph.validate = .ok ()) (hr : E.registry.Native)
    (hbody : ∃ body, ∀ job ∈ jobs, job.node = body) (hfates : List.Forall₂ E.Fares jobs fates)
    (hfates' : List.Forall₂ (Engine.Fares { E with limits }) jobs fates')
    (huntainted : ∀ fate ∈ fates', fate.report.tainted = false) (world : World P) :
    Even E (fates.map fun fate => fate.report.conclusion) := by
  obtain ⟨body, hbody⟩ := hbody
  rintro ⟨c, hc, hcut⟩ c' hc'
  obtain ⟨fate, hfate, rfl⟩ := List.mem_map.1 hc
  obtain ⟨other, hother, rfl⟩ := List.mem_map.1 hc'
  obtain ⟨-, hjobOf⟩ := exists_mem_of_forall₂ hfates
  obtain ⟨job, hjob, hfares⟩ := hjobOf fate hfate
  obtain ⟨asked, hasked, hfares'⟩ := hjobOf other hother
  obtain ⟨o, ho, hreport⟩ := hfares.exists_passes world
  obtain ⟨o', ho', hreport'⟩ := hfares'.exists_passes world
  -- the body is pure, as one of its jobs shows within the greater limit
  have hpure : E.graph.Pure E.registry job.node := by
    obtain ⟨fate', hfate', hfull⟩ := (exists_mem_of_forall₂ hfates').1 job hjob
    obtain ⟨full, hpasses, hends⟩ := hfull.exists_passes world
    have hright := (Passes.sound (E := { E with limits }) hg hr hpasses Memo.sound_empty).1.2
    have hfalse : full.tainted = false := (congrArg Report.tainted hends).trans (huntainted fate' hfate')
    exact Graph.pure_of_untainted (s := .empty)
      ((congrArg Answer.tainted (hright.of_untainted hfalse .empty)).trans hfalse)
  have hall := (ho.sound hg hr Memo.sound_empty).2 hpure
  rw [hbody job hjob, ← hbody asked hasked] at hall
  have hsame := hall.answer_eq ho'
  have hanswer : o.conclusion.answer = fate.report.conclusion.answer :=
    congrArg (fun e => e.conclusion.answer) hreport
  have hanswer' : o'.conclusion.answer = other.report.conclusion.answer :=
    congrArg (fun e => e.conclusion.answer) hreport'
  rw [← hanswer', hsame, hanswer]
  exact hcut

/-- **What comes of a job within the limit and within a greater one:** it is cut off, or it
gives the same answer. -/
def Conclusion.Within (E : Engine P) (c c' : Conclusion) : Prop :=
  c.answer.Cut E ∨ c'.answer = c.answer

/-- **The first failure in order** is that of a job that was cut off, or it is the same one. -/
theorem Conclusion.result_gather_within (hlimit : E.limits.maxSteps = some limit)
    {found found' : List Conclusion} (h : List.Forall₂ (Conclusion.Within E) found found') :
    (gather found).result = .error (.stepLimitExceeded limit) ∨
      (gather found').result = (gather found).result := by
  have hmap : found.mapM Conclusion.result = .error (.stepLimitExceeded limit) ∨
      found'.mapM Conclusion.result = found.mapM Conclusion.result := by
    induction h with
    | nil => exact .inr rfl
    | @cons c c' found found' hhead _ ih =>
      rw [List.mapM_cons, List.mapM_cons]
      rcases hhead with hcut | hsame
      · have hresult : c.result = .error (.stepLimitExceeded limit) := hcut.result hlimit
        exact .inl (by rw [hresult]; rfl)
      · have hresult : c'.result = c.result := congrArg Answer.result hsame
        rw [hresult]
        cases hc : c.result with
        | error error => exact .inr rfl
        | ok value =>
          rcases ih with hrest | hrest
          · exact .inl (by rw [hrest]; rfl)
          · exact .inr (by rw [hrest])
  rcases hmap with hrest | hrest
  · exact .inl (by rw [gather, hrest]; rfl)
  · exact .inr (by rw [gather, gather, hrest])

/-- If no job was cut off, all answer the same. -/
theorem Conclusion.answers_of_not_cut {found found' : List Conclusion}
    (h : List.Forall₂ (Conclusion.Within E) found found')
    (hcut : ¬ ∃ c ∈ found, c.answer.Cut E) : found'.map answer = found.map answer := by
  induction h with
  | nil => rfl
  | cons hhead _ ih =>
    rw [List.exists_mem_cons_iff, not_or] at hcut
    rw [List.map_cons, List.map_cons, hhead.resolve_left hcut.1, ih hcut.2]

/-- **What comes of a batch within two limits:** within the lower one it is cut off, or the
same comes of it within both. -/
theorem Conclusion.gather_within (hg : E.graph.validate = .ok ()) (hr : E.registry.Native)
    (hlimit : E.limits.maxSteps = some limit) (hbody : ∃ body, ∀ job ∈ jobs, job.node = body)
    (hfates : List.Forall₂ E.Fares jobs fates)
    (hfates' : List.Forall₂ (Engine.Fares { E with limits }) jobs fates') (world : World P)
    (hwithin : List.Forall₂ (Conclusion.Within E) (fates.map fun fate => fate.report.conclusion)
      (fates'.map fun fate => fate.report.conclusion)) :
    (gather (fates.map fun fate => fate.report.conclusion)).result =
        .error (.stepLimitExceeded limit) ∨
      (gather (fates'.map fun fate => fate.report.conclusion)).answer =
        (gather (fates.map fun fate => fate.report.conclusion)).answer := by
  rcases result_gather_within hlimit hwithin with hcut | hresult
  · exact .inl hcut
  by_cases hcut : ∃ c ∈ fates.map fun fate => fate.report.conclusion, c.answer.Cut E
  case neg =>
    -- where nothing was cut off there is nothing to hide
    refine .inr ?_
    rw [answer_gather, answer_gather, answers_of_not_cut hwithin hcut]
  case pos =>
    by_cases huntainted : ∀ fate ∈ fates', fate.report.tainted = false
    · -- the jobs take the same turns, so all are cut off
      have hall := even_of_untainted hg hr hbody hfates hfates' huntainted world hcut
      obtain ⟨c, hc, -⟩ := hcut
      exact .inl ((cut_gather (List.ne_nil_of_mem hc) hall).result hlimit)
    · -- the failure that counts is tainted in both
      obtain ⟨c, hc, hcutOff⟩ := hcut
      obtain ⟨fate', hfate', htainted'⟩ : ∃ fate' ∈ fates', fate'.report.tainted = true := by
        simpa using huntainted
      refine .inr (Answer.ext hresult ?_)
      have hleft : (gather (fates.map fun fate => fate.report.conclusion)).tainted = true :=
        List.any_eq_true.2 ⟨c, hc, hcutOff.tainted⟩
      have hright : (gather (fates'.map fun fate => fate.report.conclusion)).tainted = true :=
        List.any_eq_true.2 ⟨_, List.mem_map_of_mem hfate', htainted'⟩
      exact hright.trans hleft.symm

end Batch

/-! ## Runs within two limits -/

theorem Wake.Alike.refl (wake : Wake) : wake.Alike wake := by
  cases wake with
  | elapsed => exact .elapsed
  | settled c => exact .settled rfl

/-- Counters are what they are. -/
theorem Next.retally_self (next : Next P) : next.retally next.run.memo.tally = next := by
  cases next <;> rfl

namespace Await

variable {await : Await} {fates fates' : List Fate} {wake wake' : Wake} {delay delay' : Nat}

/-- **A plain wait within two limits.** It comes to a job that was cut off, or to the same. -/
theorem Plain.within (hplain : await.Plain) (hg : E.graph.validate = .ok ()) (hr : E.registry.Native)
    (hlimit : E.limits.maxSteps = some limit)
    (hbody : ∀ jobs, await = .all jobs → ∃ body, ∀ job ∈ jobs, job.node = body)
    (hfates : List.Forall₂ E.Fares await.jobs fates)
    (hfates' : List.Forall₂ (Engine.Fares { E with limits }) await.jobs fates') (world : World P)
    (hwithin : List.Forall₂ (Conclusion.Within E) (fates.map fun fate => fate.report.conclusion)
      (fates'.map fun fate => fate.report.conclusion))
    (h : await.Resolves (fates.map Fate.ending) wake delay)
    (h' : await.Resolves (fates'.map Fate.ending) wake' delay') :
    wake.CutOff limit ∨ wake.Alike wake' := by
  cases await with
  | timer ms answer =>
    rw [h.1, h'.1]
    exact .inr (.refl answer)
  | job job =>
    obtain ⟨fate, rfl⟩ := List.length_eq_one_iff.1 hfates.length_eq.symm
    obtain ⟨fate', rfl⟩ := List.length_eq_one_iff.1 hfates'.length_eq.symm
    obtain ⟨ending, hending, rfl, -⟩ := h
    obtain ⟨ending', hending', rfl, -⟩ := h'
    obtain rfl := List.mem_singleton.1 hending
    obtain rfl := List.mem_singleton.1 hending'
    rcases (List.forall₂_cons.1 hwithin).1 with hcut | hsame
    · exact .inl (hcut.result hlimit)
    · exact .inr (.settled hsame)
  | all jobs =>
    obtain ⟨rfl, -⟩ := h
    obtain ⟨rfl, -⟩ := h'
    rw [List.map_map, List.map_map]
    exact (Conclusion.gather_within hg hr hlimit (hbody jobs rfl) hfates hfates' world
      hwithin).imp id .settled
  | first job others => exact hplain.elim
  | deadline ms job => exact hplain.elim

/-- **Any other wait within two limits.** How long its jobs take counts too, so they have to be
candid. -/
theorem within_of_candid (hplain : ¬ await.Plain) (hr : E.registry.Native)
    (hlimit : E.limits.maxSteps = some limit)
    (hle : ∀ more, limits.maxSteps = some more → limit ≤ more) (world : World P)
    (hcandid : ∀ job ∈ await.jobs,
      (Run.begin E { scope := job.scope, world } job.node).Candid E limit)
    (hfates : List.Forall₂ E.Fares await.jobs fates)
    (hfates' : List.Forall₂ (Engine.Fares { E with limits }) await.jobs fates')
    (h : await.Resolves (fates.map Fate.ending) wake delay)
    (h' : await.Resolves (fates'.map Fate.ending) wake' delay') :
    wake.CutOff limit ∨ wake.Alike wake' := by
  obtain ⟨hlength, hjobs⟩ := Engine.forall₂_fares_iff.1 hfates
  obtain ⟨hlength', hjobs'⟩ := Engine.forall₂_fares_iff.1 hfates'
  have hprecedes : List.Forall₂ (Fate.Precedes limit) fates fates' := by
    refine forall₂_of_getElem? hlength hlength' fun i job fate fate' hjob hfate hfate' => ?_
    have hsame := (Engine.upholds_true hr).same_begin job.node .empty job.scope world world
    rcases (hjobs i job fate hjob hfate world).within hr hlimit hle
      (hcandid job (List.mem_of_getElem? hjob)) hsame (hjobs' i job fate' hjob hfate' world) with hcut | ⟨hreport, hduration⟩
    · exact .inl hcut
    · exact .inr (Prod.ext (congrArg Report.conclusion hreport) hduration)
  have hall : ∀ jobs, await ≠ .all jobs := by
    rintro jobs rfl
    exact hplain trivial
  rcases h.within hlength hprecedes (fun jobs heq => absurd heq (hall jobs)) h' with
    ⟨hcut, -⟩ | ⟨rfl, -⟩
  · exact .inl hcut
  · exact .inr (.refl _)

end Await

/-- **A run within two limits,** where only what races and timeouts wait for has to be candid.
It is cut off by the lower limit, or it comes to the same but for the counters. -/
theorem Solo.within_retally (hg : E.graph.validate = .ok ()) (hr : E.registry.Native)
    (hlimit : E.limits.maxSteps = some limit)
    (hle : ∀ more, limits.maxSteps = some more → limit ≤ more) {next : Next P} {e : Report} {d n : Nat}
    (h : Solo E next e d n) (hcandid : next.CandidWhenTimed E limit) (huniform : next.Uniform E)
    {t : Tally} {e' : Report} {d' n' : Nat} (h' : Solo { E with limits } (next.retally t) e' d' n') :
    e.conclusion.answer.Cut E ∨ ∃ t', e' = e.retally t' := by
  induction h generalizing t e' d' n' with
  | finish o =>
    obtain ⟨rfl, -⟩ := h'.of_finish
    exact .inr ⟨t, rfl⟩
  | @resume r input e d n hturn ih =>
    obtain ⟨_, -, hturn'⟩ := Solo.of_resume (r := r.retally t) h'
    cases hexceeded : r.countTurn.exceeded? E.limits with
    | some other =>
      obtain rfl := Run.exceeded?_eq_some hlimit hexceeded
      rw [Run.turn_of_exceeded hexceeded] at hturn
      obtain ⟨rfl, -⟩ := hturn.of_finish
      exact .inl ⟨other, hlimit, rfl⟩
    | none =>
      -- both take the turn, and are equally far after it
      obtain ⟨t', hretally⟩ := r.exists_turn_retally (E := { E with limits }) t input
      rw [hretally, Run.turn_withLimits hexceeded (Run.exceeded?_of_le hlimit hle rfl hexceeded)] at hturn'
      exact ih (hcandid.of_brings (.turn r input)) (huniform.of_brings (.turn r input)) hturn'
  | @wait r await fates wake delay e d n hlength hjobs hres hwake ihjobs ihwake =>
    obtain ⟨fates', wake', delay', rest', left', hfates', hres', hwake', -, -⟩ :=
      Solo.exists_fares (r := r.retally t) h'
    have hfates : List.Forall₂ E.Fares await.jobs fates :=
      Engine.forall₂_fares_iff.2 ⟨hlength, hjobs⟩
    obtain ⟨hlength', hjobs'⟩ := Engine.forall₂_fares_iff.1 hfates'
    have hwakes : wake.CutOff limit ∨ wake.Alike wake' := by
      by_cases hplain : await.Plain
      case pos =>
        refine hplain.within hg hr hlimit (fun jobs hall => by
          subst hall
          exact huniform r jobs .refl) hfates hfates' r.world ?_ hres hres'
        rw [List.forall₂_map_left_iff, List.forall₂_map_right_iff]
        refine forall₂_of_getElem? hlength hlength' fun i job fate fate' hjob hfate hfate' => ?_
        have hbrings : (Next.wait r await).Brings E
            (Run.begin E { scope := job.scope, world := r.world } job.node) :=
          .job r.world (List.mem_of_getElem? hjob)
        have hjob' := hjobs' i job fate' hjob hfate' r.world
        rw [← Next.retally_self (Run.begin { E with limits } _ _)] at hjob'
        rcases ihjobs i job fate hjob hfate r.world (hcandid.of_brings hbrings)
          (huniform.of_brings hbrings) hjob' with hcut | ⟨t', hretally⟩
        · exact .inl hcut
        · exact .inr (congrArg (fun e => e.conclusion.answer) hretally)
      case neg =>
        exact Await.within_of_candid hplain hr hlimit hle r.world
          (fun job hjob => hcandid r await .refl hplain job hjob r.world) hfates hfates' hres hres'
    rcases hwakes with hcut | halike
    · obtain ⟨hcutOff, htainted, -⟩ := Run.solo_of_cutOff hcut (hwake r.world)
      exact .inl ⟨limit, hlimit, Answer.ext hcutOff htainted⟩
    · obtain ⟨t', hretally⟩ := r.exists_wake_retally t r.world halike
      have hwoken := hwake' r.world
      rw [hretally] at hwoken
      exact ihwake r.world (hcandid.of_brings (.wake r.world hfates hres))
        (huniform.of_brings (.wake r.world hfates hres)) hwoken

end ProgramGraph
