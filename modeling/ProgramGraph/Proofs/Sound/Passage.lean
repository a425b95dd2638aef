import ProgramGraph.Proofs.Passage.Track
import ProgramGraph.Proofs.Sound.Abreast
import ProgramGraph.Proofs.Sound.Journal
/-!
# Folds let memos grow

All that a job passes through is sound for the node that it evaluates, in whatever
order jobs take turns and whether or not the fold is cut off. So the memo that a fold
leaves has grown from the one that it began with (`Engine.evaluate?_sound`).

If some jobs are waited for at a pure node, they evaluate one node, and from there
on they go abreast. So either the limit cuts off all of them or none, and no failure
of one hides that another was cut off.
-/

namespace ProgramGraph

open Relation

variable {P : Plugins} {E : Engine P} {W : World P → Prop}

/-- **Whatever begins at the node,** from the same memo, comes some time to where
this is, on its way to an end. -/
def Next.Accompanied (E : Engine P) (W : World P → Prop) (m : Memo) (id : NodeId) (next : Next P) :
    Prop :=
  ∀ scope world o, ReflTransGen (Next.Advances E W)
      (Run.begin E { memo := m, scope, world } id) (.finish o) →
    ∃ next', next.Abreast next' ∧ ReflTransGen (Next.Advances E W) next' (.finish o)

/-- **Jobs that evaluate the node end with one answer.** -/
theorem Next.Accompanied.answer_eq {o o' : Outcome P} {job : Job}
    (h : (Next.finish o).Accompanied E W .empty job.node)
    (ho' : Passes E W .empty job (.finish o')) : o'.conclusion.answer = o.conclusion.answer := by
  obtain ⟨world, hadvances⟩ := ho'.exists_advances
  obtain ⟨next', habreast, hnext'⟩ := h job.scope world o' hadvances
  cases habreast with
  | finish hresult htainted =>
    rcases hnext'.cases_head with heq | ⟨later, hlater, -⟩
    · cases heq
      exact Answer.ext hresult htainted
    · cases hlater

/-! ## Waits that are certain -/

section Wait

variable {ends : Job → Outcome P → Prop} {await await' : Await} {wake wake' : Wake}

/-- Jobs that are waited for evaluate pure nodes, if what comes of them is
certain. -/
theorem Await.Certain.pure (h : await.Certain E) :
    ∀ job ∈ await.jobs, E.graph.Pure E.registry job.node := by
  cases await with
  | timer => exact nofun
  | all jobs => exact h.1
  | job | first | deadline => exact h.elim

/-- **If one of some jobs was cut off, all were,** if what comes of them is
certain. -/
theorem Await.Certain.even {jobs : List Job} (hcertain : Await.Certain E (.all jobs))
    (hends : ∀ job o, ends job o → Passes E W .empty job (.finish o))
    (haccompanied : ∀ job o, ends job o → E.graph.Pure E.registry job.node →
      (Next.finish o).Accompanied E W .empty job.node) {found : List Conclusion}
    (hfound : List.Forall₂ (fun job c => ∃ o, ends job o ∧ o.conclusion = c) jobs found) :
    Conclusion.Even E found := by
  obtain ⟨hpure, body, hbody⟩ := hcertain
  rintro ⟨c, hc, hcut⟩ c' hc'
  obtain ⟨job, hjob, o, ho, rfl⟩ := exists_job_of_mem hfound c hc
  obtain ⟨job', hjob', o', ho', rfl⟩ := exists_job_of_mem hfound c' hc'
  have hnode : job.node = job'.node := (hbody job hjob).trans (hbody job' hjob').symm
  have hall := haccompanied job o ho (hpure job hjob)
  rw [hnode] at hall
  rw [hall.answer_eq (hends job' o' ho')]
  exact hcut

/-- **The same comes of two waits** that are alike and certain. -/
theorem Await.Certain.wake_alike (hcertain : await.Certain E) (halike : await.Alike await')
    (haccompanied : ∀ job o, ends job o → E.graph.Pure E.registry job.node →
      (Next.finish o).Accompanied E W .empty job.node)
    (hwake : await.Comes (fun job c => ∃ o, ends job o ∧ o.conclusion = c) wake)
    (hwake' : await'.Comes (Job.Ends E W) wake') : wake.Alike wake' := by
  cases halike with
  | timer ms answer =>
    obtain rfl : wake = answer := hwake
    obtain rfl : wake' = wake := hwake'
    cases wake' with
    | elapsed => exact .elapsed
    | settled c => exact .settled rfl
  | @all jobs jobs' hnodes =>
    obtain ⟨found, hfound, rfl⟩ := hwake
    obtain ⟨found', hfound', rfl⟩ := hwake'
    refine .settled ?_
    have hanswers : found'.map Conclusion.answer = found.map Conclusion.answer := by
      have hpure := hcertain.1
      clear hcertain
      induction hfound generalizing jobs' found' with
      | nil =>
        obtain rfl : jobs' = [] := List.map_eq_nil_iff.1 hnodes.symm
        cases hfound'
        rfl
      | @cons job c jobs found hc _ ih =>
        cases hfound' with
        | nil => cases hnodes
        | @cons job' c' jobs' found' hc' hrest' =>
          obtain ⟨hnode, hnodes⟩ := List.cons.inj hnodes
          rw [List.forall_mem_cons] at hpure
          obtain ⟨o, ho, rfl⟩ := hc
          obtain ⟨o', ho', rfl⟩ := hc'
          have hall := haccompanied job o ho hpure.1
          rw [hnode] at hall
          rw [List.map_cons, List.map_cons, hall.answer_eq ho', ih hnodes _ hrest' hpure.2]
    rw [Conclusion.answer_gather, Conclusion.answer_gather, hanswers]
  | job | first | deadline => exact hcertain.elim

/-- **What comes of a wait fits it** if the jobs end rightly. -/
theorem Await.Comes.fits (h : await.Comes (fun job c => ∃ o, ends job o ∧ o.conclusion = c) wake)
    (hends : ∀ job o, ends job o → Passes E W .empty job (.finish o))
    (haccompanied : ∀ job o, ends job o → E.graph.Pure E.registry job.node →
      (Next.finish o).Accompanied E W .empty job.node)
    (hright : ∀ job o, ends job o → o.conclusion.answer.Right E job.node) : await.Fits E wake := by
  cases await with
  | timer ms answer => exact h
  | all jobs =>
    obtain ⟨found, hfound, hwake⟩ := h
    refine ⟨found, ?_, fun hcertain => hcertain.even hends haccompanied hfound, hwake⟩
    clear hwake
    induction hfound with
    | nil => trivial
    | cons hc _ ih =>
      obtain ⟨o, ho, rfl⟩ := hc
      exact ⟨hright _ o ho, ih⟩
  | _ => trivial

end Wait

/-! ## Passages -/

/-- **All that a job passes through is sound,** and at a pure node it is what every
job there passes through. The proof is by induction on how the job gets there. -/
theorem Passes.sound (hg : E.graph.validate = .ok ()) (hr : E.registry.Native) {m : Memo} {job : Job}
    {next : Next P} (h : Passes E W m job next) (hm : m.Sound E.graph E.registry) :
    next.Sound E m job.node ∧
      (E.graph.Pure E.registry job.node → next.Accompanied E W m job.node) := by
  induction h with
  | @begin m job world _ =>
    have hgrown : Run.Grown E m ({ memo := m, scope := job.scope, world } : Run P) :=
      Memo.Grows.resetTally .refl
    refine ⟨Run.begin_sound hg hr hm hgrown rfl _, fun hpure scope world' o ho => ⟨_, ?_, ho⟩⟩
    have hsame : Run.Abreast ({ memo := m, scope := job.scope, world } : Run P)
        { memo := m, scope, world := world' } := ⟨.nil, rfl, rfl⟩
    exact hsame.visit hr hpure _ _ _
  | turn _ ih =>
    obtain ⟨hsound, haccompanied⟩ := ih hm
    refine ⟨Run.turn_sound hg hr hm hsound, fun hpure scope world o ho => ?_⟩
    obtain ⟨next', habreast, hnext'⟩ := haccompanied hpure scope world o ho
    cases habreast with
    | resume input hrun =>
      rcases hnext'.cases_head with heq | ⟨later, hlater, hrest⟩
      · cases heq
      · cases hlater
        exact ⟨_, hrun.turn hr hsound hpure, hrest⟩
  | @wake m job r await world wake ends _ _ hends hcomes ih ihends =>
    obtain ⟨⟨hgrown, frame, rest, hitems, ⟨hcertain, hwakes⟩, hawait⟩, haccompanied⟩ := ih hm
    -- the jobs that are waited for have begun with empty memos
    have hall : ∀ job o, ends job o → E.graph.Pure E.registry job.node →
        (Next.finish o).Accompanied E W .empty job.node := fun asked o ho =>
      (ihends asked o ho Memo.sound_empty).2
    have hfits : await.Fits E wake := hcomes.fits hends hall fun asked o ho =>
      (ihends asked o ho Memo.sound_empty).1.2
    refine ⟨Run.wake_sound hgrown hitems world (hwakes wake hfits) hawait,
      fun hpure scope world' o ho => ?_⟩
    obtain ⟨next', habreast, hnext'⟩ := haccompanied hpure scope world' o ho
    cases habreast with
    | wait hrun halike =>
      rcases hnext'.cases_head with heq | ⟨later, hlater, hrest⟩
      · cases heq
      · cases hlater with
        | wake _ hcomes' =>
          have hwake := (hcertain (hawait.pure hpure)).wake_alike halike hall hcomes hcomes'
          exact ⟨_, hrun.wake _ _ hwake, hrest⟩

/-- **What a job at a pure node does is innocent,** if all worlds that it sees
are. -/
theorem Passes.innocent (hg : E.graph.validate = .ok ()) (hr : E.registry.Native)
    (hworlds : ∀ world, W world → world.Innocent E) {m : Memo} {job : Job} {next : Next P}
    (h : Passes E W m job next) (hm : m.Sound E.graph E.registry)
    (hpure : E.graph.Pure E.registry job.node) : next.world.Innocent E := by
  induction h with
  | @begin m job world hworld =>
    exact Run.innocent_visit (r := { memo := m, scope := job.scope, world }) (hworlds _ hworld) hpure
      _ _
  | turn hbefore ih => exact Run.innocent_turn (ih hm hpure) hpure (hbefore.sound hg hr hm).1
  | @wake m job r await world wake _ _ hworld => exact Run.innocent_wake (hworlds _ hworld) r wake

/-! ## Evaluations -/

/-- **An evaluation that ends has let the memo grow,** and an untainted answer is
right for its root. If the root is pure, so is any answer unless there is a limit, and
all that was done is innocent. -/
theorem Engine.evaluate?_sound (hg : E.graph.validate = .ok ()) (hr : E.registry.Native)
    {strict : Prop} (hlimit : strict → E.limits.maxSteps = none) {root : NodeId}
    (hpure : strict → E.graph.Pure E.registry root) {memo : Memo}
    (hm : memo.Sound E.graph E.registry) {fuel : Nat} {scope : Scope} {shared : P.Shared}
    {o : Outcome P} (ho : E.evaluate? fuel root memo scope shared = some o) :
    memo.Grows E.graph E.registry o.run.memo ∧
      (strict ∨ o.tainted = false → ∀ s, E.graph.evaluate E.registry root s = ⟨o.result, o.tainted⟩) ∧
      (strict → o.run.world.Innocent E) := by
  have hmemo : ∀ id, (Schedule.memoOf memo id).Sound E.graph E.registry :=
    Schedule.memoOf_of memo hm Memo.sound_empty
  have hclosed : Schedule.Closed E (fun job => strict → E.graph.Pure E.registry job.node)
      (fun world => strict → world.Innocent E) memo := by
    refine ⟨fun hok hpasses asked hasked hs => ?_, fun hok hpasses hs => ?_, fun clock hworld => hworld⟩
    · obtain ⟨⟨-, frame, rest, -, ⟨hcertain, -⟩, hawait⟩, -⟩ := hpasses.sound hg hr (hmemo _)
      exact (hcertain (hawait.pure (hok hs))).pure asked hasked
    · exact hpasses.innocent hg hr (fun world hworld => hworld hs) (hmemo _) (hok hs)
  have hworld : World.Innocent E { shared } := nofun
  obtain ⟨hpasses, hinnocent⟩ := Engine.passes_of_evaluate? hclosed hpure (fun _ => hworld) ho
  obtain ⟨hgrown, hright⟩ := (hpasses.sound hg hr hm).1
  refine ⟨hgrown.memo, fun hstrict => ?_, hinnocent⟩
  rcases hstrict with hs | huntainted
  · exact (hright (.inr (hpure hs))).resolve_left (Answer.not_cut_of_unlimited (hlimit hs))
  · exact hright.of_untainted huntainted

end ProgramGraph
