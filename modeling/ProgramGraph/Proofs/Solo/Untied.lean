import ProgramGraph.Proofs.Solo.Mimic
import ProgramGraph.Proofs.Total.Node
/-!
# Evaluations without ties come to something by themselves

In a valid graph no run goes on for ever, whatever comes of its waits. So if no wait
in an evaluation hangs on which of two things comes first, the evaluation comes to a
report by itself, within any limit on its steps (`Next.Untied.exists_solo`).

The fates of the jobs of a wait have to be the same in all worlds for this, and they
are: an engine mimics itself in any other world.
-/

namespace ProgramGraph

open Relation

variable {P : Plugins} {E E' : Engine P} {R : Pairing} {id : NodeId}

/-! ## The world plays no part -/

/-- Engines with the same node and the same handlers deal with it alike. -/
theorem Engine.concurs_of_get? (hr : E.registry.Native) (hreg : E'.registry = E.registry)
    (hnode : E'.graph.get? id = E.graph.get? id)
    (hR : ∀ task volatile, E.Starts id task volatile → R id task task) : E.Concurs E' R id := by
  have hrefuses : ∀ {error volatile}, E.Refuses id error volatile → E'.Refuses id error volatile := by
    intro error volatile h
    simpa only [Engine.Refuses, hreg, hnode] using h
  cases hrole : E.graph.role E.registry id with
  | absent =>
    have hnone : E.graph.get? id = none := Graph.plays_of_role hrole
    exact .absent hnone (hnode.trans hnone)
  | param p =>
    obtain ⟨node, hget, hparam⟩ := Graph.plays_of_role hrole
    exact .param hget (hnode.trans hget) hparam hparam
  | refused error volatile =>
    obtain ⟨node, hget, hparam, ⟨hmissing, rfl⟩ | ⟨entry, hentry, hplan, rfl⟩⟩ :=
      Graph.plays_of_role hrole
    · have h : E.Refuses id error false := ⟨node, hget, hparam, .inl ⟨hmissing, rfl⟩⟩
      exact .refused h (hrefuses h)
    · obtain ⟨handler, hhandler, -⟩ := hr.of_get hentry
      have h : E.Refuses id error entry.volatile := ⟨node, hget, hparam,
        .inr ⟨entry, handler, hentry, hhandler, Entry.refuses_of_plan hhandler hplan, rfl⟩⟩
      exact .refused h (hrefuses h)
  | planned plan volatile =>
    obtain ⟨task, hstarts, -⟩ := E.exists_starts hr hrole
    refine .started hstarts ?_ (hR task volatile hstarts)
    simpa only [Engine.Starts, hreg, hnode] using hstarts

/-- Every task goes with itself, if some things are known of it. -/
def Pairing.knowing (known : NodeId → Builtin.Task → Prop) : Pairing :=
  fun id task task' => task' = task ∧ known id task

/-- **An engine upholds what is known** of its tasks. -/
abbrev Engine.Upholds (E : Engine P) (known : NodeId → Builtin.Task → Prop) : Prop :=
  E.Mimics E (.knowing known) (fun _ => True) (fun _ _ _ => none) fun _ _ => True

/-- It does if it is known of tasks that are started, and tasks stay so. -/
theorem Engine.upholds_of_starts (hr : E.registry.Native) {known : NodeId → Builtin.Task → Prop}
    (hstarts : ∀ id task volatile, E.Starts id task volatile → known id task)
    (hresume : ∀ id task s input, known id task → known id (task.resume ⟨id, s⟩ input).2) :
    E.Upholds known where
  limits := rfl
  concurs id := Engine.concurs_of_get? hr rfl rfl fun task volatile h => ⟨rfl, hstarts _ _ _ h⟩
  resume := by
    rintro id _ task s input ⟨rfl, hknown⟩
    exact ⟨⟨rfl, hresume id task s input hknown⟩, fun _ _ => ⟨rfl, fun _ => trivial⟩⟩

/-- **Runs that are equally far** and have the same tasks, of which some things are known. -/
abbrev Next.Same (E : Engine P) (known : NodeId → Builtin.Task → Prop) (next next' : Next P) : Prop :=
  next.Like (.knowing known) (fun _ => True) E E none next'

/-- Nothing is known of any task. -/
theorem Engine.upholds_true (hr : E.registry.Native) : E.Upholds fun _ _ => True :=
  upholds_of_starts hr (fun _ _ _ _ => trivial) fun _ _ _ _ _ => trivial

/-- An evaluation begins alike in all worlds. -/
theorem Engine.Upholds.same_begin {known : NodeId → Builtin.Task → Prop} (h : E.Upholds known)
    (root : NodeId) (memo : Memo) (scope : Scope) (world world' : World P) :
    (Run.begin E { memo, scope, world } root).Same E known
      (Run.begin E { memo, scope, world := world' } root) :=
  Run.like_begin h.concurs root memo scope world world'

/-- **Runs that are equally far take their turns alike.** -/
theorem Engine.Upholds.turn {known : NodeId → Builtin.Task → Prop} (h : E.Upholds known)
    {r r' : Run P} (hlike : r.Like (.knowing known) r') (input : Input) :
    (r.turn E input).Same E known (r'.turn E input) := by
  obtain ⟨await?, hnone | ⟨id, s, hnone⟩, hturn⟩ :=
    Engine.Mimics.turn h r input (fun _ _ _ _ => trivial) fun _ _ _ _ => trivial
  all_goals
    subst hnone
    exact hturn r' hlike

/-- **The world plays no part** in what becomes of a run. -/
theorem Solo.congr (hr : E.registry.Native) {next : Next P} {e : Report} {d n : Nat}
    (h : Solo E next e d n) :
    ∃ n', ∀ next', next.Same E (fun _ _ => True) next' → Solo E next' e d n' :=
  h.mimic (Engine.upholds_true hr) (fun _ _ _ => trivial) none

/-! ## Without ties -/

/-- Jobs can be given numbers. -/
theorem Await.exists_ids (await : Await) :
    ∃ (ids : List JobId) (asked : JobId → Job), ids.map asked = await.jobs := by
  refine ⟨List.range await.jobs.length, fun i => await.jobs.getD i ⟨⟨0⟩, .empty⟩, ?_⟩
  refine List.ext_getElem (by simp) fun i hi hi' => ?_
  simp [hi']

/-- What comes of a wait, told from how its jobs end, can come of it anyhow. -/
theorem Await.Resolves.comes {await : Await} {fates : List (Conclusion × Nat)} {wake : Wake}
    {delay : Nat} (h : await.Resolves fates wake delay)
    (hfates : fates.length = await.jobs.length) {ids : List JobId}
    (hids : ids.length = await.jobs.length) (now : Nat) :
    (await.toWait now ids).Comes anyhow wake := by
  cases await with
  | timer ms answer => exact h.1
  | job job =>
    obtain ⟨fate, -, hwake, -⟩ := h
    exact ⟨fate.1, trivial, hwake⟩
  | all jobs =>
    refine ⟨fates.map Prod.fst, ?_, h.1⟩
    rw [List.forall₂_iff_get]
    refine ⟨?_, fun _ _ _ => trivial⟩
    rw [List.length_map, hids, hfates]
  | first job others =>
    obtain ⟨fate, -, hwake, -⟩ := h
    obtain ⟨id, hid⟩ : ∃ id, id ∈ ids := List.exists_mem_of_length_pos (by
      rw [hids]
      exact Nat.succ_pos _)
    exact ⟨id, hid, fate.1, trivial, hwake⟩
  | deadline ms job =>
    obtain ⟨fate, -, ⟨-, hwake, -⟩ | ⟨-, hwake, -⟩⟩ := h
    · exact .inr ⟨fate.1, trivial, hwake⟩
    · exact .inl hwake

namespace Next

variable {next next' : Next P}

/-- What an evaluation brings makes less work than what brings it. -/
theorem Brings.less (h : next.Brings E next') :
    TransGen (Item.Less E) (.going next') (.going next) := by
  cases h with
  | turn r input => exact .single (.turn r input)
  | @job r await job world hmem => exact .head (.begin job world) (.single (.plan r hmem))
  | @wake r await fates wake delay world hfates hres =>
    -- what has come of the wait was to be expected of it
    obtain ⟨ids, asked, hids⟩ := await.exists_ids
    have hlength : ids.length = await.jobs.length := by rw [← hids, List.length_map]
    have hcomes := hres.comes (by rw [List.length_map, hfates.length_eq]) hlength 0
    exact .head (.wake r world hcomes) (.single (.suspend r 0 hids))

/-- What cannot go on for ever brings nothing that can. -/
theorem Ceases.of_brings (h : next.Ceases E) (hbrings : next.Brings E next') : next'.Ceases E :=
  acc_transGen_iff.1 ((acc_transGen_iff.2 h).inv hbrings.less)

/-- **What is known of the tasks** is known of those of whatever comes next. -/
theorem Same.of_brings {known : NodeId → Builtin.Task → Prop} (hknown : E.Upholds known)
    (h : next.Same E known next) (hbrings : next.Brings E next') : next'.Same E known next' := by
  cases hbrings with
  | turn r input =>
    cases h with
    | resume _ hlike _ => exact hknown.turn hlike input
  | job world hmem => exact hknown.same_begin _ _ _ _ _
  | wake world hfates hres =>
    cases h with
    | wait _ hlike _ => exact hlike.wake _ _ fun _ _ _ _ => trivial

/-- So it is of everything that an evaluation involves. -/
theorem Same.of_involves {known : NodeId → Builtin.Task → Prop} (hknown : E.Upholds known)
    (h : next.Same E known next) (hinvolves : next.Involves E next') : next'.Same E known next' := by
  induction hinvolves with
  | refl => exact h
  | tail _ hbrings ih => exact ih.of_brings hknown hbrings

/-- **What is known of the tasks** whenever an evaluation resumes one. -/
theorem Involves.like {known : NodeId → Builtin.Task → Prop} (hknown : E.Upholds known)
    {root : NodeId} {memo : Memo} {scope : Scope} {world : World P} {r : Run P} {input : Input}
    (h : (Run.begin E { memo, scope, world } root).Involves E (.resume r input)) :
    r.Like (.knowing known) r := by
  have hsame := Same.of_involves hknown (hknown.same_begin root memo scope world world) h
  cases hsame with
  | resume _ hlike _ => exact hlike

/-- **A run without ties comes to a report by itself** if it cannot go on for ever. -/
theorem Untied.exists_solo (hr : E.registry.Native) (hceases : next.Ceases E)
    (huntied : next.Untied E) (hself : next.Same E (fun _ _ => True) next) : ∃ e d n, Solo E next e d n := by
  have hacc : Acc (TransGen (Item.Less E)) (.going next) := Acc.transGen hceases
  generalize hitem : Item.going next = item at hacc
  induction hacc generalizing next with
  | intro item _ ih =>
  subst hitem
  -- whatever comes next comes to a report
  have hbrings : ∀ next', next.Brings E next' → ∃ e d n, Solo E next' e d n := fun next' h =>
    ih _ h.less (hceases.of_brings h) (huntied.of_brings h) (hself.of_brings (Engine.upholds_true hr) h) rfl
  cases next with
  | finish o => exact ⟨_, _, _, .finish o⟩
  | resume r input =>
    obtain ⟨e, d, n, hsolo⟩ := hbrings _ (.turn r input)
    exact ⟨e, d, n + 1, .resume hsolo⟩
  | wait r await =>
    -- each job has a fate, in one world and so in all of them
    have hjob : ∀ job ∈ await.jobs, ∃ fate, E.Fares job fate := by
      intro job hmem
      obtain ⟨e, d, n, hsolo⟩ := hbrings _ (.job r.world hmem)
      obtain ⟨n', hn'⟩ := hsolo.congr hr
      exact ⟨⟨e, d, n'⟩, fun world => hn' _ ((Engine.upholds_true hr).same_begin
        job.node _ job.scope r.world world)⟩
    obtain ⟨fates, hfates⟩ := exists_forall₂ hjob
    obtain ⟨wake, delay, hres⟩ := huntied r await fates .refl hfates
    obtain ⟨e, d, n, hsolo⟩ := hbrings _ (.wake r.world hfates hres)
    obtain ⟨n', hn'⟩ := hsolo.congr hr
    refine ⟨e, delay + d, Fate.workOf fates + n', .of_fares hfates hres fun world => hn' _ ?_⟩
    cases hself with
    | wait _ hlike _ => exact hlike.wake r.world world fun _ _ _ _ => trivial

end Next

end ProgramGraph
