import Mathlib.Algebra.BigOperators.Group.Finset.Basic
import Mathlib.Algebra.Order.BigOperators.Group.Finset
import Mathlib.Logic.Hydra
import ProgramGraph.Proofs.Passage.Track
import ProgramGraph.Proofs.Total.Item
/-!
# The load of a schedule

A schedule carries a number of items, one for each job that has not settled and
none for one that has (`Schedule.load`). A step that attends to an item puts
finitely many lesser ones in its place, and any other step takes an entry off the
agenda. If no item can be followed for ever, neither can the schedule: cutting down
items in this way comes to an end, whatever grows in their place, as long as it is
lesser (`Relation.CutExpand`).
-/

namespace ProgramGraph

open Relation

variable {P : Plugins} {E : Engine P}

namespace Item

/-- One item comes some time after another that cannot be followed for ever. -/
def Below (E : Engine P) (a b : Item P) : Prop := TransGen (Less E) a b ∧ Acc (Less E) b

/-- Nothing that comes later can be followed for ever either. -/
theorem Below.acc {a b : Item P} (h : Below E a b) : Acc (Less E) a := by
  have htrans : Acc (TransGen (Less E)) a := h.2.transGen.inv h.1
  exact Subrelation.accessible TransGen.single htrans

theorem wellFounded_below (E : Engine P) : WellFounded (Below E) := by
  refine ⟨fun a => ⟨a, fun b hb => ?_⟩⟩
  have hacc : Acc (TransGen (Less E)) b := hb.2.transGen.inv hb.1
  clear hb
  induction hacc with
  | intro b _ ih => exact ⟨b, fun c hc => ih c hc.1⟩

end Item

/-- The item that a job at a stage makes, if it makes any. -/
def Stage.items : Stage P → Multiset (Item P)
  | planned job => {.planned job}
  | active => 0
  | waiting run wait _ => {.aside run wait}
  | settled _ => 0

@[simp]
theorem Stage.items_active : (Stage.active : Stage P).items = 0 := rfl

@[simp]
theorem Stage.items_settled (c : Conclusion) : (Stage.settled c : Stage P).items = 0 := rfl

/-- The item that is attended to, if any is. -/
def Focus.items : Focus P → Multiset (Item P)
  | job _ next => {.going next}
  | agenda _ => 0

namespace Schedule

/-- The items of jobs that are not attended to. -/
def pending (s : Schedule P) : Multiset (Item P) :=
  ∑ id ∈ Finset.range s.jobs.size, (s.stage? id).elim 0 Stage.items

/-- **All that is left to do.** -/
def load (s : Schedule P) : Multiset (Item P) := s.pending + s.focus.items

variable {s s' : Schedule P} {id : JobId}

/-- **A job at another stage** makes another item. -/
theorem pending_setStage {old : Stage P} (hold : s.stage? id = some old) (stage : Stage P) :
    (s.setStage id stage).pending + old.items = s.pending + stage.items := by
  have hmem : id ∈ Finset.range s.jobs.size := Finset.mem_range.2 (lt_size_of_stage? hold)
  unfold pending
  rw [size_setStage, ← Finset.add_sum_erase _ _ hmem, ← Finset.add_sum_erase _ _ hmem,
    stage?_setStage_self stage (lt_size_of_stage? hold), hold]
  have hrest : ∑ j ∈ (Finset.range s.jobs.size).erase id, ((s.setStage id stage).stage? j).elim 0 Stage.items =
      ∑ j ∈ (Finset.range s.jobs.size).erase id, (s.stage? j).elim 0 Stage.items :=
    Finset.sum_congr rfl fun j hj => by rw [stage?_setStage_of_ne stage (Finset.ne_of_mem_erase hj)]
  rw [hrest]
  simp only [Option.elim_some]
  rw [add_right_comm, add_comm stage.items, add_right_comm, add_comm old.items]

/-- A job that is planned makes an item. -/
theorem pending_planAll (s : Schedule P) (now : Nat) (parent : JobId) (jobs : List Job) :
    (s.planAll now parent jobs).2.pending = s.pending + Multiset.ofList (jobs.map Item.planned) := by
  induction jobs generalizing s with
  | nil => simp [planAll]
  | cons job jobs ih =>
    have hplan : (s.plan now parent job).2.pending = s.pending + {.planned job} := by
      unfold pending
      rw [size_plan, Finset.sum_range_succ, stage?_plan, if_pos rfl]
      congr 1
      refine Finset.sum_congr rfl fun j hj => ?_
      rw [stage?_plan, if_neg (Nat.ne_of_lt (Finset.mem_range.1 hj))]
    rw [planAll_cons, ih, hplan, List.map_cons, add_assoc, Multiset.singleton_add, Multiset.cons_coe]

/-- **What a step does to the load,** if it comes to another schedule: one item
makes room for lesser ones, or there is an entry less on the agenda. -/
def Lightens (E : Engine P) (s' s : Schedule P) : Prop :=
  CutExpand (Item.Below E) s'.load s.load ∨ s'.load = s.load ∧ s'.agenda.size < s.agenda.size

/-- One item makes room for others. -/
theorem Lightens.of_replace {rest new : Multiset (Item P)} {a : Item P}
    (hacc : ∀ a ∈ s.load, Acc (Item.Less E) a) (hload : s.load = rest + {a})
    (hload' : s'.load = rest + new) (hless : ∀ b ∈ new, TransGen (Item.Less E) b a) :
    Lightens E s' s := by
  have hmem : a ∈ s.load := by
    rw [hload]
    exact Multiset.mem_add.2 (.inr (Multiset.mem_singleton_self _))
  refine .inl ⟨new, a, fun b hb => ⟨hless b hb, hacc a hmem⟩, ?_⟩
  rw [hload, hload', add_right_comm]

/-- One item makes room for the one that comes after it. -/
theorem Lightens.of_next {rest : Multiset (Item P)} {a b : Item P}
    (hacc : ∀ a ∈ s.load, Acc (Item.Less E) a) (hload : s.load = rest + {a})
    (hload' : s'.load = rest + {b}) (hless : Item.Less E b a) : Lightens E s' s := by
  refine .of_replace hacc hload hload' fun c hc => ?_
  rw [Multiset.mem_singleton.1 hc]
  exact .single hless

/-- What is left to do cannot be followed for ever if what was left could not. -/
theorem Lightens.acc (h : Lightens E s' s) (hacc : ∀ a ∈ s.load, Acc (Item.Less E) a) :
    ∀ a ∈ s'.load, Acc (Item.Less E) a := by
  rcases h with ⟨new, a, hless, heq⟩ | ⟨heq, -⟩
  · intro b hb
    have hmem : b ∈ s.load + new := heq ▸ Multiset.mem_add.2 (.inl hb)
    rcases Multiset.mem_add.1 hmem with hb | hb
    · exact hacc b hb
    · exact (hless b hb).acc
  · rw [heq]
    exact hacc

/-- **No schedule lightens for ever.** -/
theorem wellFounded_lightens (E : Engine P) : WellFounded (Lightens E) := by
  have hload : WellFounded (CutExpand (Item.Below E)) := (Item.wellFounded_below E).cutExpand
  have hlex := WellFounded.prod_lex hload (wellFounded_lt (α := Nat))
  refine Subrelation.wf (fun {s' s} h => ?_) (InvImage.wf (fun s : Schedule P => (s.load, s.agenda.size)) hlex)
  rcases h with hcut | ⟨heq, hlt⟩
  · exact Prod.Lex.left _ _ hcut
  · show Prod.Lex _ _ (s'.load, s'.agenda.size) (s.load, s.agenda.size)
    rw [heq]
    exact Prod.Lex.right _ hlt

/-! ## Steps -/

/-- **A run that has to wait** makes room for its jobs and for what is left of its
wait. -/
theorem lightens_suspend {run : Run P} {await : Await} (hissued : s.agenda.Issued)
    (hactive : s.stage? id = some .active) (hfocus : s.focus = .job id (.wait run await))
    (hacc : ∀ a ∈ s.load, Acc (Item.Less E) a) : Lightens E (s.suspend id run await) s := by
  have hload : s.load = s.pending + {.going (.wait run await)} := by rw [load, hfocus]; rfl
  let jobs : Multiset (Item P) := Multiset.ofList (await.jobs.map Item.planned)
  -- jobs that are planned come after the run that plans them
  have hjobs : ∀ b ∈ jobs, TransGen (Item.Less E) b (.going (.wait run await)) := by
    intro b hb
    obtain ⟨job, hjob, rfl⟩ := List.mem_map.1 (Multiset.mem_coe.1 hb)
    exact .single (.plan run hjob)
  have hreplace : ∀ {s' : Schedule P} {a : Item P}, s'.load = s.pending + jobs + {a} →
      TransGen (Item.Less E) a (.going (.wait run await)) → Lightens E s' s := by
    intro s' a hload' ha
    refine .of_replace hacc hload (hload'.trans (add_assoc _ _ _)) fun b hb => ?_
    rcases Multiset.mem_add.1 hb with hb | hb
    · exact hjobs b hb
    · rw [Multiset.mem_singleton.1 hb]
      exact ha
  obtain ⟨asked, -, hmap, ⟨hspares, -⟩, -⟩ :=
    exists_planned hissued run.world.clock id (fun _ => ⟨⟨0⟩, .empty⟩) await.jobs
  have hplanned := s.pending_planAll run.world.clock id await.jobs
  have hsuspends := s.suspends id run await
  have hactive' := (hspares (id + 1)).stage id (lt_size_of_stage? hactive)
    (Nat.ne_of_lt (Nat.lt_succ_self id))
  rw [hactive] at hactive'
  generalize (s.planAll run.world.clock id await.jobs).1 = ids at hmap hsuspends
  generalize (s.planAll run.world.clock id await.jobs).2 = t at hplanned hsuspends hactive'
  generalize s.suspend id run await = s' at hsuspends ⊢
  have haside : Item.Less E (.aside run (await.toWait run.world.clock ids)) (.going (.wait run await)) :=
    .suspend run _ hmap
  cases hsuspends with
  | @ends wake hlook =>
    have hwake : (await.toWait run.world.clock ids).Comes anyhow wake :=
      Wait.comes_of_look (fun _ _ _ => trivial) hlook
    refine hreplace (a := .going (run.wake run.world wake)) ?_
      (.head (.wake run _ hwake) (.single haside))
    exact congrArg (· + _) hplanned
  | @waits wait' hlook =>
    have hleft := Wait.left_of_look hlook
    have hset := pending_setStage hactive' (.waiting run wait' (wait'.alarm id t.agenda).1)
    refine hreplace (a := .aside run wait') ?_ ?_
    · rw [← hplanned]
      exact hset
    · rcases hleft.same_or_lt with rfl | hlt
      · exact .single haside
      · exact .head (.look run hleft hlt) (.single haside)

/-- **A job that settles** is done with. -/
theorem lightens_settle {o : Outcome P} (hactive : s.stage? id = some .active)
    (hfocus : s.focus = .job id (.finish o)) (hacc : ∀ a ∈ s.load, Acc (Item.Less E) a) :
    Lightens E (s.settle id o) s := by
  have hload : s.load = s.pending + {.going (.finish o)} := by rw [load, hfocus]; rfl
  have hset : (s.setStage id (.settled o.conclusion)).pending = s.pending := by
    simpa using pending_setStage hactive (.settled o.conclusion)
  have hload' : (s.settle id o).load = s.pending + 0 := congrArg (· + 0) hset
  exact .of_replace hacc hload hload' nofun

/-- **The next job of the agenda.** If there is nothing new for it, there is an
entry less. -/
theorem lightens_proceed {world : World P} (hfocus : s.focus = .agenda world)
    (hacc : ∀ a ∈ s.load, Acc (Item.Less E) a) (hstep : s.proceed E world = .going s') :
    Lightens E s' s := by
  have hload : s.load = s.pending := by rw [load, hfocus]; exact add_zero _
  obtain ⟨place, id, hnext, hproceeds⟩ := exists_proceeds hstep
  have hsize : (s.agenda.remove place).size < s.agenda.size :=
    Agenda.size_remove_lt (Agenda.next?_eq_some hnext).1
  cases hproceeds with
  | @begins job hstage =>
    have hset := pending_setStage (s := { s with agenda := s.agenda.remove place }) hstage .active
    rw [Stage.items_active, add_zero] at hset
    exact .of_next hacc (hload.trans hset.symm) rfl (.begin job _)
  | @looks run wait alarm hstage =>
    have hset := pending_setStage (s := { s with agenda := s.agenda.remove place }) hstage .active
    rw [Stage.items_active, add_zero] at hset
    have hactive := stage?_setStage_self (s := { s with agenda := s.agenda.remove place }) .active
      (lt_size_of_stage? hstage)
    have hload' := hload.trans hset.symm
    unfold Schedule.attend
    split
    next wake hlook =>
      have hwake : wait.Comes anyhow wake := Wait.comes_of_look (fun _ _ _ => trivial) hlook
      exact .of_next hacc hload' rfl (.wake run _ hwake)
    next wait' hlook =>
      have hleft := Wait.left_of_look hlook
      have haside := pending_setStage hactive (.waiting run wait' alarm)
      rcases hleft.same_or_lt with rfl | hlt
      · exact .inr ⟨haside.trans hload'.symm, hsize⟩
      · exact .of_next hacc hload' haside (.look run hleft hlt)
  | skips _ _ => exact .inr ⟨hload.symm ▸ add_zero _, hsize⟩

variable {Ok : Job → Prop} {W : World P → Prop} {m : Memo} {asked : JobId → Job}

/-- **Every step lightens a schedule** that keeps track of its jobs. -/
theorem TracksFocus.lightens (h : TracksFocus E Ok W m asked s s.focus)
    (hacc : ∀ a ∈ s.load, Acc (Item.Less E) a) (hstep : s.step E = .going s') : Lightens E s' s := by
  cases steps hstep with
  | @resumes id run input hfocus =>
    have hload : s.load = s.pending + {.going (.resume run input)} := by rw [load, hfocus]; rfl
    exact .of_next hacc hload rfl (.turn run input)
  | suspends hfocus =>
    rw [hfocus] at h
    obtain ⟨htracks, hactive, -⟩ := h
    exact lightens_suspend htracks.issued hactive hfocus hacc
  | settles hfocus _ =>
    rw [hfocus] at h
    obtain ⟨-, hactive, -⟩ := h
    exact lightens_settle hactive hfocus hacc
  | proceeds hfocus hproceed => exact lightens_proceed hfocus hacc hproceed

/-- **A schedule comes to an end** if none of its items can be followed for ever. -/
theorem TracksFocus.exists_follow (hclosed : Closed E Ok W m)
    (h : TracksFocus E Ok W m asked s s.focus) (hacc : ∀ a ∈ s.load, Acc (Item.Less E) a) :
    ∃ fuel o, s.follow E fuel = some o := by
  induction s using (wellFounded_lightens E).induction generalizing asked with
  | _ s ih =>
  rcases h.step hclosed with ⟨s', asked', hstep, -, hs'⟩ | ⟨o, hstep, -⟩
  · have hlightens := h.lightens hacc hstep
    obtain ⟨fuel, o, ho⟩ := ih s' hlightens hs' (hlightens.acc hacc)
    exact ⟨fuel + 1, o, by rw [Schedule.follow, hstep]; exact ho⟩
  · exact ⟨1, o, by rw [Schedule.follow, hstep]⟩

end Schedule

end ProgramGraph
