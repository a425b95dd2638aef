import ProgramGraph.Proofs.Passage.Wait
import ProgramGraph.Engine.Schedule
/-!
# What is left to do

What a fold has left to do is a number of items: a run that is going on, a job
that has not begun, a run that is put aside until its wait is over. Whenever the
fold attends to one of them, finitely many others take its place, each of which
comes after it in the order `Item.Less`. So a fold goes on for ever only if some
item can be followed for ever. An item that cannot is accessible, and this module
says what it takes for each kind of item.

What comes of a wait is left open as far as it can be: any of its jobs may have
ended in any way, so no step limit, tie or memo plays a part.
-/

namespace ProgramGraph

variable {P : Plugins}

/-- Something that is left to do. -/
inductive Item (P : Plugins)
  /-- A run that is going on. -/
  | going (next : Next P)
  /-- A job that has not begun. -/
  | planned (job : Job)
  /-- A run that waits. -/
  | aside (run : Run P) (wait : Wait)

/-- The jobs of a wait may end in any way. -/
def anyhow {α : Type} : α → Conclusion → Prop := fun _ _ => True

namespace Item

/-- **What takes the place of an item** when it has been attended to. -/
inductive Less (E : Engine P) : Item P → Item P → Prop
  /-- A run takes a turn. -/
  | turn (r : Run P) (input : Input) : Less E (.going (r.turn E input)) (.going (.resume r input))
  /-- A run plans the jobs that it waits for. -/
  | plan (r : Run P) {await : Await} {job : Job} : job ∈ await.jobs →
    Less E (.planned job) (.going (.wait r await))
  /-- A run is put aside. -/
  | suspend (r : Run P) {await : Await} (now : Nat) {ids : List JobId} {asked : JobId → Job} :
    ids.map asked = await.jobs → Less E (.aside r (await.toWait now ids)) (.going (.wait r await))
  /-- Some of the jobs that are waited for have settled. -/
  | look (r : Run P) {wait wait' : Wait} {conclusion? : JobId → Option Conclusion} {now : Nat} :
    wait.Left conclusion? now wait' → wait'.ids.length < wait.ids.length →
    Less E (.aside r wait') (.aside r wait)
  /-- A wait is over. -/
  | wake (r : Run P) {wait : Wait} (world : World P) {wake : Wake} : wait.Comes anyhow wake →
    Less E (.going (r.wake world wake)) (.aside r wait)
  /-- A job begins. -/
  | begin (job : Job) (world : World P) :
    Less E (.going (Run.begin E { scope := job.scope, world } job.node)) (.planned job)

end Item

/-- **The run cannot go on for ever.** -/
def Next.Ceases (E : Engine P) (next : Next P) : Prop := Acc (Item.Less E) (.going next)

variable {E : Engine P}

/-- A run that has ended. -/
theorem Next.ceases_finish (o : Outcome P) : Ceases E (.finish o) := by
  refine ⟨_, fun item hless => ?_⟩
  cases hless

/-- A run that takes a turn. -/
theorem Next.ceases_resume {r : Run P} {input : Input} (h : Ceases E (r.turn E input)) :
    Ceases E (.resume r input) := by
  refine ⟨_, fun item hless => ?_⟩
  cases hless with
  | turn => exact h

/-- A job that has not begun. -/
theorem Item.acc_planned {job : Job}
    (h : ∀ world : World P, Next.Ceases E (Run.begin E { scope := job.scope, world } job.node)) :
    Acc (Item.Less E) (.planned job) := by
  refine ⟨_, fun item hless => ?_⟩
  cases hless with
  | begin _ world => exact h world

/-- **A run that has been put aside,** by induction on the number of jobs that are
still waited for. -/
theorem Item.acc_aside {r : Run P} {wait : Wait}
    (h : ∀ world wake, wait.Comes anyhow wake → Next.Ceases E (r.wake world wake)) :
    Acc (Item.Less E) (.aside r wait) := by
  induction hn : wait.ids.length using Nat.strongRecOn generalizing wait with
  | _ n ih =>
    refine ⟨_, fun item hless => ?_⟩
    cases hless with
    | look _ hleft hlt =>
      refine ih _ (hn ▸ hlt) (fun world wake hwake => h world wake ?_) rfl
      exact hleft.comes (fun _ _ _ => trivial) hwake
    | wake _ world hwake => exact h world _ hwake

/-- **A run that waits.** -/
theorem Next.ceases_wait {r : Run P} {await : Await}
    (hjobs : ∀ job ∈ await.jobs, Acc (Item.Less E) (.planned job))
    (hwake : ∀ world wake, await.Comes anyhow wake → Ceases E (r.wake world wake)) :
    Ceases E (.wait r await) := by
  refine ⟨_, fun item hless => ?_⟩
  cases hless with
  | plan _ hjob => exact hjobs _ hjob
  | suspend _ now hids =>
    exact Item.acc_aside fun world wake hcomes => hwake world wake (Await.comes_of_toWait hids hcomes)

end ProgramGraph
