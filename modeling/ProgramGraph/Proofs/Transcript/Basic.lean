import ProgramGraph.Proofs.Passage.Basic
import ProgramGraph.Proofs.Passage.Wait
import ProgramGraph.Proofs.Schedule.Suspend
/-!
# Transcripts

A task and the engine take turns in speaking: the task asks for something, and hears what
has come of it, until it ends. A transcript puts down what is said, by which frame and
when. `Next.Talks` tells what is said while a run gets from one point to another, and what
comes of its waits there is what does come of them: a time that is waited for takes as long
as it says, and jobs take as long as they do by themselves, all of some jobs as long as the
longest of them (`Await.Takes`).

Nothing is assumed of the graph, of the tasks, or of what comes first where two things
happen at one time.
-/

namespace ProgramGraph

variable {P : Plugins}

/-- **What is said** between a task and the engine. -/
inductive Utterance
  /-- The task asks for something, under the scope at hand. -/
  | asks (scope : Scope) (request : Request)
  /-- The task is given the answer to a request for a node. -/
  | hears (answer : Answer)
  /-- What the task has waited for has come. -/
  | wakes (wake : Wake)
  /-- The task ends, and its node comes to this. -/
  | ends (answer : Answer)

/-- Something that has been said. -/
structure Remark where
  /-- Which frame it is about, counted from below. Number 0 is whoever has asked for the
  run. -/
  height : Nat
  /-- The time. -/
  clock : Nat
  said : Utterance

/-- What has been said, first things first. -/
abbrev Transcript := List Remark

/-- **What is said at one height,** and when. -/
def Transcript.at (log : Transcript) (height : Nat) : List (Nat × Utterance) :=
  log.filterMap fun remark =>
    if remark.height = height then some (remark.clock, remark.said) else none

/-! ## What is said in a turn -/

/-- The answer without a frame, if there is one. -/
def Run.Arrival.answer? : Run.Arrival → Option Answer
  | pushed => none
  | ready a => some a

namespace Run

/-- The answer that a request gets at once, if it does. -/
def heard? (E : Engine P) (r : Run P) : Request → Option Answer
  | .child id => (r.arrive E id r.scope.depth false).2.answer?
  | .under id bindings =>
    (arrive E { r with scope := r.scope.push bindings } id r.scope.depth false).2.answer?
  | .fresh id => (r.arrive E id r.scope.depth true).2.answer?
  | .await _ => none

/-- A frame ends, and whoever has asked for its node hears of it. -/
def closing (height clock : Nat) (a : Answer) : Transcript :=
  [⟨height, clock, .ends a⟩, ⟨height - 1, clock, .hears a⟩]

/-- What is said when the task of the top frame has done a step. -/
def report (E : Engine P) (r : Run P) (height : Nat) (scope : Scope) : Step → Transcript
  | .done value => closing height r.world.clock (r.succeed value).2
  | .fail error => closing height r.world.clock (r.fail error).2
  | .request request => ⟨height, r.world.clock, .asks scope request⟩ ::
    (r.heard? E request).toList.map fun a => ⟨height, r.world.clock, .hears a⟩

/-- **What is said in a turn.** Beyond the limit nothing is. -/
def remarks (E : Engine P) (r : Run P) (input : Input) : Transcript :=
  match r.countTurn.exceeded? E.limits with
  | some _ => []
  | none => (r.countTurn.resumeFrame input).1.report E r.frames.size r.scope
      (r.countTurn.resumeFrame input).2

end Run

/-! ## What comes of waits -/

/-- **What comes of a wait, and when,** given how jobs that begin at some time may end. -/
def Await.Takes (lasts : Job → Nat → Conclusion → Nat → Prop) (now : Nat) :
    Await → Wake → Nat → Prop
  | timer ms answer, wake, time => wake = answer ∧ time = Wait.dueAfter now ms
  | job asked, wake, time => ∃ c, lasts asked now c time ∧ wake = .settled c
  | all asked, wake, time => ∃ found : List (Conclusion × Nat),
      List.Forall₂ (fun job found => lasts job now found.1 found.2) asked found ∧
      wake = .settled (.gather (found.map Prod.fst)) ∧ time = (found.map Prod.snd).foldl max now
  | first asked others, wake, time =>
    ∃ job ∈ asked :: others, ∃ c, lasts job now c time ∧ wake = .settled c
  | deadline ms asked, wake, time => (wake = .elapsed ∧ time = Wait.dueAfter now ms) ∨
      ∃ c, lasts asked now c time ∧ wake = .settled c

/-- **The run gets from one point to another,** while it has `n` frames at least, and this
is what is said. A wait takes what it takes, and the world may be any other after it. -/
inductive Next.Talks (E : Engine P) : Nat → Next P → Transcript → Next P → Prop
  | refl (n : Nat) (x : Next P) : Talks E n x [] x
  | turn {n : Nat} {r : Run P} {input : Input} {log : Transcript} {y : Next P} : n ≤ r.frames.size →
    Talks E n (r.turn E input) log y → Talks E n (.resume r input) (r.remarks E input ++ log) y
  | wake {n : Nat} {r : Run P} {await : Await} {world : World P} {wake : Wake} {log : Transcript}
    {y : Next P} {ends : Job → World P → Transcript → Outcome P → Prop} : n ≤ r.frames.size →
    (∀ job world said o, ends job world said o →
      Talks E 0 (Run.begin E { scope := job.scope, world } job.node) said (.finish o)) →
    await.Takes (fun job now c time => ∃ world said o, ends job world said o ∧
      world.clock = now ∧ o.conclusion = c ∧ o.run.world.clock = time)
      r.world.clock wake world.clock →
    Talks E n (r.wake world wake) log y →
    Talks E n (.wait r await) (⟨r.frames.size, world.clock, .wakes wake⟩ :: log) y

/-- **A job that begins at some time ends at another,** and this is how it ends. -/
def Job.Lasts (E : Engine P) (job : Job) (now : Nat) (c : Conclusion) (time : Nat) : Prop :=
  ∃ (world : World P) (said : Transcript) (o : Outcome P),
    Next.Talks E 0 (Run.begin E { scope := job.scope, world } job.node) said (.finish o) ∧
      world.clock = now ∧ o.conclusion = c ∧ o.run.world.clock = time

namespace Await

variable {lasts lasts' : Job → Nat → Conclusion → Nat → Prop} {now time : Nat} {await : Await}
  {wake : Wake}

/-- More may come of a wait, if its jobs may end in more ways. -/
theorem Takes.mono (h : await.Takes lasts now wake time)
    (hlasts : ∀ job c time, lasts job now c time → lasts' job now c time) :
    await.Takes lasts' now wake time := by
  cases await with
  | timer ms answer => exact h
  | job asked =>
    obtain ⟨c, hc, hwake⟩ := h
    exact ⟨c, hlasts _ _ _ hc, hwake⟩
  | all asked =>
    obtain ⟨found, hfound, hwake⟩ := h
    exact ⟨found, hfound.imp fun _ _ => hlasts _ _ _, hwake⟩
  | first asked others =>
    obtain ⟨job, hjob, c, hc, hwake⟩ := h
    exact ⟨job, hjob, c, hlasts _ _ _ hc, hwake⟩
  | deadline ms asked =>
    refine h.imp_right ?_
    rintro ⟨c, hc, hwake⟩
    exact ⟨c, hlasts _ _ _ hc, hwake⟩

/-- **No wait is over before it begins,** if no job is. -/
theorem Takes.le (h : await.Takes lasts now wake time)
    (hlasts : ∀ job c time, lasts job now c time → now ≤ time) : now ≤ time := by
  have hdue : ∀ ms, now ≤ Wait.dueAfter now ms := fun ms => Nat.le_add_right _ _
  cases await with
  | timer ms answer => exact h.2 ▸ hdue ms
  | job asked =>
    obtain ⟨c, hc, -⟩ := h
    exact hlasts _ _ _ hc
  | all asked =>
    obtain ⟨found, -, -, rfl⟩ := h
    exact (foldl_max_spec _ now).2.1
  | first asked others =>
    obtain ⟨job, -, c, hc, -⟩ := h
    exact hlasts _ _ _ hc
  | deadline ms asked =>
    rcases h with ⟨-, rfl⟩ | ⟨c, hc, -⟩
    · exact hdue ms
    · exact hlasts _ _ _ hc

end Await

namespace Next.Talks

variable {E : Engine P} {n m : Nat} {x y z : Next P} {log log' : Transcript}

/-- A run goes on after a wait. -/
theorem wake_of_lasts {r : Run P} {await : Await} {world : World P} {wake : Wake}
    (hn : n ≤ r.frames.size) (htakes : await.Takes (Job.Lasts E) r.world.clock wake world.clock)
    (h : Talks E n (r.wake world wake) log y) :
    Talks E n (.wait r await) (⟨r.frames.size, world.clock, .wakes wake⟩ :: log) y :=
  .wake hn (fun _ _ _ _ h => h) htakes h

/-- **A run that waits** goes on as the wait comes out. -/
theorem cases_wait {r : Run P} {await : Await} (h : Talks E n (.wait r await) log y) :
    (log = [] ∧ y = .wait r await) ∨ ∃ world wake rest,
      log = ⟨r.frames.size, world.clock, .wakes wake⟩ :: rest ∧ n ≤ r.frames.size ∧
      await.Takes (Job.Lasts E) r.world.clock wake world.clock ∧
      Talks E n (r.wake world wake) rest y := by
  cases h with
  | refl => exact .inl ⟨rfl, rfl⟩
  | wake hn hends htakes h =>
    refine .inr ⟨_, _, _, rfl, hn, htakes.mono ?_, h⟩
    rintro job c time ⟨world, said, o, ho, hclocks⟩
    exact ⟨world, said, o, hends _ _ _ _ ho, hclocks⟩

/-- A run that has ended says nothing more. -/
theorem of_finish {o : Outcome P} (h : Talks E n (.finish o) log y) : log = [] ∧ y = .finish o := by
  cases h
  exact ⟨rfl, rfl⟩

/-- Nor does one that has too few frames. -/
theorem of_lt (h : Talks E n x log y) (hx : x.run.frames.size < n) : log = [] ∧ y = x := by
  cases h with
  | refl => exact ⟨rfl, rfl⟩
  | turn hn => exact absurd hn (Nat.not_le.2 hx)
  | wake hn => exact absurd hn (Nat.not_le.2 hx)

/-- **First one, then the other.** -/
theorem trans (h : Talks E n x log y) (h' : Talks E n y log' z) : Talks E n x (log ++ log') z := by
  induction h with
  | refl n x => exact h'
  | turn hn _ ih =>
    rw [List.append_assoc]
    exact .turn hn (ih h')
  | wake hn hends htakes _ _ ih => exact .wake hn hends htakes (ih h')

/-- **What is said while there are fewer frames** begins with what is said while there are
more. -/
theorem split (h : Talks E m x log y) (hm : m ≤ n) :
    Talks E n x log y ∨ ∃ before after z, log = before ++ after ∧ Talks E n x before z ∧
      z.run.frames.size < n ∧ Talks E m z after y := by
  induction h with
  | refl m x => exact .inl (.refl n x)
  | @turn m r input log y hsize h ih =>
    by_cases hn : n ≤ r.frames.size
    · rcases ih hm with hall | ⟨before, after, z, rfl, hbefore, hz, hafter⟩
      · exact .inl (.turn hn hall)
      · exact .inr ⟨_, after, z, (List.append_assoc _ _ _).symm, .turn hn hbefore, hz, hafter⟩
    · exact .inr ⟨[], _, _, rfl, .refl n _, Nat.lt_of_not_le hn, .turn hsize h⟩
  | @wake m r await world wake log y ends hsize hends htakes h _ ih =>
    by_cases hn : n ≤ r.frames.size
    · rcases ih hm with hall | ⟨before, after, z, rfl, hbefore, hz, hafter⟩
      · exact .inl (.wake hn hends htakes hall)
      · exact .inr ⟨_, after, z, rfl, .wake hn hends htakes hbefore, hz, hafter⟩
    · exact .inr ⟨[], _, _, rfl, .refl n _, Nat.lt_of_not_le hn, .wake hsize hends htakes h⟩

/-- **No time is given back.** -/
theorem clock_le (h : Talks E n x log y) : x.world.clock ≤ y.world.clock := by
  induction h with
  | refl => exact Nat.le_refl _
  | @turn n r input log y _ _ ih =>
    rw [r.world_turn_clock input] at ih
    exact ih
  | @wake n r await world wake log y ends _ hends htakes _ ihends ih =>
    rw [r.world_wake_clock world wake] at ih
    refine Nat.le_trans (htakes.le ?_) ih
    rintro job c time ⟨world, said, o, ho, hworld, -, rfl⟩
    have hle := ihends job world said o ho
    rw [Run.world_begin_clock] at hle
    exact hworld ▸ hle

end Next.Talks

/-- No job ends before it begins. -/
theorem Job.Lasts.le {E : Engine P} {job : Job} {now : Nat} {c : Conclusion} {time : Nat}
    (h : job.Lasts E now c time) : now ≤ time := by
  obtain ⟨world, said, o, htalks, rfl, -, rfl⟩ := h
  have hle := htalks.clock_le
  rw [Run.world_begin_clock] at hle
  exact hle

end ProgramGraph
