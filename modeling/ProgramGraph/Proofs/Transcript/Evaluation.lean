import ProgramGraph.Proofs.Fold.Total
import ProgramGraph.Proofs.Passage.Discipline
import ProgramGraph.Proofs.Transcript.Dialogue
import ProgramGraph.Proofs.Transcript.Punctual
/-!
# What is said when a node is evaluated

Whenever the task of a node is started, in whatever run and by whatever request, a dialogue
begins at the height of its frame. `Engine.Recounts` says of all these dialogues at once what
is true of them. Since every run of an evaluation has a transcript, it says so of every
evaluation, on whatever schedule.
-/

namespace ProgramGraph

variable {P : Plugins}

/-! ## What is said at one height -/

namespace Transcript

variable {n : Nat} {log log' : Transcript}

@[simp] theorem at_nil (n : Nat) : Transcript.at [] n = [] := rfl

@[simp] theorem at_append : Transcript.at (log ++ log') n = log.at n ++ log'.at n :=
  List.filterMap_append

@[simp] theorem at_cons_self (clock : Nat) (said : Utterance) :
    Transcript.at (⟨n, clock, said⟩ :: log) n = (clock, said) :: log.at n := by
  simp [Transcript.at]

/-- What is said at other heights does not count. -/
theorem at_of_lt (h : ∀ remark ∈ log, n < remark.height) : log.at n = [] := by
  refine List.filterMap_eq_nil_iff.2 fun remark hmem => if_neg ?_
  exact Nat.ne_of_gt (h remark hmem)

/-- The end of a frame, as far as the frame itself goes. -/
theorem at_closing (hn : 0 < n) (clock : Nat) (a : Answer) :
    Transcript.at (Run.closing n clock a) n = [(clock, .ends a)] := by
  have hlt : n - 1 ≠ n := by omega
  simp [Transcript.at, Run.closing, hlt]

end Transcript

/-! ## Failures are counted -/

/-- It is a failure of a node that a task hears of. -/
def Utterance.isFailure : Utterance → Bool
  | hears ⟨.error (.failed _), _⟩ => true
  | _ => false

@[simp] theorem Utterance.isFailure_asks (scope : Scope) (request : Request) :
    (asks scope request).isFailure = false := rfl

@[simp] theorem Utterance.isFailure_wakes (wake : Wake) : (wakes wake).isFailure = false := rfl

@[simp] theorem Utterance.isFailure_ends (a : Answer) : (ends a).isFailure = false := rfl

/-- How many failures tasks have heard of. -/
def Transcript.failures (log : Transcript) : Nat :=
  log.countP fun remark => 0 < remark.height ∧ remark.said.isFailure

namespace Transcript

variable {n : Nat} {log log' : Transcript}

@[simp] theorem failures_nil : failures [] = 0 := rfl

theorem failures_append : Transcript.failures (log ++ log') = log.failures + log'.failures :=
  List.countP_append

theorem failures_cons (height clock : Nat) (said : Utterance) :
    failures (⟨height, clock, said⟩ :: log) =
      failures log + if 0 < height ∧ said.isFailure then 1 else 0 := by
  simp only [failures, List.countP_cons, decide_eq_true_eq]

/-- The failures that one task has heard of are among them. -/
theorem countP_at_le (hn : 0 < n) (log : Transcript) :
    (log.at n).countP (·.2.isFailure) ≤ log.failures := by
  induction log with
  | nil => exact Nat.le_refl 0
  | cons remark log ih =>
    obtain ⟨height, clock, said⟩ := remark
    rw [failures_cons]
    by_cases hheight : height = n
    · subst hheight
      rw [at_cons_self, List.countP_cons]
      simp only [hn, true_and]
      omega
    · have hother : Transcript.at (⟨height, clock, said⟩ :: log) n = Transcript.at log n := by
        simp [Transcript.at, hheight]
      rw [hother]
      omega

end Transcript

namespace Run

variable {r : Run P} {E : Engine P} {frame : Frame P} {rest : List (Frame P)}

/-- A failure is counted when it is handed to a frame. -/
theorem injections_handOver (r : Run P) (result : Except EvalError Value) (tainted : Bool) :
    r.injections + (if (Utterance.hears ⟨result, tainted⟩).isFailure then 1 else 0) ≤
      (r.handOver result).run.injections := by
  cases result with
  | ok value => exact Nat.le_refl _
  | error error =>
    cases error with
    | failed value =>
      simp only [handOver, EvalError.errorValue]
      cases (r.mapTally .countInjection).frames.items <;> exact Nat.le_refl _
    | _ => exact Nat.le_refl _

/-- So an answer that fails is counted, unless it is the end of the run. -/
theorem injections_answer (r : Run P) (a : Answer) :
    r.injections + (if 0 < r.frames.size ∧ (Utterance.hears a).isFailure then 1 else 0) ≤
      (r.answer a).run.injections := by
  have hsize := r.frames.size_eq
  cases hitems : r.frames.items with
  | nil =>
    rw [hitems] at hsize
    simp only [answer, hitems, hsize, List.length_nil, Nat.lt_irrefl, false_and, if_false]
    exact Nat.le_refl _
  | cons frame rest =>
    rw [hitems] at hsize
    simp only [answer, hitems, hsize, List.length_cons, Nat.succ_pos, true_and]
    exact (r.observe a.tainted).injections_handOver a.result a.tainted

/-- What jobs have counted is added. -/
theorem injections_wake (r : Run P) (world : World P) (wake : Wake) :
    r.injections ≤ (r.wake world wake).run.injections := by
  cases wake with
  | elapsed => exact Nat.le_refl _
  | settled c =>
    let merged := (mapTally { r with world } (·.merge c.tally)).observe c.tainted
    have hmerged : r.injections ≤ merged.injections := Nat.le_add_right _ _
    exact Nat.le_trans hmerged
      (Nat.le_trans (Nat.le_add_right _ _) (merged.injections_handOver c.result c.tainted))

/-- **The failures that are heard of in a turn** are counted in it. -/
theorem injections_turn (hitems : r.frames.items = frame :: rest) (input : Input) :
    r.injections + (r.remarks E input).failures ≤ (r.turn E input).run.injections := by
  rcases r.turn_acts hitems input with ⟨hsaid, -, hcount⟩ | ⟨step, after, shared, -, hacts⟩
  · rw [hsaid, hcount]
    exact Nat.le_refl _
  have hsize : r.frames.size = rest.length + 1 := by rw [r.frames.size_eq, hitems]; rfl
  have hasks : ∀ request, Transcript.failures
      [⟨r.frames.size, r.world.clock, .asks r.scope request⟩] = 0 := by
    intro request
    simp [Transcript.failures_cons]
  generalize r.remarks E input = said at hacts
  generalize r.turn E input = x at hacts
  cases hacts with
  | @ends r' result sits injections =>
    have hanswer := r'.injections_answer ⟨result, frame.volatile || frame.tainted⟩
    have hlower : r.frames.size - 1 = r'.frames.size := by
      rw [hsize, Sits.size sits, Nat.add_sub_cancel]
    rw [injections] at hanswer
    rw [closing, Transcript.failures_cons, Transcript.failures_cons, hlower]
    simpa using hanswer
  | @answered r₀ r₁ request scope id fresh a _ _ _ sits injections =>
    have hanswer := r₁.injections_answer a
    have hsame : r₁.frames.size = r.frames.size := by rw [hsize, Sits.size sits]; rfl
    rw [injections, hsame] at hanswer
    rw [Transcript.failures_cons, Transcript.failures_cons]
    simpa using hanswer
  | starts _ _ _ _ injections =>
    rw [hasks]
    exact Nat.le_of_eq injections.symm
  | waits await _ injections =>
    rw [hasks]
    exact Nat.le_of_eq injections.symm

end Run

/-- **Every failure that a task has heard of has been counted.** -/
theorem Next.Talks.injections_le {E : Engine P} {n : Nat} {x y : Next P} {log : Transcript}
    (h : x.Talks E n log y) (hn : 0 < n) : x.run.injections + log.failures ≤ y.run.injections := by
  induction h with
  | refl n x => exact Nat.le_refl _
  | @turn n r input log y hsize _ ih =>
    obtain ⟨frame, rest, hitems⟩ := List.exists_cons_of_length_pos
      (Nat.lt_of_lt_of_eq (Nat.lt_of_lt_of_le hn hsize) r.frames.size_eq)
    have hturn := Run.injections_turn (E := E) hitems input
    rw [Transcript.failures_append, ← Nat.add_assoc]
    exact Nat.le_trans (Nat.add_le_add_right hturn _) (ih hn)
  | @wake n r await world wake log y ends _ _ _ _ _ ih =>
    have hwake := r.injections_wake world wake
    have hsaid : Transcript.failures (⟨r.frames.size, world.clock, .wakes wake⟩ :: log) =
        Transcript.failures log := by
      simp [Transcript.failures_cons]
    rw [hsaid]
    exact Nat.le_trans (Nat.add_le_add_right hwake _) (ih hn)

/-! ## Nodes that are evaluated -/

variable {E : Engine P} {id : NodeId} {node : Node} {handler : Builtin} {volatile : Bool}

/-- **A request for a node starts its task,** unless its result is kept. -/
theorem Run.visit_starts_or_kept (hnode : E.graph.get? id = some node) (hparam : node.param? = none)
    (hentry : E.registry.get node.tag = .ok ⟨.builtin handler, volatile⟩) {task : Builtin.Task}
    (htask : handler.start id node = .ok task) (r : Run P) (restore : Nat) (fresh : Bool) :
    (∃ r', r.visit E id restore fresh = .resume r' .start) ∨
      fresh = false ∧ ∃ value, r.innermost.kept? id = some value := by
  cases hkept : (if fresh then none else r.innermost.kept? id) with
  | some value =>
    cases fresh with
    | true => cases hkept
    | false => exact .inr ⟨rfl, value, hkept⟩
  | none =>
    cases hvisit : r.arrive E id restore fresh with
    | mk r' arrival =>
      have harrive := hvisit
      simp only [arrive, hnode, hparam, hkept, hentry, Handler.start, htask, Except.map] at harrive
      obtain rfl : arrival = .pushed := (congrArg Prod.snd harrive).symm
      exact .inl ⟨r', visit_of_pushed hvisit⟩

/-- **A task that has been started** for a node whose handler is of the library. -/
theorem Run.exists_task_of_visit (hnode : E.graph.get? id = some node)
    (hentry : E.registry.get node.tag = .ok ⟨.builtin handler, volatile⟩) {r r' : Run P}
    {restore : Nat} {fresh : Bool} (h : r.visit E id restore fresh = .resume r' .start) :
    ∃ task, handler.start id node = .ok task ∧
      r'.Sits (⟨id, .builtin task, volatile, false, restore, fresh⟩ :: r.frames.items) r.scope
        r.world.clock ∧ r'.injections = r.injections := by
  have hcount := injections_arrive E r id restore fresh
  cases harrive : r.arrive E id restore fresh with
  | mk r'' arrival =>
    rw [harrive] at hcount
    cases arrival with
    | ready a =>
      rw [visit_of_ready harrive] at h
      exact absurd h ((r''.quiet_answer a).1 r')
    | pushed =>
      rw [visit_of_pushed harrive] at h
      cases h
      obtain ⟨node', entry, task, shared, hnode', hentry', hstart, hsits⟩ :=
        sits_of_pushed ⟨rfl, rfl, rfl⟩ harrive
      obtain rfl : node = node' := Option.some.inj (hnode.symm.trans hnode')
      obtain rfl : _ = entry := Except.ok.inj (hentry.symm.trans hentry')
      obtain ⟨own, rfl, hown⟩ := Handler.exists_task_of_start rfl hstart
      exact ⟨own, hown, hsits, hcount⟩

/-- **Its frame says what the plan of the task says,** and the failures that it hears of are
counted. -/
theorem Run.speaks_of_visit (hnode : E.graph.get? id = some node)
    (hentry : E.registry.get node.tag = .ok ⟨.builtin handler, volatile⟩) {task : Builtin.Task}
    (htask : handler.start id node = .ok task) {r r' : Run P} {restore : Nat} {fresh : Bool}
    (hvisit : r.visit E id restore fresh = .resume r' .start) {log : Transcript} {y : Next P}
    (htalks : Next.Talks E (r.frames.size + 1) (.resume r' .start) log y) :
    task.plan.Speaks E (r.frames.size + 1) id volatile r.scope r.world.clock false log y ∧
      r.injections + log.failures ≤ y.run.injections := by
  obtain ⟨task', htask', hsits, hcount⟩ := exists_task_of_visit hnode hentry hvisit
  obtain rfl : task' = task := Except.ok.inj (htask'.symm.trans htask)
  have hcounted := htalks.injections_le (Nat.succ_pos _)
  rw [← hcount]
  rw [r.frames.size_eq] at htalks ⊢
  exact ⟨htalks.speaks (Builtin.makes_of_start htask).follows rfl hsits, hcounted⟩

/-- **All that is said in an evaluation,** from its beginning to its end. When it ends there
is no frame left. -/
theorem Engine.Evaluates.exists_talks {root : NodeId} {memo : Memo} {scope : Scope}
    {shared : P.Shared} {o : Outcome P} (h : E.Evaluates root memo scope shared o) :
    o.run.frames.size = 0 ∧ ∃ (world : World P) (log : Transcript), world.clock = 0 ∧
      Next.Talks E 0 (Run.begin E { memo, scope, world } root) log (.finish o) := by
  obtain ⟨fuel, ho⟩ := h
  obtain ⟨hpasses, -⟩ := passes_of_evaluate? (Schedule.closed_true E memo) trivial trivial ho
  obtain ⟨_, hreach⟩ := hpasses.mayReach
  exact ⟨hreach.manned,
    Schedule.DatesFocus.follow (Schedule.datesFocus_start ⟨root, scope⟩ shared) ho⟩

/-- **What is true whenever a node is evaluated:** of the run that has asked for it, of what is
said from the moment when its task is started, and of the point that is got to. -/
structure Engine.Recounts (E : Engine P) (id : NodeId) (Told : Run P → Transcript → Next P → Prop) :
    Prop where
  /-- Whatever an evaluation attends to has a transcript, from the beginning of its run. -/
  transcribed : ∀ {root : NodeId} {memo : Memo} {scope : Scope} {shared : P.Shared} {next : Next P},
    E.AttendsTo root memo scope shared next →
    ∃ (m : Memo) (job : Job) (world : World P) (log : Transcript), (m = memo ∨ m = .empty) ∧
      Next.Talks E 0 (Run.begin E { memo := m, scope := job.scope, world } job.node) log next
  /-- Every evaluation comes to an end in a valid graph, if there are no plug-ins, and so does
  its transcript. No frame is left then. -/
  ends : E.graph.validate = .ok () → E.registry.Native →
    ∀ (root : NodeId) (memo : Memo) (scope : Scope) (shared : P.Shared), ∃ o : Outcome P,
      E.Evaluates root memo scope shared o ∧ o.run.frames.size = 0 ∧
      ∃ (world : World P) (log : Transcript), world.clock = 0 ∧
        Next.Talks E 0 (Run.begin E { memo, scope, world } root) log (.finish o)
  /-- Wherever the node is asked for, its task is started unless its result is kept. -/
  starts : ∀ (r : Run P) (restore : Nat) (fresh : Bool),
    (∃ r', r.visit E id restore fresh = .resume r' .start) ∨
      fresh = false ∧ ∃ value, r.innermost.kept? id = some value
  /-- What is said from then on, as long as its frame is there, is as it should be. -/
  told : ∀ {r r' : Run P} {restore : Nat} {fresh : Bool} {log : Transcript} {next : Next P},
    r.visit E id restore fresh = .resume r' .start →
    Next.Talks E (r.frames.size + 1) (.resume r' .start) log next → Told r log next

/-- **It is enough to look at the plan of the task.** -/
theorem Engine.recounts_of_speaks (hnode : E.graph.get? id = some node)
    (hparam : node.param? = none)
    (hentry : E.registry.get node.tag = .ok ⟨.builtin handler, volatile⟩) {task : Builtin.Task}
    (htask : handler.start id node = .ok task) {Told : Run P → Transcript → Next P → Prop}
    (htold : ∀ (r : Run P) (log : Transcript) (next : Next P),
      task.plan.Speaks E (r.frames.size + 1) id volatile r.scope r.world.clock false log next →
      r.injections + log.failures ≤ next.run.injections → Told r log next) :
    E.Recounts id Told where
  transcribed h := h.exists_talks
  ends hg hr root memo scope shared := by
    obtain ⟨o, ho⟩ := exists_evaluates hg hr root memo scope shared
    exact ⟨o, ho, ho.exists_talks⟩
  starts r restore fresh := Run.visit_starts_or_kept hnode hparam hentry htask r restore fresh
  told hvisit htalks := by
    obtain ⟨hspeaks, hcount⟩ := Run.speaks_of_visit hnode hentry htask hvisit htalks
    exact htold _ _ _ hspeaks hcount

end ProgramGraph
