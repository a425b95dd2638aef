import ProgramGraph.Graph.Families
import ProgramGraph.Proofs.Fold.Basic
import ProgramGraph.Proofs.Passage.Alone
import ProgramGraph.Proofs.Passage.Fatal
import ProgramGraph.Proofs.Passage.Ledger
/-!
# What resumptions are for

A task is resumed to start, with a reply or after a pause. Every task that is made is
resumed to start at once, and every task that ends, every answer from a memo and every
look-up of a parameter is a reply to some task or the end of the run. So in a run that is
alone and does not end with a fatal error the counters go by an account
(`Engine.Solitary.exists_accounts`): how often tasks have been resumed is told from how
many there were, how often they have been spared, and how many pauses there have been.

What carries the account through a run is that as many things have been asked for and not
answered as there are frames (`Next.Even`).
-/

namespace ProgramGraph

open Relation

variable {P : Plugins} {E : Engine P}

/-! ## Journals -/

namespace Event

/-- The node for which a task was made. -/
def made? : Event → Option NodeId
  | started node _ true => some node
  | _ => none

/-- The node whose task was resumed to start. -/
def begun? : Event → Option NodeId
  | resumed node .start => some node
  | _ => none

/-- Whether something was answered without a task. -/
def isSpared : Event → Bool
  | served _ | lookedUp _ => true
  | _ => false

/-- Whether a task was resumed with a reply. -/
def isReply : Event → Bool
  | resumed _ (.value _) | resumed _ (.error _) => true
  | _ => false

/-- Whether a task was resumed after a pause. -/
def isPause : Event → Bool
  | resumed _ .elapsed => true
  | _ => false

/-- **A journal goes up:** all tasks that were made have been resumed to start, and so much
has been asked for and is not answered yet. Only some nodes have paused. -/
structure Even (paused : NodeId → Prop) (journal : List Event) (asked : Nat) : Prop where
  begun : journal.filterMap made? = journal.filterMap begun?
  replies : (journal.filterMap made?).length + journal.countP isSpared =
    journal.countP isReply + asked
  pauses : ∀ node, resumed node .elapsed ∈ journal → paused node

namespace Even

variable {paused : NodeId → Prop} {journal : List Event} {asked : Nat}

theorem nil : Even paused [] 0 := ⟨rfl, rfl, nofun⟩

/-- An event that is neither for a task nor for an answer. -/
theorem cons {event : Event} (h : Even paused journal asked) (hmade : event.made? = none)
    (hbegun : event.begun? = none) (hspared : event.isSpared = false)
    (hreply : event.isReply = false) (hpause : ∀ node, event = resumed node .elapsed → paused node) :
    Even paused (event :: journal) asked where
  begun := by
    rw [List.filterMap_cons_none hmade, List.filterMap_cons_none hbegun, h.begun]
  replies := by
    rw [List.filterMap_cons_none hmade, List.countP_cons_of_neg (by rw [hspared]; exact nofun),
      List.countP_cons_of_neg (by rw [hreply]; exact nofun), h.replies]
  pauses node hmem := (List.mem_cons.1 hmem).elim (fun heq => hpause node heq.symm) (h.pauses node)

theorem injected (node : NodeId) (h : Even paused journal asked) :
    Even paused (.injected node :: journal) asked :=
  h.cons rfl rfl rfl rfl nofun

/-- A task is resumed after a pause. -/
theorem elapsed {node : NodeId} (h : Even paused journal asked) (hnode : paused node) :
    Even paused (.resumed node .elapsed :: journal) asked :=
  h.cons rfl rfl rfl rfl fun _ heq => by
    cases heq
    exact hnode

/-- A task is made, and resumed to start. -/
theorem started (node : NodeId) (fresh : Bool) (h : Even paused journal asked) :
    Even paused (.resumed node .start :: .started node fresh true :: journal) (asked + 1) where
  begun := congrArg (List.cons node) h.begun
  replies := by
    have hreplies := h.replies
    simp only [List.filterMap_cons, made?, List.length_cons, List.countP_cons, isSpared, isReply,
      Bool.false_eq_true, if_false]
    omega
  pauses other hmem := h.pauses other (by simpa using hmem)

/-- Something is answered without a task. -/
theorem spared {event : Event} (hspared : event.isSpared = true) (h : Even paused journal asked) :
    Even paused (event :: journal) (asked + 1) := by
  have hreplies := h.replies
  cases event with
  | served node | lookedUp node =>
    refine ⟨h.begun, ?_, fun other hmem => h.pauses other (by simpa using hmem)⟩
    simp only [List.filterMap_cons, made?, List.countP_cons, isSpared, isReply, if_true,
      Bool.false_eq_true, if_false]
    omega
  | _ => cases hspared

/-- A task is resumed with a reply. -/
theorem replied {node : NodeId} {input : Input} (hreply : (resumed node input).isReply = true)
    (h : Even paused journal (asked + 1)) : Even paused (.resumed node input :: journal) asked := by
  have hreplies := h.replies
  cases input with
  | value value | error value =>
    refine ⟨h.begun, ?_, fun other hmem => h.pauses other (by simpa using hmem)⟩
    simp only [List.filterMap_cons, made?, List.countP_cons, isSpared, isReply, if_true,
      Bool.false_eq_true, if_false]
    omega
  | _ => cases hreply

end Even

/-- What the events of a journal come to, told from those of each kind. -/
theorem total_eq (journal : List Event) :
    (total journal).starts = (journal.filterMap made?).length ∧
      (total journal).hits + (total journal).lookups = journal.countP isSpared ∧
      (total journal).steps = (journal.filterMap begun?).length + journal.countP isReply +
        journal.countP isPause := by
  induction journal with
  | nil => exact ⟨rfl, rfl, rfl⟩
  | cons event journal ih =>
    obtain ⟨hstarts, hspared, hsteps⟩ := ih
    simp only [total_cons, Tally.merge, hstarts, hsteps, List.filterMap_cons, List.countP_cons]
    cases event with
    | started node fresh accepted =>
      cases accepted <;>
        simp [tally, Tally.countStart, Tally.zero, made?, begun?, isSpared, isReply, isPause] <;> omega
    | resumed node input =>
      cases input <;>
        simp [tally, Tally.countResumption, Tally.zero, made?, begun?, isSpared, isReply, isPause] <;>
        omega
    | _ =>
      simp [tally, Tally.countHit, Tally.countLookup, Tally.countInjection, Tally.zero, made?, begun?,
        isSpared, isReply, isPause]
      omega

end Event

/-! ## Runs -/

namespace Next

variable {paused : NodeId → Prop}

/-- **The journal of a run goes up.** What is asked for and not answered are the frames,
once the task has been resumed that is next; at the end it is what the caller has asked. -/
def Even (paused : NodeId → Prop) : Next P → Prop
  | resume r input => ∃ frame rest, r.frames.items = frame :: rest ∧
    Event.Even paused (.resumed frame.node input :: r.world.journal) r.frames.size
  | wait r _ => Event.Even paused r.world.journal r.frames.size
  | finish o => Event.Even paused o.run.world.journal 1

/-- The run has ended with a fatal error. -/
def Aborts (next : Next P) : Prop :=
  ∃ o e, next = .finish o ∧ o.result = .error e ∧ e.isInterceptable = false

end Next

namespace Run

variable {paused : NodeId → Prop} {r : Run P}

theorem EndsWith.aborts {e : EvalError} {next : Next P} (h : EndsWith e r next)
    (he : e.isInterceptable = false) : next.Aborts := by
  obtain ⟨o, hnext, hresult, -⟩ := h
  exact ⟨o, e, hnext, hresult, he⟩

/-- **An answer** is a reply to the top frame or goes to the caller. -/
theorem even_answer (h : Event.Even paused r.world.journal (r.frames.size + 1)) (a : Answer) :
    (r.answer a).Aborts ∨ (r.answer a).Even paused := by
  cases hitems : r.frames.items with
  | nil =>
    have hsize : r.frames.size = 0 := r.frames.size_eq_zero_iff.2 hitems
    have hanswer : r.answer a = .finish ⟨a.result, a.tainted, r⟩ := by simp only [answer, hitems]
    rw [hsize] at h
    rw [hanswer]
    exact .inr h
  | cons frame rest =>
    have hanswer : r.answer a = (r.observe a.tainted).handOver a.result := by
      simp only [answer, hitems]
    have hobserved : (r.observe a.tainted).frames.items =
        { frame with tainted := frame.tainted || a.tainted } :: rest := by
      rw [observe, Stack.items_mapTop, hitems, List.modifyHead_cons]
    rw [hanswer]
    cases hresult : a.result with
    | ok value => exact .inr ⟨_, rest, hobserved, h.replied rfl⟩
    | error e =>
      cases e with
      | failed value =>
        have hcounted : ((r.observe a.tainted).mapTally .countInjection).frames.items =
            { frame with tainted := frame.tainted || a.tainted } :: rest := hobserved
        simp only [handOver, EvalError.errorValue, hcounted]
        exact .inr ⟨_, rest, hobserved, (h.injected frame.node).replied rfl⟩
      | _ => exact .inl ((endsWith_handOver rfl a.tainted).aborts rfl)

/-- What is answered at once is a value or a fatal error. -/
theorem isInterceptable_of_arrive (hr : E.registry.Native) {r' : Run P} {id : NodeId} {restore : Nat}
    {fresh : Bool} {e : EvalError} {tainted : Bool}
    (h : r.arrive E id restore fresh = (r', .ready ⟨.error e, tainted⟩)) :
    e.isInterceptable = false := by
  cases refuses_of_arrive (congrArg Prod.snd h) with
  | absent => rfl
  | unbound => rfl
  | missing _ _ hmissing =>
    obtain ⟨rfl, -⟩ := Registry.missing_of_get hmissing
    rfl
  | refused _ _ hentry hstart =>
    obtain ⟨handler, hhandler, -⟩ := hr.of_get hentry
    obtain ⟨reason, rfl⟩ := Builtin.invalid_of_start (Handler.refuses_of_start hhandler hstart)
    rfl

/-- **A visit** makes a task, spares one, or ends the run. -/
theorem even_visit (hr : E.registry.Native) (h : Event.Even paused r.world.journal r.frames.size)
    (id : NodeId) (restore : Nat) (fresh : Bool) :
    (r.visit E id restore fresh).Aborts ∨ (r.visit E id restore fresh).Even paused := by
  have harrives := r.arrives E id restore fresh
  unfold visit
  generalize harrive : r.arrive E id restore fresh = arrived at harrives
  cases harrives with
  | absent => exact .inl ((endsWith_answer rfl false).aborts rfl)
  | param =>
    refine even_answer ?_ _
    rw [note, frames_mapInnermost, journal_mapInnermost]
    exact h.spared rfl
  | served => exact even_answer (h.spared rfl) _
  | missing =>
    have hfatal := isInterceptable_of_arrive hr harrive
    exact .inl ((endsWith_answer hfatal _).aborts hfatal)
  | refused =>
    have hfatal := isInterceptable_of_arrive hr harrive
    exact .inl ((endsWith_answer hfatal _).aborts hfatal)
  | started => exact .inr ⟨_, _, rfl, h.started id fresh⟩

/-- **A step is served.** A frame that ends is one thing less that has been asked for, and
its answer is on its way. -/
theorem even_serve (hr : E.registry.Native) (hframes : r.frames.items ≠ [])
    (h : Event.Even paused r.world.journal r.frames.size) (step : Step) :
    (r.serve E step).Aborts ∨ (r.serve E step).Even paused := by
  obtain ⟨frame, rest, hitems⟩ := List.exists_cons_of_ne_nil hframes
  have hended : ∀ {r' : Run P}, r.Pops frame.slot r' → r'.world = r.world →
      Event.Even paused r'.world.journal (r'.frames.size + 1) := by
    intro r' hpops hworld
    have hsize : r.frames.size = r'.frames.size + 1 := by
      rw [← length_slots, ← length_slots, hpops.slots, List.length_cons]
    rw [hworld, ← hsize]
    exact h
  cases step with
  | done value =>
    exact even_answer (hended (succeed_pops hitems value) (r.world_succeed value)) _
  | fail error => exact even_answer (hended (fail_pops hitems error) (r.world_fail error)) _
  | request request =>
    cases request with
    | child id => exact even_visit hr h id _ _
    | under id bindings => exact even_visit (r := { r with scope := r.scope.push bindings }) hr h id _ _
    | fresh id => exact even_visit hr h id _ _
    | await await => exact .inr h

/-- **A turn.** -/
theorem even_turn (hr : E.registry.Native) {input : Input} (h : (Next.resume r input).Even paused) :
    (r.turn E input).Aborts ∨
      r.countTurn.exceeded? E.limits = none ∧ (r.turn E input).Even paused := by
  obtain ⟨frame, rest, hitems, heven⟩ := h
  cases hexceeded : r.countTurn.exceeded? E.limits with
  | some limit =>
    rw [turn_of_exceeded hexceeded]
    exact .inl ⟨_, _, rfl, rfl, rfl⟩
  | none =>
    have hcount : r.countTurn.frames.items = frame :: rest := hitems
    have hresumed : (r.countTurn.resumeFrame input).1.world.journal =
        .resumed frame.node input :: r.world.journal := by
      simp only [resumeFrame, hcount]
      rfl
    obtain ⟨after, shared, -, hafter⟩ := exists_resumeFrame hcount input
    have hsize : (r.countTurn.resumeFrame input).1.frames.size = r.frames.size := by
      rw [Stack.size_eq, Stack.size_eq, hafter, hitems]
      rfl
    rw [← hresumed, ← hsize] at heven
    rw [turn_of_within hexceeded]
    refine (even_serve hr ?_ heven _).imp_right fun heven => ⟨rfl, heven⟩
    rw [hafter]
    exact List.cons_ne_nil _ _

end Run

/-! ## Accounts -/

/-- The node gets the task of a retry. -/
def Engine.Retries (E : Engine P) (id : NodeId) : Prop :=
  ∃ task volatile, E.Starts id (.retry task) volatile

/-- **The account of an evaluation:** what it has added to the counters, and what its
resumptions were for. -/
structure Outcome.Accounts (E : Engine P) (memo : Memo) (o : Outcome P) (growth : Tally) : Prop where
  /-- So much has been added to the counters. -/
  grown : o.run.memo.tally.counts = memo.tally.counts.merge growth
  /-- Tasks have been resumed twice for each task there was, once for each that has been
  spared and once for each pause, but for the last answer, which is the caller's. -/
  steps : growth.steps + 1 = 2 * growth.starts + growth.hits + growth.lookups +
    o.run.world.journal.countP Event.isPause
  /-- Every task that was made has been resumed to start, once and in its turn, -/
  begun : o.run.world.journal.filterMap Event.made? = o.run.world.journal.filterMap Event.begun?
  /-- and these are the tasks that have been counted. -/
  starts : growth.starts = (o.run.world.journal.filterMap Event.made?).length
  /-- There has been one answer for each task and for each that has been spared. All but
  the last have been replies. -/
  replies : growth.starts + growth.hits + growth.lookups =
    o.run.world.journal.countP Event.isReply + 1
  /-- Only retries have paused. -/
  pauses : ∀ node, .resumed node .elapsed ∈ o.run.world.journal → E.Retries node

/-- A journal that goes up is an account. -/
theorem Event.Even.accounts {memo : Memo} {o : Outcome P}
    (h : Event.Even E.Retries o.run.world.journal 1)
    (hgrown : o.run.memo.tally.counts = memo.tally.counts.merge (Event.total o.run.world.journal)) :
    o.Accounts E memo (Event.total o.run.world.journal) := by
  obtain ⟨hstarts, hspared, hsteps⟩ := Event.total_eq o.run.world.journal
  have hreplies := h.replies
  rw [← h.begun] at hsteps
  exact ⟨hgrown, by omega, h.begun, hstarts, by omega, h.pauses⟩

namespace Engine

variable {root : NodeId} {memo : Memo} {scope : Scope} {shared : P.Shared}

/-- **A run that pauses** has a retry on top. -/
theorem Solitary.retries (h : E.Solitary) {world : World P} {r : Run P} {await : Await}
    (hreach : E.MayReach root memo scope world (.wait r await)) :
    ∃ frame rest, r.frames.items = frame :: rest ∧ E.Retries frame.node := by
  have hknown : E.Upholds fun id task => task.isRetry = true → E.Retries id := by
    refine upholds_of_starts h.native (fun id task volatile hstarts hretry => ?_) ?_
    · cases task with
      | retry task => exact ⟨task, volatile, hstarts⟩
      | _ => cases hretry
    · intro id task s input hretries hretry
      refine hretries ?_
      cases task with
      | retry task => rfl
      | _ => cases hretry
  obtain ⟨frame, rest, input, task, hitems, hretries, hwait⟩ := hreach.exists_task_of_wait hknown
  obtain ⟨ms, rfl⟩ := h.paused hreach
  refine ⟨frame, rest, hitems, hretries ?_⟩
  rcases Builtin.Task.wait_of_resume hwait with ⟨jobs, -, hall⟩ | ⟨ms, hretry, -⟩ | ⟨-, -, hplain⟩
  · cases hall
  · exact hretry
  · exact absurd trivial hplain

/-- **The books are kept and go up** as long as there is no fatal error, by induction on
what the run does. -/
theorem Solitary.even (h : E.Solitary) {next : Next P}
    (hstrolls : ReflTransGen (Next.Strolls E)
      (Run.begin E { memo, scope, world := { shared } } root) next) :
    next.Aborts ∨ ({ memo, scope, world := { shared } } : Run P).Books next.run ∧
      next.Even E.Retries := by
  let r₀ : Run P := { memo, scope, world := { shared } }
  induction hstrolls with
  | refl =>
    have hbegin : (r₀.begin E root).Aborts ∨ (r₀.begin E root).Even E.Retries :=
      Run.even_visit h.native .nil root _ _
    exact hbegin.imp_right fun heven => ⟨r₀.books_visit root _ _, heven⟩
  | @tail next next' hbefore hleads ih =>
    rcases ih with ⟨o, e, rfl, -⟩ | ⟨hbooks, heven⟩
    · cases hleads
    · cases hleads with
      | turn r input =>
        have hframes : r.frames.items ≠ [] := by
          obtain ⟨frame, rest, hitems, -⟩ := heven
          rw [hitems]
          exact List.cons_ne_nil _ _
        refine (Run.even_turn h.native heven).imp_right fun ⟨hwithin, heven'⟩ => ⟨?_, heven'⟩
        exact hbooks.trans (Run.books_turn r hframes hwithin input)
      | pause r ms clock =>
        obtain ⟨frame, rest, hitems, hretries⟩ := h.retries (mayReach_of_strolls hbefore)
        have heven : Event.Even E.Retries r.world.journal r.frames.size := heven
        refine .inr ⟨hbooks.trans (.of_eq rfl rfl), frame, rest, hitems, ?_⟩
        exact heven.elapsed hretries

/-- **The resumptions of an evaluation go by an account** if it starts no jobs and does not
end with a fatal error. -/
theorem Solitary.exists_accounts (h : E.Solitary) {o : Outcome P}
    (ho : E.Evaluates root memo scope shared o)
    (hresult : ∀ e, o.result = .error e → e.isInterceptable = true) :
    ∃ growth, o.Accounts E memo growth := by
  obtain ⟨fuel, hfuel⟩ := ho
  rcases h.even (h.strolls hfuel) with ⟨o', e, hfinish, herror, hfatal⟩ | ⟨hbooks, heven⟩
  · obtain rfl : o = o' := Next.finish.inj hfinish
    exact absurd ((hresult e herror).symm.trans hfatal) nofun
  · obtain ⟨events, hjournal, hcounts⟩ := hbooks
    have hevents : events = o.run.world.journal := by
      rw [← List.append_nil events]
      exact hjournal.symm
    rw [hevents] at hcounts
    exact ⟨_, Event.Even.accounts heven hcounts⟩

end Engine

namespace Graph

/-- A constant, a failure with it, and a retry of the failure after a pause. -/
def retrial : Graph :=
  ⟨#[literalNode (.nat 7), ⟨Tag.fail, .child ⟨0⟩⟩, ⟨Tag.retry, .retry ⟨1⟩ 2 5⟩]⟩

/-- The failure and its constant take two tasks, whatever has been kept. -/
theorem course_retrial_failure (m : Memo) :
    retrial.course (.standardSequential : Registry .none) ⟨1⟩ .empty true 1 m =
      ⟨⟨.error (.failed (.nat 7)), false⟩, m,
        .start 1 + (.turn + (.start 2 + .turn + .handing (.ok (.nat 7)) + .turn))⟩ := by
  have hr : (Registry.standardSequential : Registry .none).Native := Registry.native_standardSequential
  have hnone : (if false then none else Memo.empty.kept? ⟨0⟩) = none := Memo.kept?_empty _
  have hconstant : retrial.course (.standardSequential : Registry .none) ⟨0⟩ .empty false 2 .empty =
      ⟨⟨.ok (.nat 7), false⟩, Memo.empty.put ⟨0⟩ (.nat 7) false, .start 2 + .turn⟩ :=
    have hrole : retrial.role (.standardSequential : Registry .none) ⟨0⟩ =
        .planned (.finish (.ok (.nat 7))) false := rfl
    course_planned rfl hr hrole hnone rfl
  have hrole : retrial.role (.standardSequential : Registry .none) ⟨1⟩ = .planned (.fail ⟨0⟩) false :=
    rfl
  have hcourse : retrial.course (.standardSequential : Registry .none) ⟨1⟩ .empty true 1 m = _ :=
    course_planned rfl hr hrole rfl rfl
  simp only [Plan.fail, Plan.course, Manner.scope, Manner.isFresh, if_true, hconstant] at hcourse
  exact hcourse

/-- **Both attempts are made,** and there is a pause between them. -/
theorem course_retrial :
    let c := retrial.course (.standardSequential : Registry .none) ⟨2⟩ .empty false 0 .empty
    c.answer.result = .error (.failed (.nat 7)) ∧ c.cost.tied = false ∧ c.cost.tally.starts = 5 ∧
      c.cost.tally.hits = 0 ∧ c.cost.tally.lookups = 0 ∧ c.cost.tally.steps = 10 := by
  have hr : (Registry.standardSequential : Registry .none).Native := Registry.native_standardSequential
  have hnone : (if false then none else Memo.empty.kept? ⟨2⟩) = none := Memo.kept?_empty _
  have hrole : retrial.role (.standardSequential : Registry .none) ⟨2⟩ =
      .planned (.retry ⟨1⟩ 5 1) false := rfl
  have hcourse : retrial.course (.standardSequential : Registry .none) ⟨2⟩ .empty false 0 .empty = _ :=
    course_planned rfl hr hrole hnone rfl
  simp only [Plan.retry, Plan.course, Manner.scope, Manner.isFresh, Nat.zero_add, Bool.false_eq_true,
    if_false, Nat.reduceEqDiff, course_retrial_failure, Course.after, Course.bind_failed] at hcourse
  rw [hcourse]
  exact ⟨rfl, rfl, rfl, rfl, rfl, rfl⟩

end Graph

/-- Five tasks are resumed ten times, once of them after a pause. -/
theorem Engine.exists_accounts_retrial :
    Engine.Solitary (P := .none) ⟨.retrial, .standardSequential, {}⟩ ∧
      ∃ (o : Outcome .none) (growth : Tally),
        Engine.Evaluates ⟨.retrial, .standardSequential, {}⟩ ⟨2⟩ .empty .empty () o ∧
        o.result = .error (.failed (.nat 7)) ∧
        o.Accounts ⟨.retrial, .standardSequential, {}⟩ .empty growth ∧ growth.starts = 5 ∧
        growth.steps = 10 ∧ o.run.world.journal.countP Event.isPause = 1 := by
  have hsolitary : Engine.Solitary (P := .none) ⟨.retrial, .standardSequential, {}⟩ :=
    solitary_of_untimed rfl (by decide)
  obtain ⟨hresult, htied, hstarts, hhits, hlookups, hsteps⟩ := Graph.course_retrial
  obtain ⟨o, ho, hreport, -⟩ := evaluates_of_course (E := ⟨.retrial, .standardSequential, {}⟩) rfl
    Registry.native_standardSequential rfl ⟨2⟩ .empty .empty () rfl htied
  have hfailed : o.result = .error (.failed (.nat 7)) := (congrArg Report.result hreport).trans hresult
  obtain ⟨growth, haccounts⟩ := hsolitary.exists_accounts ho fun e he => by
    obtain rfl : EvalError.failed (.nat 7) = e := Except.error.inj (hfailed.symm.trans he)
    rfl
  -- there were no counters before, so all that there are have been added
  have htally : o.run.memo.tally = Tally.zero.merge _ :=
    congrArg (fun report : Report => report.memo.tally) hreport
  have hgrowth : _ = growth := haccounts.grown.trans (Tally.zero_merge growth)
  rw [htally, Tally.zero_merge] at hgrowth
  have hstarts' : growth.starts = 5 := (congrArg Tally.starts hgrowth).symm.trans hstarts
  have hsteps' : growth.steps = 10 := (congrArg Tally.steps hgrowth).symm.trans hsteps
  have hhits' : growth.hits = 0 := (congrArg Tally.hits hgrowth).symm.trans hhits
  have hlookups' : growth.lookups = 0 := (congrArg Tally.lookups hgrowth).symm.trans hlookups
  have haccount := haccounts.steps
  exact ⟨hsolitary, o, growth, ho, hfailed, haccounts, hstarts', hsteps', by omega⟩

end ProgramGraph
