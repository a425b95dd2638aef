import ProgramGraph.Proofs.Course.Deed
import ProgramGraph.Proofs.Passage.Discipline
import ProgramGraph.Proofs.Solo.Stand
/-!
# Counters and the journal

The journal of a fold says what its runs have done, and the counters of their memos say
how much of it there was. What an event adds to the counters is told by `Event.tally`, and
a run writes just those events down that it counts (`Run.Books`). The one thing that is
counted and not written down is a resumption that the limit does not allow, for then no
task is resumed (`Run.refusal`).

The depth does not add up and is left out, as always where counters are compared.
-/

namespace ProgramGraph

variable {P : Plugins} {E : Engine P}

/-! ## What events count for -/

/-- **What an event adds to the counters.** A handler that refuses a node has not started a
task. -/
def Event.tally : Event → Tally
  | started _ _ true => Tally.zero.countStart
  | started _ _ false => .zero
  | served _ => Tally.zero.countHit
  | lookedUp _ => Tally.zero.countLookup
  | resumed _ _ => Tally.zero.countResumption
  | injected _ => Tally.zero.countInjection

/-- **What some events add to the counters,** each of them once. -/
def Event.total (events : List Event) : Tally := (events.map Event.tally).foldr Tally.merge .zero

/-- The depth is none of it. -/
theorem Event.counts_tally (event : Event) : event.tally.counts = event.tally := by
  cases event with
  | started node fresh accepted => cases accepted <;> rfl
  | _ => rfl

theorem Event.total_cons (event : Event) (events : List Event) :
    total (event :: events) = event.tally.merge (total events) := rfl

theorem Event.total_append (events more : List Event) :
    total (events ++ more) = (total events).merge (total more) := by
  induction events with
  | nil => exact (Tally.zero_merge _).symm
  | cons event events ih =>
    rw [List.cons_append, total_cons, ih, total_cons, Tally.merge_assoc]

/-! ## Books -/

namespace Run

/-- **What is written down is what is counted** from one point of a run to another. -/
def Books (r r' : Run P) : Prop :=
  ∃ events, r'.world.journal = events ++ r.world.journal ∧
    r'.memo.tally.counts = r.memo.tally.counts.merge (Event.total events)

namespace Books

variable {r r' r'' : Run P}

/-- Nothing is written down, and nothing is counted. -/
theorem of_eq (hjournal : r'.world.journal = r.world.journal)
    (htally : r'.memo.tally = r.memo.tally) : r.Books r' :=
  ⟨[], hjournal, by rw [htally]; exact (Tally.merge_zero _).symm⟩

theorem trans (h : r.Books r') (h' : r'.Books r'') : r.Books r'' := by
  obtain ⟨events, hjournal, hcounts⟩ := h
  obtain ⟨events', hjournal', hcounts'⟩ := h'
  refine ⟨events' ++ events, ?_, ?_⟩
  · rw [hjournal', hjournal, List.append_assoc]
  · rw [hcounts', hcounts, Event.total_append, Tally.merge_assoc,
      Tally.merge_comm (Event.total events)]

/-- One event is written down and counted. -/
theorem of_event (event : Event) (hjournal : r'.world.journal = event :: r.world.journal)
    (hcounts : r'.memo.tally.counts = (r.memo.tally.merge event.tally).counts) : r.Books r' := by
  refine ⟨[event], hjournal, ?_⟩
  rw [hcounts, Tally.counts_merge, event.counts_tally, Event.total_cons]
  exact congrArg _ (Tally.merge_zero _).symm

end Books

variable (r : Run P)

theorem journal_mapInnermost (f : Memo → Memo) :
    (r.mapInnermost f).world.journal = r.world.journal := by
  unfold mapInnermost
  split <;> rfl

/-- A result is handed to a frame that is there. -/
theorem books_handOver (hframes : r.frames.items ≠ []) (result : Except EvalError Value) :
    r.Books (r.handOver result).run := by
  unfold handOver
  split
  next => exact .of_eq rfl rfl
  next =>
    split
    next => exact .of_eq rfl rfl
    next =>
      dsimp only
      split
      next hnil => exact absurd hnil hframes
      next frame _ _ =>
        exact .of_event (.injected frame.node) rfl
          (congrArg Tally.counts (Tally.merge_countInjection _).symm)

theorem books_answer (a : Answer) : r.Books (r.answer a).run := by
  unfold answer
  split
  next => exact .of_eq rfl rfl
  next hitems =>
    refine books_handOver (r.observe a.tainted) ?_ a.result
    rw [observe, Stack.items_mapTop, hitems]
    exact List.cons_ne_nil _ _

/-- **A visit.** -/
theorem books_visit (id : NodeId) (restore : Nat) (fresh : Bool) :
    r.Books (r.visit E id restore fresh).run := by
  have harrives := r.arrives E id restore fresh
  unfold visit
  generalize r.arrive E id restore fresh = arrived at harrives
  cases harrives with
  | absent => exact books_answer (r.truncate restore) _
  | param =>
    refine .trans (.of_event (.lookedUp id) ?_ ?_) (books_answer _ _)
    · exact congrArg (List.cons _)
        (journal_mapInnermost ((r.truncate restore).mapTally .countLookup) (·.setTainted id))
    · have htally := tally_mapInnermost ((r.truncate restore).mapTally .countLookup)
        (f := (·.setTainted id)) fun _ => rfl
      exact congrArg Tally.counts (htally.trans (Tally.merge_countLookup _).symm)
  | served =>
    exact .trans (.of_event (.served id) rfl
      (congrArg Tally.counts (Tally.merge_countHit _).symm)) (books_answer _ _)
  | missing => exact books_answer (r.truncate restore) _
  | @refused _ error volatile shared =>
    have hnoted : r.Books (((r.truncate restore).withShared shared).note
        (.started id fresh false)) :=
      .of_event (.started id fresh false) rfl (congrArg Tally.counts (Tally.merge_zero _).symm)
    exact hnoted.trans (books_answer _ ⟨.error error, volatile⟩)
  | started =>
    exact .of_event (.started id fresh true) rfl rfl

/-- **A step is served.** -/
theorem books_serve (step : Step) : r.Books (r.serve E step).run := by
  cases step with
  | done value =>
    have hjournal := congrArg World.journal (r.world_succeed value)
    exact .trans (.of_eq hjournal (r.tally_succeed value)) (books_answer (r.succeed value).1 _)
  | fail error =>
    have hjournal := congrArg World.journal (r.world_fail error)
    exact .trans (.of_eq hjournal (r.tally_fail error)) (books_answer (r.fail error).1 _)
  | request request =>
    cases request with
    | child id => exact books_visit r id _ _
    | under id bindings => exact books_visit { r with scope := r.scope.push bindings } id _ _
    | fresh id => exact books_visit r id _ _
    | await await => exact .of_eq rfl rfl

/-- **A turn** of a frame, within the limit. -/
theorem books_turn (hframes : r.frames.items ≠ [])
    (hwithin : r.countTurn.exceeded? E.limits = none) (input : Input) :
    r.Books (r.turn E input).run := by
  obtain ⟨frame, rest, hitems⟩ := List.exists_cons_of_ne_nil hframes
  have hcount : r.countTurn.frames.items = frame :: rest := hitems
  rw [turn_of_within hwithin]
  refine .trans (.of_event (.resumed frame.node input) ?_ ?_) (books_serve _ _)
  · simp only [resumeFrame, hcount]
    rfl
  · simp only [resumeFrame, hcount]
    exact congrArg Tally.counts (Tally.merge_countResumption _).symm

/-- **The end of a wait,** once the counters of what has settled have been taken over. -/
theorem books_wake (hframes : r.frames.items ≠ []) (world : World P) (c : Conclusion) :
    ({ r with world }.mapTally (·.merge c.tally)).Books (r.wake world (.settled c)).run := by
  have hobserved : ((({ r with world } : Run P).mapTally (·.merge c.tally)).observe
      c.tainted).frames.items ≠ [] := by
    obtain ⟨frame, rest, hitems⟩ := List.exists_cons_of_ne_nil hframes
    have hmerged : (({ r with world } : Run P).mapTally (·.merge c.tally)).frames.items =
        frame :: rest := hitems
    rw [observe, Stack.items_mapTop, hmerged]
    exact List.cons_ne_nil _ _
  exact books_handOver _ hobserved c.result

/-- The resumption that a turn counts without resuming a task: the one too many. -/
def refusal (E : Engine P) : Tally :=
  if (r.countTurn.exceeded? E.limits).isSome then Tally.zero.countResumption else .zero

end Run

end ProgramGraph
