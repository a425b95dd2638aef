import ProgramGraph.Proofs.Passage.Basic
import ProgramGraph.Registry.Standard
/-!
# Fatal errors

An error comes up in a run in one of four places: when the resumptions are too
many, when a task fails, when a node is visited that has no answer, and when a
wait brings an error. `Next.Raises` says where it comes up and how the run stands
at that moment. If the error is fatal, the run is over with it at once, and leaves
the world, the memo and the counters as they stood then. The other way round, a
task that is resumed with an error is so because a failure came up, and is given
the value of that failure.
-/

namespace ProgramGraph

variable {P : Plugins}

/-- The visit that a request makes: the scope that it is made under, the node, and
whether the node is evaluated against an empty memo. -/
inductive Request.Visits (s : Scope) : Request → Scope → NodeId → Bool → Prop
  | child (id : NodeId) : Visits s (.child id) s id false
  | under (id : NodeId) (bindings : Bindings) :
    Visits s (.under id bindings) (s.push bindings) id false
  | fresh (id : NodeId) : Visits s (.fresh id) s id true

namespace Next

/-- **The run is about to visit a node:** its task, once it is resumed, asks for
it. -/
inductive Visits (E : Engine P) : Next P → Run P → NodeId → Nat → Bool → Prop
  | turn {r r' : Run P} {input : Input} {request : Request} {scope : Scope} {id : NodeId}
    {fresh : Bool} (within : r.countTurn.exceeded? E.limits = none)
    (resumed : r.countTurn.resumeFrame input = (r', .request request))
    (visits : request.Visits r'.scope scope id fresh) :
    Visits E (.resume r input) { r' with scope } id r'.scope.depth fresh

/-- **An error comes up** on the way to what is next, in a run that stands as
given. -/
inductive Raises (E : Engine P) : Next P → EvalError → Run P → Next P → Prop
  /-- The run has taken more turns than it may. -/
  | limit {r : Run P} {input : Input} {limit : Nat}
    (exceeded : r.countTurn.exceeded? E.limits = some limit) :
    Raises E (.resume r input) (.stepLimitExceeded limit) r.countTurn (r.turn E input)
  /-- The task fails. -/
  | step {r r' : Run P} {input : Input} {e : EvalError}
    (within : r.countTurn.exceeded? E.limits = none)
    (resumed : r.countTurn.resumeFrame input = (r', .fail e)) :
    Raises E (.resume r input) e r' (r.turn E input)
  /-- A node is visited that has no value. -/
  | visit {next : Next P} {r r' : Run P} {id : NodeId} {restore : Nat} {fresh : Bool}
    {e : EvalError} {tainted : Bool} (visits : next.Visits E r id restore fresh)
    (arrived : r.arrive E id restore fresh = (r', .ready ⟨.error e, tainted⟩)) :
    Raises E next e r' (r.visit E id restore fresh)
  /-- What was waited for comes to an error. -/
  | wake {r : Run P} {await : Await} {world : World P} {c : Conclusion} {e : EvalError}
    (settled : c.result = .error e) :
    Raises E (.wait r await) e (Run.mapTally { r with world } (·.merge c.tally))
      (r.wake world (.settled c))

variable {E : Engine P} {next next' : Next P} {r : Run P} {e : EvalError}

/-- A run that is about to visit a node does so. -/
theorem Visits.leads {id : NodeId} {restore : Nat} {fresh : Bool}
    (h : next.Visits E r id restore fresh) : next.Leads E (r.visit E id restore fresh) := by
  cases h with
  | @turn r r' input request scope _ _ within resumed visits =>
    have hturn : r.turn E input =
        Run.visit E { r' with scope } id r'.scope.depth fresh := by
      simp only [Run.turn, within, resumed]
      cases visits <;> rfl
    rw [← hturn]
    exact .turn r input

/-- What follows on an error is the next thing that the run does. -/
theorem Raises.leads (h : next.Raises E e r next') : next.Leads E next' := by
  cases h with
  | limit => exact .turn _ _
  | step => exact .turn _ _
  | visit visits => exact visits.leads
  | wake => exact .wake _ _ _ _

end Next

/-- A fatal error has no value. -/
theorem EvalError.errorValue_of_fatal {e : EvalError} (he : e.isInterceptable = false) :
    e.errorValue = .error e := by
  cases e <;> first | rfl | cases he

/-- Only a failure has a value, its own. -/
theorem EvalError.eq_failed_of_errorValue {e : EvalError} {value : Value}
    (h : e.errorValue = .ok value) : e = .failed value := by
  cases e <;> cases h
  rfl

namespace Run

variable {E : Engine P} {r : Run P} {e : EvalError}

/-! ## Fatal errors end a run -/

/-- The run is over with an error, and the world and the memo are those of
another run. -/
def EndsWith (e : EvalError) (r : Run P) (next : Next P) : Prop :=
  ∃ o, next = .finish o ∧ o.result = .error e ∧ o.run.world = r.world ∧ o.run.memo = r.memo

theorem endsWith_handOver (he : e.isInterceptable = false) (tainted : Bool) :
    EndsWith e r ((r.observe tainted).handOver (.error e)) := by
  refine ⟨_, by simp only [handOver, EvalError.errorValue_of_fatal he]; rfl, rfl, rfl, rfl⟩

theorem endsWith_answer (he : e.isInterceptable = false) (tainted : Bool) :
    EndsWith e r (r.answer ⟨.error e, tainted⟩) := by
  unfold answer
  split
  · exact ⟨_, rfl, rfl, rfl, rfl⟩
  · exact endsWith_handOver he tainted

/-- **A task that fails with a fatal error ends the run,** whoever waits below. -/
theorem endsWith_fail (he : e.isInterceptable = false) : EndsWith e r (r.serve E (.fail e)) := by
  have hmemo : (r.fail e).1.memo = r.memo := by
    unfold fail
    split
    · rfl
    · split <;> rfl
  obtain ⟨tainted, hanswer⟩ : ∃ tainted, (r.fail e).2 = ⟨.error e, tainted⟩ := by
    unfold fail
    split
    · exact ⟨true, rfl⟩
    · exact ⟨_, rfl⟩
  obtain ⟨o, hnext, hresult, hworld, hmemo'⟩ := endsWith_answer (r := (r.fail e).1) he tainted
  rw [← hanswer] at hnext
  exact ⟨o, hnext, hresult, hworld.trans (r.world_fail e), hmemo'.trans hmemo⟩

/-! ## Failures are handed over as they are -/

theorem eq_failed_of_handOver {r' : Run P} {result : Except EvalError Value} {value : Value}
    (h : r.handOver result = .resume r' (.error value)) : result = .error (.failed value) := by
  unfold handOver at h
  split at h
  · cases h
  next error =>
    split at h
    · cases h
    next value' hvalue =>
      cases h
      rw [EvalError.eq_failed_of_errorValue hvalue]

theorem eq_failed_of_answer {r' : Run P} {a : Answer} {value : Value}
    (h : r.answer a = .resume r' (.error value)) : a.result = .error (.failed value) := by
  unfold answer at h
  split at h
  · cases h
  · exact eq_failed_of_handOver h

theorem eq_failed_of_visit {r' : Run P} {id : NodeId} {restore : Nat} {fresh : Bool} {value : Value}
    (h : r.visit E id restore fresh = .resume r' (.error value)) :
    ∃ r'' tainted, r.arrive E id restore fresh = (r'', .ready ⟨.error (.failed value), tainted⟩) := by
  unfold visit at h
  split at h
  · cases h
  next r'' a harrive =>
    have ha := eq_failed_of_answer h
    exact ⟨r'', a.tainted, by rw [harrive, ← ha]⟩

/-- A run whose root is answered without a frame is over. -/
theorem begin_of_ready {root : NodeId} {r' : Run P} {a : Answer} (hframes : r.frames.items = [])
    (h : r.arrive E root r.scope.depth false = (r', .ready a)) :
    r.begin E root = .finish ⟨a.result, a.tainted, r'⟩ := by
  have hframes' : r'.frames.items = [] := by
    have harrives := r.arrives E root r.scope.depth false
    rw [h] at harrives
    cases harrives with
    | param =>
      show (mapInnermost _ _).frames.items = []
      unfold mapInnermost
      split <;> exact hframes
    | _ => exact hframes
  simp only [begin, visit, h, answer, hframes']

/-- **A task that is resumed with an error by a turn** is so because a failure
came up. -/
theorem raises_of_turn {r' : Run P} {input : Input} {value : Value}
    (h : r.turn E input = .resume r' (.error value)) :
    ∃ r₀, Next.Raises E (.resume r input) (.failed value) r₀ (r.turn E input) := by
  cases hexceeded : r.countTurn.exceeded? E.limits with
  | some limit =>
    simp only [turn, hexceeded] at h
    cases h
  | none =>
    obtain ⟨r₁, step, hresume⟩ : ∃ r₁ step, r.countTurn.resumeFrame input = (r₁, step) :=
      ⟨_, _, rfl⟩
    have hturn : r.turn E input = r₁.serve E step := by simp only [turn, hexceeded, hresume]
    rw [hturn] at h
    cases step with
    | done value' =>
      have hanswer := eq_failed_of_answer h
      split at hanswer <;> cases hanswer
    | fail error =>
      have hanswer := eq_failed_of_answer h
      have hresult : (r₁.fail error).2.result = .error error := by
        unfold fail
        split <;> rfl
      obtain rfl : error = .failed value := Except.error.inj (hresult.symm.trans hanswer)
      exact ⟨r₁, .step hexceeded hresume⟩
    | request request =>
      have hvisit : ∀ {scope : Scope} {id : NodeId} {fresh : Bool},
          request.Visits r₁.scope scope id fresh →
          r₁.serve E (.request request) = Run.visit E { r₁ with scope } id r₁.scope.depth fresh →
          ∃ r₀, Next.Raises E (.resume r input) (.failed value) r₀ (r.turn E input) := by
        intro scope id fresh hvisits hserve
        rw [hserve] at h hturn
        obtain ⟨r₀, tainted, harrive⟩ := eq_failed_of_visit h
        rw [hturn]
        exact ⟨r₀, .visit (.turn hexceeded hresume hvisits) harrive⟩
      cases request with
      | child id => exact hvisit (.child id) rfl
      | under id bindings => exact hvisit (.under id bindings) rfl
      | fresh id => exact hvisit (.fresh id) rfl
      | await await => cases h

end Run

section Fatal

variable {E : Engine P} {root : NodeId} {memo : Memo} {scope : Scope} {world : World P}
  {next next' : Next P} {r : Run P} {e : EvalError}

/-- **A fatal error ends the run** that it comes up in. -/
theorem Next.Raises.endsWith (h : next.Raises E e r next') (he : e.isInterceptable = false) :
    Run.EndsWith e r next' := by
  cases h with
  | limit exceeded =>
    refine ⟨_, by simp only [Run.turn, exceeded]; rfl, rfl, rfl, rfl⟩
  | @step r₀ _ input _ within resumed =>
    have hturn : r₀.turn E input = r.serve E (.fail e) := by simp only [Run.turn, within, resumed]
    rw [hturn]
    exact Run.endsWith_fail he
  | visit visits arrived =>
    simp only [Run.visit, arrived]
    exact Run.endsWith_answer he _
  | @wake r await world c _ settled =>
    simp only [Run.wake, settled]
    exact Run.endsWith_handOver he c.tainted

/-! ## Nodes of frames -/

/-- **No frame is for a parameter.** -/
theorem Engine.MayReach.param?_of_mem (h : E.MayReach root memo scope world next) :
    ∀ slot ∈ next.run.slots, ∃ node, E.graph.get? slot.node = some node ∧ node.param? = none := by
  have hshift : ∀ {r r' : Run P}, r.Shifts E r' →
      (∀ slot ∈ r.slots, ∃ node, E.graph.get? slot.node = some node ∧ node.param? = none) →
      ∀ slot ∈ r'.slots, ∃ node, E.graph.get? slot.node = some node ∧ node.param? = none := by
    intro r r' hshifts hr
    cases hshifts with
    | stay h =>
      rw [h.slots]
      exact hr
    | push slot h =>
      rw [h.slots, List.forall_mem_cons]
      exact ⟨h.node, hr⟩
    | pop slot h =>
      rw [h.slots, List.forall_mem_cons] at hr
      exact hr.2
    | stop h =>
      rw [h.slots]
      exact nofun
  induction h with
  | refl => exact hshift (Run.begin_shifts _ root) nofun
  | tail _ hleads ih => exact hshift hleads.shifts ih

/-- The status of a node in two memos is the same. -/
def Memo.SameStatus (m m' : Memo) (id : NodeId) : Prop :=
  m'.kept? id = m.kept? id ∧ m'.isTainted id = m.isTainted id

/-- A visit that comes to an error changes the status of parameters only. -/
theorem Run.sameStatus_of_arrive {r r' : Run P} {id : NodeId} {restore : Nat} {fresh : Bool}
    {a : Answer} (h : r.arrive E id restore fresh = (r', .ready a)) {other : NodeId} {node : Node}
    (hnode : E.graph.get? other = some node) (hparam : node.param? = none) :
    r.memo.SameStatus r'.memo other := by
  have harrives := r.arrives E id restore fresh
  rw [h] at harrives
  cases harrives with
  | param found param =>
    have hne : id ≠ other := by
      rintro rfl
      rw [hnode] at found
      cases found
      rw [hparam] at param
      cases param
    have hset : ∀ m : Memo, m.SameStatus (m.setTainted id) other := fun m =>
      ⟨by rw [Memo.kept?_setTainted, if_neg hne], by
        rw [Memo.isTainted_setTainted, beq_false_of_ne hne, Bool.false_or]⟩
    show r.memo.SameStatus (Run.mapInnermost _ _).memo other
    unfold mapInnermost
    split
    · exact hset r.memo
    · exact ⟨rfl, rfl⟩
  | _ => exact ⟨rfl, rfl⟩

/-- **An error changes the status of no node that has a frame,** as long as
nobody has taken it in. -/
theorem Next.Raises.sameStatus (h : next.Raises E e r next') {other : NodeId} {node : Node}
    (hnode : E.graph.get? other = some node) (hparam : node.param? = none) :
    next.run.memo.SameStatus r.memo other := by
  have hresume : ∀ {r r' : Run P} {input : Input} {step : Step},
      r.countTurn.resumeFrame input = (r', step) → r.memo.SameStatus r'.memo other := by
    intro r r' input step hresume
    have hmemo : (r.countTurn.resumeFrame input).1.memo = r.countTurn.memo := by
      unfold Run.resumeFrame
      split <;> rfl
    rw [hresume] at hmemo
    rw [hmemo]
    exact ⟨rfl, rfl⟩
  cases h with
  | limit => exact ⟨rfl, rfl⟩
  | step _ resumed => exact hresume resumed
  | visit visits arrived =>
    cases visits with
    | turn _ resumed _ =>
      obtain ⟨hkept, htainted⟩ := hresume resumed
      obtain ⟨hkept', htainted'⟩ := Run.sameStatus_of_arrive arrived hnode hparam
      exact ⟨hkept'.trans hkept, htainted'.trans htainted⟩
  | wake => exact ⟨rfl, rfl⟩

/-! ## Fatal errors and failures -/

/-- **What errors do to a run at a root.** -/
structure Engine.Uncompromising (E : Engine P) (root : NodeId) (memo : Memo) (scope : Scope)
    (world : World P) : Prop where
  /-- A fatal error ends the run, which does nothing more. Nothing has been done
  since the error came up, no counter has changed, and the memo says of every node
  that had a frame what it said before. -/
  fatal : ∀ next e r next', E.MayReach root memo scope world next → next.Raises E e r next' →
    e.isInterceptable = false → ∃ o, next' = .finish o ∧ o.result = .error e ∧
      (∀ later, ¬ next'.Leads E later) ∧ o.run.world = r.world ∧ o.run.memo = r.memo ∧
      ∀ frame ∈ next.run.frames.items, o.run.memo.kept? frame.node = next.run.memo.kept? frame.node ∧
        o.run.memo.isTainted frame.node = next.run.memo.isTainted frame.node
  /-- An error that comes up at the root is the end at once. -/
  beginning : ∀ r e tainted,
    Run.arrive E { memo, scope, world } root scope.depth false = (r, .ready ⟨.error e, tainted⟩) →
    Run.begin E { memo, scope, world } root = .finish ⟨.error e, tainted, r⟩
  /-- A task that is resumed with an error is given the value of a failure that
  has just come up. -/
  failure : ∀ r value, E.MayReach root memo scope world (.resume r (.error value)) →
    ∃ next r₀, E.MayReach root memo scope world next ∧
      next.Raises E (.failed value) r₀ (.resume r (.error value))

/-- **Fatal errors cannot be intercepted,** and failures are handed over as they
are. -/
theorem Engine.uncompromising (E : Engine P) (root : NodeId) (memo : Memo) (scope : Scope)
    (world : World P) : E.Uncompromising root memo scope world where
  fatal next e r next' hreach h he := by
    obtain ⟨o, rfl, hresult, hworld, hmemo⟩ := h.endsWith he
    refine ⟨o, rfl, hresult, Next.not_leads_finish o, hworld, hmemo, fun frame hframe => ?_⟩
    obtain ⟨node, hnode, hparam⟩ :=
      hreach.param?_of_mem frame.slot (List.mem_map_of_mem hframe)
    rw [hmemo]
    exact h.sameStatus hnode hparam
  beginning r e tainted h := Run.begin_of_ready rfl h
  failure r value h := by
    obtain hbegin | ⟨next, hnext, hleads⟩ := Relation.ReflTransGen.cases_tail h
    · -- at the beginning there is no task to be resumed with anything
      obtain ⟨r₁, tainted, harrive⟩ := Run.eq_failed_of_visit hbegin.symm
      rw [Run.begin_of_ready rfl harrive] at hbegin
      cases hbegin
    · refine ⟨next, ?_⟩
      generalize hlast : Next.resume r (.error value) = last at hleads
      cases hleads with
      | turn r₀ input =>
        obtain ⟨r₁, hraises⟩ := Run.raises_of_turn hlast.symm
        exact ⟨r₁, hnext, hraises⟩
      | wake r₀ await world wake =>
        cases wake with
        | elapsed => cases hlast
        | settled c => exact ⟨_, hnext, .wake (Run.eq_failed_of_handOver hlast.symm)⟩

/-- An attempt at a parameter that nothing binds. -/
def Graph.unbound : Graph := ⟨#[Node.ofParam ⟨0⟩, ⟨Tag.attempt, .child ⟨0⟩⟩]⟩

/-- The attempt does not get to see that the parameter is unbound. -/
theorem Engine.exists_raises_unbound :
    ∃ (r r' : Run .none) (next : Next .none) (o : Outcome .none),
      Engine.MayReach ⟨.unbound, .standard, {}⟩ ⟨1⟩ .empty .empty { shared := () }
        (.resume r .start) ∧
      Next.Raises ⟨.unbound, .standard, {}⟩ (.resume r .start) (.unboundParameter ⟨0⟩) r' next ∧
      next = .finish o ∧ o.result = .error (.unboundParameter ⟨0⟩) := by
  let E : Engine .none := ⟨.unbound, .standard, {}⟩
  -- the attempt has a frame, and its task asks for the parameter
  let frame : Frame .none := ⟨⟨1⟩, .builtin (.attempt ⟨⟨0⟩⟩), false, false, 0, false⟩
  obtain ⟨r, hbegin, hframes, hscope⟩ : ∃ r : Run .none,
      Run.begin E { memo := .empty, scope := .empty, world := { shared := () } } ⟨1⟩ =
        .resume r .start ∧ r.frames.items = [frame] ∧ r.scope = .empty := by
    have hkept : (if false then none else Memo.empty.kept? ⟨1⟩) = none := Memo.kept?_empty ⟨1⟩
    refine ⟨_, by simp only [Run.begin, Run.visit, Run.arrive, Run.innermost, hkept]; rfl, rfl, rfl⟩
  have hreach : E.MayReach ⟨1⟩ .empty .empty { shared := () } (.resume r .start) := by
    rw [Engine.MayReach, hbegin]
  have hresumed : r.countTurn.resumeFrame .start =
      ((r.countTurn.resumeFrame .start).1, .request (.child ⟨0⟩)) := by
    have hitems : r.countTurn.frames.items = [frame] := hframes
    simp only [Run.resumeFrame, hitems]
    rfl
  have hvisits := Next.Visits.turn (E := E) rfl hresumed (.child ⟨0⟩)
  have hscope' : (r.countTurn.resumeFrame .start).1.scope = .empty :=
    (r.countTurn.rests_resumeFrame .start).scope.trans hscope
  have hraises := Next.Raises.visit (e := .unboundParameter ⟨0⟩) hvisits
    (by simp only [Run.arrive, hscope']; rfl)
  obtain ⟨o, hnext, hresult, -⟩ :=
    (E.uncompromising ⟨1⟩ .empty .empty { shared := () }).fatal _ _ _ _ hreach hraises rfl
  exact ⟨r, _, _, o, hreach, hraises, hnext, hresult⟩

end Fatal

end ProgramGraph
