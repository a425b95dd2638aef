import ProgramGraph.Proofs.Fold.Reference
import ProgramGraph.Proofs.Fold.Total
import ProgramGraph.Proofs.Passage.Takeover
/-!
# The counters of a fold are those of all its runs

Where nothing hangs on time, whoever asks for jobs waits until all of them have settled,
those that come after a failure included. So at the end of a fold its counters are what the
events come to that are in the journal, each of them once, in whatever run they took place;
and the depth is that of the deepest stack (`Engine.Unrushed.audited`).

One thing is counted without being done: if a run may take no more resumptions, the one
that is too many is counted, but no task is resumed (`Engine.exists_evaluates_overrun`).
-/

namespace ProgramGraph

variable {P : Plugins} {E : Engine P}

/-! ## Counting events -/

namespace Event

/-- A task was made. -/
def isMade : Event → Bool
  | started _ _ accepted => accepted
  | _ => false

/-- A request was answered from a memo. -/
def isServed : Event → Bool
  | served _ => true
  | _ => false

/-- A parameter was looked up. -/
def isLookUp : Event → Bool
  | lookedUp _ => true
  | _ => false

/-- A task was resumed. -/
def isResumption : Event → Bool
  | resumed _ _ => true
  | _ => false

/-- A failure was handed to a task. -/
def isInjection : Event → Bool
  | injected _ => true
  | _ => false

/-- **What events come to** is how many there are of each kind. -/
theorem total_eq_counts (journal : List Event) :
    total journal = {
      starts := journal.countP isMade
      hits := journal.countP isServed
      lookups := journal.countP isLookUp
      steps := journal.countP isResumption
      injections := journal.countP isInjection } := by
  induction journal with
  | nil => rfl
  | cons event journal ih =>
    rw [total_cons, ih]
    simp only [List.countP_cons]
    cases event with
    | started node fresh accepted =>
      cases accepted <;>
        simp [tally, Tally.countStart, Tally.zero, Tally.merge, isMade, isServed, isLookUp, isResumption,
          isInjection, Nat.add_comm]
    | _ =>
      simp [tally, Tally.countHit, Tally.countLookup, Tally.countResumption, Tally.countInjection,
        Tally.zero, Tally.merge, isMade, isServed, isLookUp, isResumption, isInjection, Nat.add_comm]

end Event

/-! ## What is attended to -/

/-- The next turn is one too many for the limit. -/
def Next.isRefused (E : Engine P) : Next P → Bool
  | .resume r _ => (r.countTurn.exceeded? E.limits).isSome
  | _ => false

/-- **What a schedule attends to,** one thing after another, until the fold has ended: all
that its own run and those of its jobs pass through. -/
def Schedule.attended (E : Engine P) : (fuel : Nat) → Schedule P → List (Next P)
  | 0, _ => []
  | fuel + 1, s =>
    let later := match s.step E with
      | .going s => attended E fuel s
      | _ => []
    match s.focus with
    | .job _ next => next :: later
    | .agenda _ => later

/-- What an evaluation attends to. -/
def Engine.attended (E : Engine P) (fuel : Nat) (root : NodeId) (memo : Memo) (scope : Scope)
    (shared : P.Shared) : List (Next P) :=
  (Schedule.start (Run.begin E { memo, scope, world := { shared } } root)).attended E fuel

/-- What is on the list is attended to, at some step. -/
theorem Schedule.exists_of_mem_attended {s : Schedule P} {fuel : Nat} {next : Next P}
    (h : next ∈ s.attended E fuel) :
    ∃ s' id, Relation.ReflTransGen (fun s s' : Schedule P => s.step E = .going s') s s' ∧
      s'.focus = .job id next := by
  induction fuel generalizing s with
  | zero => cases h
  | succ fuel ih =>
    rw [attended] at h
    generalize hlist : (match s.step E with | .going s => attended E fuel s | _ => []) = later at h
    have hlater : next ∈ later → ∃ s' id,
        Relation.ReflTransGen (fun s s' : Schedule P => s.step E = .going s') s s' ∧
          s'.focus = .job id next := by
      intro hmem
      rw [← hlist] at hmem
      cases hstep : s.step E with
      | going s₁ =>
        rw [hstep] at hmem
        obtain ⟨s', id, hreach, hfocus⟩ := ih hmem
        exact ⟨s', id, .head hstep hreach, hfocus⟩
      | _ =>
        rw [hstep] at hmem
        cases hmem
    cases hfocus : s.focus with
    | agenda world =>
      rw [hfocus] at h
      exact hlater h
    | job id own =>
      rw [hfocus] at h
      rcases List.mem_cons.1 h with rfl | hmem
      · exact ⟨s, id, .refl, hfocus⟩
      · exact hlater hmem

/-- What is counted aside, as counters: the turns that are refused, and the deepest stack. -/
theorem Next.sum_aside (attended : List (Next P)) :
    (attended.map (Next.aside E)).sum = {
      steps := attended.countP (Next.isRefused E)
      depth := (attended.map fun next => next.run.frames.size).foldr max 0 } := by
  induction attended with
  | nil => rfl
  | cons next attended ih =>
    have hrefusal : next.refusal E = { steps := if next.isRefused E then 1 else 0 } := by
      cases next with
      | resume r input =>
        rw [Next.refusal, Run.refusal, Next.isRefused]
        split <;> rfl
      | _ => rfl
    rw [List.map_cons, List.sum_cons, ih, Next.aside, hrefusal, List.countP_cons]
    simp [Tally.add_def, Tally.merge, Tally.ofDepth, Nat.add_comm]

namespace Schedule

variable {s : Schedule P} {memo : Memo} {asked : JobId → Job} {given : Tally}

/-- **A fold begins** with what it is given. -/
theorem balanced_start (root : NodeId) (memo : Memo) (scope : Scope) (shared : P.Shared) :
    Balanced memo.tally (start (Run.begin E { memo, scope, world := { shared } } root))
      (.job Schedule.root (Run.begin E { memo, scope, world := { shared } } root)) := by
  let s : Schedule P := start (Run.begin E { memo, scope, world := { shared } } root)
  have hroot : ∀ id stage, s.stage? id = some stage → id = Schedule.root ∧ stage = .active := by
    intro id stage hstage
    obtain rfl : id = 0 := Nat.lt_one_iff.1 (lt_size_of_stage? hstage)
    exact ⟨rfl, (Option.some.inj hstage).symm⟩
  have hexpects : ∀ parent wait, ¬ s.Expects none parent wait := by
    rintro parent wait (hlooking | ⟨run, alarm, hstage⟩)
    · cases hlooking
    · cases (hroot parent _ hstage).2
  refine ⟨{Schedule.root}, ⟨Finset.mem_singleton_self _, fun id hid => ?_, fun id hlt _ => ?_,
    fun id hid hne => ?_, fun parent wait h => ?_, fun parent wait h => ?_⟩, rfl, ?_⟩
  · rw [Finset.mem_singleton.1 hid]
    exact Nat.zero_lt_one
  · rw [Finset.mem_singleton]
    exact Nat.lt_one_iff.1 hlt
  · exact absurd (Finset.mem_singleton.1 hid) hne
  · exact absurd h (hexpects parent wait)
  · exact absurd h (hexpects parent wait)
  · refine balanced_of_gains (Run.gains_begin (r := { memo, scope, world := { shared } }) rfl root) ?_
    have hheld : s.held Schedule.root = 0 := rfl
    have htotal : Event.total ([] : List Event) = 0 := rfl
    rw [Finset.sum_singleton, hheld, htotal, add_zero]

/-- **A step keeps the balance,** with what is counted aside. -/
theorem Balanced.step (hu : E.Unrushed)
    (htracks : TracksFocus E (fun _ => True) (fun _ => True) memo asked s s.focus)
    (h : Balanced given s s.focus) {s' : Schedule P} (hstep : s.step E = .going s') :
    Balanced (given + s.focus.aside E) s' s'.focus := by
  have hframes : ∀ {r : Run P}, r.frames.size ≠ 0 → r.frames.items ≠ [] :=
    (Stack.size_eq_zero_iff _).not.1
  cases steps hstep with
  | resumes hfocus =>
    rw [hfocus] at htracks h ⊢
    obtain ⟨-, -, hpasses⟩ := htracks
    obtain ⟨world, hreach⟩ := hpasses.mayReach
    exact Balanced.turn h hreach.deep (hframes hpasses.manned)
  | suspends hfocus =>
    rw [hfocus] at htracks h
    obtain ⟨htracks, -, hpasses⟩ := htracks
    obtain ⟨world, hreach⟩ := hpasses.mayReach
    rw [hfocus]
    exact Balanced.suspend h htracks.issued hreach.deep (hframes hpasses.manned) (hu.plain hreach)
  | settles hfocus _ =>
    rw [hfocus] at h ⊢
    exact Balanced.settle h
  | @proceeds world _ hfocus hproceed =>
    rw [hfocus] at htracks h
    obtain ⟨htracks, -⟩ := htracks
    have haside : s.focus.aside E = 0 := by rw [hfocus]; rfl
    rw [haside, add_zero]
    refine Balanced.proceed h (fun id run wait alarm hstage => ?_) hproceed
    obtain ⟨-, await, hpasses, -⟩ := htracks.stages id _ hstage
    obtain ⟨world', hreach⟩ := hpasses.mayReach
    exact ⟨hreach.deep, hframes hpasses.manned⟩

/-- **At the end the root holds everything,** and every job has settled. -/
theorem Balanced.finish {o : Outcome P} (h : Balanced given s (.job root (.finish o))) :
    o.run.memo.tally = given + Event.total o.run.world.journal + (Next.finish o).aside E ∧
      ∀ id, id ≠ root → id < s.jobs.size → s.conclusion? id ≠ none := by
  obtain ⟨live, hkin, hactive, hsum⟩ := h
  obtain rfl := hkin.eq_root hactive
  refine ⟨?_, fun id hid hlt hopen => hid (Finset.mem_singleton.1 (hkin.unsettled id hlt hopen))⟩
  have haside : (Next.finish o).aside E = .ofDepth o.run.frames.size := add_zero _
  rw [Finset.sum_singleton, held_of_active hactive, add_zero] at hsum
  rw [haside]
  exact hsum

/-- **What has been counted in the end,** by induction on the steps. -/
theorem Balanced.follow (hu : E.Unrushed) {fuel : Nat} {o : Outcome P}
    (htracks : TracksFocus E (fun _ => True) (fun _ => True) memo asked s s.focus)
    (h : Balanced given s s.focus) (ho : s.follow E fuel = some o) :
    o.run.memo.tally =
      given + Event.total o.run.world.journal + ((s.attended E fuel).map (Next.aside E)).sum := by
  induction fuel generalizing s asked given with
  | zero => cases ho
  | succ fuel ih =>
    unfold Schedule.follow at ho
    unfold Schedule.attended
    rcases htracks.step (closed_true E memo) with ⟨s', asked', hstep, -, htracks'⟩ | ⟨o', hstep, -⟩
    · have hlater := ih htracks' (h.step hu htracks hstep) (by rw [hstep] at ho; exact ho)
      rw [hlater, hstep]
      cases s.focus with
      | agenda world =>
        have haside : (Focus.agenda world).aside E = 0 := rfl
        rw [haside, add_zero]
      | job id next =>
        have haside : (Focus.job id next).aside E = next.aside E := rfl
        rw [haside, List.map_cons, List.sum_cons]
        abel
    · rw [hstep] at ho
      cases ho
      have hfocus := focus_of_ended hstep
      rw [hfocus] at h
      rw [hfocus, hstep, List.map_singleton, List.sum_singleton]
      exact h.finish.1

/-- **All that an evaluation gets to** is balanced. -/
theorem exists_balanced (hu : E.Unrushed) {root : NodeId} {memo : Memo} {scope : Scope}
    {shared : P.Shared} {s : Schedule P} (h : E.GetsTo root memo scope shared s) :
    ∃ given, Balanced given s s.focus := by
  induction h with
  | refl => exact ⟨memo.tally, balanced_start _ _ _ _⟩
  | tail hgets hstep ih =>
    obtain ⟨given, hbalanced⟩ := ih
    obtain ⟨asked, -, htracks⟩ := exists_tracksFocus (closed_true E memo) trivial trivial hgets
    exact ⟨_, hbalanced.step hu htracks hstep⟩

end Schedule

/-! ## The ledger of a fold -/

/-- **The ledger of an evaluation:** what it has added to the counters. -/
structure Engine.Ledger (E : Engine P) (fuel : Nat) (root : NodeId) (memo : Memo) (scope : Scope)
    (shared : P.Shared) (o : Outcome P) : Prop where
  /-- Every task that was made, -/
  starts : o.run.memo.tally.starts = memo.tally.starts + o.run.world.journal.countP Event.isMade
  /-- every answer from a memo, -/
  hits : o.run.memo.tally.hits = memo.tally.hits + o.run.world.journal.countP Event.isServed
  /-- every look-up of a parameter, -/
  lookups : o.run.memo.tally.lookups =
    memo.tally.lookups + o.run.world.journal.countP Event.isLookUp
  /-- every failure that was handed to a task, -/
  injections : o.run.memo.tally.injections =
    memo.tally.injections + o.run.world.journal.countP Event.isInjection
  /-- and every resumption, with those that the limit has refused. -/
  steps : o.run.memo.tally.steps =
    memo.tally.steps + o.run.world.journal.countP Event.isResumption +
      (E.attended fuel root memo scope shared).countP (Next.isRefused E)
  /-- The depth is what it was, or that of the deepest stack of any run. -/
  depth : o.run.memo.tally.depth = max memo.tally.depth
    (((E.attended fuel root memo scope shared).map fun next => next.run.frames.size).foldr max 0)
  /-- No run is left out, -/
  complete : ∀ next, E.AttendsTo root memo scope shared next →
    next ∈ E.attended fuel root memo scope shared
  /-- and none is left unfinished. -/
  settled : ∀ s, E.GetsTo root memo scope shared s → s.focus = .job Schedule.root (.finish o) →
    ∀ id, id ≠ Schedule.root → id < s.jobs.size → s.conclusion? id ≠ none

namespace Engine

variable {fuel : Nat} {root : NodeId} {memo : Memo} {scope : Scope} {shared : P.Shared} {o : Outcome P}

/-- Whatever a schedule comes to before its end is attended to. -/
theorem mem_attended {s t : Schedule P} {id : JobId} {next : Next P}
    (h : Relation.ReflTransGen (fun s s' : Schedule P => s.step E = .going s') s t)
    (hfocus : t.focus = .job id next) (ho : s.follow E fuel = some o) : next ∈ s.attended E fuel := by
  induction h using Relation.ReflTransGen.head_induction_on generalizing fuel with
  | refl =>
    cases fuel with
    | zero => cases ho
    | succ fuel =>
      rw [Schedule.attended, hfocus]
      exact List.mem_cons_self
  | head hstep _ ih =>
    cases fuel with
    | zero => cases ho
    | succ fuel =>
      rw [Schedule.follow, hstep] at ho
      have hlater := ih ho
      rw [Schedule.attended, hstep]
      split
      · exact List.mem_cons_of_mem _ hlater
      · exact hlater

/-- **The counters of a fold are those of all its runs,** whatever it ends with and within any
limit, if nothing hangs on time. -/
theorem Unrushed.audited (hu : E.Unrushed) (ho : E.evaluate? fuel root memo scope shared = some o) :
    E.Ledger fuel root memo scope shared o := by
  let begin : Next P := Run.begin E { memo, scope, world := { shared } } root
  have hpasses : Passes E (fun _ => True) memo ⟨root, scope⟩ begin := .begin trivial
  have htracks : Schedule.TracksFocus E (fun _ => True) (fun _ => True) memo (fun _ => ⟨root, scope⟩)
      (.start begin) (Schedule.start begin).focus := Schedule.tracksFocus_start trivial hpasses
  have htally := (Schedule.balanced_start root memo scope shared).follow hu htracks ho
  rw [Event.total_eq_counts, Next.sum_aside, Tally.add_def, Tally.add_def] at htally
  have hfield := fun field : Tally → Nat => congrArg field htally
  refine ⟨hfield Tally.starts, hfield Tally.hits, hfield Tally.lookups, hfield Tally.injections,
    hfield Tally.steps, ?_, ?_, ?_⟩
  · refine (hfield Tally.depth).trans ?_
    simp [Tally.merge, attended, begin]
  · rintro next ⟨s, id, hgets, hfocus⟩
    exact mem_attended hgets hfocus ho
  · intro s hgets hfocus id hid hlt
    obtain ⟨given, hbalanced⟩ := Schedule.exists_balanced hu hgets
    rw [hfocus] at hbalanced
    exact (hbalanced.finish (E := E)).2 id hid hlt

/-- **The counters of a fold are those of all its runs,** each thing counted once: in a graph
without races and timeouts, whatever the memo, the scope and the limit. -/
theorem ledger {g : Graph} {reg : Registry P} (hr : reg = .standard ∨ reg = .standardSequential)
    (hu : g.Untimed) (limits : Limits)
    (ho : Engine.evaluate? ⟨g, reg, limits⟩ fuel root memo scope shared = some o) :
    Engine.Ledger ⟨g, reg, limits⟩ fuel root memo scope shared o := by
  have hnative : reg.Native := Registry.native_of_standard_or hr
  have hunrushed : Engine.Unrushed ⟨g, reg, limits⟩ := unrushed_of_untimed hnative hu
  exact hunrushed.audited ho

end Engine

/-- The list of pairs is made by jobs, and each run may take five turns. -/
theorem Engine.exists_ledger_pairing :
    Graph.pairing.Untimed ∧ ∃ (fuel : Nat) (o : Outcome .none),
      Engine.evaluate? ⟨.pairing, .standard, { maxSteps := some 5 }⟩ fuel ⟨3⟩ .empty .empty () = some o ∧
      Engine.Ledger ⟨.pairing, .standard, { maxSteps := some 5 }⟩ fuel ⟨3⟩ .empty .empty () o := by
  have hu : Graph.pairing.Untimed := by decide
  obtain ⟨o, fuel, ho⟩ := Engine.exists_evaluates (P := .none)
    (E := ⟨.pairing, .standard, { maxSteps := some 5 }⟩) rfl Registry.native_standard ⟨3⟩ .empty .empty ()
  exact ⟨hu, fuel, o, ho, Engine.ledger (.inl rfl) hu { maxSteps := some 5 } ho⟩

/-- Nothing but a constant. -/
def Graph.constant : Graph := ⟨#[literalNode (.nat 7)]⟩

/-- **A resumption may be counted though no task is resumed:** the one that is too many for
the limit. -/
theorem Engine.exists_evaluates_overrun :
    Graph.constant.Untimed ∧ ∃ o : Outcome .none,
      Engine.Evaluates ⟨.constant, .standard, { maxSteps := some 0 }⟩ ⟨0⟩ .empty .empty () o ∧
      o.result = .error (.stepLimitExceeded 0) ∧ o.run.memo.tally.steps = 1 ∧
      ¬ o.run.memo.tally.steps =
        Memo.empty.tally.steps + o.run.world.journal.countP Event.isResumption := by
  let E : Engine .none := ⟨.constant, .standard, { maxSteps := some 0 }⟩
  let r : Run .none := { memo := .empty, scope := .empty, world := { shared := () } }
  have hu : Graph.constant.Untimed := by decide
  have hliteral : E.registry.get Tag.literal = .ok ⟨.builtin .literal, false⟩ := by cbv
  have hstarts : E.Starts ⟨0⟩ (.leaf ⟨some (.ok (.nat 7))⟩) false :=
    ⟨_, _, _, rfl, rfl, hliteral, rfl, rfl, rfl⟩
  obtain ⟨r', hbegin, htally, hjournal⟩ : ∃ r' : Run .none, r.begin E ⟨0⟩ = .resume r' .start ∧
      r'.memo.tally.steps = 0 ∧ r'.world.journal.countP Event.isResumption = 0 :=
    ⟨_, hstarts.visit (Memo.kept?_empty _), rfl, rfl⟩
  have hexceeded : r'.countTurn.exceeded? E.limits = some 0 := by
    simp [Run.exceeded?, Run.countTurn, Run.mapTally, E]
  obtain ⟨o, hturn, hresult, hmemo, hworld⟩ : ∃ o : Outcome .none, r'.turn E .start = .finish o ∧
      o.result = .error (.stepLimitExceeded 0) ∧ o.run.memo = r'.countTurn.memo ∧
      o.run.world = r'.world := ⟨_, Run.turn_of_exceeded hexceeded .start, rfl, rfl, rfl⟩
  have hcounted : o.run.memo.tally.steps = 1 := by
    rw [hmemo]
    exact congrArg (· + 1) htally
  refine ⟨hu, o, ⟨2, ?_⟩, hresult, hcounted, ?_⟩
  · show (Schedule.start (r.begin E ⟨0⟩)).follow E 2 = some o
    simp only [hbegin, Schedule.start, Schedule.follow, Schedule.step, hturn, if_true]
  · rw [hcounted, hworld, hjournal]
    decide

end ProgramGraph
