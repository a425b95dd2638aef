import ProgramGraph.Graph.Families
import ProgramGraph.Proofs.Fold.Basic
import ProgramGraph.Proofs.Passage.Steps
import ProgramGraph.Proofs.Solo.Amend
/-!
# What a limit limits

A limit on the steps is one for each run by itself, that of the fold and that of every
job (`Engine.rationed`). The counters of a fold add up what the fold has done with what
has been taken over from jobs, so where there are jobs they may come to more
(`Engine.exists_folds_relay`).
-/

namespace ProgramGraph

variable {P : Plugins}

/-- **Each run of an evaluation has a limit to itself.** -/
structure Engine.Rationed (E : Engine P) (root : NodeId) (memo : Memo) (scope : Scope)
    (shared : P.Shared) (limit : Nat) : Prop where
  /-- No run takes more than one step beyond the limit, -/
  runs : ∀ next, E.AttendsTo root memo scope shared next → next.run.steps ≤ limit + 1
  /-- and that step is what it ends with. -/
  stops : ∀ next, E.AttendsTo root memo scope shared next → limit < next.run.steps →
    ∃ o, next = .finish o ∧ o.result = .error (.stepLimitExceeded limit)
  /-- The counters show the steps of the fold and those of some jobs that have ended, and
  so no more than the limit and one for each of them. -/
  total : ∀ o, E.Evaluates root memo scope shared o → ∃ ends : List (Outcome P),
    (∀ ended ∈ ends, E.EndsJob root memo scope shared ended) ∧
    o.run.memo.tally.steps =
      memo.tally.steps + o.run.steps + (ends.map fun ended => ended.run.steps).sum ∧
    o.run.memo.tally.steps ≤ memo.tally.steps + (limit + 1) * (ends.length + 1)
  /-- Without jobs the limit is one for all that the counters show. -/
  alone : (∀ r await, E.AttendsTo root memo scope shared (.wait r await) → await.jobs = []) →
    ∀ o, E.Evaluates root memo scope shared o →
      o.run.memo.tally.steps ≤ memo.tally.steps + (limit + 1)

namespace Engine

variable {E : Engine P} {root : NodeId} {memo : Memo} {scope : Scope} {shared : P.Shared}
  {limit : Nat}

/-- **Whatever an evaluation attends to keeps to the limit.** -/
theorem AttendsTo.allowed (hlimit : E.limits.maxSteps = some limit) {next : Next P}
    (h : E.AttendsTo root memo scope shared next) : next.Allowed limit := by
  rcases h.exists_passes (Schedule.closed_true E memo) trivial trivial with
    hpasses | ⟨job, -, hpasses⟩
  · exact hpasses.allowed hlimit
  · exact hpasses.allowed hlimit

/-- **A limit is one for each run:** in any graph, whatever the memo and the scope. -/
theorem rationed (g : Graph) (limit : Nat) (root : NodeId) (memo : Memo) (scope : Scope)
    (shared : P.Shared) :
    Engine.Rationed ⟨g, .standard, { maxSteps := some limit }⟩ root memo scope shared limit := by
  let E : Engine P := ⟨g, .standard, { maxSteps := some limit }⟩
  have hallowed : ∀ next, E.AttendsTo root memo scope shared next → next.Allowed limit :=
    fun next h => h.allowed rfl
  have hruns : ∀ next, E.AttendsTo root memo scope shared next → next.run.steps ≤ limit + 1 := by
    intro next h
    rcases hallowed next h with hle | ⟨heq, -⟩
    · exact Nat.le_succ_of_le hle
    · exact Nat.le_of_eq heq
  have hends : ∀ o, E.EndsJob root memo scope shared o → o.run.steps ≤ limit + 1 := by
    rintro o ⟨s, id, hgets, hfocus, -⟩
    exact hruns (.finish o) ⟨s, id, hgets, hfocus⟩
  have hown : ∀ o, E.Evaluates root memo scope shared o → o.run.steps ≤ limit + 1 ∧
      Outcome.MakeUp (E.EndsJob root memo scope shared) (memo.tally.steps + o.run.steps)
        o.run.memo.tally.steps := by
    rintro o ⟨fuel, hfuel⟩
    obtain ⟨hpasses, -⟩ := passes_of_evaluate? (Schedule.closed_true E memo) trivial trivial hfuel
    refine ⟨?_, ?_⟩
    · rcases hpasses.allowed rfl with hle | ⟨heq, -⟩
      · exact Nat.le_succ_of_le hle
      · exact Nat.le_of_eq heq
    · have hcarries := carries_steps (E := E) Registry.native_standard
        (Registry.ordinary_of_standard_or (.inl rfl)) root memo scope shared
      have hmakes := hcarries.evaluates hfuel
      rw [Schedule.memoOf_root] at hmakes
      exact hmakes
  refine ⟨hruns, ?stops, ?total, ?alone⟩
  case stops =>
    intro next h hlt
    rcases hallowed next h with hle | ⟨-, hstops⟩
    · exact absurd hlt (Nat.not_lt.2 hle)
    · exact hstops
  case total =>
    intro o ho
    obtain ⟨hsteps, hmakes⟩ := hown o ho
    obtain ⟨ends, hended, htotal, hle⟩ := hmakes.le hends
    refine ⟨ends, hended, htotal, ?_⟩
    rw [Nat.mul_succ]
    omega
  case alone =>
    intro hnone o ho
    obtain ⟨hsteps, ends, hended, htotal⟩ := hown o ho
    -- no job has ended, since there is none
    obtain rfl : ends = [] := List.eq_nil_iff_forall_not_mem.2 fun ended h =>
      not_endsJob hnone ended (hended ended h)
    have htotal : o.run.memo.tally.steps = memo.tally.steps + o.run.steps + 0 := htotal
    omega

/-! ## A race in a race -/

/-- **A constant** takes one step. -/
theorem exists_fares_constant {id : NodeId} {value : Value}
    (hlimit : E.limits.maxSteps = some (limit + 2))
    (hstarts : E.Starts id (.leaf ⟨some (.ok value)⟩) false) (s : Scope) :
    ∃ fate, E.Fares ⟨id, s⟩ fate ∧ fate.report.result = .ok value ∧
      fate.report.memo.tally.steps = 1 := by
  let started : Tally := (Tally.zero.countStart.reachDepth 1).countResumption
  refine ⟨⟨⟨.ok value, false, (Memo.empty.mapTally fun _ => started).put id value false⟩, 0, 3⟩,
    fun world => ?_, rfl, rfl⟩
  have hbegin : Run.begin E { scope := s, world } id = _ := hstarts.visit (Memo.kept?_empty id)
  rw [hbegin]
  refine .resume ?_
  rw [Run.turn_of_within (Run.exceeded?_eq_none hlimit (Nat.le_add_left 1 _))]
  exact .finish _

/-- **A race with one branch** comes to what the branch comes to, with two steps more. -/
theorem exists_fares_race {id branch : NodeId} {value : Value} {steps : Nat}
    (hlimit : E.limits.maxSteps = some (limit + 2)) (hstarts : E.Starts id (.race ⟨branch, []⟩) true)
    (hbranch : ∀ s, ∃ fate, E.Fares ⟨branch, s⟩ fate ∧ fate.report.result = .ok value ∧
      fate.report.memo.tally.steps = steps) (s : Scope) :
    ∃ fate, E.Fares ⟨id, s⟩ fate ∧ fate.report.result = .ok value ∧
      fate.report.memo.tally.steps = steps + 2 := by
  obtain ⟨⟨⟨result, tainted, memo⟩, d, n⟩, hfate, hresult, hsteps⟩ :=
    hbranch (Scope.ofBindings s.flatten)
  obtain rfl : result = .ok value := hresult
  obtain rfl : memo.tally.steps = steps := hsteps
  let started : Tally := (Tally.zero.countStart.reachDepth 1).countResumption
  let ended : Tally := (started.merge memo.tally).countResumption
  refine ⟨⟨⟨.ok value, true, (Memo.empty.mapTally fun _ => ended).put id value true⟩, d + 0,
    Fate.workOf [⟨⟨.ok value, tainted, memo⟩, d, n⟩] + 3 + 1⟩, fun world => ?_, rfl, ?_⟩
  · have hbegin : Run.begin E { scope := s, world } id = _ := hstarts.visit (Memo.kept?_empty id)
    rw [hbegin]
    refine .resume ?_
    rw [Run.turn_of_steady rfl rfl rfl (Run.exceeded?_eq_none hlimit (Nat.le_add_left 1 _))]
    have hres : (Await.first ⟨branch, Scope.ofBindings s.flatten⟩ []).Resolves
        [(⟨.ok value, tainted, memo.tally⟩, d)] (.settled ⟨.ok value, tainted, memo.tally⟩) d :=
      (Await.resolves_first_iff (List.mem_singleton_self _)
        fun other hother => .inl (List.mem_singleton.1 hother)).2 ⟨rfl, rfl⟩
    have hfates : List.Forall₂ E.Fares [⟨branch, Scope.ofBindings s.flatten⟩]
        [⟨⟨.ok value, tainted, memo⟩, d, n⟩] := .cons hfate .nil
    refine .of_fares hfates hres
      fun world' => ?_
    refine .resume ?_
    rw [Run.turn_of_steady rfl rfl rfl (Run.exceeded?_eq_none hlimit (Nat.le_add_left 2 _))]
    exact .finish _
  · have hended : ended.steps = 0 + 1 + memo.tally.steps + 1 := rfl
    have htally : ((Memo.empty.mapTally fun _ => ended).put id value true).tally.steps = ended.steps := rfl
    exact htally.trans (by omega)

end Engine

namespace Graph

/-- A constant, a race for it, and a race for the race. -/
def relay : Graph :=
  ⟨#[literalNode (.nat 7), ⟨Tag.race, .args [⟨0⟩]⟩, ⟨Tag.race, .args [⟨1⟩]⟩]⟩

end Graph

namespace Engine

/-- The tasks of its nodes. -/
theorem starts_relay (limits : Limits) :
    let E : Engine .none := ⟨.relay, .standard, limits⟩
    E.Starts ⟨0⟩ (.leaf ⟨some (.ok (.nat 7))⟩) false ∧ E.Starts ⟨1⟩ (.race ⟨⟨0⟩, []⟩) true ∧
      E.Starts ⟨2⟩ (.race ⟨⟨1⟩, []⟩) true := by
  intro E
  have hrace : E.registry.get Tag.race = .ok ⟨.builtin .race, true⟩ := by cbv
  have hliteral : E.registry.get Tag.literal = .ok ⟨.builtin .literal, false⟩ := by cbv
  exact ⟨⟨_, _, _, rfl, rfl, hliteral, rfl, rfl, rfl⟩, ⟨_, _, _, rfl, rfl, hrace, rfl, rfl, rfl⟩,
    ⟨_, _, _, rfl, rfl, hrace, rfl, rfl, rfl⟩⟩

/-- Each run of it keeps to a limit of two. -/
theorem exists_fares_relay : ∃ fate,
    Engine.Fares (P := .none) ⟨.relay, .standard, { maxSteps := some 2 }⟩ ⟨⟨2⟩, .empty⟩ fate ∧
      fate.report.result = .ok (.nat 7) ∧ fate.report.memo.tally.steps = 5 := by
  obtain ⟨hconstant, hinner, houter⟩ := starts_relay { maxSteps := some 2 }
  exact exists_fares_race rfl houter
    (exists_fares_race rfl hinner (exists_fares_constant rfl hconstant)) .empty

end Engine

/-- **The counters of a fold may show more steps than its limit and one:** each of three
runs keeps to a limit of two, and together they take five steps. -/
theorem Engine.exists_folds_relay :
    Graph.relay.validate = .ok () ∧ ∃ o : Outcome .none,
      Engine.Folds ⟨.relay, .standard, { maxSteps := some 2 }⟩ (.node ⟨2⟩) .empty () o ∧
      o.result = .ok (.nat 7) ∧ o.run.memo.tally.steps = 5 ∧
      ¬ o.run.memo.tally.steps ≤ Memo.empty.tally.steps + (2 + 1) := by
  obtain ⟨fate, hfate, hresult, hsteps⟩ := exists_fares_relay
  obtain ⟨fuel, o, ho, hreport, -⟩ := (hfate { shared := () }).follow
  have hmemo : o.run.memo.tally.steps = 5 :=
    (congrArg (fun e => e.memo.tally.steps) hreport).trans hsteps
  refine ⟨rfl, o, ⟨fuel, ho⟩, (congrArg Report.result hreport).trans hresult, hmemo, ?_⟩
  rw [hmemo]
  decide

end ProgramGraph
