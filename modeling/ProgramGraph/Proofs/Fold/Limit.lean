import ProgramGraph.Proofs.Fold.Abandoned
import ProgramGraph.Proofs.Fold.Ration
import ProgramGraph.Proofs.Fold.Total
import ProgramGraph.Proofs.Passage.Blame
import ProgramGraph.Proofs.Solo.Brief
import ProgramGraph.Proofs.Sound.Hidden
/-!
# A limit cuts off

A limit on the steps does not change what an evaluation comes to, it only may end the
evaluation before: within a limit it comes to what it comes to within any greater limit,
or it says that the limit was exceeded, and then no other limit than its own
(`Engine.limit_cuts_off`). This is so for evaluations without ties in which what races and
timeouts wait for is candid, and so for all in which there are no races and no timeouts.

In a batch of a parallel map the first failure in order hides that a later element was cut
off, and with it how long that element would have taken. That alone changes nothing but the
time and the counters. Only under a deadline, or in a race, may it change what comes of the
evaluation (`Engine.exists_folds_haste`).
-/

namespace ProgramGraph

variable {P : Plugins}

/-! ## A map that hides what was cut off -/

namespace Graph

/-- A pair, a failure with it, a parameter, a retry of the failure with a pause, a guard
that fails with it unless the parameter holds, the guard for each of the pair, and that under
a deadline, with the pair as the fallback. -/
def haste : Graph :=
  ⟨#[literalNode (.array [.nat 0, .bool false]), ⟨Tag.fail, .child ⟨0⟩⟩, Node.ofParam ⟨1⟩,
    ⟨Tag.retry, .retry ⟨1⟩ 2 5⟩, ⟨Tag.guard, .guard ⟨2⟩ ⟨3⟩⟩,
    ⟨Tag.parMap, .parMap ⟨0⟩ 2 ⟨⟨1⟩, ⟨4⟩⟩⟩, ⟨Tag.timeout, .timeout ⟨5⟩ 1 ⟨0⟩⟩]⟩

/-- The same without the deadline. -/
def hush : Graph := ⟨haste.nodes.pop⟩

theorem validate_haste : haste.validate = .ok () := rfl

/-- The collection of the map. -/
abbrev hastePair : Value := .array [.nat 0, .bool false]

/-- What the guard says of a number. -/
abbrev hasteComplaint : Value := .text "guard condition must be a boolean, found number"

end Graph

namespace Engine

/-- The engine has four steps for each run, and evaluates the map as it stands in the graph. -/
structure Hasty (E : Engine .none) : Prop where
  registry : E.registry = .standard
  limit : E.limits.maxSteps = some 4
  nodes : ∀ i < 6, E.graph.nodes[i]? = Graph.haste.nodes[i]?

/-- The engine that has four steps for each run. -/
abbrev hasty : Engine .none := ⟨.haste, .standard, { maxSteps := some 4 }⟩

/-- The one that evaluates the map by itself. -/
abbrev hushed : Engine .none := ⟨.hush, .standard, { maxSteps := some 4 }⟩

theorem hasty_hasty : hasty.Hasty := ⟨rfl, rfl, fun _ _ => rfl⟩

theorem hasty_hushed : hushed.Hasty where
  registry := rfl
  limit := rfl
  nodes _ hi := Array.getElem?_pop.trans (if_pos hi)

namespace Hasty

variable {E : Engine .none}

/-- Its handlers are those of the library. -/
theorem native (h : E.Hasty) : E.registry.Native := by
  rw [h.registry]
  exact Registry.native_standard

/-- The first four steps are within the limit. -/
theorem lt_of_lt (h : E.Hasty) {n : Nat} (hn : n < 4) (limit : Nat)
    (hlimit : E.limits.maxSteps = some limit) : n < limit := by
  rw [h.limit] at hlimit
  cases hlimit
  exact hn

/-- The tasks of its nodes. -/
theorem starts (h : E.Hasty) :
    E.Starts ⟨0⟩ (.leaf ⟨some (.ok Graph.hastePair)⟩) false ∧ E.Starts ⟨1⟩ (.fail ⟨⟨0⟩⟩) false ∧
      E.Starts ⟨3⟩ (.retry ⟨⟨1⟩, 2, 5, 0⟩) false ∧ E.Starts ⟨4⟩ (.guard ⟨⟨2⟩, ⟨3⟩, false⟩) false ∧
      E.Starts ⟨5⟩ (.parMap ⟨⟨0⟩, ⟨⟨1⟩, ⟨4⟩⟩, 2, true, none, #[]⟩) false := by
  obtain ⟨g, reg, limits⟩ := E
  obtain rfl : reg = .standard := h.registry
  have hnode : ∀ {i : Nat}, i < 6 → g.get? ⟨i⟩ = Graph.haste.get? ⟨i⟩ := fun hi => h.nodes _ hi
  have hliteral : (.standard : Registry .none).get Tag.literal = .ok ⟨.builtin .literal, false⟩ := by cbv
  have hfail : (.standard : Registry .none).get Tag.fail = .ok ⟨.builtin .fail, false⟩ := by cbv
  have hretry : (.standard : Registry .none).get Tag.retry = .ok ⟨.builtin .retry, false⟩ := by cbv
  have hguard : (.standard : Registry .none).get Tag.guard = .ok ⟨.builtin .guard, false⟩ := by cbv
  have hmap : (.standard : Registry .none).get Tag.parMap = .ok ⟨.builtin (.parMap true), false⟩ := by cbv
  exact ⟨⟨_, _, _, hnode (by decide), rfl, hliteral, rfl, rfl, rfl⟩,
    ⟨_, _, _, hnode (by decide), rfl, hfail, rfl, rfl, rfl⟩,
    ⟨_, _, _, hnode (by decide), rfl, hretry, rfl, rfl, rfl⟩,
    ⟨_, _, _, hnode (by decide), rfl, hguard, rfl, rfl, rfl⟩,
    ⟨_, _, _, hnode (by decide), rfl, hmap, rfl, rfl, rfl⟩⟩

/-- The guard complains of a number. -/
theorem fares_number (h : E.Hasty) (s : Scope) : ∃ fate,
    E.Fares ⟨⟨4⟩, s.push [(⟨1⟩, .nat 0)]⟩ fate ∧
    fate.report.result = .error (.failed Graph.hasteComplaint) ∧ fate.duration = 0 := by
  obtain ⟨-, -, -, hguard, -⟩ := h.starts
  refine ComesTo.exists_fares h.native hguard { shared := () } fun r hr hbare => ?_
  refine .turn hr rfl (h.lt_of_lt (by decide)) rfl fun r hr hkeeps => ?_
  refine .param (h.nodes 2 (by decide)) rfl hr (hkeeps hbare) rfl fun r hr _ => ?_
  refine .turn hr rfl (h.lt_of_lt (by decide)) rfl fun r hr _ => ?_
  exact .fail hr

/-- For a boolean the limit is exceeded before the pause of the retry. -/
theorem fares_boolean (h : E.Hasty) (s : Scope) : ∃ fate,
    E.Fares ⟨⟨4⟩, s.push [(⟨1⟩, .bool false)]⟩ fate ∧
    fate.report.result = .error (.stepLimitExceeded 4) ∧ fate.duration = 0 := by
  obtain ⟨hpair, hfail, hretry, hguard, -⟩ := h.starts
  refine ComesTo.exists_fares h.native hguard { shared := () } fun r hr hbare => ?_
  refine .turn hr rfl (h.lt_of_lt (by decide)) rfl fun r hr hkeeps => ?_
  refine .param (h.nodes 2 (by decide)) rfl hr (hkeeps hbare) rfl fun r hr hbare => ?_
  refine .turn hr rfl (h.lt_of_lt (by decide)) rfl fun r hr hkeeps => ?_
  refine .child hretry hr (hkeeps hbare) fun r hr _ => ?_
  refine .turn hr rfl (h.lt_of_lt (by decide)) rfl fun r hr _ => ?_
  refine .fresh hfail hr fun r hr hbare => ?_
  refine .turn hr rfl (h.lt_of_lt (by decide)) rfl fun r hr hkeeps => ?_
  refine .child hpair hr (hkeeps hbare) fun r hr _ => ?_
  exact .stop hr h.limit (by decide)

/-- **The map fails at once,** and nothing is said of the boolean. -/
theorem fares_map (h : E.Hasty) (s : Scope) : ∃ fate, E.Fares ⟨⟨5⟩, s⟩ fate ∧
    fate.report.result = .error (.failed Graph.hasteComplaint) ∧ fate.duration = 0 := by
  obtain ⟨hpair, -, -, -, hmap⟩ := h.starts
  obtain ⟨fate, hfate, hresult, hduration⟩ := h.fares_number (.ofBindings s.flatten)
  obtain ⟨fate', hfate', hresult', hduration'⟩ := h.fares_boolean (.ofBindings s.flatten)
  let task (items : Option (Array Value)) : Builtin.Task :=
    .parMap ⟨⟨0⟩, ⟨⟨1⟩, ⟨4⟩⟩, 2, true, items, #[]⟩
  have hstart : (task none).resume ⟨⟨5⟩, s⟩ .start = (.child ⟨0⟩, task none) := rfl
  obtain ⟨jobs, hasks, hjobs⟩ : ∃ jobs, (task none).resume ⟨⟨5⟩, s⟩ (.value Graph.hastePair) =
      (.wait (.all jobs), task (some #[.nat 0, .bool false])) ∧
      List.Forall₂ E.Fares (Await.all jobs).jobs [fate, fate'] :=
    ⟨_, rfl, .cons hfate (.cons hfate' .nil)⟩
  -- the first failure in order counts
  have hgather : (Conclusion.gather [fate.report.conclusion, fate'.report.conclusion]).result =
      .error (.failed Graph.hasteComplaint) := by
    have hfirst : fate.report.conclusion.result = _ := hresult
    simp only [Conclusion.gather, List.mapM_cons, hfirst]
    rfl
  have hres : (Await.all jobs).Resolves ([fate, fate'].map Fate.ending)
      (.settled (Conclusion.gather [fate.report.conclusion, fate'.report.conclusion]))
      (max (max 0 fate.duration) fate'.duration) := ⟨rfl, rfl⟩
  have htotal : 0 = max (max 0 fate.duration) fate'.duration + 0 := by rw [hduration, hduration']; rfl
  refine ComesTo.exists_fares h.native hmap { shared := () } fun r hr hbare => ?_
  refine .turn hr rfl (h.lt_of_lt (by decide)) hstart fun r hr hkeeps => ?_
  refine .child hpair hr (hkeeps hbare) fun r hr _ => ?_
  refine .turn hr rfl (h.lt_of_lt (by decide)) rfl fun r hr _ => ?_
  refine .done hr (Scope.truncate_depth s) fun r hr => ?_
  refine .turn hr rfl (h.lt_of_lt (by decide)) hasks fun r hr _ => ?_
  refine .wait h.native hr rfl hjobs hgather hres htotal fun r hr => ?_
  refine .turn hr rfl (h.lt_of_lt (by decide)) rfl fun r hr _ => ?_
  exact .fail hr

end Hasty

end Engine

/-! ## A limit only cuts off -/

/-- **An evaluation without ties** comes to what its run comes to by itself. -/
theorem Engine.Evaluates.exists_solo {E : Engine P} (hg : E.graph.validate = .ok ())
    (hr : E.registry.Native) {root : NodeId} {memo : Memo} {scope : Scope} {shared : P.Shared}
    {o : Outcome P} (h : E.Evaluates root memo scope shared o)
    (huntied : (E.opening root memo scope shared).Untied E) :
    ∃ n, Solo E (E.opening root memo scope shared) o.report o.run.world.clock n := by
  have hself := (Engine.upholds_true hr).same_begin root memo scope { shared } { shared }
  obtain ⟨e, d, n, hsolo⟩ := huntied.exists_solo hr (Run.ceases_begin hg hr root rfl) hself
  obtain ⟨fuel, found, hfound, rfl, hclock⟩ := hsolo.follow
  rw [Run.world_begin_clock, Nat.zero_add] at hclock
  obtain rfl : found = o := Evaluates.unique ⟨fuel, hfound⟩ h
  rw [hclock]
  exact ⟨n, hsolo⟩

/-- **A limit only cuts off.** Of the limits that may be exceeded an evaluation names its
own. If there are no ties in it and in the one within a greater limit or none, and what races
and timeouts wait for is candid, it is cut off, or both come to the same with the same memo,
but for the counters. If all of it is candid, the counters and the time are the same too, and
if it is cut off, then no later than the other ends. Where there are no races and no timeouts
nothing is asked. -/
theorem Engine.limit_cuts_off {g : Graph} {reg : Registry P} (hg : g.validate = .ok ())
    (hr : reg = .standard ∨ reg = .standardSequential) {limit : Nat} {limits : Limits}
    (hle : ∀ more, limits.maxSteps = some more → limit ≤ more) (root : NodeId) (memo : Memo)
    (scope : Scope) (shared : P.Shared) :
    let E : Engine P := ⟨g, reg, { maxSteps := some limit }⟩
    let E' : Engine P := ⟨g, reg, limits⟩
    ∃ o o', E.Evaluates root memo scope shared o ∧ E'.Evaluates root memo scope shared o' ∧
      (∀ other, o.result = .error (.stepLimitExceeded other) → other = limit) ∧
      ((E.opening root memo scope shared).Untied E → (E'.opening root memo scope shared).Untied E' →
        (E.opening root memo scope shared).Candid E limit →
        o.result = .error (.stepLimitExceeded limit) ∧ o.run.world.clock ≤ o'.run.world.clock ∨
          o'.report = o.report ∧ o'.run.world.clock = o.run.world.clock) ∧
      ((E.opening root memo scope shared).Untied E → (E'.opening root memo scope shared).Untied E' →
        (E.opening root memo scope shared).CandidWhenTimed E limit →
        o.result = .error (.stepLimitExceeded limit) ∨ ∃ t, o'.report = o.report.retally t) ∧
      (g.Untimed →
        o.result = .error (.stepLimitExceeded limit) ∨ ∃ t, o'.report = o.report.retally t) := by
  intro E E'
  have hn : reg.Native := Registry.native_of_standard_or hr
  have ho : reg.Ordinary := Registry.ordinary_of_standard_or hr
  have hsober : reg.Holds Builtin.Sober := Registry.sober_of_standard_or hr
  obtain ⟨o, hends⟩ := Engine.exists_evaluates (E := E) hg hn root memo scope shared
  obtain ⟨o', hends'⟩ := Engine.exists_evaluates (E := E') hg hn root memo scope shared
  have hagree : (E.opening root memo scope shared).Untied E →
      (E'.opening root memo scope shared).Untied E' →
      (E.opening root memo scope shared).CandidWhenTimed E limit →
      o.result = .error (.stepLimitExceeded limit) ∨ ∃ t, o'.report = o.report.retally t :=
    fun huntied huntied' hcandid => by
      obtain ⟨n, hsolo⟩ := hends.exists_solo hg hn huntied
      obtain ⟨n', hsolo'⟩ := hends'.exists_solo hg hn huntied'
      rw [← Next.retally_self (E'.opening root memo scope shared)] at hsolo'
      exact (hsolo.within_retally hg hn rfl hle hcandid (Run.uniform_begin hn root memo scope _)
        hsolo').imp (fun hcut => hcut.result rfl) id
  refine ⟨o, o', hends, hends', ?names, fun huntied huntied' hcandid => ?candid, hagree,
    fun hu => ?untimed⟩
  case names =>
    intro other hother
    obtain ⟨fuel, hfuel⟩ := hends
    obtain ⟨hpasses, -⟩ := passes_of_evaluate? (Schedule.closed_true E memo) trivial trivial hfuel
    have hown : E.limits.maxSteps = some other := (hpasses.warranted hn ho hsober).2 _ hother
    exact (Option.some.inj hown).symm
  case candid =>
    obtain ⟨n, hsolo⟩ := hends.exists_solo hg hn huntied
    obtain ⟨n', hsolo'⟩ := hends'.exists_solo hg hn huntied'
    exact hsolo.within hn rfl hle hcandid ((Engine.upholds_true hn).same_begin ..) hsolo'
  case untimed =>
    have hunrushed : E.Unrushed := unrushed_of_untimed hn hu
    have hunrushed' : E'.Unrushed := unrushed_of_untimed hn hu
    exact hagree (hunrushed.untied root memo scope _) (hunrushed'.untied root memo scope _)
      (hunrushed.candidWhenTimed root memo scope _)

/-- **Races for one branch** are not tied, and there is nothing else to hide or to tie. -/
theorem Engine.untied_candid_relay (limits : Limits) (limit : Nat) :
    let E : Engine .none := ⟨.relay, .standard, limits⟩
    (E.opening ⟨2⟩ .empty .empty ()).Untied E ∧ (E.opening ⟨2⟩ .empty .empty ()).Candid E limit := by
  intro E
  have hn : E.registry.Native := Registry.native_standard
  have htasks : ∀ id task volatile, E.Starts id task volatile →
      (∃ leaf, task = .leaf leaf) ∨ ∃ branch, task = .race ⟨branch, []⟩ := by
    rintro ⟨index⟩ task volatile hstarts
    obtain ⟨hconstant, hinner, houter⟩ := starts_relay limits
    match index with
    | 0 => exact .inl ⟨_, hconstant.unique hstarts⟩
    | 1 => exact .inr ⟨_, hinner.unique hstarts⟩
    | 2 => exact .inr ⟨_, houter.unique hstarts⟩
    | index + 3 =>
      obtain ⟨node, -, -, hnode, -⟩ := hstarts
      cases hnode
  constructor
  · refine Run.untied_begin hn fun id s task volatile await fates _ hstarts
      htimed hwait hfates => ?_
    rcases htasks id task volatile hstarts with ⟨leaf, rfl⟩ | ⟨branch, rfl⟩
    · cases htimed
    · cases hwait
      obtain ⟨fate, rfl, -⟩ := exists_fate_of_single hfates
      exact ⟨_, _, (Await.resolves_first_iff (List.mem_singleton_self _)
        fun other hother => .inl (List.mem_singleton.1 hother)).2 ⟨rfl, rfl⟩⟩
  · have hmap : ∀ id task volatile, E.Starts id task volatile → task.isMap = false := by
      intro id task volatile hstarts
      rcases htasks id task volatile hstarts with ⟨leaf, rfl⟩ | ⟨branch, rfl⟩ <;> rfl
    exact Run.candid_begin hn hmap ⟨2⟩ .empty .empty { shared := () }

/-- So it is for a race in a race, which keeps to a limit of two, and for a map that within
four steps hides what was cut off. -/
theorem Engine.limit_cuts_off_relay :
    (Graph.relay.validate = .ok () ∧ ∃ o o' : Outcome .none,
      Engine.Evaluates ⟨.relay, .standard, { maxSteps := some 2 }⟩ ⟨2⟩ .empty .empty () o ∧
      Engine.Evaluates ⟨.relay, .standard, {}⟩ ⟨2⟩ .empty .empty () o' ∧
      o.result = .ok (.nat 7) ∧ o'.report = o.report ∧
      o'.run.world.clock = o.run.world.clock ∧ ∃ t, o'.report = o.report.retally t) ∧
    Graph.hush.validate = .ok () ∧ Graph.hush.Untimed ∧ ∃ o o' : Outcome .none,
      Engine.Evaluates hushed ⟨5⟩ .empty .empty () o ∧
      Engine.Evaluates ⟨.hush, .standard, {}⟩ ⟨5⟩ .empty .empty () o' ∧
      o.result = .error (.failed Graph.hasteComplaint) ∧ ∃ t, o'.report = o.report.retally t := by
  constructor
  · have hg : Graph.relay.validate = .ok () := rfl
    obtain ⟨fate, hfate, hresult, -⟩ := exists_fares_relay
    obtain ⟨fuel, found, hfound, hreport, -⟩ := (hfate { shared := () }).follow
    have hle : ∀ more, ({} : Limits).maxSteps = some more → 2 ≤ more := nofun
    obtain ⟨o, o', ho, ho', -, hcuts, htimed, -⟩ := limit_cuts_off (P := .none) hg (.inl rfl) hle
      ⟨2⟩ .empty .empty ()
    obtain rfl : found = o := Evaluates.unique ⟨fuel, hfound⟩ ho
    have hvalue : found.result = .ok (.nat 7) := (congrArg Report.result hreport).trans hresult
    have hnot : found.result ≠ .error (.stepLimitExceeded 2) := by
      rw [hvalue]
      exact nofun
    obtain ⟨huntied, hcandid⟩ := untied_candid_relay { maxSteps := some 2 } 2
    obtain ⟨huntied', -⟩ := untied_candid_relay {} 2
    obtain ⟨hsame, hclock⟩ :=
      (hcuts huntied huntied' hcandid).resolve_left fun hcut => hnot hcut.1
    exact ⟨hg, found, o', ho, ho', hvalue, hsame, hclock,
      (htimed huntied huntied' hcandid.whenTimed).resolve_left hnot⟩
  · have hg : Graph.hush.validate = .ok () := rfl
    have hu : Graph.hush.Untimed := by decide
    obtain ⟨fate, hfate, hresult, -⟩ := hasty_hushed.fares_map .empty
    obtain ⟨fuel, found, hfound, hreport, -⟩ := (hfate { shared := () }).follow
    have hle : ∀ more, ({} : Limits).maxSteps = some more → 4 ≤ more := nofun
    obtain ⟨o, o', ho, ho', -, -, -, huntimed⟩ := limit_cuts_off (P := .none) hg (.inl rfl) hle ⟨5⟩
      .empty .empty ()
    obtain rfl : found = o := Evaluates.unique ⟨fuel, hfound⟩ ho
    have hfails : found.result = .error (.failed Graph.hasteComplaint) :=
      (congrArg Report.result hreport).trans hresult
    have hnot : found.result ≠ .error (.stepLimitExceeded 4) := by
      rw [hfails]
      exact nofun
    exact ⟨hg, hu, found, o', ho, ho', hfails, (huntimed hu).resolve_left hnot⟩

/-! ## A failure that comes too early -/

namespace Graph

/-- The pair takes no time. -/
theorem course_haste_pair (s : Scope) (height : Nat) :
    haste.course (.standard : Registry .none) ⟨0⟩ s false height .empty =
      ⟨⟨.ok hastePair, false⟩, Memo.empty.put ⟨0⟩ hastePair false, .start height + .turn⟩ := by
  have hrole : haste.role (.standard : Registry .none) ⟨0⟩ =
      .planned (.finish (.ok hastePair)) false := rfl
  have hnone : (if false then none else Memo.empty.kept? ⟨0⟩) = none := Memo.kept?_empty _
  exact course_planned validate_haste Registry.native_standard hrole hnone rfl

/-- The retry takes as long as its pause. -/
theorem fails_haste (s : Scope) (height : Nat) {m : Memo} (hm : m.kept? ⟨3⟩ = none) :
    (haste.course (.standard : Registry .none) ⟨3⟩ s false height m).Fails hastePair m 5 := by
  have hr : (Registry.standard : Registry .none).Native := Registry.native_standard
  have hpair : haste.role (.standard : Registry .none) ⟨0⟩ =
      .planned (.finish (.ok hastePair)) false := rfl
  have hfailure : haste.role (.standard : Registry .none) ⟨1⟩ = .planned (.fail ⟨0⟩) false := rfl
  have hretry : haste.role (.standard : Registry .none) ⟨3⟩ = .planned (.retry ⟨1⟩ 5 1) false := rfl
  have htotal : 1 * min 5 Wait.longest = 5 := by decide
  rw [← htotal]
  exact fails_retry validate_haste hr (fails_failure validate_haste hr hpair hfailure) (by decide)
    hretry s height hm

/-- The guard complains of a number at once. -/
theorem course_haste_number (s : Scope) :
    ∃ (m : Memo) (cost : Cost), cost.duration = 0 ∧ cost.tied = false ∧
      haste.course (.standard : Registry .none) ⟨4⟩ (s.push [(⟨1⟩, .nat 0)]) false 0 .empty =
        ⟨⟨.error (.failed hasteComplaint), true⟩, m, cost⟩ := by
  have hrole : haste.role (.standard : Registry .none) ⟨4⟩ = .planned (.guard ⟨2⟩ ⟨3⟩) false := rfl
  have hnone : (if false then none else Memo.empty.kept? ⟨4⟩) = none := Memo.kept?_empty _
  have hparam : haste.role (.standard : Registry .none) ⟨2⟩ = .param ⟨1⟩ := rfl
  have hresolve : resolve (s.push [(⟨1⟩, .nat 0)]) ⟨1⟩ = .ok (.nat 0) := rfl
  have hcourse : haste.course (.standard : Registry .none) ⟨4⟩ (s.push [(⟨1⟩, .nat 0)]) false 0
      .empty = _ := course_planned validate_haste Registry.native_standard hrole hnone rfl
  simp only [Plan.guard, Plan.course, Manner.scope, Manner.isFresh, Bool.false_eq_true, if_false,
    course_param hparam, hresolve] at hcourse
  exact ⟨_, _, rfl, rfl, hcourse⟩

/-- For a boolean it evaluates what it fails with. -/
theorem course_haste_boolean (s : Scope) :
    ∃ (m : Memo) (cost : Cost), cost.duration = 5 ∧ cost.tied = false ∧
      haste.course (.standard : Registry .none) ⟨4⟩ (s.push [(⟨1⟩, .bool false)]) false 0 .empty =
        ⟨⟨.error (.failed hastePair), true⟩, m, cost⟩ := by
  have hrole : haste.role (.standard : Registry .none) ⟨4⟩ = .planned (.guard ⟨2⟩ ⟨3⟩) false := rfl
  have hnone : (if false then none else Memo.empty.kept? ⟨4⟩) = none := Memo.kept?_empty _
  have hparam : haste.role (.standard : Registry .none) ⟨2⟩ = .param ⟨1⟩ := rfl
  have hresolve : resolve (s.push [(⟨1⟩, .bool false)]) ⟨1⟩ = .ok (.bool false) := rfl
  have hcourse : haste.course (.standard : Registry .none) ⟨4⟩ (s.push [(⟨1⟩, .bool false)]) false 0
      .empty = _ := course_planned validate_haste Registry.native_standard hrole hnone rfl
  have hretry : (Memo.empty.setTainted ⟨2⟩).kept? ⟨3⟩ = none :=
    (Memo.kept?_setTainted _ _ _).trans ((if_neg (by decide)).trans (Memo.kept?_empty _))
  obtain ⟨cost, hfails, hduration, htied⟩ := fails_haste (s.push [(⟨1⟩, .bool false)]) 1 hretry
  simp only [Plan.guard, Plan.course, Manner.scope, Manner.isFresh, Bool.false_eq_true, if_false,
    course_param hparam, hresolve, Course.bind_ok, Plan.onValue, Plan.fail, Nat.zero_add, hfails,
    Course.bind_failed, Course.after] at hcourse
  refine ⟨_, _, ?_, ?_, hcourse⟩
  · simp only [Cost.duration_add, hduration]
    rfl
  · simp only [Cost.tied_add, htied]
    rfl

/-- **The map fails with the complaint,** but not before all its elements have come to
something. -/
theorem course_haste_map (s : Scope) :
    ∃ (m : Memo) (cost : Cost), cost.duration = 5 ∧ cost.tied = false ∧
      haste.course (.standard : Registry .none) ⟨5⟩ s false 0 .empty =
        ⟨⟨.error (.failed hasteComplaint), true⟩, m, cost⟩ := by
  have hrole : haste.role (.standard : Registry .none) ⟨5⟩ =
      .planned (.parMap true ⟨0⟩ 2 ⟨⟨1⟩, ⟨4⟩⟩) false := rfl
  have hnone : (if false then none else Memo.empty.kept? ⟨5⟩) = none := Memo.kept?_empty _
  have hcourse : haste.course (.standard : Registry .none) ⟨5⟩ s false 0 .empty = _ :=
    course_planned validate_haste Registry.native_standard hrole hnone rfl
  obtain ⟨m, cost, hduration, htied, hnumber⟩ := course_haste_number (.ofBindings s.flatten)
  obtain ⟨m', cost', hduration', htied', hboolean⟩ := course_haste_boolean (.ofBindings s.flatten)
  have hjobs : (Plan.jobsOf ⟨⟨1⟩, ⟨4⟩⟩ [.nat 0, .bool false]).map (fun job =>
      Visits.job (haste.course (.standard : Registry .none)) (Context.job ⟨⟨5⟩, s⟩ job.1 job.2)) =
      [⟨⟨.error (.failed hasteComplaint), true⟩, m, cost⟩,
        ⟨⟨.error (.failed hastePair), true⟩, m', cost'⟩] := by
    rw [← hnumber, ← hboolean]
    rfl
  have hgather : Answer.gather [⟨.error (.failed hasteComplaint), true⟩,
      ⟨.error (.failed hastePair), true⟩] = ⟨.error (.failed hasteComplaint), true⟩ := rfl
  simp only [Plan.parMap, Plan.course, Manner.scope, Manner.isFresh, Bool.false_eq_true, if_false, if_true,
    course_haste_pair, Nat.zero_add, Course.bind_ok, Plan.onValue, Plan.mapBatches, List.take, hjobs,
    Course.all, List.map, hgather, Course.bind_failed, Course.after] at hcourse
  refine ⟨_, _, ?_, ?_, hcourse⟩
  · simp only [Cost.duration_add, hduration, hduration']
    rfl
  · simp only [Cost.tied_add, Course.anyTied, List.any, htied, htied']
    rfl

/-- So the fallback is evaluated. -/
theorem course_haste :
    let c := haste.course (.standard : Registry .none) ⟨6⟩ .empty false 0 .empty
    c.answer.result = .ok hastePair ∧ c.cost.tied = false := by
  have hrole : haste.role (.standard : Registry .none) ⟨6⟩ =
      .planned (.deadline 1 ⟨5⟩ .ofReply (.visit ⟨0⟩ .plain .ofReply)) true := rfl
  have hnone : (if false then none else Memo.empty.kept? ⟨6⟩) = none := Memo.kept?_empty _
  have hcourse : haste.course (.standard : Registry .none) ⟨6⟩ .empty false 0 .empty = _ :=
    course_planned validate_haste Registry.native_standard hrole hnone rfl
  obtain ⟨m, cost, hduration, htied, hmap⟩ := course_haste_map .empty
  have hjob : Visits.job (haste.course (.standard : Registry .none))
      (Context.job ⟨⟨6⟩, .empty⟩ ⟨5⟩ []) = ⟨⟨.error (.failed hasteComplaint), true⟩, m, cost⟩ := hmap
  have hlate : ¬ 5 < min 1 Wait.longest := by decide
  simp only [Plan.course, Manner.scope, Manner.isFresh, Bool.false_eq_true, if_false,
    course_haste_pair, Nat.zero_add, Course.bind_ok, hjob, hduration, hlate, Course.after,
    Course.tooLate] at hcourse
  dsimp only
  rw [hcourse]
  refine ⟨rfl, ?_⟩
  simp only [Cost.tied_add, htied]
  rfl

end Graph

namespace Engine

/-- The task of the timeout. -/
theorem starts_haste (limits : Limits) :
    Engine.Starts (P := .none) ⟨.haste, .standard, limits⟩ ⟨6⟩ (.timeout ⟨⟨5⟩, 1, ⟨0⟩⟩) true := by
  have htimeout : (.standard : Registry .none).get Tag.timeout = .ok ⟨.builtin .timeout, true⟩ := by cbv
  exact ⟨_, _, _, rfl, rfl, htimeout, rfl, rfl, rfl⟩

/-- In four steps the map is not late. -/
theorem takes_hasty (cx : Context) : hasty.Takes cx ⟨5⟩ 0 := by
  obtain ⟨fate, hfate, -, hduration⟩ := hasty_hasty.fares_map (cx.job ⟨5⟩ []).scope
  exact ⟨fate, hfate, hduration⟩

/-- With steps enough it is. -/
theorem takes_haste (cx : Context) :
    Engine.Takes (P := .none) ⟨.haste, .standard, {}⟩ cx ⟨5⟩ 5 := by
  obtain ⟨m, cost, hduration, htied, hmap⟩ := Graph.course_haste_map (cx.job ⟨5⟩ []).scope
  have hn : (⟨.haste, .standard, {}⟩ : Engine .none).registry.Native := Registry.native_standard
  refine takes_of_course Graph.validate_haste hn rfl cx ⟨5⟩ ?_
  have hcourse : Visits.job (Graph.haste.course (.standard : Registry .none)) (cx.job ⟨5⟩ []) = _ := hmap
  rw [hcourse]
  exact ⟨hduration, htied⟩

/-- **A map that does not take as long as the deadline** is not tied with it. -/
theorem untied_haste {limits : Limits} {d : Nat}
    (htakes : ∀ cx, Engine.Takes (P := .none) ⟨.haste, .standard, limits⟩ cx ⟨5⟩ d) (hd : d ≠ 1) :
    let E : Engine .none := ⟨.haste, .standard, limits⟩
    (E.opening ⟨6⟩ .empty .empty ()).Untied E := by
  intro E
  have hn : E.registry.Native := Registry.native_standard
  have hshared : Nonempty Plugins.none.Shared := ⟨()⟩
  refine Run.untied_begin hn fun id s task volatile await fates _ hstarts htimed hwait hfates => ?_
  -- the only race or timeout is the root
  obtain rfl : id = ⟨6⟩ := by
    obtain ⟨node, hnode, htag⟩ := hstarts.exists_tag hn htimed
    obtain ⟨hlt, rfl⟩ := Array.getElem?_eq_some_iff.1 hnode
    have honly : ∀ i : Fin 7, Graph.haste.nodes[i].tag = Tag.race ∨
      Graph.haste.nodes[i].tag = Tag.timeout → i = 6 := by decide
    exact congrArg NodeId.mk (congrArg Fin.val (honly ⟨id.index, hlt⟩ htag))
  obtain rfl := (starts_haste limits).unique hstarts
  cases hwait
  obtain ⟨fate, rfl, hfate⟩ := exists_fate_of_single hfates
  have hdeadline : min 1 Wait.longest = 1 := rfl
  rcases Nat.lt_or_gt_of_ne hd with hlt | hgt
  · exact ⟨_, _, ((htakes ⟨⟨6⟩, s⟩).resolves_iff_of_lt (hdeadline ▸ hlt) hfate).2 ⟨rfl, rfl⟩⟩
  · exact ⟨_, _, ((htakes ⟨⟨6⟩, s⟩).resolves_iff_of_gt (hdeadline ▸ hgt) hfate).2 ⟨rfl, rfl⟩⟩

/-- The fold within four steps. -/
theorem fares_hasty : ∃ fate, hasty.Fares ⟨⟨6⟩, .empty⟩ fate ∧
    fate.report.result = .error (.failed Graph.hasteComplaint) ∧ fate.duration = 0 := by
  obtain ⟨fate, hfate, hresult, hduration⟩ := hasty_hasty.fares_map (.ofBindings Scope.empty.flatten)
  obtain ⟨job, hasks, hjobs⟩ : ∃ job, (Builtin.Task.timeout ⟨⟨5⟩, 1, ⟨0⟩⟩).resume ⟨⟨6⟩, .empty⟩ .start =
      (.wait (.deadline 1 job), .timeout ⟨⟨5⟩, 1, ⟨0⟩⟩) ∧
      List.Forall₂ hasty.Fares (Await.deadline 1 job).jobs [fate] := ⟨_, rfl, .cons hfate .nil⟩
  have hearly : fate.duration < min 1 Wait.longest := by
    rw [hduration]
    decide
  have hres : (Await.deadline 1 job).Resolves ([fate].map Fate.ending)
      (.settled fate.report.conclusion) fate.duration :=
    (Await.resolves_deadline_iff_of_lt hearly).2 ⟨rfl, rfl⟩
  have htotal : 0 = fate.duration + 0 := hduration.symm
  refine ComesTo.exists_fares hasty_hasty.native (starts_haste _) { shared := () } fun r hr _ => ?_
  refine .turn hr rfl (hasty_hasty.lt_of_lt (by decide)) hasks fun r hr _ => ?_
  refine .wait hasty_hasty.native hr rfl hjobs hresult hres htotal fun r hr => ?_
  refine .turn hr rfl (hasty_hasty.lt_of_lt (by decide)) rfl fun r hr _ => ?_
  exact .fail hr

end Engine

/-- **A limit may change an answer** where it stops one element of a batch and another one
fails before it in order: within four steps for each run the fold is told of the failure
before the deadline, and without a limit the fallback is evaluated in its place. -/
theorem Engine.exists_folds_haste :
    Graph.haste.validate = .ok () ∧
    (Engine.hasty.opening ⟨6⟩ .empty .empty ()).Untied Engine.hasty ∧
    (Engine.opening ⟨.haste, .standard, {}⟩ ⟨6⟩ .empty .empty ()).Untied
      (⟨.haste, .standard, {}⟩ : Engine .none) ∧
    ∃ o o' : Outcome .none, Engine.Folds Engine.hasty (.node ⟨6⟩) .empty () o ∧
      Engine.Folds ⟨.haste, .standard, {}⟩ (.node ⟨6⟩) .empty () o' ∧
      o.result = .error (.failed Graph.hasteComplaint) ∧ o.result ≠ .error (.stepLimitExceeded 4) ∧
      o'.result = .ok Graph.hastePair ∧ o'.result ≠ o.result := by
  obtain ⟨fate, hfate, hresult, -⟩ := fares_hasty
  obtain ⟨fuel, o, ho, hreport, -⟩ := (hfate { shared := () }).follow
  obtain ⟨hvalue, htied⟩ := Graph.course_haste
  obtain ⟨o', ho', hreport', -⟩ := evaluates_of_course (E := ⟨.haste, .standard, {}⟩)
    Graph.validate_haste Registry.native_standard rfl ⟨6⟩ .empty .empty () rfl htied
  have hfails : o.result = _ := (congrArg Report.result hreport).trans hresult
  have hends : o'.result = .ok Graph.hastePair := (congrArg Report.result hreport').trans hvalue
  refine ⟨rfl, untied_haste takes_hasty (by decide), untied_haste takes_haste (by decide), o, o',
    ⟨fuel, ho⟩, ho', hfails, ?_, hends, ?_⟩
  · rw [hfails]
    exact nofun
  · rw [hfails, hends]
    exact nofun

end ProgramGraph
