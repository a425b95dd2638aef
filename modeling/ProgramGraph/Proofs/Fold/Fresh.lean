import ProgramGraph.Proofs.Fold.Basic
import ProgramGraph.Proofs.Passage.Track
import ProgramGraph.Proofs.Passage.Undergo
/-!
# Nodes that are asked for afresh

A task may ask for a node afresh, as a retry does. Then the node is evaluated as a root would
be: from an empty memo, under the bindings at hand, and with the same counts. Whatever the
memos of the run have kept, nothing is read from them, and nothing is changed in them until
the request has been answered (`Engine.Replays`). Only a parameter is marked as tainted in the
innermost of them (`Run.Marks`).

Nothing is assumed of the graph, of the memos and of where the run has got to. Handlers from
outside have to be deterministic, or else the evaluation could not be told from the node.
-/

namespace ProgramGraph

variable {P : Plugins} {E : Engine P} {r : Run P} {id : NodeId}

/-! ## The request and its answer -/

namespace Run

/-- What is next when a task asks for a node afresh. -/
abbrev renew (E : Engine P) (r : Run P) (id : NodeId) : Next P := r.serve E (.request (.fresh id))

/-- The evaluation of the node as a root, under the scope at hand. -/
abbrev anew (E : Engine P) (r : Run P) (id : NodeId) (world : World P) : Next P :=
  begin E { scope := r.scope, world } id

/-- **The run is inside of what was asked for:** its frames and memos stand on those of the
run that has asked, which are as they were. -/
structure Inside (base r : Run P) : Prop where
  frames : ∃ own, own ≠ [] ∧ r.frames.items = own ++ base.frames.items
  caches : ∃ own, own ≠ [] ∧ r.caches = own ++ base.caches

/-- **The request has been answered with the outcome** after some waits, and the run has gone
on since. -/
def Answered (E : Engine P) (r : Run P) (id : NodeId) (o : Outcome P)
    (before after : List (Await × Wake)) (next : Next P) : Prop :=
  ∃ r' : Run P, r.Receives o r' ∧ (r.renew E id).Undergoes E before (r'.answer ⟨o.result, o.tainted⟩) ∧
    (r'.answer ⟨o.result, o.tainted⟩).Undergoes E after next

/-- **The node is marked as tainted** in the innermost memo, and what is bound to it is
given. -/
def Marks (r : Run P) (id : NodeId) (p : ParamId) (next : Next P) : Prop :=
  ∃ r' : Run P, next = r'.answer ⟨match r.scope.lookup? p with
      | some value => .ok value
      | none => .error (.unboundParameter p), true⟩ ∧
    r'.frames = r.frames ∧ r'.scope = r.scope ∧ r'.memo.tally = r.memo.tally.countLookup ∧
    ∃ m tail, r.caches = m :: tail ∧ r'.caches = m.setTainted id :: tail

end Run

/-- What comes of the waits is what may come of them. -/
def Await.AllCome (E : Engine P) (waits : List (Await × Wake)) : Prop :=
  ∀ wait ∈ waits, wait.1.Comes (Job.Ends E fun _ => True) wait.2

/-- **The request is an evaluation of the node as a root,** from an empty memo and under the
scope at hand. -/
structure Engine.Replays (E : Engine P) (r : Run P) (id : NodeId) : Prop where
  /-- Where the evaluation comes to an outcome, the request is answered with it after the same
  waits. -/
  answers : ∀ world waits o, (r.anew E id world).Undergoes E waits (.finish o) →
    ∃ next, r.Answered E id o waits [] next
  /-- Until it is answered nothing changes below, and it is answered with what the evaluation
  comes to after the same waits. -/
  inside : ∀ world waits next, (r.renew E id).Undergoes E waits next →
    (r.Inside next.run ∧
      ∃ inner, (r.anew E id world).Undergoes E waits inner ∧ ∀ o, inner ≠ .finish o) ∨
    ∃ before after o, waits = after ++ before ∧ (r.anew E id world).Undergoes E before (.finish o) ∧
      r.Answered E id o before after next
  /-- So it may be answered with what the evaluation does come to, -/
  evaluates : ∀ shared o, E.Evaluates id .empty r.scope shared o →
    ∃ waits next, Await.AllCome E waits ∧ r.Answered E id o waits [] next
  /-- and with nothing else, if what may come of each wait of the evaluation is one thing. -/
  sure : ∀ shared o, E.Evaluates id .empty r.scope shared o →
    (∀ r₀ await, Passes E (fun _ => True) .empty ⟨id, r.scope⟩ (.wait r₀ await) → await.Sure E) →
    ∀ waits next, (r.renew E id).Undergoes E waits next → Await.AllCome E waits →
    r.Inside next.run ∨
      ∃ before after, waits = after ++ before ∧ r.Answered E id o before after next
  /-- Where no two things come at one time, the request is answered with what the evaluation
  comes to, and takes as long. -/
  solo : ∀ shared e d n, Solo E (r.renew E id) e d n →
    ∃ o r' rest left, E.Evaluates id .empty r.scope shared o ∧ r.Receives o r' ∧
      Solo E (r'.answer ⟨o.result, o.tainted⟩) e rest left ∧ d = o.run.world.clock + rest

/-- **A request for a node afresh neither reads nor changes the memos of the run.** -/
structure Engine.Renews (E : Engine P) (r : Run P) (id : NodeId) : Prop where
  /-- It is an evaluation of the node, -/
  node : (∀ node, E.graph.get? id = some node → node.param? = none) → E.Replays r id
  /-- or else it looks a parameter up. -/
  param : ∀ node p, E.graph.get? id = some node → node.param? = some p →
    r.Marks id p (r.renew E id)

/-! ## Why -/

/-- A run that goes on inside of another is inside of what was asked for. -/
theorem Run.Encloses.inside {base inner outer : Run P} (h : base.Encloses inner outer) :
    base.Inside outer := by
  obtain ⟨top, bottom, -, -, hitems⟩ := h.frames
  obtain ⟨m, tail, hcaches⟩ := inner.exists_caches
  refine ⟨⟨top ++ [{ bottom with fresh := true }], ?_, ?_⟩, inner.caches, ?_, h.caches⟩
  · exact List.append_ne_nil_of_right_ne_nil _ (List.cons_ne_nil _ _)
  · rw [hitems, List.append_assoc, List.singleton_append]
  · rw [hcaches]
    exact List.cons_ne_nil _ _

/-- Outcomes with the same report are received alike. -/
theorem Run.Receives.congr {base r : Run P} {o o' : Outcome P} (h : base.Receives o r)
    (hreport : o'.report = o.report) :
    base.Receives o' r ∧ r.answer ⟨o'.result, o'.tainted⟩ = r.answer ⟨o.result, o.tainted⟩ := by
  obtain ⟨hresult, htainted, hmemo⟩ := Report.mk.inj hreport
  refine ⟨⟨h.frames, h.scope, h.caches, ?_⟩, by rw [hresult, htainted]⟩
  rw [hmemo]
  exact h.counts

/-- An evaluation begins without frames. -/
theorem Run.staffed_anew (r : Run P) (id : NodeId) (world : World P) :
    (r.anew E id world).run.Staffed E :=
  Run.Staffed.visit (r := { scope := r.scope, world }) (List.forall_mem_nil _) id _ false

namespace Engine

section Replay

variable (hlimit : E.limits.maxSteps = none) (hdet : E.registry.Deterministic)
  (hr : r.frames.items ≠ []) (hid : ∀ node, E.graph.get? id = some node → node.param? = none)

include hlimit hdet hr hid

/-- The request is answered with what the evaluation comes to. -/
theorem exists_answered {world : World P} {waits : List (Await × Wake)} {o : Outcome P}
    (h : (r.anew E id world).Undergoes E waits (.finish o)) :
    ∃ next, r.Answered E id o waits [] next := by
  have hmirrors : Next.Mirrors r (r.anew E id world) (r.renew E id) := Run.mirrors_begin hdet hid world
  obtain ⟨outer, houter, hended, -⟩ :=
    hmirrors.undergoes hr hdet hlimit (r.staffed_anew id world) h
  cases hended with
  | finish hreceives => exact ⟨_, _, hreceives, houter, .refl⟩

/-- **The request has been answered,** or the evaluation goes on inside of the run. -/
theorem inside_or_answered (world : World P) {waits : List (Await × Wake)} {next : Next P}
    (h : (r.renew E id).Undergoes E waits next) :
    (r.Inside next.run ∧
      ∃ inner, (r.anew E id world).Undergoes E waits inner ∧ ∀ o, inner ≠ .finish o) ∨
    ∃ before after o, waits = after ++ before ∧ (r.anew E id world).Undergoes E before (.finish o) ∧
      r.Answered E id o before after next := by
  have hmirrors : Next.Mirrors r (r.anew E id world) (r.renew E id) := Run.mirrors_begin hdet hid world
  rcases hmirrors.exists_undergoes hr hdet hlimit (r.staffed_anew id world) h with
    ⟨inner, hinner, hinside, -⟩ | ⟨before, after, o, r', hwaits, hinner, hreceives, hanswer, hafter⟩
  · rcases hinside.cases_next with ⟨_, _, _, rfl, rfl, hencloses⟩ | ⟨_, _, _, rfl, rfl, hencloses⟩ |
      ⟨o, r', rfl, rfl, hreceives⟩
    · exact .inl ⟨hencloses.inside, _, hinner, fun _ hfinish => by cases hfinish⟩
    · exact .inl ⟨hencloses.inside, _, hinner, fun _ hfinish => by cases hfinish⟩
    · exact .inr ⟨waits, [], o, rfl, hinner, r', hreceives, h, .refl⟩
  · exact .inr ⟨before, after, o, hwaits, hinner, r', hreceives, hanswer, hafter⟩

/-- **What the evaluation of a node comes to** is given to a request for it afresh. -/
theorem replays : E.Replays r id where
  answers world waits o := exists_answered hlimit hdet hr hid
  inside world waits next := inside_or_answered hlimit hdet hr hid world
  evaluates := by
    rintro shared o ⟨fuel, ho⟩
    obtain ⟨hpasses, -⟩ := E.passes_of_evaluate? (Schedule.closed_true E .empty) trivial trivial ho
    obtain ⟨world, waits, hundergoes, hcome⟩ := hpasses.exists_undergoes
    obtain ⟨next, hanswered⟩ := exists_answered hlimit hdet hr hid hundergoes
    exact ⟨waits, next, hcome, hanswered⟩
  sure := by
    rintro shared o ⟨fuel, ho⟩ hsure waits next hnext hcome
    obtain ⟨hpasses, -⟩ := E.passes_of_evaluate? (Schedule.closed_true E .empty) trivial trivial ho
    rcases inside_or_answered hlimit hdet hr hid { shared } hnext with ⟨hinside, -⟩ |
      ⟨before, after, o', rfl, hinner, r', hreceives, hanswer, hafter⟩
    · exact .inl hinside
    · -- the evaluation can end in one way only
      have hpasses' : Passes E (fun _ => True) .empty ⟨id, r.scope⟩ (.finish o') :=
        hinner.passes fun wait hwait => hcome wait (List.mem_append_right _ hwait)
      obtain ⟨hreceives', hsame⟩ := hreceives.congr (hpasses'.report_eq hdet hpasses hsure)
      rw [← hsame] at hanswer hafter
      exact .inr ⟨before, after, rfl, r', hreceives', hanswer, hafter⟩
  solo := by
    intro shared e d n hsolo
    have hmirrors : Next.Mirrors r (r.anew E id { shared }) (r.renew E id) :=
      Run.mirrors_begin hdet hid { shared }
    obtain ⟨o, r', own, work, rest, left, hinner, hreceives, hrest, hd⟩ :=
      hmirrors.exists_solo hr hdet hlimit (r.staffed_anew id { shared }) hsolo
    -- the schedule of the evaluation comes to what its run comes to by itself
    obtain ⟨fuel, o', ho', hreport, hclock⟩ := hinner.follow
    rw [Run.world_begin_clock, Nat.zero_add] at hclock
    obtain ⟨hreceives', hsame⟩ := hreceives.congr hreport
    exact ⟨o', r', rest, left, ⟨fuel, ho'⟩, hreceives', hsame ▸ hrest, hclock ▸ hd⟩

end Replay

end Engine

/-- **A request for a parameter afresh marks the parameter** and does nothing else. -/
theorem Run.marks_renew {node : Node} {p : ParamId} (hnode : E.graph.get? id = some node)
    (hparam : node.param? = some p) : r.Marks id p (r.renew E id) := by
  obtain ⟨m, tail, hcaches⟩ := r.exists_caches
  have hback : r.truncate r.scope.depth = r := by
    unfold Run.truncate
    rw [r.scope.truncate_depth]
  let r' : Run P := ((r.mapTally .countLookup).mapInnermost (·.setTainted id)).note (.lookedUp id)
  have hcounted := (r.stands.mapTally .countLookup).caches
  refine ⟨r', ?_, frames_mapInnermost _ _, scope_mapInnermost _ _, tally_mapInnermost _ fun _ => rfl,
    m, tail, hcaches, ?_⟩
  · simp only [Run.renew, Run.serve, Run.visit, Run.arrive, hnode, hparam, hback]
    rfl
  · rw [hcaches] at hcounted
    exact caches_mapInnermost hcounted fun _ => rfl

/-- **A request for a node afresh** neither reads nor changes the memos of the run, at any
point of any run without a limit. -/
theorem Engine.renews (hlimit : E.limits.maxSteps = none) (hdet : E.registry.Deterministic)
    (hr : r.frames.items ≠ []) (id : NodeId) : E.Renews r id where
  node hid := replays hlimit hdet hr hid
  param _ _ hnode hparam := Run.marks_renew hnode hparam

/-- A constant, and a retry of it. -/
def Graph.renewal : Graph :=
  ⟨#[literalNode (.nat 7), ⟨Tag.retry, .retry ⟨0⟩ 2 0⟩]⟩

/-- The retry has asked for the constant, of which another value is kept. -/
def Run.renewal : Run .none where
  memo := Memo.empty.put ⟨0⟩ (.nat 3) false
  frames := Stack.empty.push ⟨⟨1⟩,
    .builtin (.retry { expr := ⟨0⟩, attempts := 2, delayMs := 0, attempt := 1 }), false, false, 0, false⟩
  world := { shared := () }

/-- So it is for a retry, whatever is kept of its node. -/
theorem Engine.renews_renewal :
    Run.renewal.innermost.kept? ⟨0⟩ = some (.nat 3) ∧ Run.renewal.frames.items ≠ [] ∧
      Engine.Renews ⟨.renewal, .standard, {}⟩ Run.renewal ⟨0⟩ := by
  have hdet : (Registry.standard : Registry .none).Deterministic :=
    Registry.native_standard.deterministic
  have hframes : Run.renewal.frames.items ≠ [] := List.cons_ne_nil _ _
  have hkept : (Memo.empty.put ⟨0⟩ (.nat 3) false).kept? ⟨0⟩ = some (.nat 3) := by
    rw [Memo.kept?_put]
    rfl
  exact ⟨hkept, hframes, Engine.renews (E := ⟨.renewal, .standard, {}⟩) rfl hdet hframes ⟨0⟩⟩

end ProgramGraph
