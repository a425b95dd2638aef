import ProgramGraph.Proofs.Passage.Steps
import ProgramGraph.Proofs.Solo.Untied
/-!
# Runs in brief

To follow a run by hand, within a limit or without one, it is enough to know its frames,
its scope and how many steps it has taken (`Run.Bears`), and whether anything is kept that
it could find (`Run.Bare`). There is one lemma here for each thing that a task may do, and
it says what has to be shown of the run as it is then.
-/

namespace ProgramGraph

variable {P : Plugins} {E : Engine P}

/-- **What becomes of a run, in brief:** its result, and how long it takes. -/
def Engine.ComesTo (E : Engine P) (next : Next P) (result : Except EvalError Value) (d : Nat) : Prop :=
  ∃ e n, Solo E next e d n ∧ e.result = result

namespace Run

/-- **What a run bears:** its frames, its scope, and the steps that it has taken. -/
structure Bears (r : Run P) (frames : List (Frame P)) (scope : Scope) (steps : Nat) : Prop where
  items : r.frames.items = frames
  scope : r.scope = scope
  steps : r.steps = steps

/-- Nothing is kept that the run could find. -/
def Bare (r : Run P) : Prop := ∀ id, r.innermost.kept? id = none

variable {r : Run P} {frames rest : List (Frame P)} {f g : Frame P} {scope : Scope} {n : Nat}

/-- A frame is taken off. -/
theorem Bears.pop (h : r.Bears (f :: rest) scope n) (depth : Nat) :
    Run.Bears { r.truncate depth with frames := r.frames.pop } rest (scope.truncate depth) n :=
  ⟨(Stack.eq_push h.items).2, congrArg (Scope.truncate · depth) h.scope, h.steps⟩

/-- What is found changes. -/
theorem Bears.mapInnermost (h : r.Bears frames scope n) (change : Memo → Memo) :
    (r.mapInnermost change).Bears frames scope n := by
  unfold Run.mapInnermost
  split <;> exact ⟨h.items, h.scope, h.steps⟩

theorem Bears.observe (h : r.Bears (f :: rest) scope n) (tainted : Bool) :
    (r.observe tainted).Bears ({ f with tainted := f.tainted || tainted } :: rest) scope n :=
  ⟨by rw [Run.observe, Stack.items_mapTop, h.items, List.modifyHead_cons], h.scope, h.steps⟩

/-- The task on top ends with a value. -/
theorem Bears.succeed (h : r.Bears (f :: rest) scope n) (value : Value) :
    ∃ r' : Run P, r'.Bears rest (scope.truncate f.scopeDepth) n ∧
      r.succeed value = (r', ⟨.ok value, f.volatile || f.tainted⟩) := by
  have hpop := h.pop f.scopeDepth
  unfold Run.succeed
  simp only [h.items]
  split
  · exact ⟨{ r.truncate f.scopeDepth with frames := r.frames.pop, overlays := r.overlays.tail },
      ⟨hpop.items, hpop.scope, hpop.steps⟩, rfl⟩
  · exact ⟨_, hpop.mapInnermost _, rfl⟩

/-- It ends with an error. -/
theorem Bears.fail (h : r.Bears (f :: rest) scope n) (error : EvalError) :
    ∃ r' : Run P, r'.Bears rest (scope.truncate f.scopeDepth) n ∧
      r.fail error = (r', ⟨.error error, f.volatile || f.tainted⟩) := by
  have hpop := h.pop f.scopeDepth
  unfold Run.fail
  simp only [h.items]
  split
  · exact ⟨{ r.truncate f.scopeDepth with frames := r.frames.pop, overlays := r.overlays.tail },
      ⟨hpop.items, hpop.scope, hpop.steps⟩, rfl⟩
  · exact ⟨_, hpop, rfl⟩

/-- What is found hangs on the overlays and on what the memo below keeps. -/
theorem Bare.congr {r' : Run P} (h : r.Bare) (hoverlays : r'.overlays = r.overlays)
    (hmemo : ∀ id, r'.memo.kept? id = r.memo.kept? id) : r'.Bare := by
  intro id
  have hnone := h id
  unfold innermost at hnone ⊢
  rw [hoverlays]
  split at hnone
  · exact (hmemo id).trans hnone
  · exact hnone

/-- A mark is not kept. -/
theorem Bare.setTainted (h : r.Bare) (id : NodeId) : (r.mapInnermost (·.setTainted id)).Bare := by
  intro other
  have hnone : (r.innermost.setTainted id).kept? other = none := by
    rw [Memo.kept?_setTainted, h other, ite_self]
  unfold innermost at hnone
  unfold Run.mapInnermost innermost
  split at hnone
  next hoverlays => simpa only [hoverlays] using hnone
  next hoverlays => simpa only [hoverlays] using hnone

end Run

namespace Engine.ComesTo

variable {r : Run P} {frames rest : List (Frame P)} {f g : Frame P} {s : Scope} {n : Nat}
  {task after : Builtin.Task} {input : Input} {step : Step} {id : NodeId} {volatile : Bool}
  {result : Except EvalError Value} {d : Nat}

/-- **The task on top is resumed,** within the limit. -/
theorem turn (hr : r.Bears (f :: rest) s n) (htask : f.task = .builtin task)
    (hwithin : ∀ limit, E.limits.maxSteps = some limit → n < limit)
    (hstep : task.resume ⟨f.node, s⟩ input = (step, after))
    (h : ∀ r' : Run P, r'.Bears ({ f with task := .builtin after } :: rest) s (n + 1) →
      (r.Bare → r'.Bare) → E.ComesTo (r'.serve E step) result d) :
    E.ComesTo (.resume r input) result d := by
  have hitems : r.countTurn.frames.items = f :: rest := hr.items
  have hresume : task.resume ⟨f.node, r.countTurn.scope⟩ input = (step, after) := by
    rw [show r.countTurn.scope = s from hr.scope, hstep]
  have hlimit : r.countTurn.exceeded? E.limits = none := by
    rw [Run.exceeded?, Option.filter_eq_none_iff]
    intro limit hlimit hlt
    have hsteps : r.countTurn.steps = n + 1 := congrArg (· + 1) hr.steps
    have hless : limit < r.countTurn.steps := of_decide_eq_true hlt
    have := hwithin limit hlimit
    omega
  have hturn := Run.turn_of_within hlimit input
  rw [Run.resumeFrame_of_builtin hitems htask, hresume] at hturn
  have hafter : (r.countTurn.frames.mapTop ({ · with task := .builtin after })).items =
      { f with task := .builtin after } :: rest := by
    rw [Stack.items_mapTop, hitems, List.modifyHead_cons]
  have hbears : Run.Bears (Run.note { r.countTurn with
      frames := r.countTurn.frames.mapTop ({ · with task := .builtin after }) } (.resumed f.node input))
      ({ f with task := .builtin after } :: rest) s (n + 1) :=
    ⟨hafter, hr.scope, congrArg (· + 1) hr.steps⟩
  obtain ⟨e, k, hsolo, hresult⟩ := h _ hbears fun hbare => hbare.congr rfl fun _ => rfl
  exact ⟨e, k + 1, .resume (hturn ▸ hsolo), hresult⟩

/-- **The task on top is not resumed,** beyond the limit. -/
theorem stop (hr : r.Bears frames s n) {limit : Nat} (hlimit : E.limits.maxSteps = some limit)
    (hlt : limit < n + 1) : E.ComesTo (.resume r input) (.error (.stepLimitExceeded limit)) 0 := by
  have hsteps : r.countTurn.steps = n + 1 := congrArg (· + 1) hr.steps
  have hexceeded : r.countTurn.exceeded? E.limits = some limit := by
    rw [Run.exceeded?, hlimit, hsteps]
    exact Option.filter_eq_some_iff.2 ⟨rfl, decide_eq_true hlt⟩
  have hsolo : Solo E (r.turn E input) ⟨.error (.stepLimitExceeded limit), true, r.countTurn.memo⟩ 0 2 := by
    rw [Run.turn_of_exceeded hexceeded]
    exact .finish _
  exact ⟨_, _, .resume hsolo, rfl⟩

/-- **A visit to a node that gets a task.** -/
theorem visit (hstarts : E.Starts id task volatile) (hr : r.Bears frames s n) {restore : Nat}
    {fresh : Bool} (hbare : fresh = false → r.Bare)
    (h : ∀ r' : Run P, r'.Bears (⟨id, .builtin task, volatile, false, restore, fresh⟩ :: frames) s n →
      r'.Bare → E.ComesTo (.resume r' .start) result d) : E.ComesTo (r.visit E id restore fresh) result d := by
  have hkept : (if fresh then none else r.innermost.kept? id) = none := by
    cases fresh with
    | false => exact hbare rfl id
    | true => rfl
  rw [hstarts.visit hkept]
  refine h _ ⟨congrArg (_ :: ·) hr.items, hr.scope, hr.steps⟩ ?_
  cases fresh with
  | false => exact (hbare rfl).congr rfl fun _ => rfl
  | true => exact Memo.kept?_empty

/-- A child is asked for. -/
theorem child (hstarts : E.Starts id task volatile) (hr : r.Bears frames s n) (hbare : r.Bare)
    (h : ∀ r' : Run P, r'.Bears (⟨id, .builtin task, volatile, false, s.depth, false⟩ :: frames) s n →
      r'.Bare → E.ComesTo (.resume r' .start) result d) : E.ComesTo (r.serve E (.child id)) result d :=
  visit hstarts hr (fun _ => hbare) (hr.scope ▸ h)

/-- A child is asked for anew. -/
theorem fresh (hstarts : E.Starts id task volatile) (hr : r.Bears frames s n)
    (h : ∀ r' : Run P, r'.Bears (⟨id, .builtin task, volatile, false, s.depth, true⟩ :: frames) s n →
      r'.Bare → E.ComesTo (.resume r' .start) result d) : E.ComesTo (r.serve E (.fresh id)) result d :=
  visit hstarts hr nofun (hr.scope ▸ h)

/-- A parameter is asked for. -/
theorem param {node : Node} {p : ParamId} {value : Value} (hnode : E.graph.get? id = some node)
    (hparam : node.param? = some p) (hr : r.Bears (f :: rest) s n) (hbare : r.Bare)
    (hvalue : s.lookup? p = some value)
    (h : ∀ r' : Run P, r'.Bears ({ f with tainted := f.tainted || true } :: rest) s n → r'.Bare →
      E.ComesTo (.resume r' (.value value)) result d) : E.ComesTo (r.serve E (.child id)) result d := by
  have hscope : r.scope.truncate r.scope.depth = s := (Scope.truncate_depth _).trans hr.scope
  have hlooked : ((r.truncate r.scope.depth).mapTally .countLookup).Bears (f :: rest) s n :=
    ⟨hr.items, hscope, hr.steps⟩
  have hmarked := (hlooked.mapInnermost (·.setTainted id)).observe true
  have hfound : r.scope.lookup? p = some value := hr.scope ▸ hvalue
  have hserve : r.serve E (.child id) = ((((r.truncate r.scope.depth).mapTally
      .countLookup).mapInnermost (·.setTainted id)).note (.lookedUp id)).answer ⟨.ok value, true⟩ := by
    simp only [Step.child, Run.serve, Run.visit, Run.arrive, hnode, hparam, hfound]
  have hitems := (hlooked.mapInnermost (·.setTainted id)).items
  have hkept : ((r.truncate r.scope.depth).mapTally .countLookup).Bare := hbare.congr rfl fun _ => rfl
  rw [hserve]
  simp only [Run.answer, Run.note, hitems]
  exact h _ ⟨hmarked.items, hmarked.scope, hmarked.steps⟩
    ((hkept.setTainted id).congr rfl fun _ => rfl)

/-- **The task on top ends with a value,** and the one below goes on. -/
theorem done {value : Value} (hr : r.Bears (f :: g :: rest) s n) {s' : Scope}
    (hs' : s.truncate f.scopeDepth = s')
    (h : ∀ r' : Run P, r'.Bears ({ g with tainted := g.tainted || (f.volatile || f.tainted) } :: rest)
      s' n → E.ComesTo (.resume r' (.value value)) result d) :
    E.ComesTo (r.serve E (.done value)) result d := by
  subst hs'
  obtain ⟨r', hr', hsucceed⟩ := hr.succeed value
  have hserve : r.serve E (.done value) = r'.answer ⟨.ok value, f.volatile || f.tainted⟩ := by
    simp only [Run.serve, hsucceed]
  rw [hserve]
  simp only [Run.answer, hr'.items]
  exact h _ (hr'.observe _)

/-- **The only task ends with an error,** and so does the run. -/
theorem fail {error : EvalError} (hr : r.Bears [f] s n) :
    E.ComesTo (r.serve E (.fail error)) (.error error) 0 := by
  obtain ⟨r', hr', hfail⟩ := hr.fail error
  have hserve : r.serve E (.fail error) = .finish ⟨.error error, f.volatile || f.tainted, r'⟩ := by
    simp only [Run.serve, hfail, Run.answer, hr'.items]
  rw [hserve]
  exact ⟨_, _, .finish _, rfl⟩

/-- **The only task waits for jobs,** and is told of a failure. -/
theorem wait (hn : E.registry.Native) (hr : r.Bears [f] s n) (htask : f.task = .builtin task)
    {await : Await} {fates : List Fate} (hfates : List.Forall₂ E.Fares await.jobs fates)
    {c : Conclusion} {value : Value} (hc : c.result = .error (.failed value)) {delay : Nat}
    (hres : await.Resolves (fates.map Fate.ending) (.settled c) delay) {total : Nat}
    (htotal : total = delay + d)
    (h : ∀ r' : Run P, r'.Bears [{ f with tainted := f.tainted || c.tainted }] s n →
      E.ComesTo (.resume r' (.error value)) result d) :
    E.ComesTo (r.serve E (.wait await)) result total := by
  subst htotal
  have hwoken : ∀ world : World P, ∃ r' : Run P,
      r'.Bears [{ f with tainted := f.tainted || c.tainted }] s n ∧
      r.wake world (.settled c) = .resume r' (.error value) := by
    intro world
    have hbears : (({ r with world } : Run P).mapTally (·.merge c.tally)).Bears [f] s n :=
      ⟨hr.items, hr.scope, hr.steps⟩
    have hobserved := hbears.observe c.tainted
    refine ⟨_, ⟨?_, ?_, ?_⟩, by simp only [Run.wake, Run.handOver, hc, EvalError.errorValue]; rfl⟩
    all_goals
      split
      · first | exact hobserved.items | exact hobserved.scope | exact hobserved.steps
      · first | exact hobserved.items | exact hobserved.scope | exact hobserved.steps
  have hlike : r.Like (.knowing fun _ _ => True) r := by
    refine ⟨rfl, rfl, rfl, rfl, ?_⟩
    rw [hr.items]
    exact .cons ⟨task, task, htask, by rw [← htask], rfl, trivial⟩ .nil
  obtain ⟨r', hr', hnext⟩ := hwoken r.world
  obtain ⟨e, k, hsolo, hresult⟩ := h r' hr'
  rw [← hnext] at hsolo
  obtain ⟨k', hk'⟩ := hsolo.congr hn
  exact ⟨e, _, .of_fares hfates hres fun world =>
    hk' _ (hlike.wake r.world world fun _ _ _ _ => trivial), hresult⟩

/-- **How a job fares:** what becomes of its run in one world becomes of it in all. -/
theorem exists_fares (hn : E.registry.Native) (hstarts : E.Starts id task volatile) (world : World P)
    (h : ∀ r : Run P, r.Bears [⟨id, .builtin task, volatile, false, s.depth, false⟩] s 0 →
      r.Bare → E.ComesTo (.resume r .start) result d) :
    ∃ fate, E.Fares ⟨id, s⟩ fate ∧ fate.report.result = result ∧ fate.duration = d := by
  have hbegins : E.ComesTo (Run.begin E { scope := s, world } id) result d :=
    visit hstarts ⟨rfl, rfl, rfl⟩ (fun _ => Memo.kept?_empty) h
  obtain ⟨e, k, hsolo, hresult⟩ := hbegins
  obtain ⟨k', hk'⟩ := hsolo.congr hn
  exact ⟨⟨e, d, k'⟩, fun world' => hk' _ ((Engine.upholds_true hn).same_begin id _ s world world'),
    hresult, rfl⟩

end Engine.ComesTo

end ProgramGraph
