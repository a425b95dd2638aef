import ProgramGraph.Engine.Wait
import ProgramGraph.Proofs.Evaluator.Basic
/-!
# Courses

The course of an evaluation is what it comes to and what it costs, told by
recursion on the graph as in the plain evaluator, but with the memo threaded
through it and the clock kept. Requests are answered from the memo, results go
into it, and waiting takes time, so a course says everything of a run that
goes on by itself: its answer, the memo it leaves, the counters, the time that
passes and how much work it makes for a schedule.

Jobs of one wait go on side by side, so together they take as long as the
longest of them, and a race takes as long as its fastest branch. If two
branches are equally fast, or a job ends just when its time is up, the course
cannot tell which comes first: it is tied, and what it says is of no use.
-/

namespace ProgramGraph

variable {P : Plugins}

/-- What an evaluation costs. -/
structure Cost where
  tally : Tally := .zero
  /-- The milliseconds that pass. -/
  duration : Nat := 0
  /-- An upper bound for the steps of a schedule. -/
  work : Nat := 0
  /-- Whether two things came at once where it matters which comes first. -/
  tied : Bool := false

namespace Cost

/-- One thing after another. -/
instance : Add Cost :=
  ⟨fun a b => ⟨a.tally.merge b.tally, a.duration + b.duration, a.work + b.work,
    a.tied || b.tied⟩⟩

/-- One resumption. -/
def turn : Cost := { tally := Tally.zero.countResumption, work := 1 }

/-- Handing a reply over: a failure is counted. -/
def handing : Reply → Cost
  | .ok _ => {}
  | .error _ => { tally := Tally.zero.countInjection }

/-- The beginning of a frame on top of some others. -/
def start (height : Nat) : Cost := { tally := Tally.zero.countStart.reachDepth (height + 1) }

@[simp] theorem tally_add (a b : Cost) : (a + b).tally = a.tally.merge b.tally := rfl

@[simp] theorem duration_add (a b : Cost) : (a + b).duration = a.duration + b.duration := rfl

@[simp] theorem work_add (a b : Cost) : (a + b).work = a.work + b.work := rfl

@[simp] theorem tied_add (a b : Cost) : (a + b).tied = (a.tied || b.tied) := rfl

@[simp] theorem duration_turn : turn.duration = 0 := rfl

@[simp] theorem work_turn : turn.work = 1 := rfl

@[simp] theorem tied_turn : turn.tied = false := rfl

@[simp] theorem tied_handing (reply : Reply) : (handing reply).tied = false := by
  cases reply <;> rfl

end Cost

/-- **The course of an evaluation.** -/
structure Course where
  answer : Answer
  /-- The memo that is left. Its counters play no part and are at zero. -/
  memo : Memo
  cost : Cost := {}

namespace Course

/-- The course after something else. -/
def after (cost : Cost) (c : Course) : Course := { c with cost := cost + c.cost }

/-- **What follows on a course.** A fatal error lets nothing follow. -/
def bind (c : Course) (next : Reply → Memo → Course) : Course :=
  match Reply.ofResult c.answer.result with
  | .ok reply =>
    let d := next reply c.memo
    ⟨d.answer.taintedBy c.answer.tainted, d.memo, c.cost + Cost.handing reply + d.cost⟩
  | .error fatal => { c with answer := ⟨.error fatal, true⟩ }

section Bind

variable {value : Value} {tainted : Bool} {m : Memo} {cost : Cost} {next : Reply → Memo → Course}

/-- What follows on a value. -/
theorem bind_ok : bind ⟨⟨.ok value, tainted⟩, m, cost⟩ next =
    ⟨(next (.ok value) m).answer.taintedBy tainted, (next (.ok value) m).memo,
      cost + .handing (.ok value) + (next (.ok value) m).cost⟩ := rfl

/-- What follows on a failure. -/
theorem bind_failed : bind ⟨⟨.error (.failed value), tainted⟩, m, cost⟩ next =
    ⟨(next (.error value) m).answer.taintedBy tainted, (next (.error value) m).memo,
      cost + .handing (.error value) + (next (.error value) m).cost⟩ := rfl

end Bind

/-! ## Waiting -/

/-- How much work jobs and the wait for them make. -/
def workOf (jobs : List Course) : Nat := jobs.foldr (fun c n => c.cost.work + 3 + n) 3

/-- Whether some of the jobs are tied. -/
def anyTied (jobs : List Course) : Bool := jobs.any fun c => c.cost.tied

/-- A wait of some time. -/
def pausing (ms : Nat) : Cost := { duration := min ms Wait.longest, work := workOf [] }

/-- A wait for all of some jobs. -/
def all (memo : Memo) (jobs : List Course) : Course where
  answer := Answer.gather (jobs.map answer)
  memo := memo
  cost := {
    tally := (jobs.map fun c => c.cost.tally).foldl Tally.merge .zero
    duration := (jobs.map fun c => c.cost.duration).foldl max 0
    work := workOf jobs
    tied := anyTied jobs }

/-- The fastest of some jobs; the first of them if there are several. -/
def fastest (job : Course) (others : List Course) : Course :=
  others.foldl (fun best c => if c.cost.duration < best.cost.duration then c else best) job

theorem fastest_mem (job : Course) (others : List Course) :
    fastest job others ∈ job :: others := by
  induction others generalizing job with
  | nil => exact List.mem_cons_self
  | cons other rest ih =>
    rcases List.mem_cons.1 (ih (if other.cost.duration < job.cost.duration then other else job))
      with h | h
    · rw [fastest, List.foldl_cons, ← fastest, h]
      split
      · exact List.mem_cons_of_mem _ List.mem_cons_self
      · exact List.mem_cons_self
    · exact List.mem_cons_of_mem _ (List.mem_cons_of_mem _ h)

/-- **No job is faster than the fastest.** -/
theorem duration_fastest_le (job : Course) (others : List Course) :
    ∀ c ∈ job :: others, (fastest job others).cost.duration ≤ c.cost.duration := by
  induction others generalizing job with
  | nil =>
    intro c hc
    rw [List.mem_singleton.1 hc]
    exact Nat.le_refl _
  | cons other rest ih =>
    have hih := ih (if other.cost.duration < job.cost.duration then other else job)
    rw [List.forall_mem_cons] at hih
    have hboth : ∀ c, c = job ∨ c = other →
        (if other.cost.duration < job.cost.duration then other else job).cost.duration ≤
          c.cost.duration := by
      rintro c (rfl | rfl) <;> split <;> omega
    intro c hc
    rcases List.mem_cons.1 hc with rfl | hc
    · exact Nat.le_trans hih.1 (hboth _ (.inl rfl))
    rcases List.mem_cons.1 hc with rfl | hc
    · exact Nat.le_trans hih.1 (hboth _ (.inr rfl))
    · exact hih.2 c hc

/-- A wait for the first of some jobs. -/
def first (memo : Memo) (job : Course) (others : List Course) : Course where
  answer := (fastest job others).answer
  memo := memo
  cost := {
    tally := (fastest job others).cost.tally
    duration := (fastest job others).cost.duration
    work := workOf (job :: others)
    tied := anyTied (job :: others) ||
      (job :: others).countP (fun c => c.cost.duration = (fastest job others).cost.duration) != 1 }

/-- A wait for a job that ends before its time is up. -/
def inTime (memo : Memo) (job : Course) : Course where
  answer := job.answer
  memo := memo
  cost := { job.cost with work := workOf [job] }

/-- A wait for a job until its time is up. -/
def tooLate (limit : Nat) (job : Course) : Cost where
  duration := limit
  work := workOf [job]
  tied := job.cost.tied || job.cost.duration == limit

end Course

/-! ## Plans -/

/-- How visits go: the node, the scope, whether it is asked for afresh, the
number of frames there are and the memo. -/
abbrev Visits := NodeId → Scope → Bool → Nat → Memo → Course

/-- The course of a job. -/
def Visits.job (go : Visits) (job : Job) : Course := go job.node job.scope false 0 .empty

/-- **The course of a plan** in a context, with a number of frames and a
memo. -/
def Plan.course (go : Visits) : Plan → Context → Nat → Memo → Course
  | finish result, _, _, m => ⟨⟨result, false⟩, m, .turn⟩
  | visit id manner next, cx, height, m =>
    ((go id (manner.scope cx.scope) manner.isFresh height m).bind
      fun reply m => (next reply).course go cx height m).after .turn
  | pause ms next, cx, height, m =>
    (next.course go cx height m).after (.turn + Course.pausing ms)
  | all jobs next, cx, height, m =>
    ((Course.all m (jobs.map fun job => go.job (cx.job job.1 job.2))).bind
      fun reply m => (next reply).course go cx height m).after .turn
  | first id others next, cx, height, m =>
    ((Course.first m (go.job (cx.job id [])) (others.map fun id => go.job (cx.job id []))).bind
      fun reply m => (next reply).course go cx height m).after .turn
  | deadline ms id next late, cx, height, m =>
    let job := go.job (cx.job id [])
    let limit := min ms Wait.longest
    if job.cost.duration < limit then
      ((Course.inTime m job).bind fun reply m => (next reply).course go cx height m).after .turn
    else (late.course go cx height m).after (.turn + Course.tooLate limit job)

/-- The course of a plan depends only on the visits that it may make. -/
theorem Plan.course_congr {go go' : Visits} {p : NodeId → Prop} {timed : Prop}
    (h : ∀ id, p id → go id = go' id) {plan : Plan} (hplan : plan.Within p timed) (cx : Context)
    (height : Nat) (m : Memo) : plan.course go cx height m = plan.course go' cx height m := by
  induction plan generalizing m with
  | finish => rfl
  | visit id manner next ih =>
    simp only [course, h id hplan.1, ih _ (hplan.2 _)]
  | pause ms next ih => simp only [course, ih hplan]
  | all jobs next ih =>
    have hjobs : (jobs.map fun job => go.job (cx.job job.1 job.2)) =
        jobs.map fun job => go'.job (cx.job job.1 job.2) := by
      refine List.map_congr_left fun job hjob => ?_
      simp only [Visits.job, Context.job, h _ (hplan.1 job hjob)]
    simp only [course, hjobs, ih _ (hplan.2 _)]
  | first id others next ih =>
    obtain ⟨-, hid, hothers, hnext⟩ := hplan
    have hjobs : (others.map fun id => go.job (cx.job id [])) =
        others.map fun id => go'.job (cx.job id []) := by
      refine List.map_congr_left fun other hother => ?_
      simp only [Visits.job, Context.job, h _ (hothers other hother)]
    have hjob : go.job (cx.job id []) = go'.job (cx.job id []) := by
      simp only [Visits.job, Context.job, h id hid]
    simp only [course, hjob, hjobs, ih _ (hnext _)]
  | deadline ms id next late ihn ihl =>
    obtain ⟨-, hid, hnext, hlate⟩ := hplan
    have hjob : go.job (cx.job id []) = go'.job (cx.job id []) := by
      simp only [Visits.job, Context.job, h id hid]
    simp only [course, hjob, ihn _ (hnext _), ihl hlate]

/-! ## Nodes -/

namespace Graph

/-- What is kept of a node when its frame ends with an answer. -/
def keep (id : NodeId) (a : Answer) (m : Memo) : Memo :=
  match a.result with
  | .ok value => m.put id value a.tainted
  | .error _ => m

/-- **The course of a visit.** -/
def course (g : Graph) (reg : Registry P) (id : NodeId) (s : Scope) (fresh : Bool) (height : Nat)
    (m : Memo) : Course :=
  match g.role reg id with
  | .absent => ⟨⟨.error (.invalidNode id "not in graph"), false⟩, m, {}⟩
  | .param p => ⟨⟨resolve s p, true⟩, m.setTainted id, { tally := Tally.zero.countLookup }⟩
  | .refused error volatile =>
    match if fresh then none else m.kept? id with
    | some value => ⟨⟨.ok value, false⟩, m, { tally := Tally.zero.countHit }⟩
    | none => ⟨⟨.error error, volatile⟩, m, {}⟩
  | .planned plan volatile =>
    match if fresh then none else m.kept? id with
    | some value => ⟨⟨.ok value, false⟩, m, { tally := Tally.zero.countHit }⟩
    | none =>
      let c := (plan.course (fun child s fresh height m =>
        if child < id then g.course reg child s fresh height m else ⟨misplaced child, m, {}⟩)
        ⟨id, s⟩ (height + 1) (if fresh then .empty else m)).after (.start height)
      let answer := c.answer.taintedBy volatile
      ⟨answer, if fresh then m else keep id answer c.memo, c.cost⟩
termination_by id.index

variable {g : Graph} {reg : Registry P} {id : NodeId} {s : Scope} {fresh : Bool} {height : Nat}
  {m : Memo}

theorem course_absent (h : g.role reg id = .absent) :
    g.course reg id s fresh height m = ⟨⟨.error (.invalidNode id "not in graph"), false⟩, m, {}⟩ := by
  rw [course, h]

theorem course_param {p : ParamId} (h : g.role reg id = .param p) :
    g.course reg id s fresh height m =
      ⟨⟨resolve s p, true⟩, m.setTainted id, { tally := Tally.zero.countLookup }⟩ := by
  rw [course, h]

theorem course_kept {value : Value} (habsent : g.role reg id ≠ .absent)
    (hparam : ∀ p, g.role reg id ≠ .param p)
    (hm : (if fresh then none else m.kept? id) = some value) :
    g.course reg id s fresh height m =
      ⟨⟨.ok value, false⟩, m, { tally := Tally.zero.countHit }⟩ := by
  rw [course]
  cases h : g.role reg id with
  | absent => exact absurd h habsent
  | param p => exact absurd h (hparam p)
  | refused => simp only [hm]
  | planned => simp only [hm]

theorem course_refused {error : EvalError} {volatile : Bool}
    (h : g.role reg id = .refused error volatile)
    (hm : (if fresh then none else m.kept? id) = none) :
    g.course reg id s fresh height m = ⟨⟨.error error, volatile⟩, m, {}⟩ := by
  rw [course, h]
  simp only [hm]

/-- **The course of a node is that of its plan,** in a valid graph. -/
theorem course_planned (hg : g.validate = .ok ()) (hr : reg.Native) {plan : Plan} {volatile : Bool}
    (h : g.role reg id = .planned plan volatile)
    (hm : (if fresh then none else m.kept? id) = none) {c : Course}
    (hc : c = plan.course (g.course reg) ⟨id, s⟩ (height + 1) (if fresh then .empty else m)) :
    g.course reg id s fresh height m =
      ⟨c.answer.taintedBy volatile, if fresh then m else keep id (c.answer.taintedBy volatile) c.memo,
        Cost.start height + c.cost⟩ := by
  rw [course, h]
  simp only [hm]
  rw [Plan.course_congr (fun child hchild => ?_) (within_of_role hg hr h), ← hc]
  · rfl
  · funext s fresh height m
    exact if_pos hchild

/-- **Two things come at once** where it matters which comes first, when the
node is evaluated from an empty memo. Branches count whether they win or not. -/
def Tied (g : Graph) (reg : Registry P) (id : NodeId) (s : Scope) : Prop :=
  (g.course reg id s false 0 .empty).cost.tied = true

end Graph

end ProgramGraph
