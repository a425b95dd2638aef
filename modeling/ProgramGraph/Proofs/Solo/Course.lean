import ProgramGraph.Proofs.Solo.Basic
import ProgramGraph.Proofs.Solo.Stand
/-!
# Runs take their courses

A run by itself does what its course says. The proof goes by what is still to
come: if a run that stands where the course of a visit ends comes to a report,
then the visit comes to it too, after the time and the work of the course. For
a plan this is by induction on the plan, for a node on its handle.

A fatal error takes a short cut past all frames. It comes to the report that
unwinding them one by one would have come to, so it needs no case of its own in
what is assumed about the end of a course.
-/

namespace ProgramGraph

variable {P : Plugins} {E : Engine P}

namespace Solo

/-- A turn, with its time and work as they are told. -/
theorem of_turn {r : Run P} {input : Input} {e : Report} {d d' n n' : Nat}
    (h : Solo E (r.turn E input) e d n) (hd : d' = d) (hn : n' = n + 1) :
    Solo E (.resume r input) e d' n' := by
  subst hd hn
  exact .resume h

theorem finish_of_report {o : Outcome P} {e : Report} (h : o.report = e) :
    Solo E (.finish o) e 0 2 := h ▸ .finish o

end Solo

namespace Run

/-- Stopping a run leaves its memo. -/
theorem stop_eq (r : Run P) (error : EvalError) : ∃ o : Outcome P,
    r.stop error = .finish o ∧ o.report = ⟨.error error, true, r.memo⟩ :=
  ⟨_, rfl, rfl⟩

/-- **Unwinding with a fatal error comes to the same** as stopping. -/
theorem Stands.serve_fatal {r : Run P} {frames : Stack (Frame P)} {frame : Frame P} {scope : Scope}
    {caches : List Memo} {tally : Tally} (h : r.Stands (frames.push frame) scope caches tally)
    (htainted : frame.tainted = true) {fatal : EvalError}
    (hfatal : fatal.errorValue = .error fatal) : ∃ o : Outcome P,
      r.serve E (.ofResult (.error fatal)) = .finish o ∧ o.report = ⟨.error fatal, true, r.memo⟩ := by
  have hitems : r.frames.items = frame :: frames.items := by rw [h.frames, Stack.items_push]
  obtain ⟨r', hfail, hmemo⟩ : ∃ r' : Run P, r.fail fatal = (r', ⟨.error fatal, true⟩) ∧
      r'.memo = r.memo := by
    simp only [Run.fail, hitems, htainted, Bool.or_true]
    split <;> exact ⟨_, rfl, rfl⟩
  simp only [Step.ofResult, Run.serve, hfail, Run.answer]
  split
  · exact ⟨_, rfl, by rw [Outcome.report, hmemo]⟩
  · obtain ⟨o, hstop, hreport⟩ := (r'.observe true).stop_eq fatal
    refine ⟨o, ?_, ?_⟩
    · simp only [Run.handOver, hfatal]
      exact hstop
    · rw [hreport, ← hmemo]
      rfl

end Run

/-- **Visits take their course** at a node. -/
def TakesCourse (E : Engine P) (id : NodeId) : Prop :=
  ∀ (r : Run P) (restore : Nat) (fresh : Bool) (m : Memo) (tail : List Memo) (c : Course)
    (e : Report) (d n : Nat),
    r.caches = m :: tail →
    c = E.graph.course E.registry id r.scope fresh r.frames.size m → c.cost.tied = false →
    (∀ r' : Run P, r'.Stands r.frames (r.scope.truncate restore) (c.memo :: tail)
      (r.memo.tally.merge c.cost.tally) → Solo E (r'.answer c.answer) e d n) →
    Solo E (r.visit E id restore fresh) e (c.cost.duration + d) (c.cost.work + n)

namespace Course

/-- What a course leaves of a run that begins with some counters. -/
def report (c : Course) (tally : Tally) : Report :=
  ⟨c.answer.result, c.answer.tainted, c.memo.mapTally fun _ => tally.merge c.cost.tally⟩

/-- What becomes of a job. -/
def fate (c : Course) : Fate := ⟨c.report .zero, c.cost.duration, c.cost.work + 2⟩

/-- The cost of what follows on a course. -/
def following (c : Course) (next : Reply → Memo → Course) : Cost :=
  match Reply.ofResult c.answer.result with
  | .ok reply => .handing reply + (next reply c.memo).cost
  | .error _ => {}

theorem ending_fate (c : Course) :
    c.fate.ending = (⟨c.answer.result, c.answer.tainted, c.cost.tally⟩, c.cost.duration) := by
  simp only [fate, report, Fate.ending, Report.conclusion, Memo.mapTally, Tally.zero_merge]

theorem duration_bind (c : Course) (next : Reply → Memo → Course) :
    (c.bind next).cost.duration = c.cost.duration + (c.following next).duration := by
  cases h : Reply.ofResult c.answer.result with
  | ok reply => simp only [bind, following, h, Cost.duration_add, Nat.add_assoc]
  | error fatal => simp only [bind, following, h, Nat.add_zero]

theorem work_bind (c : Course) (next : Reply → Memo → Course) :
    (c.bind next).cost.work = c.cost.work + (c.following next).work := by
  cases h : Reply.ofResult c.answer.result with
  | ok reply => simp only [bind, following, h, Cost.work_add, Nat.add_assoc]
  | error fatal => simp only [bind, following, h, Nat.add_zero]

theorem workOf_fates (jobs : List Course) : Fate.workOf (jobs.map fate) = workOf jobs := by
  rw [Fate.workOf, workOf, List.foldr_map]
  rfl

end Course

/-- **A run that begins takes the course of its root.** -/
theorem TakesCourse.begin {id : NodeId} (h : TakesCourse E id) (memo : Memo) (scope : Scope)
    (world : World P) {c : Course}
    (hc : c = E.graph.course E.registry id scope false 0 memo.resetTally)
    (htied : c.cost.tied = false) :
    Solo E (Run.begin E { memo, scope, world } id) (c.report memo.tally) c.cost.duration
      (c.cost.work + 2) := by
  refine h { memo, scope, world } scope.depth false memo.resetTally [] c _ 0 2 rfl hc htied ?_
  intro r' hr'
  have hitems : r'.frames.items = [] := by rw [hr'.frames]; rfl
  simp only [Run.answer, hitems]
  apply Solo.finish_of_report
  simp only [Outcome.report, Course.report, Report.mk.injEq, true_and]
  rw [Run.memo_of_caches hr'.caches, hr'.tally]

/-- So does a job. -/
theorem TakesCourse.job {job : Job} (h : TakesCourse E job.node) {c : Course}
    (hc : c = Visits.job (E.graph.course E.registry) job) (htied : c.cost.tied = false)
    (world : World P) :
    Solo E (Run.begin E { scope := job.scope, world } job.node) c.fate.report c.fate.duration
      c.fate.work :=
  h.begin .empty job.scope world hc htied

/-- **The jobs of a wait take some courses.** -/
structure JobsTake (E : Engine P) (await : Await) (jobs : List Course) : Prop where
  length : jobs.length = await.jobs.length
  solo : ∀ (i : Nat) (job : Job) (c : Course), await.jobs[i]? = some job → jobs[i]? = some c →
    ∀ world : World P, Solo E (Run.begin E { scope := job.scope, world } job.node) c.fate.report
      c.fate.duration c.fate.work

/-- A wait for such jobs. -/
theorem JobsTake.wait {await : Await} {jobs : List Course} (h : JobsTake E await jobs) {r : Run P}
    {wake : Wake} {delay : Nat} {e : Report} {d n : Nat}
    (hresolves : await.Resolves (jobs.map fun job => job.fate.ending) wake delay)
    (hnext : ∀ world : World P, Solo E (r.wake world wake) e d n) :
    Solo E (.wait r await) e (delay + d) (Course.workOf jobs + n) := by
  rw [← Course.workOf_fates]
  refine .wait (by rw [List.length_map, h.length]) ?_ (by rw [List.map_map]; exact hresolves) hnext
  intro i job fate hjob hfate world
  rw [List.getElem?_map] at hfate
  obtain ⟨c, hc, rfl⟩ := Option.map_eq_some_iff.1 hfate
  exact h.solo i job c hjob hc world

/-- Jobs take their courses if their nodes do and none of them is tied. -/
theorem JobsTake.of_takesCourse (await : Await)
    (h : ∀ job ∈ await.jobs, TakesCourse E job.node)
    (htied : ∀ job ∈ await.jobs,
      (Visits.job (E.graph.course E.registry) job).cost.tied = false) :
    JobsTake E await (await.jobs.map (Visits.job (E.graph.course E.registry))) := by
  refine ⟨List.length_map _, fun i job c hjob hc world => ?_⟩
  rw [List.getElem?_map, hjob] at hc
  cases hc
  have hmem := List.mem_of_getElem? hjob
  exact (h job hmem).job rfl (htied job hmem) world

section Frame

variable {r : Run P} {frames : Stack (Frame P)} {frame : Frame P} {scope : Scope} {m : Memo}
  {tail : List Memo} {tally : Tally} {e : Report} {d n : Nat} {c : Course}
  {next : Reply → Memo → Course}

/-- What comes after an answer to a frame: it goes on with the reply, or the
run ends as if the frame had failed with the fatal error. -/
structure GoesOn (E : Engine P) (frames : Stack (Frame P)) (frame : Frame P) (scope : Scope)
    (tail : List Memo) (tally : Tally) (c : Course) (next : Reply → Memo → Course) (e : Report)
    (d n : Nat) : Prop where
  reply : ∀ reply, Reply.ofResult c.answer.result = .ok reply → ∀ r' : Run P,
    r'.Stands (frames.push { frame with tainted := frame.tainted || c.answer.tainted }) scope
      (c.memo :: tail) ((tally.merge c.cost.tally).merge (Cost.handing reply).tally) →
    Solo E (.resume r' reply.toInput) e ((next reply c.memo).cost.duration + d)
      ((next reply c.memo).cost.work + n)
  fatal : ∀ fatal, Reply.ofResult c.answer.result = .error fatal → ∀ r' : Run P,
    r'.Stands (frames.push { frame with tainted := true }) scope (c.memo :: tail)
      (tally.merge c.cost.tally) →
    Solo E (r'.serve E (.ofResult (.error fatal))) e d n

/-- **An answer is taken in.** -/
theorem GoesOn.answer (hgo : GoesOn E frames frame scope tail tally c next e d n)
    (h : r.Stands (frames.push frame) scope (c.memo :: tail) (tally.merge c.cost.tally)) :
    Solo E (r.answer c.answer) e ((c.following next).duration + d)
      ((c.following next).work + n) := by
  unfold Course.following
  split
  next reply hreply =>
    obtain ⟨r', hnext, hstands⟩ := h.answer hreply
    rw [hnext]
    have := hgo.reply reply hreply r' hstands
    cases reply <;> simpa [Cost.handing] using this
  next fatal hfatal =>
    rw [h.answer_of_fatal hfatal, Nat.zero_add, Nat.zero_add]
    -- a fatal error ends the run here and now, just as if the frame itself had failed
    have hmarked : (r.observe true).Stands (frames.push { frame with tainted := true }) scope
        (c.memo :: tail) (tally.merge c.cost.tally) := by
      have := h.observe true
      rwa [Bool.or_true] at this
    obtain ⟨o, hunwound, hreport⟩ :=
      hmarked.serve_fatal (E := E) rfl (Reply.ofResult_eq_error hfatal).2
    obtain ⟨o', hstopped, hreport'⟩ := (r.observe c.answer.tainted).stop_eq fatal
    have hend := hgo.fatal fatal hfatal _ hmarked
    rw [hunwound] at hend
    obtain ⟨rfl, rfl, rfl⟩ := hend.of_finish
    rw [hstopped]
    exact Solo.finish_of_report (hreport'.trans hreport.symm)

/-- **A wait for jobs comes to its end** as the course of the wait says. -/
theorem GoesOn.wait (hgo : GoesOn E frames frame scope tail tally c next e d n)
    (h : r.Stands (frames.push frame) scope (c.memo :: tail) tally) {await : Await}
    {jobs : List Course} (hjobs : JobsTake E await jobs)
    (hresolves : await.Resolves (jobs.map fun job => job.fate.ending)
      (.settled ⟨c.answer.result, c.answer.tainted, c.cost.tally⟩) c.cost.duration)
    (hwork : c.cost.work = Course.workOf jobs) :
    Solo E (.wait r await) e (c.cost.duration + ((c.following next).duration + d))
      (c.cost.work + ((c.following next).work + n)) := by
  rw [hwork]
  refine hjobs.wait hresolves fun world => ?_
  have hwoken := (h.withWorld world).mapTally (·.merge c.cost.tally)
  have hitems : (Run.mapTally { r with world } (·.merge c.cost.tally)).frames.items =
      frame :: frames.items := by rw [hwoken.frames, Stack.items_push]
  have := hgo.answer hwoken
  simp only [Run.answer, hitems] at this
  exact this

end Frame

/-! ## Plans -/

/-- What is assumed of the end of a frame: with the result and the taint of its
course it comes to a report. -/
def Finishes (E : Engine P) (frames : Stack (Frame P)) (frame : Frame P) (scope : Scope)
    (tail : List Memo) (tally : Tally) (c : Course) (e : Report) (d n : Nat) : Prop :=
  ∀ (r : Run P) (after : Builtin.Task),
    r.Stands (frames.push
        { frame with task := .builtin after, tainted := frame.tainted || c.answer.tainted })
      scope (c.memo :: tail) (tally.merge c.cost.tally) →
    Solo E (r.serve E (.ofResult c.answer.result)) e d n

/-- **A plan takes its course:** whoever follows it does. -/
def Plan.Takes (E : Engine P) (plan : Plan) : Prop :=
  ∀ (r : Run P) (frames : Stack (Frame P)) (frame : Frame P) (task : Builtin.Task) (input : Input)
    (scope : Scope) (m : Memo) (tail : List Memo) (tally : Tally) (c : Course) (e : Report)
    (d n : Nat),
    r.Stands (frames.push frame) scope (m :: tail) tally → frame.task = .builtin task →
    plan.Follows frame.node task input →
    c = plan.course (E.graph.course E.registry) ⟨frame.node, scope⟩ (frames.size + 1) m →
    c.cost.tied = false → Finishes E frames frame scope tail tally c e d n →
    Solo E (.resume r input) e (c.cost.duration + d) (c.cost.work + n)

section Plans

variable {frames : Stack (Frame P)} {frame : Frame P} {scope : Scope} {m : Memo}
  {tail : List Memo} {tally : Tally} {e : Report} {d n : Nat} {c : Course}

/-- The frame goes on after an answer if the plans that may follow take their
courses. -/
theorem goesOn_of_plans {next : Reply → Plan} {after : Builtin.Task}
    (hnext : ∀ reply, (next reply).Takes E)
    (hfollows : ∀ reply, Reply.ofResult c.answer.result = .ok reply →
      (next reply).Follows frame.node after reply.toInput) {cx : Context} {height : Nat}
    (hcx : cx = ⟨frame.node, scope⟩) (hheight : height = frames.size + 1)
    {follow : Reply → Memo → Course}
    (hfollow : follow = fun reply m =>
      (next reply).course (E.graph.course E.registry) cx height m)
    (htied : ((c.bind follow).after .turn).cost.tied = false)
    (hk : Finishes E frames frame scope tail tally ((c.bind follow).after .turn) e d n) :
    GoesOn E frames { frame with task := .builtin after } scope tail
      (tally.merge Cost.turn.tally) c follow e d n := by
  subst hcx hheight
  constructor
  -- what follows pays for the reply that was handed over, and passes the taint on
  · intro reply hreply r' hr'
    have hbind : c.bind follow = ⟨(follow reply c.memo).answer.taintedBy c.answer.tainted,
        (follow reply c.memo).memo,
        c.cost + Cost.handing reply + (follow reply c.memo).cost⟩ := by
      simp only [Course.bind, hreply]
    rw [hbind] at htied hk
    simp only [Course.after, Cost.tied_add, Bool.or_eq_false_iff] at htied
    refine hnext reply r' frames _ after reply.toInput scope c.memo tail _ _ e d n hr' rfl
      (hfollows reply hreply) (by rw [hfollow]) htied.2.2 fun r'' after' hr'' => ?_
    refine hk r'' after' ?_
    simpa [Course.after, Bool.or_assoc, Tally.merge_assoc] using hr''
  · intro fatal hfatal r' hr'
    have hbind : c.bind follow = { c with answer := ⟨.error fatal, true⟩ } := by
      simp only [Course.bind, hfatal]
    rw [hbind] at hk
    refine hk r' after ?_
    simpa [Course.after, Tally.merge_assoc] using hr'

/-- A request for a node is a visit. -/
theorem Run.serve_step (r : Run P) (id : NodeId) (manner : Manner) :
    r.serve E (manner.step id) =
      Run.visit E { r with scope := manner.scope r.scope } id r.scope.depth manner.isFresh := by
  cases manner <;> rfl

/-- The scope is cut back after a visit. -/
theorem Manner.truncate_scope (manner : Manner) (s : Scope) :
    (manner.scope s).truncate s.depth = s := by
  cases manner with
  | plain => exact s.truncate_depth
  | under bindings => exact s.truncate_push bindings
  | fresh => exact s.truncate_depth

theorem duration_after_bind (c : Course) (next : Reply → Memo → Course) :
    ((c.bind next).after .turn).cost.duration =
      c.cost.duration + (c.following next).duration := by
  simp only [Course.after, Cost.duration_add, Cost.duration_turn, Nat.zero_add,
    Course.duration_bind]

theorem work_after_bind (c : Course) (next : Reply → Memo → Course) :
    ((c.bind next).after .turn).cost.work = c.cost.work + (c.following next).work + 1 := by
  simp only [Course.after, Cost.work_add, Cost.work_turn, Course.work_bind, Nat.add_comm 1]

/-- What comes first is not tied if all of it is not. -/
theorem tied_of_bind {next : Reply → Memo → Course}
    (h : ((c.bind next).after .turn).cost.tied = false) : c.cost.tied = false := by
  simp only [Course.after, Cost.tied_add, Cost.tied_turn, Bool.false_or] at h
  unfold Course.bind at h
  split at h
  · simp only [Cost.tied_add, Bool.or_eq_false_iff] at h
    exact h.1.1
  · exact h

/-- The answer to a batch of jobs is a failure, or as many values as there are
jobs. -/
theorem reply_all {jobs : List Course} {reply : Reply}
    (h : Reply.ofResult (Course.all m jobs).answer.result = .ok reply) :
    (∃ value, reply = .error value) ∨
      ∃ values : List Value, values.length = jobs.length ∧ reply = .ok (.array values) := by
  have hreply := Reply.of_mapM h
  rwa [List.length_map] at hreply

/-- **A batch resolves** as its course says. -/
theorem resolves_all (asked : List Job) (jobs : List Course) :
    (Await.all asked).Resolves (jobs.map fun c => c.fate.ending)
      (.settled ⟨(Course.all m jobs).answer.result, (Course.all m jobs).answer.tainted,
        (Course.all m jobs).cost.tally⟩) (Course.all m jobs).cost.duration := by
  simp only [Await.Resolves, Course.ending_fate, List.map_map, Function.comp_def]
  constructor
  · simp only [Conclusion.gather, Course.all, Answer.gather, List.mapM_map, List.map_map,
      List.any_map, Function.comp_def]
  · rfl

/-- Of items of which just one has a property, two that have it are the same. -/
theorem eq_of_countP_eq_one {α : Type} {q : α → Bool} {items : List α} (h : items.countP q = 1)
    {a b : α} (ha : a ∈ items) (hb : b ∈ items) (hqa : q a = true) (hqb : q b = true) : a = b := by
  rw [List.countP_eq_length_filter, List.length_eq_one_iff] at h
  obtain ⟨x, hx⟩ := h
  have hmem : ∀ y ∈ items, q y = true → y = x := by
    intro y hy hqy
    have : y ∈ items.filter q := List.mem_filter.2 ⟨hy, hqy⟩
    rwa [hx, List.mem_singleton] at this
  rw [hmem a ha hqa, hmem b hb hqb]

/-- **A race without a tie resolves** as its course says. -/
theorem resolves_first {job : Course} {others : List Course} (asked : Job) (rest : List Job)
    (htied : (Course.first m job others).cost.tied = false) :
    (Await.first asked rest).Resolves ((job :: others).map fun c => c.fate.ending)
      (.settled ⟨(Course.first m job others).answer.result,
        (Course.first m job others).answer.tainted, (Course.first m job others).cost.tally⟩)
      (Course.first m job others).cost.duration := by
  simp only [Course.first, Bool.or_eq_false_iff, bne_eq_false_iff_eq] at htied
  refine ⟨(Course.fastest job others).fate.ending,
    List.mem_map_of_mem (Course.fastest_mem job others), ?_, ?_, ?_⟩
  · rw [Course.ending_fate]
    rfl
  · rw [Course.ending_fate]
    rfl
  · intro other hother
    obtain ⟨c, hc, rfl⟩ := List.mem_map.1 hother
    simp only [Course.ending_fate]
    refine ⟨Course.duration_fastest_le job others c hc, fun heq => ?_⟩
    rw [eq_of_countP_eq_one htied.2 hc (Course.fastest_mem job others) (by simpa using heq)
      (by simp)]

/-- **A turn that begins a wait,** with what follows on it. -/
theorem solo_of_wait {r r' : Run P} {input : Input} {after : Builtin.Task} {await : Await}
    {jobs : List Course} {follow : Reply → Memo → Course}
    (hturn : r.turn E input = .wait r' await)
    (hr' : r'.Stands (frames.push { frame with task := .builtin after }) scope (c.memo :: tail)
      (tally.merge Cost.turn.tally))
    (hgoes : GoesOn E frames { frame with task := .builtin after } scope tail
      (tally.merge Cost.turn.tally) c follow e d n)
    (hjobs : JobsTake E await jobs)
    (hresolves : await.Resolves (jobs.map fun job => job.fate.ending)
      (.settled ⟨c.answer.result, c.answer.tainted, c.cost.tally⟩) c.cost.duration)
    (hwork : c.cost.work = Course.workOf jobs) :
    Solo E (.resume r input) e (((c.bind follow).after .turn).cost.duration + d)
      (((c.bind follow).after .turn).cost.work + n) := by
  have hwait := hgoes.wait hr' hjobs hresolves hwork
  refine .of_turn (hturn ▸ hwait) ?_ ?_
  · rw [duration_after_bind, Nat.add_assoc]
  · rw [work_after_bind]
    omega

/-- **A turn that begins a wait which ends with its time.** -/
theorem solo_of_elapsed {r r' : Run P} {input : Input} {after : Builtin.Task} {await : Await}
    {jobs : List Course} {next : Plan} {cost : Cost}
    (hturn : r.turn E input = .wait r' await)
    (hr' : r'.Stands (frames.push { frame with task := .builtin after }) scope (m :: tail)
      (tally.merge Cost.turn.tally))
    (hjobs : JobsTake E await jobs)
    (hresolves : await.Resolves (jobs.map fun job => job.fate.ending) .elapsed cost.duration)
    (hwork : cost.work = Course.workOf jobs) (htally : cost.tally = .zero)
    (hnext : next.Takes E) (hfollows : next.Follows frame.node after .elapsed)
    (hc : c = next.course (E.graph.course E.registry) ⟨frame.node, scope⟩ (frames.size + 1) m)
    (htied : (c.after (.turn + cost)).cost.tied = false)
    (hk : Finishes E frames frame scope tail tally (c.after (.turn + cost)) e d n) :
    Solo E (.resume r input) e ((c.after (.turn + cost)).cost.duration + d)
      ((c.after (.turn + cost)).cost.work + n) := by
  have hctied : c.cost.tied = false := by
    simp only [Course.after, Cost.tied_add, Bool.or_eq_false_iff] at htied
    exact htied.2
  have hwoken : ∀ world : World P,
      Solo E (r'.wake world .elapsed) e (c.cost.duration + d) (c.cost.work + n) := by
    intro world
    refine hnext _ frames _ after .elapsed scope m tail _ c e d n (hr'.withWorld world) rfl
      hfollows hc hctied fun r'' after' hr'' => hk r'' after' ?_
    simpa [Course.after, htally, Tally.merge_assoc] using hr''
  have hwait := hjobs.wait hresolves hwoken
  refine .of_turn (hturn ▸ hwait) ?_ ?_
  · simp only [Course.after, Cost.duration_add, Cost.duration_turn]
    omega
  · simp only [Course.after, Cost.work_add, Cost.work_turn, hwork]
    omega

theorem tied_of_mem {jobs : List Course} (h : Course.anyTied jobs = false) (hc : c ∈ jobs) :
    c.cost.tied = false := by
  have := List.any_eq_false.1 h c hc
  simpa using this

namespace Plan

/-- A plan that ends. -/
theorem takes_finish (hlimit : E.limits.maxSteps = none) (result : Except EvalError Value) :
    (finish result).Takes E := by
  intro r frames frame task input scope m tail tally c e d n hr htask hfollows hc htied hk
  obtain ⟨after, hstep⟩ : ∃ after,
      task.resume ⟨frame.node, scope⟩ input = (.ofResult result, after) :=
    ⟨_, Prod.ext (hfollows scope) rfl⟩
  obtain ⟨r', hturn, hr'⟩ := hr.turn hlimit htask hstep
  subst hc
  refine .of_turn (hturn ▸ hk r' after ?_) (Nat.zero_add d) (Nat.add_comm 1 n)
  rw [Plan.course, Bool.or_false]
  exact hr'

/-- **A visit,** if the node takes its course and so does whatever follows. -/
theorem takes_visit (hlimit : E.limits.maxSteps = none) {id : NodeId} (hgo : TakesCourse E id)
    (manner : Manner) {next : Reply → Plan} (hnext : ∀ reply, (next reply).Takes E) :
    (visit id manner next).Takes E := by
  intro r frames frame task input scope m tail tally c e d n hr htask hfollows hc htied hk
  obtain ⟨after, hstep, hfollows⟩ := hfollows scope
  obtain ⟨r', hturn, hr'⟩ := hr.turn hlimit htask hstep
  obtain ⟨a, ha⟩ : ∃ a, a = E.graph.course E.registry id (manner.scope scope) manner.isFresh
    (frames.size + 1) m := ⟨_, rfl⟩
  rw [Plan.course, ← ha] at hc
  subst hc
  have hgoes := goesOn_of_plans hnext
    (fun reply _ => hfollows reply) rfl rfl rfl htied hk
  have hscoped := hr'.withScope (manner.scope r'.scope)
  have hvisit := hgo { r' with scope := manner.scope r'.scope } r'.scope.depth
    manner.isFresh m tail a e _ _ hscoped.caches
    (by rw [ha, ← hr'.scope, hr'.frames, Stack.size_push]) (tied_of_bind htied)
    fun r'' hr'' => hgoes.answer (by
      rw [Manner.truncate_scope, hr'.scope, hscoped.frames, hscoped.tally] at hr''
      exact hr'')
  rw [← r'.serve_step, ← hturn] at hvisit
  refine .of_turn hvisit ?_ ?_
  · rw [duration_after_bind, Nat.add_assoc]
  · rw [work_after_bind]
    omega

/-- A pause. -/
theorem takes_pause (hlimit : E.limits.maxSteps = none) (ms : Nat) {next : Plan}
    (hnext : next.Takes E) : (pause ms next).Takes E := by
  intro r frames frame task input scope m tail tally c e d n hr htask hfollows hc htied hk
  obtain ⟨after, hstep, hfollows⟩ := hfollows scope
  obtain ⟨r', hturn, hr'⟩ := hr.turn hlimit htask hstep
  subst hc
  have hnone : JobsTake E (.timer ms .elapsed) [] := ⟨rfl, fun i job c hjob => by cases hjob⟩
  exact solo_of_elapsed hturn hr' hnone ⟨rfl, rfl⟩ rfl rfl hnext hfollows rfl htied hk

/-- **A batch of jobs.** -/
theorem takes_all (hlimit : E.limits.maxSteps = none) {jobs : List (NodeId × Bindings)}
    (hgo : ∀ job ∈ jobs, TakesCourse E job.1) {next : Reply → Plan}
    (hnext : ∀ reply, (next reply).Takes E) : (all jobs next).Takes E := by
  intro r frames frame task input scope m tail tally c e d n hr htask hfollows hc htied hk
  obtain ⟨after, hstep, hfollowsError, hfollowsValues⟩ := hfollows scope
  obtain ⟨r', hturn, hr'⟩ := hr.turn hlimit htask hstep
  obtain ⟨asked, hasked⟩ : ∃ asked, asked =
    jobs.map fun job => Context.job ⟨frame.node, scope⟩ job.1 job.2 := ⟨_, rfl⟩
  have hcourses : (jobs.map fun job => Visits.job (E.graph.course E.registry)
      (Context.job ⟨frame.node, scope⟩ job.1 job.2)) =
      asked.map (Visits.job (E.graph.course E.registry)) := by
    rw [hasked, List.map_map]
    rfl
  rw [Plan.course, hcourses] at hc
  subst hc
  have hgoes := goesOn_of_plans hnext
    (fun reply hreply => by
      rcases reply_all hreply with ⟨value, rfl⟩ | ⟨values, hlength, rfl⟩
      · exact hfollowsError value
      · exact hfollowsValues values (by rw [hlength, hasked, List.length_map, List.length_map]))
    rfl rfl rfl htied hk
  have htied := tied_of_bind htied
  refine solo_of_wait (c := Course.all m _) (by rw [hturn, hasked]; rfl) hr' hgoes
    (JobsTake.of_takesCourse (.all asked) ?_ ?_) (resolves_all _ _) rfl
  · intro job hjob
    obtain ⟨pair, hpair, rfl⟩ := List.mem_map.1 (hasked ▸ hjob)
    exact hgo pair hpair
  · intro job hjob
    exact tied_of_mem htied (List.mem_map_of_mem hjob)

/-- **A race.** All branches take their courses, the losers as well. -/
theorem takes_first (hlimit : E.limits.maxSteps = none) {id : NodeId} (hgo : TakesCourse E id)
    {others : List NodeId} (hothers : ∀ other ∈ others, TakesCourse E other)
    {next : Reply → Plan} (hnext : ∀ reply, (next reply).Takes E) :
    (first id others next).Takes E := by
  intro r frames frame task input scope m tail tally c e d n hr htask hfollows hc htied hk
  obtain ⟨after, hstep, hfollows⟩ := hfollows scope
  obtain ⟨r', hturn, hr'⟩ := hr.turn hlimit htask hstep
  subst hc
  have hgoes := goesOn_of_plans hnext
    (fun reply _ => hfollows reply) rfl rfl rfl htied hk
  have htied := tied_of_bind htied
  obtain ⟨asked, hasked⟩ : ∃ asked, asked = Await.first (Context.job ⟨frame.node, scope⟩ id [])
    (others.map (Context.job ⟨frame.node, scope⟩ · [])) := ⟨_, rfl⟩
  have hcourses : asked.jobs.map (Visits.job (E.graph.course E.registry)) =
      Visits.job (E.graph.course E.registry) (Context.job ⟨frame.node, scope⟩ id []) ::
        others.map fun id => Visits.job (E.graph.course E.registry)
          (Context.job ⟨frame.node, scope⟩ id []) := by
    rw [hasked, Await.jobs, List.map_cons, List.map_map]
    rfl
  have hjobs := JobsTake.of_takesCourse (E := E) asked
  rw [hcourses] at hjobs
  refine solo_of_wait (c := Course.first m _ _) (by rw [hturn]; rfl) hr' hgoes
    (hasked ▸ hjobs ?_ ?_) (resolves_first _ _ htied) rfl
  · intro job hjob
    rw [hasked] at hjob
    rcases List.mem_cons.1 hjob with rfl | hjob
    · exact hgo
    · obtain ⟨other, hother, rfl⟩ := List.mem_map.1 hjob
      exact hothers other hother
  · intro job hjob
    simp only [Course.first, Bool.or_eq_false_iff] at htied
    refine tied_of_mem htied.1 ?_
    rw [← hcourses]
    exact List.mem_map_of_mem hjob

/-- **A wait under a deadline,** which the job meets or does not. -/
theorem takes_deadline (hlimit : E.limits.maxSteps = none) (ms : Nat) {id : NodeId}
    (hgo : TakesCourse E id) {next : Reply → Plan} (hnext : ∀ reply, (next reply).Takes E)
    {late : Plan} (hlate : late.Takes E) : (deadline ms id next late).Takes E := by
  intro r frames frame task input scope m tail tally c e d n hr htask hfollows hc htied hk
  obtain ⟨after, hstep, hfollows, hfollowsLate⟩ := hfollows scope
  obtain ⟨r', hturn, hr'⟩ := hr.turn hlimit htask hstep
  obtain ⟨asked, hasked⟩ : ∃ asked, asked = Context.job ⟨frame.node, scope⟩ id [] := ⟨_, rfl⟩
  obtain ⟨job, hjob⟩ : ∃ job, job = Visits.job (E.graph.course E.registry) asked := ⟨_, rfl⟩
  -- the job takes its course whether it is in time or not
  have hjobs : job.cost.tied = false → JobsTake E (.deadline ms asked) [job] := by
    intro htied
    have := JobsTake.of_takesCourse (E := E) (.deadline ms asked)
    rw [Await.jobs, List.map_singleton, ← hjob] at this
    refine this ?_ ?_
    · intro other hother
      rw [List.mem_singleton.1 hother, hasked]
      exact hgo
    · intro other hother
      rw [List.mem_singleton.1 hother, ← hjob]
      exact htied
  simp only [Plan.course] at hc
  rw [← hasked, ← hjob] at hc
  rw [← hasked] at hturn
  split at hc
  next hlt =>
    subst hc
    have hgoes := goesOn_of_plans hnext
      (fun reply _ => hfollows reply) rfl rfl rfl htied hk
    have htied := tied_of_bind htied
    refine solo_of_wait (c := Course.inTime m job) hturn hr' hgoes (hjobs htied) ?_ rfl
    refine ⟨_, List.mem_singleton.2 rfl, .inl ?_⟩
    simp only [Course.ending_fate]
    exact ⟨hlt, rfl, rfl⟩
  -- a job that is not in time and not just in time is late
  next hge =>
    subst hc
    have htied' := htied
    simp only [Course.after, Cost.tied_add, Cost.tied_turn, Course.tooLate, Bool.false_or,
      Bool.or_eq_false_iff, beq_eq_false_iff_ne, ne_eq] at htied'
    refine solo_of_elapsed hturn hr' (hjobs htied'.1.1) ?_ rfl rfl hlate hfollowsLate rfl
      htied hk
    refine ⟨_, List.mem_singleton.2 rfl, .inr ?_⟩
    simp only [Course.ending_fate]
    refine ⟨?_, trivial, rfl⟩
    have := htied'.1.2
    omega

/-- **Every plan takes its course** if the nodes do that it may ask for. -/
theorem takes (hlimit : E.limits.maxSteps = none) {p : NodeId → Prop} {timed : Prop}
    (hgo : ∀ id, p id → TakesCourse E id) {plan : Plan} (hplan : plan.Within p timed) :
    plan.Takes E := by
  induction plan with
  | finish result => exact takes_finish hlimit result
  | visit id manner next ih =>
    obtain ⟨hid, hnext⟩ := hplan
    exact takes_visit hlimit (hgo id hid) manner fun reply => ih reply (hnext reply)
  | pause ms next ih => exact takes_pause hlimit ms (ih hplan)
  | all jobs next ih =>
    obtain ⟨hjobs, hnext⟩ := hplan
    exact takes_all hlimit (fun job hjob => hgo job.1 (hjobs job hjob)) fun reply =>
      ih reply (hnext reply)
  | first id others next ih =>
    obtain ⟨-, hid, hothers, hnext⟩ := hplan
    exact takes_first hlimit (hgo id hid) (fun other hother => hgo other (hothers other hother))
      fun reply => ih reply (hnext reply)
  | deadline ms id next late ihn ihl =>
    obtain ⟨-, hid, hnext, hlate⟩ := hplan
    exact takes_deadline hlimit ms (hgo id hid) (fun reply => ihn reply (hnext reply)) (ihl hlate)

end Plan

end Plans

/-! ## Nodes -/

/-- **A visit to a node that is evaluated,** if its plan takes its course. -/
theorem Plan.Takes.visit {plan : Plan} (hplan : plan.Takes E) (hg : E.graph.validate = .ok ())
    (hr : E.registry.Native) {id : NodeId} {volatile : Bool}
    (hrole : E.graph.role E.registry id = .planned plan volatile) {r : Run P} {restore : Nat}
    {fresh : Bool} {m : Memo} {tail : List Memo} (hcaches : r.caches = m :: tail)
    (hkept : (if fresh then none else m.kept? id) = none) {c : Course}
    (hc : c = E.graph.course E.registry id r.scope fresh r.frames.size m)
    (htied : c.cost.tied = false) {e : Report} {d n : Nat}
    (hk : ∀ r' : Run P, r'.Stands r.frames (r.scope.truncate restore) (c.memo :: tail)
      (r.memo.tally.merge c.cost.tally) → Solo E (r'.answer c.answer) e d n) :
    Solo E (r.visit E id restore fresh) e (c.cost.duration + d) (c.cost.work + n) := by
  have hstands : r.Stands r.frames r.scope (m :: tail) r.memo.tally := ⟨rfl, rfl, hcaches, rfl⟩
  obtain ⟨r', task, harrive, hfollows, hr'⟩ := hstands.arrive_planned hr hrole hkept restore
  obtain ⟨c', hc'⟩ : ∃ c', c' = plan.course (E.graph.course E.registry) ⟨id, r.scope⟩
    (r.frames.size + 1) (if fresh then .empty else m) := ⟨_, rfl⟩
  rw [Graph.course_planned hg hr hrole hkept hc'] at hc
  subst hc
  -- a fresh frame works on an empty memo of its own, on top of the one it is not to touch
  have hsplit : (if fresh then .empty :: m :: tail else m :: tail) =
      (if fresh then .empty else m) :: (if fresh then m :: tail else tail) := by
    cases fresh <;> rfl
  rw [hsplit] at hr'
  rw [Run.visit_of_pushed harrive]
  have htied' : c'.cost.tied = false := by
    simp only [Cost.tied_add, Bool.or_eq_false_iff] at htied
    exact htied.2
  have hsolo := hplan r' r.frames _ task .start r.scope _ _ _ c' e d n hr' rfl hfollows hc'
    htied' fun r'' after hr'' => ?_
  · simpa [Cost.start] using hsolo
  · have hfresh : fresh = true → (if fresh then m :: tail else tail) ≠ [] := by
      rintro rfl
      simp
    obtain ⟨r₃, hserve, hr₃⟩ := hr''.serve_end E hfresh c'.answer.result
    rw [hserve]
    refine hk r₃ ?_
    simp only [Cost.tally_add, ← Tally.merge_assoc]
    cases fresh with
    | true => exact hr₃
    | false => exact hr₃

/-- **Every node takes its course,** in a valid graph and without a limit. -/
theorem takesCourse (hg : E.graph.validate = .ok ()) (hr : E.registry.Native)
    (hlimit : E.limits.maxSteps = none) (id : NodeId) : TakesCourse E id := by
  -- children of a valid graph stand before their parents
  induction hn : id.index using Nat.strongRecOn generalizing id with
  | _ n ih =>
    intro r restore fresh m tail c e d work hcaches hc htied hk
    have hstands : r.Stands r.frames r.scope (m :: tail) r.memo.tally := ⟨rfl, rfl, hcaches, rfl⟩
    -- a visit that is answered at once takes no time and makes no work
    have hready : ∀ (r' : Run P) (a : Answer) (memo : Memo) (cost : Tally),
        r.arrive E id restore fresh = (r', .ready a) → c = ⟨a, memo, { tally := cost }⟩ →
        r'.Stands r.frames (r.scope.truncate restore) (memo :: tail) (r.memo.tally.merge cost) →
        Solo E (r.visit E id restore fresh) e (c.cost.duration + d) (c.cost.work + work) := by
      rintro r' a memo cost harrive rfl hr'
      rw [Run.visit_of_ready harrive, Nat.zero_add, Nat.zero_add]
      exact hk r' hr'
    have hserved : ∀ value, (if fresh then none else m.kept? id) = some value →
        E.graph.role E.registry id ≠ .absent → (∀ p, E.graph.role E.registry id ≠ .param p) →
        Solo E (r.visit E id restore fresh) e (c.cost.duration + d) (c.cost.work + work) := by
      intro value hkept habsent hparam
      obtain ⟨r', harrive, hr'⟩ := hstands.arrive_kept habsent hparam hkept restore
      rw [Graph.course_kept habsent hparam hkept] at hc
      exact hready r' _ m _ harrive hc (by rwa [Tally.merge_countHit])
    cases hrole : E.graph.role E.registry id with
    | absent =>
      obtain ⟨r', harrive, hr'⟩ := hstands.arrive_absent hrole restore fresh
      rw [Graph.course_absent hrole] at hc
      exact hready r' _ m .zero harrive hc (by rwa [Tally.merge_zero])
    | param p =>
      obtain ⟨r', harrive, hr'⟩ := hstands.arrive_param hrole restore fresh
      rw [Graph.course_param hrole] at hc
      exact hready r' _ _ _ harrive hc (by rwa [Tally.merge_countLookup])
    | refused error volatile =>
      cases hkept : if fresh then none else m.kept? id with
      | some value => exact hserved value hkept (by simp [hrole]) (by simp [hrole])
      | none =>
        obtain ⟨r', harrive, hr'⟩ := hstands.arrive_refused hr hrole hkept restore
        rw [Graph.course_refused hrole hkept] at hc
        exact hready r' _ m .zero harrive hc (by rwa [Tally.merge_zero])
    | planned plan volatile =>
      cases hkept : if fresh then none else m.kept? id with
      | some value => exact hserved value hkept (by simp [hrole]) (by simp [hrole])
      | none =>
        have hplan := Plan.takes hlimit (fun child hchild => ih _ (hn ▸ hchild) child rfl)
          (Graph.within_of_role hg hr hrole)
        exact hplan.visit hg hr hrole hcaches hkept hc htied hk

end ProgramGraph
