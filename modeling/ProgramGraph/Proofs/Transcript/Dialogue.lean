import ProgramGraph.Proofs.Plan.Follow
import ProgramGraph.Proofs.Transcript.Frame
/-!
# Dialogues

A frame whose task follows a plan asks for one thing after the other, and what it asks for
next hangs on what it has been told. `Plan.Speaks` says what is said by such a frame, and by
whatever frames stand on it, for all that it may be told, up to any point of the run: the
frame may have nothing more to say so far, it may have asked for something and not been told
yet, and a fatal error may end it all. Between a request and its answer the one who speaks is
the frame that has been started for it (`Request.Exchange`).

All tasks of the library follow plans, so this is the only place where a dialogue is told
from the turns of a run.
-/

namespace ProgramGraph

variable {P : Plugins}

/-! ## Requests and answers -/

/-- The request that asks for a node in this way. -/
def Manner.request (id : NodeId) : Manner → Request
  | plain => .child id
  | under bindings => .under id bindings
  | fresh => .fresh id

theorem Manner.step_eq (id : NodeId) (manner : Manner) :
    manner.step id = .request (manner.request id) := by cases manner <;> rfl

namespace Utterance

/-- The result that a task is told of. -/
def result? : Utterance → Option (Except EvalError Value)
  | hears a => some a.result
  | wakes (.settled c) => some c.result
  | _ => none

/-- Whether what a task is told is tainted. -/
def tainted : Utterance → Bool
  | hears a => a.tainted
  | wakes (.settled c) => c.tainted
  | _ => false

/-- What a task is told is a fatal error. -/
def Fatal (u : Utterance) : Prop := ∃ e, u.result? = some (.error e) ∧ e.isInterceptable = false

/-- **What a task is resumed with** when it is told something. -/
inductive Resumes : Utterance → Input → Prop
  | hears {a : Answer} {reply : Reply} : Reply.ofResult a.result = .ok reply →
    Resumes (.hears a) reply.toInput
  | settled {c : Conclusion} {reply : Reply} : Reply.ofResult c.result = .ok reply →
    Resumes (.wakes (.settled c)) reply.toInput
  | elapsed : Resumes (.wakes .elapsed) .elapsed

end Utterance

/-- **What comes of a request,** and when, and what other frames have said by then: it is
answered at once, or when a frame that has been started for it has ended, or when a wait is
over. -/
inductive Request.Exchange (E : Engine P) (n : Nat) (base : Scope) (now : Nat) (request : Request) :
    Transcript → Utterance → Nat → Prop
  | atOnce {r r' : Run P} {id : NodeId} {fresh : Bool} {a : Answer}
    (visits : request.Visits base r.scope id fresh) (size : r.frames.size = n)
    (clock : r.world.clock = now) (arrives : r.arrive E id base.depth fresh = (r', .ready a)) :
    Exchange E n base now request [] (.hears a) now
  | ran {r r' r'' : Run P} {id : NodeId} {fresh : Bool} {a : Answer} {sub : Transcript}
    (visits : request.Visits base r.scope id fresh) (size : r.frames.size = n)
    (clock : r.world.clock = now) (starts : r.visit E id base.depth fresh = .resume r' .start)
    (talks : Next.Talks E (n + 1) (.resume r' .start) (sub ++ [⟨n, r''.world.clock, .hears a⟩])
      (r''.answer a))
    (higher : ∀ remark ∈ sub, n < remark.height) (ended : r''.frames.size = n) :
    Exchange E n base now request sub (.hears a) r''.world.clock
  | waited {await : Await} {wake : Wake} {time : Nat} (asked : request = .await await)
    (takes : await.Takes (Job.Lasts E) now wake time) :
    Exchange E n base now request [] (.wakes wake) time

/-- No visit is made for a wait, so what comes of it is what it takes. -/
theorem Request.Exchange.of_await {E : Engine P} {n : Nat} {base : Scope} {now later : Nat}
    {await : Await} {sub : Transcript} {u : Utterance}
    (h : (Request.await await).Exchange E n base now sub u later) :
    ∃ wake, sub = [] ∧ u = .wakes wake ∧ await.Takes (Job.Lasts E) now wake later := by
  cases h with
  | waited asked takes =>
    cases asked
    exact ⟨_, rfl, rfl, takes⟩
  | atOnce visits => cases visits
  | ran visits => cases visits

namespace Next

variable {E : Engine P} {n : Nat} {x y : Next P} {log : Transcript} {base : Scope} {now : Nat}
  {frame : Frame P} {rest : List (Frame P)}

/-- The run goes on with the frame, or is over with a fatal error. -/
def Open (n : Nat) (y : Next P) : Prop := n ≤ y.run.frames.size ∨ y.Stopped

/-- What a frame has heard, and how it goes on. -/
def Hears (E : Engine P) (frame : Frame P) (rest : List (Frame P)) (base : Scope) (u : Utterance)
    (time : Nat) (log : Transcript) (y : Next P) : Prop :=
  (u.Fatal ∧ log = [] ∧ y.Stopped) ∨ ∃ r input, u.Resumes input ∧
    r.Sits ({ frame with tainted := frame.tainted || u.tainted } :: rest) base time ∧
    Talks E (rest.length + 1) (.resume r input) log y

theorem fatal_of_ofResult {u : Utterance} {result : Except EvalError Value} {fatal : EvalError}
    (hu : u.result? = some result) (h : Reply.ofResult result = .error fatal) : u.Fatal := by
  obtain ⟨rfl, he⟩ := Reply.fatal_of_ofResult h
  exact ⟨fatal, hu, he⟩

/-- An answer is heard. -/
theorem hears_of_answer {r : Run P} {a : Answer} (hr : r.Sits (frame :: rest) base now)
    (h : Talks E (rest.length + 1) (r.answer a) log y) :
    Hears E frame rest base (.hears a) now log y := by
  rcases hr.answer a with ⟨reply, r', hreply, hnext, hr'⟩ | ⟨fatal, hfatal, hstopped⟩
  · rw [hnext] at h
    exact .inr ⟨r', _, .hears hreply, hr', h⟩
  · obtain ⟨rfl, rfl⟩ := hstopped.talks h
    exact .inl ⟨fatal_of_ofResult rfl hfatal, rfl, hstopped⟩

/-- And so is what a wait has come to. -/
theorem hears_of_wake {r : Run P} {world : World P} {wake : Wake}
    (hr : r.Sits (frame :: rest) base now)
    (h : Talks E (rest.length + 1) (r.wake world wake) log y) :
    Hears E frame rest base (.wakes wake) world.clock log y := by
  cases wake with
  | elapsed =>
    refine .inr ⟨{ r with world }, .elapsed, .elapsed, ⟨?_, hr.scope, rfl⟩, h⟩
    show r.frames.items = { frame with tainted := frame.tainted || false } :: rest
    rw [Bool.or_false]
    exact hr.frames
  | settled c =>
    rcases hr.settled world c with ⟨reply, r', hreply, hnext, hr'⟩ | ⟨fatal, hfatal, hstopped⟩
    · rw [hnext] at h
      exact .inr ⟨r', _, .settled hreply, hr', h⟩
    · obtain ⟨rfl, rfl⟩ := hstopped.talks h
      exact .inl ⟨fatal_of_ofResult rfl hfatal, rfl, hstopped⟩

/-- **A frame has started for a node** that the frame below it has asked for. It is still
there, or the one below hears of its end. -/
theorem Talks.of_start {r : Run P} {top : Frame P} (hr : r.Sits (top :: frame :: rest) base now)
    (h : Talks E (rest.length + 1) (.resume r .start) log y) :
    ((∀ remark ∈ log, rest.length + 1 < remark.height) ∧ Open (rest.length + 1) y) ∨
    ∃ (r' : Run P) (a : Answer) (sub after : Transcript),
      log = sub ++ ⟨rest.length + 1, r'.world.clock, .hears a⟩ :: after ∧
      (∀ remark ∈ sub, rest.length + 1 < remark.height) ∧
      Talks E (rest.length + 2) (.resume r .start)
        (sub ++ [⟨rest.length + 1, r'.world.clock, .hears a⟩]) (r'.answer a) ∧
      r'.Sits (frame :: rest) (base.truncate top.scopeDepth) r'.world.clock ∧
      Hears E frame rest (base.truncate top.scopeDepth) (.hears a) r'.world.clock after y := by
  have habove : (Next.resume r .start).run.Above (frame :: rest)
      (base.truncate top.scopeDepth) := by
    refine ⟨top, [], hr.frames, ?_⟩
    exact congrArg (Scope.truncate · top.scopeDepth) hr.scope
  -- what is said up to the end of the upper frames is said by them
  rcases h.split (Nat.le_succ _) with hall | ⟨before, after, z, rfl, hbefore, hz, hafter⟩
  · cases hall.leaves rfl habove with
    | stay hstay hhigher => exact .inl ⟨hhigher, .inl (Nat.le_of_succ_le hstay.size)⟩
    | stop hstopped hhigher => exact .inl ⟨hhigher, .inr hstopped⟩
    | @answer r' sub a hr' hlog hhigher hy =>
      subst hlog hy
      exact .inr ⟨r', a, sub, [], rfl, hhigher, hall, hr', hears_of_answer hr' (.refl _ _)⟩
  · cases hbefore.leaves rfl habove with
    | stay hstay hhigher => exact absurd hz (Nat.not_lt.2 hstay.size)
    | stop hstopped hhigher =>
      obtain ⟨rfl, rfl⟩ := hstopped.talks hafter
      rw [List.append_nil]
      exact .inl ⟨hhigher, .inr hstopped⟩
    | @answer r' sub a hr' hsaid hhigher hanswer =>
      subst hsaid hanswer
      refine .inr ⟨r', a, sub, after, ?_, hhigher, hbefore, hr', hears_of_answer hr' hafter⟩
      rw [List.append_assoc]
      rfl

/-- **A frame has asked for something.** It has not been told yet, or it is told what has come
of it. -/
theorem Talks.of_request {r : Run P} {before : Frame P} {request : Request} {said : Transcript}
    {x : Next P} (hr : r.Sits (before :: rest) base now)
    (hacts : r.Acts E frame rest (.request request) said x)
    (h : Talks E (rest.length + 1) x log y) :
    (∃ sub, said ++ log = ⟨rest.length + 1, now, .asks base request⟩ :: sub ∧
      (∀ remark ∈ sub, rest.length + 1 < remark.height) ∧ Open (rest.length + 1) y) ∨
    ∃ sub u later after, said ++ log = ⟨rest.length + 1, now, .asks base request⟩ ::
        (sub ++ ⟨rest.length + 1, later, u⟩ :: after) ∧
      request.Exchange E (rest.length + 1) base now sub u later ∧
      Hears E frame rest base u later after y := by
  have hsize : r.frames.size = rest.length + 1 := hr.size
  obtain ⟨-, rfl, rfl⟩ := hr
  generalize hstep : Step.request request = step at hacts
  cases hacts with
  | @ends r' result hr' _ => cases result <;> cases hstep
  | @answered r₀ r₁ asked scope id fresh a hvisits hr₀ harrive hr' _ =>
    cases hstep
    rw [hsize]
    exact .inr ⟨[], _, _, log, rfl, .atOnce (hr₀.scope ▸ hvisits) hr₀.size hr₀.clock harrive,
      hears_of_answer hr' h⟩
  | @starts r₀ r' asked scope id fresh task volatile hvisits hr₀ hstart hr' _ =>
    cases hstep
    rw [hsize]
    rcases h.of_start hr' with ⟨hhigher, hopen⟩ |
      ⟨r'', a, sub, after, rfl, hhigher, htalks, hr'', hhears⟩
    · exact .inl ⟨log, rfl, hhigher, hopen⟩
    · rw [Run.truncate_of_visits hvisits] at hhears
      exact .inr ⟨sub, _, _, after, rfl,
        .ran (hr₀.scope ▸ hvisits) hr₀.size hr₀.clock hstart htalks hhigher hr''.size, hhears⟩
  | @waits r' await hr' _ =>
    cases hstep
    rw [hsize]
    rcases h.cases_wait with ⟨rfl, rfl⟩ | ⟨world, wake, after, rfl, -, htakes, hafter⟩
    · exact .inl ⟨[], rfl, nofun, .inl (Nat.le_of_eq (Run.Sits.size hr').symm)⟩
    · have hsize' : r'.frames.size = rest.length + 1 := Run.Sits.size hr'
      rw [hr'.clock] at htakes
      rw [hsize']
      exact .inr ⟨[], _, _, after, rfl, .waited rfl htakes, hears_of_wake hr' hafter⟩

end Next

/-! ## Plans -/

namespace Plan

/-- What the plan asks for first, in a frame for the node that has the scope. -/
def request? (node : NodeId) (base : Scope) : Plan → Option Request
  | finish _ => none
  | visit id manner _ => some (manner.request id)
  | pause ms _ => some (.await (.timer ms .elapsed))
  | all jobs _ => some (.await (.all (jobs.map fun job => Context.job ⟨node, base⟩ job.1 job.2)))
  | first id others _ => some (.await (.first (Context.job ⟨node, base⟩ id [])
      (others.map (Context.job ⟨node, base⟩ · []))))
  | deadline ms id _ _ => some (.await (.deadline ms (Context.job ⟨node, base⟩ id [])))

/-- **How the plan goes on** when it is told what has come of what it has asked for. -/
inductive GoesOn : Plan → Utterance → Plan → Prop
  | visit {id : NodeId} {manner : Manner} {next : Reply → Plan} {a : Answer} {reply : Reply} :
    Reply.ofResult a.result = .ok reply → GoesOn (.visit id manner next) (.hears a) (next reply)
  | pause {ms : Nat} {next : Plan} : GoesOn (.pause ms next) (.wakes .elapsed) next
  | all {jobs : List (NodeId × Bindings)} {next : Reply → Plan} {c : Conclusion} {reply : Reply} :
    Reply.ofResult c.result = .ok reply → GoesOn (.all jobs next) (.wakes (.settled c)) (next reply)
  | first {id : NodeId} {others : List NodeId} {next : Reply → Plan} {c : Conclusion}
    {reply : Reply} :
    Reply.ofResult c.result = .ok reply →
    GoesOn (.first id others next) (.wakes (.settled c)) (next reply)
  | deadline {ms : Nat} {id : NodeId} {next : Reply → Plan} {late : Plan} {c : Conclusion}
    {reply : Reply} :
    Reply.ofResult c.result = .ok reply →
    GoesOn (.deadline ms id next late) (.wakes (.settled c)) (next reply)
  | late {ms : Nat} {id : NodeId} {next : Reply → Plan} {late : Plan} :
    GoesOn (.deadline ms id next late) (.wakes .elapsed) late

/-- **What is said from some point of a plan on,** by the frame at a height, for a node and
under a scope, and by the frames above it, until the run has got to `y`. -/
inductive Speaks (E : Engine P) (n : Nat) (node : NodeId) (volatile : Bool) (base : Scope) :
    Plan → Nat → Bool → Transcript → Next P → Prop
  /-- Nothing so far. -/
  | silent {plan : Plan} {now : Nat} {tainted : Bool} {y : Next P} : y.Open n →
    Speaks E n node volatile base plan now tainted [] y
  /-- The frame ends. -/
  | ends {result : Except EvalError Value} {now : Nat} {tainted : Bool} {y : Next P} :
    y.run.frames.size < n →
    Speaks E n node volatile base (.finish result) now tainted
      (Run.closing n now ⟨result, volatile || tainted⟩) y
  /-- The frame has asked for something, and has not been told yet. -/
  | asks {plan : Plan} {now : Nat} {tainted : Bool} {request : Request} {sub : Transcript}
    {y : Next P} :
    plan.request? node base = some request → (∀ remark ∈ sub, n < remark.height) → y.Open n →
    Speaks E n node volatile base plan now tainted (⟨n, now, .asks base request⟩ :: sub) y
  /-- The frame has been told that there is a fatal error. -/
  | stops {plan : Plan} {now later : Nat} {tainted : Bool} {request : Request} {sub : Transcript}
    {u : Utterance} {y : Next P} : plan.request? node base = some request →
    request.Exchange E n base now sub u later → u.Fatal → y.Stopped →
    Speaks E n node volatile base plan now tainted
      (⟨n, now, .asks base request⟩ :: (sub ++ [⟨n, later, u⟩])) y
  /-- The frame has been told what has come of what it has asked for. -/
  | hears {plan next : Plan} {now later : Nat} {tainted : Bool} {request : Request}
    {sub after : Transcript} {u : Utterance} {y : Next P} : plan.request? node base = some request →
    request.Exchange E n base now sub u later → plan.GoesOn u next →
    Speaks E n node volatile base next later (tainted || u.tainted) after y →
    Speaks E n node volatile base plan now tainted
      (⟨n, now, .asks base request⟩ :: (sub ++ ⟨n, later, u⟩ :: after)) y

/-- **Induction on how a plan goes on.** -/
theorem induction_goesOn {motive : Plan → Prop}
    (h : ∀ plan : Plan, (∀ u next, plan.GoesOn u next → motive next) → motive plan) (plan : Plan) :
    motive plan := by
  induction plan with
  | finish result => exact h _ fun _ _ => nofun
  | visit id manner next ih =>
    refine h _ fun u plan hgoes => ?_
    cases hgoes
    exact ih _
  | pause ms next ih =>
    refine h _ fun u plan hgoes => ?_
    cases hgoes
    exact ih
  | all jobs next ih =>
    refine h _ fun u plan hgoes => ?_
    cases hgoes
    exact ih _
  | first id others next ih =>
    refine h _ fun u plan hgoes => ?_
    cases hgoes
    exact ih _
  | deadline ms id next late ih ihlate =>
    refine h _ fun u plan hgoes => ?_
    cases hgoes
    · exact ih _
    · exact ihlate

/-- **A task that follows a plan** asks for what the plan asks for first, and follows the plan
on when it is told. -/
theorem Follows.goesOn {plan : Plan} {node : NodeId} {task : Builtin.Task} {input : Input}
    {base : Scope} {request : Request} (h : plan.Follows node task input)
    (hrequest : plan.request? node base = some request) (E : Engine P) (n now : Nat) :
    ∃ after, task.resume ⟨node, base⟩ input = (.request request, after) ∧
      ∀ sub u later input', request.Exchange E n base now sub u later → u.Resumes input' →
        ∃ next, plan.GoesOn u next ∧ next.Follows node after input' := by
  cases plan with
  | finish result => cases hrequest
  | visit id manner next =>
    cases hrequest
    obtain ⟨after, hstep, hnext⟩ := h base
    rw [manner.step_eq] at hstep
    refine ⟨after, hstep, fun sub u later input' hexchange hresumes => ?_⟩
    cases hresumes with
    | @hears a reply hreply => exact ⟨_, .visit hreply, hnext reply⟩
    | _ =>
      cases hexchange with
      | waited asked _ => cases manner <;> cases asked
  | pause ms next =>
    cases hrequest
    obtain ⟨after, hstep, hnext⟩ := h base
    refine ⟨after, hstep, fun sub u later input' hexchange hresumes => ?_⟩
    obtain ⟨wake, -, rfl, rfl, -⟩ := hexchange.of_await
    cases hresumes
    exact ⟨_, .pause, hnext⟩
  | all jobs next =>
    cases hrequest
    obtain ⟨after, hstep, hfails, hvalues⟩ := h base
    refine ⟨after, hstep, fun sub u later input' hexchange hresumes => ?_⟩
    obtain ⟨wake, -, rfl, found, hfound, rfl, -⟩ := hexchange.of_await
    cases hresumes with
    | @settled c reply hreply =>
      refine ⟨_, .all hreply, ?_⟩
      have hlength : found.length = jobs.length := by
        rw [← hfound.length_eq, List.length_map]
      -- as many values as there are jobs, or the failure of one of them
      rcases Reply.of_mapM hreply with ⟨value, rfl⟩ | ⟨values, hlen, rfl⟩
      · exact hfails value
      · exact hvalues values (by rw [hlen, List.length_map, hlength])
  | first id others next =>
    cases hrequest
    obtain ⟨after, hstep, hnext⟩ := h base
    refine ⟨after, hstep, fun sub u later input' hexchange hresumes => ?_⟩
    obtain ⟨wake, -, rfl, job, -, c, -, rfl⟩ := hexchange.of_await
    cases hresumes with
    | @settled c reply hreply => exact ⟨_, .first hreply, hnext reply⟩
  | deadline ms id next late =>
    cases hrequest
    obtain ⟨after, hstep, hnext, hlate⟩ := h base
    refine ⟨after, hstep, fun sub u later input' hexchange hresumes => ?_⟩
    cases hresumes with
    | @settled c reply hreply => exact ⟨_, .deadline hreply, hnext reply⟩
    | elapsed => exact ⟨_, .late, hlate⟩
    | hears =>
      obtain ⟨_, -, hwakes, -⟩ := hexchange.of_await
      cases hwakes

end Plan

/-- A run that is resumed. -/
theorem Next.Talks.cases_resume {E : Engine P} {n : Nat} {r : Run P} {input : Input}
    {log : Transcript} {y : Next P} (h : Talks E n (.resume r input) log y) :
    (log = [] ∧ y = .resume r input) ∨ ∃ after, log = r.remarks E input ++ after ∧
      Talks E n (r.turn E input) after y := by
  cases h with
  | refl => exact .inl ⟨rfl, rfl⟩
  | turn _ h => exact .inr ⟨_, rfl, h⟩

/-- **A frame whose task follows a plan says what the plan says,** by induction on the plan. -/
theorem Next.Talks.speaks {E : Engine P} {plan : Plan} {frame : Frame P} {rest : List (Frame P)}
    {task : Builtin.Task} {r : Run P} {input : Input} {base : Scope} {now : Nat} {log : Transcript}
    {y : Next P} (hfollows : plan.Follows frame.node task input)
    (htask : frame.task = .builtin task) (hr : r.Sits (frame :: rest) base now)
    (h : Talks E (rest.length + 1) (.resume r input) log y) :
    plan.Speaks E (rest.length + 1) frame.node frame.volatile base now frame.tainted log y := by
  induction plan using Plan.induction_goesOn generalizing frame task r input now log with
  | h plan ih =>
  rcases h.cases_resume with ⟨rfl, rfl⟩ | ⟨after, rfl, hafter⟩
  · exact .silent (.inl (Nat.le_of_eq (Run.Sits.size hr).symm))
  rcases r.turn_acts hr.frames input with ⟨hlog, hstopped, -⟩ | ⟨step, task', shared, hstep, hacts⟩
  · obtain ⟨rfl, rfl⟩ := hstopped.talks hafter
    rw [hlog]
    exact .silent (.inr hstopped)
  obtain ⟨task', hresume, rfl⟩ : ∃ task'', task.resume ⟨frame.node, base⟩ input = (step, task'') ∧
      task' = .builtin task'' := by
    rw [htask, hr.scope] at hstep
    cases hstep
    exact ⟨_, rfl, rfl⟩
  have hsize : r.frames.size = rest.length + 1 := hr.size
  cases hrequest : plan.request? frame.node base with
  | some request =>
    obtain ⟨task'', hresume', hnext⟩ := hfollows.goesOn hrequest E (rest.length + 1) now
    rw [hresume] at hresume'
    cases hresume'
    rcases hafter.of_request hr hacts with ⟨sub, hsaid, hhigher, hopen⟩ |
      ⟨sub, u, later, after, hsaid, hexchange,
        ⟨hfatal, rfl, hstopped⟩ | ⟨r', input', hresumes, hr', hafter⟩⟩
    · rw [hsaid]
      exact .asks hrequest hhigher hopen
    · rw [hsaid]
      exact .stops hrequest hexchange hfatal hstopped
    · rw [hsaid]
      obtain ⟨next, hgoes, hfollows'⟩ := hnext sub u later input' hexchange hresumes
      let frame' : Frame P :=
        { frame with task := .builtin task', tainted := frame.tainted || u.tainted }
      have hspeaks :
          next.Speaks E _ frame'.node frame'.volatile base later frame'.tainted after y :=
        ih u next hgoes hfollows' rfl hr' hafter
      exact .hears hrequest hexchange hgoes hspeaks
  | none =>
    cases plan with
    | finish result =>
      have hresult : step = .ofResult result := by
        have := hfollows base
        rwa [hresume] at this
      subst hresult
      obtain ⟨r', hr', hsaid, hturn⟩ := hacts.of_ends
      rw [hturn] at hafter
      have hle := (r'.quiet_answer ⟨result, frame.volatile || frame.tainted⟩).2
      rw [hr'.size] at hle
      obtain ⟨rfl, rfl⟩ := hafter.of_lt (Nat.lt_succ_of_le hle)
      rw [List.append_nil, hsaid, hsize, hr.clock]
      exact .ends (Nat.lt_succ_of_le hle)
    | _ => cases hrequest

end ProgramGraph
