import ProgramGraph.Proofs.Transcript.Evaluation
/-!
# Discourses

What a frame has said when it has ended is a discourse of its plan: requests and what has
come of them by turns, and the end. At any other point of a run it has said the beginning of
one, and no more, unless it has been told of a fatal error: then this is the last thing that
is said in the run (`Next.Recites`).

So what a handler does over all its evaluations can be told from the discourses of its plan,
where no run is left to be looked at.
-/

namespace ProgramGraph

variable {P : Plugins}

/-! ## Answers -/

/-- The result that a reply is to. -/
def Reply.result : Reply → Except EvalError Value
  | .ok value => .ok value
  | .error value => .error (.failed value)

/-- **What has come of a request** that has not met a fatal error. -/
structure Hearing where
  reply : Reply
  tainted : Bool

/-- The answer that is heard. -/
def Hearing.answer (heard : Hearing) : Answer := ⟨heard.reply.result, heard.tainted⟩

/-- A result that there is a reply to. -/
theorem Reply.result_of_ofResult {result : Except EvalError Value} {reply : Reply}
    (h : ofResult result = .ok reply) : result = reply.result := by
  cases result with
  | ok value => cases h; rfl
  | error error => cases error <;> cases h; rfl

theorem Hearing.eq_answer {a : Answer} {reply : Reply} (h : Reply.ofResult a.result = .ok reply) :
    a = answer ⟨reply, a.tainted⟩ :=
  congrArg (Answer.mk · a.tainted) (Reply.result_of_ofResult h)

/-- A plan that ends as the reply does. -/
theorem Plan.ofReply_eq (reply : Reply) : Plan.ofReply reply = .finish reply.result := by
  cases reply <;> rfl

/-! ## When something comes of a request -/

/-- **Something may come of the request at that time:** what is waited for comes as the time
has passed, and nothing comes before it is asked for. -/
def Request.Due (now : Nat) (u : Utterance) (later : Nat) : Request → Prop
  | .await (.timer ms wake) => u = .wakes wake ∧ later = Wait.dueAfter now ms
  | _ => now ≤ later

/-- The answer to a request for a node is due at any time. -/
theorem Request.due_of_visits {request : Request} {base scope : Scope} {id : NodeId} {fresh : Bool}
    (h : request.Visits base scope id fresh) {now later : Nat} (hle : now ≤ later) (u : Utterance) :
    request.Due now u later := by
  cases h <;> exact hle

/-- The visit that is made for a node afresh. -/
theorem Request.Visits.of_fresh {base scope : Scope} {id asked : NodeId} {fresh : Bool}
    (h : (Request.fresh id).Visits base scope asked fresh) : id = asked ∧ fresh = true := by
  cases h
  exact ⟨rfl, rfl⟩

namespace Request.Exchange

variable {E : Engine P} {n : Nat} {base : Scope} {now : Nat} {request : Request} {sub : Transcript}
  {u : Utterance} {later : Nat}

/-- A request for a node is answered. -/
theorem exists_hears {id : NodeId} {manner : Manner}
    (h : (manner.request id).Exchange E n base now sub u later) : ∃ a, u = .hears a := by
  cases h with
  | atOnce => exact ⟨_, rfl⟩
  | ran => exact ⟨_, rfl⟩
  | waited asked => cases manner <;> cases asked

/-- Only upper frames speak in between. -/
theorem higher (h : request.Exchange E n base now sub u later) :
    ∀ remark ∈ sub, n < remark.height := by
  cases h with
  | ran _ _ _ _ _ higher _ => exact higher
  | _ => nofun

/-- What has come of a request was due. -/
theorem due (h : request.Exchange E n base now sub u later) : request.Due now u later := by
  cases h with
  | atOnce visits _ _ _ => exact due_of_visits visits (Nat.le_refl _) _
  | @ran r r' r'' id fresh a sub visits _ clock starts talks _ _ =>
    have hle := talks.clock_le
    have hstart := r.world_visit_clock (E := E) id base.depth fresh
    rw [starts, clock] at hstart
    rw [r''.world_answer_clock, hstart] at hle
    exact due_of_visits visits hle _
  | waited asked takes =>
    subst asked
    rename_i await wake
    cases await with
    | timer ms answer => exact ⟨congrArg Utterance.wakes takes.1, takes.2⟩
    | _ => exact takes.le fun _ _ _ => Job.Lasts.le

/-- What is said at the height itself. -/
theorem at_append (h : request.Exchange E n base now sub u later) (said : Utterance)
    (after : Transcript) :
    Transcript.at (⟨n, now, said⟩ :: (sub ++ ⟨n, later, u⟩ :: after)) n =
      (now, said) :: (later, u) :: after.at n := by
  rw [Transcript.at_cons_self, Transcript.at_append, Transcript.at_of_lt h.higher, List.nil_append,
    Transcript.at_cons_self]

end Request.Exchange

/-! ## Discourses of a plan -/

namespace Plan

variable {node : NodeId} {volatile : Bool} {base : Scope}

/-- **All that a frame says** from some point of its plan on, and when: from that time on, if
it has observed something tainted or not. -/
inductive Discourse (node : NodeId) (volatile : Bool) (base : Scope) :
    Plan → Nat → Bool → List (Nat × Utterance) → Prop
  | ends {result : Except EvalError Value} {now : Nat} {tainted : Bool} :
    Discourse node volatile base (.finish result) now tainted
      [(now, .ends ⟨result, volatile || tainted⟩)]
  | hears {plan next : Plan} {now later : Nat} {tainted : Bool} {request : Request} {u : Utterance}
    {after : List (Nat × Utterance)} : plan.request? node base = some request →
    request.Due now u later → plan.GoesOn u next →
    Discourse node volatile base next later (tainted || u.tainted) after →
    Discourse node volatile base plan now tainted ((now, .asks base request) :: (later, u) :: after)

/-- Something may come of all that is asked for. -/
theorem exists_goesOn {plan : Plan} {request : Request} (h : plan.request? node base = some request)
    (now : Nat) : ∃ later u next, request.Due now u later ∧ plan.GoesOn u next := by
  cases plan with
  | finish result => cases h
  | visit id manner next =>
    cases h
    refine ⟨now, .hears ⟨.ok .null, false⟩, next (.ok .null), ?_, .visit rfl⟩
    cases manner <;> exact Nat.le_refl _
  | pause ms next =>
    cases h
    exact ⟨_, .wakes .elapsed, next, ⟨rfl, rfl⟩, .pause⟩
  | all jobs next =>
    cases h
    exact ⟨now, .wakes (.settled ⟨.ok .null, false, .zero⟩), next (.ok .null), Nat.le_refl _,
      .all rfl⟩
  | first id others next =>
    cases h
    exact ⟨now, .wakes (.settled ⟨.ok .null, false, .zero⟩), next (.ok .null), Nat.le_refl _,
      .first rfl⟩
  | deadline ms id next late =>
    cases h
    exact ⟨now, .wakes .elapsed, late, Nat.le_refl _, .late⟩

/-- A plan that asks for nothing ends. -/
theorem eq_finish_of_request? {plan : Plan} (h : plan.request? node base = none) :
    ∃ result, plan = .finish result := by
  cases plan with
  | finish result => exact ⟨result, rfl⟩
  | _ => cases h

/-- **There is a discourse** of every plan, and it is not over before it begins. -/
theorem exists_discourse (node : NodeId) (volatile : Bool) (base : Scope) (plan : Plan) :
    ∀ now tainted, ∃ whole, plan.Discourse node volatile base now tainted whole ∧ whole ≠ [] := by
  induction plan using induction_goesOn with
  | h plan ih =>
    intro now tainted
    cases hrequest : plan.request? node base with
    | none =>
      obtain ⟨result, rfl⟩ := eq_finish_of_request? hrequest
      exact ⟨_, .ends, List.cons_ne_nil _ _⟩
    | some request =>
      obtain ⟨later, u, next, hdue, hgoes⟩ := exists_goesOn hrequest now
      obtain ⟨after, hafter, -⟩ := ih u next hgoes later (tainted || u.tainted)
      exact ⟨_, .hears hrequest hdue hgoes hafter, List.cons_ne_nil _ _⟩

/-- One that begins with what the plan asks for. -/
theorem exists_discourse_of_request? {plan : Plan} {request : Request}
    (h : plan.request? node base = some request) (volatile : Bool) (now : Nat) (tainted : Bool) :
    ∃ later u after,
      plan.Discourse node volatile base now tainted
        ((now, .asks base request) :: (later, u) :: after) := by
  obtain ⟨later, u, next, hdue, hgoes⟩ := exists_goesOn h now
  obtain ⟨after, hafter, -⟩ := next.exists_discourse node volatile base later (tainted || u.tainted)
  exact ⟨later, u, after, .hears h hdue hgoes hafter⟩

namespace Discourse

variable {now : Nat} {tainted : Bool} {whole : List (Nat × Utterance)}

/-- The discourse of a plan that ends. -/
theorem of_finish {result : Except EvalError Value}
    (h : (Plan.finish result).Discourse node volatile base now tainted whole) :
    whole = [(now, .ends ⟨result, volatile || tainted⟩)] := by
  cases h with
  | ends => rfl
  | hears hrequest => cases hrequest

/-- The discourse of a plan that asks for a node. -/
theorem of_visit {id : NodeId} {manner : Manner} {next : Reply → Plan}
    (h : (Plan.visit id manner next).Discourse node volatile base now tainted whole) :
    ∃ (later : Nat) (heard : Hearing) (after : List (Nat × Utterance)), now ≤ later ∧
      whole = (now, .asks base (manner.request id)) :: (later, .hears heard.answer) :: after ∧
      (next heard.reply).Discourse node volatile base later (tainted || heard.tainted) after := by
  cases h with
  | hears hrequest hdue hgoes hafter =>
    cases hrequest
    cases hgoes with
    | @visit _ _ _ a reply hreply =>
      refine ⟨_, ⟨reply, a.tainted⟩, _, ?_, ?_, hafter⟩
      · cases manner <;> exact hdue
      · rw [← Hearing.eq_answer hreply]

end Discourse

end Plan

/-! ## How much of a discourse has been said -/

/-- **So much of what a frame has to say has been said** at some point of a run. -/
inductive Next.Recites (n : Nat) (y : Next P) :
    List (Nat × Utterance) → List (Nat × Utterance) → Prop
  /-- All of it, and the frame is gone. -/
  | whole {whole : List (Nat × Utterance)} : y.run.frames.size < n → Recites n y whole whole
  /-- Not all of it so far: the frame is there, or other frames have met a fatal error. -/
  | part {said whole : List (Nat × Utterance)} : said <+: whole → said ≠ whole → y.Open n →
    Recites n y said whole
  /-- The frame has been told of a fatal error, and the run is over. -/
  | fatal {said whole : List (Nat × Utterance)} {time : Nat} {u : Utterance} : said <+: whole →
    said ≠ whole → u.Fatal → y.Stopped → Recites n y (said ++ [(time, u)]) whole

namespace Next.Recites

variable {n : Nat} {y : Next P} {said whole : List (Nat × Utterance)}

/-- What comes first has been said. -/
theorem cons (h : y.Recites n said whole) (x : Nat × Utterance) :
    y.Recites n (x :: said) (x :: whole) := by
  cases h with
  | whole hgone => exact .whole hgone
  | part hsaid hne hopen =>
    exact .part (List.cons_prefix_cons.2 ⟨rfl, hsaid⟩) (fun h => hne (List.cons.inj h).2) hopen
  | @fatal said _ time u hsaid hne hfatal hstopped =>
    have hcons : y.Recites n ((x :: said) ++ [(time, u)]) (x :: whole) :=
      .fatal (List.cons_prefix_cons.2 ⟨rfl, hsaid⟩) (fun h => hne (List.cons.inj h).2)
        hfatal hstopped
    exact hcons

end Next.Recites

/-- What a frame says that only has to end. -/
theorem Plan.Speaks.of_finish {E : Engine P} {n : Nat} {node : NodeId} {volatile : Bool}
    {base : Scope} {result : Except EvalError Value} {now : Nat} {tainted : Bool} {log : Transcript}
    {y : Next P} (h : (Plan.finish result).Speaks E n node volatile base now tainted log y)
    (hn : 0 < n) :
    log.at n = [] ∧ y.Open n ∨
      log.at n = [(now, .ends ⟨result, volatile || tainted⟩)] ∧ y.run.frames.size < n := by
  cases h with
  | silent hopen => exact .inl ⟨rfl, hopen⟩
  | ends hgone => exact .inr ⟨Transcript.at_closing hn _ _, hgone⟩
  | asks hrequest => cases hrequest
  | stops hrequest => cases hrequest
  | hears hrequest => cases hrequest

/-- **What a frame says is a discourse of its plan,** as far as it has got. -/
theorem Plan.Speaks.exists_discourse {E : Engine P} {n : Nat} {node : NodeId} {volatile : Bool}
    {base : Scope} {plan : Plan} {now : Nat} {tainted : Bool} {log : Transcript} {y : Next P}
    (h : plan.Speaks E n node volatile base now tainted log y) (hn : 0 < n) :
    ∃ whole, plan.Discourse node volatile base now tainted whole ∧
      y.Recites n (log.at n) whole := by
  induction h with
  | @silent plan now tainted y hopen =>
    obtain ⟨whole, hwhole, hne⟩ := plan.exists_discourse node volatile base now tainted
    exact ⟨whole, hwhole, .part List.nil_prefix hne.symm hopen⟩
  | @ends result now tainted y hgone =>
    rw [Transcript.at_closing hn]
    exact ⟨_, .ends, .whole hgone⟩
  | @asks plan now tainted request sub y hrequest hhigher hopen =>
    obtain ⟨later, u, after, hwhole⟩ := exists_discourse_of_request? hrequest volatile now tainted
    rw [Transcript.at_cons_self, Transcript.at_of_lt hhigher]
    refine ⟨_, hwhole, .part (List.prefix_append [_] _) ?_ hopen⟩
    exact fun heq => by cases heq
  | @stops plan now later tainted request sub u y hrequest hexchange hfatal hstopped =>
    obtain ⟨time, v, after, hwhole⟩ := exists_discourse_of_request? hrequest volatile now tainted
    have hne : [(now, .asks base request)] ≠ (now, .asks base request) :: (time, v) :: after :=
      fun heq => by cases heq
    rw [hexchange.at_append]
    exact ⟨_, hwhole, .fatal (List.prefix_append [_] _) hne hfatal hstopped⟩
  | @hears plan next now later tainted request sub after u y hrequest hexchange hgoes _ ih =>
    obtain ⟨whole, hwhole, hrecites⟩ := ih
    rw [hexchange.at_append]
    exact ⟨_, .hears hrequest hexchange.due hgoes hwhole, (hrecites.cons _).cons _⟩

end ProgramGraph
