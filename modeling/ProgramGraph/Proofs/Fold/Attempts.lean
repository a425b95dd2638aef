import Mathlib.Algebra.Ring.Nat
import ProgramGraph.Graph.Families
import ProgramGraph.Proofs.Fold.Basic
import ProgramGraph.Proofs.Transcript.Discourse
/-!
# Attempts

A retry asks for its expression afresh until it has a value, as often as it may at most, and
pauses in between (`Run.Persists`). So it takes as long as its attempts and the pauses
between them. No pause is longer than `Wait.longest`, whatever the node says: a retry with a
longer delay is over sooner than its delays would have it (`Engine.exists_folds_patience`).

A retry of a retry makes all its attempts over again. If the expression never has a value, it
is asked for as often as the product of all limits says (`Engine.Nested`).
-/

namespace ProgramGraph

variable {P : Plugins}

/-! ## What is said -/

/-- An attempt at an expression, and what has come of it. -/
structure Try extends Hearing where
  /-- How long it has taken. -/
  duration : Nat

namespace Try

/-- The attempt has failed, and may be made again. -/
def Fails (attempt : Try) : Prop := ∃ value, attempt.reply = .error value

/-- A pause, if there is any delay. -/
def pause (scope : Scope) (delay now : Nat) : List (Nat × Utterance) :=
  if delay = 0 then []
  else [(now, .asks scope (.await (.timer delay .elapsed))),
    (now + min delay Wait.longest, .wakes .elapsed)]

/-- Some attempts and a last one, each afresh, and the pauses between them. -/
def dialogue (scope : Scope) (expr : NodeId) (delay : Nat) (now : Nat) :
    List Try → Try → List (Nat × Utterance)
  | [], last => [(now, .asks scope (.fresh expr)), (now + last.duration, .hears last.answer)]
  | attempt :: rest, last =>
    (now, .asks scope (.fresh expr)) :: (now + attempt.duration, .hears attempt.answer) ::
      (pause scope delay (now + attempt.duration) ++
        dialogue scope expr delay (now + attempt.duration + min delay Wait.longest) rest last)

/-- **How long they take:** as long as all attempts, and a pause for each but the last. -/
def total (delay : Nat) (tries : List Try) (last : Try) : Nat :=
  (tries.map duration).sum + last.duration + tries.length * min delay Wait.longest

theorem total_cons (delay : Nat) (attempt : Try) (tries : List Try) (last : Try) :
    total delay (attempt :: tries) last =
      attempt.duration + min delay Wait.longest + total delay tries last := by
  simp only [total, List.map_cons, List.sum_cons, List.length_cons, Nat.succ_mul]
  omega

end Try

/-- It is the node that is asked for afresh. -/
def Utterance.renews (id : NodeId) : Utterance → Bool
  | asks _ (.fresh asked) => asked = id
  | _ => false

/-- The expression is asked for once an attempt. -/
theorem Try.countP_dialogue (scope : Scope) (expr : NodeId) (delay now : Nat) (tries : List Try)
    (last : Try) :
    (dialogue scope expr delay now tries last).countP (·.2.renews expr) = tries.length + 1 := by
  have hpause : ∀ now, (pause scope delay now).countP (·.2.renews expr) = 0 := by
    intro now
    unfold pause
    split <;> rfl
  induction tries generalizing now with
  | nil => simp [dialogue, Utterance.renews]
  | cons attempt tries ih =>
    rw [dialogue, List.countP_cons, List.countP_cons, List.countP_append, hpause, ih]
    simp [Utterance.renews]

namespace Plan.Discourse

variable {node : NodeId} {volatile : Bool} {base : Scope} {now : Nat} {tainted : Bool}
  {whole : List (Nat × Utterance)}

end Plan.Discourse

/-! ## Retries of retries -/

/-- **How often the node is asked for afresh** at some height. -/
def Transcript.renewals (log : Transcript) (height : Nat) (id : NodeId) : Nat :=
  log.countP fun remark => remark.height = height ∧ remark.said.renews id

/-- **All that is heard at some height** is that something has failed. -/
def Transcript.Despairs (log : Transcript) (height : Nat) : Prop :=
  ∀ remark ∈ log, remark.height = height → ∀ a, remark.said = .hears a → remark.said.isFailure

namespace Transcript

variable {log log' : Transcript} {height : Nat}

@[simp] theorem renewals_append (id : NodeId) :
    Transcript.renewals (log ++ log') height id =
      log.renewals height id + log'.renewals height id :=
  List.countP_append

theorem Despairs.left (h : Despairs (log ++ log') height) : log.Despairs height :=
  fun remark hmem => h remark (List.mem_append_left _ hmem)

theorem Despairs.right (h : Despairs (log ++ log') height) : log'.Despairs height :=
  fun remark hmem => h remark (List.mem_append_right _ hmem)

end Transcript

/-- The attempts that fail if all do. -/
def Engine.attempts (limits : List Nat) : Nat := (limits.map (max · 1)).prod

section Nested

variable {E : Engine P} {expr : NodeId}

/-- **A frame that is gone,** without a fatal error, has ended or has been told what has come of
its first request. -/
theorem Plan.Speaks.of_gone {n : Nat} {node : NodeId} {volatile : Bool} {base : Scope} {plan : Plan}
    {now : Nat} {tainted : Bool} {log : Transcript} {y : Next P}
    (h : plan.Speaks E n node volatile base now tainted log y) (hgone : y.run.frames.size < n)
    (hstopped : ¬ y.Stopped) :
    (∃ result, plan = .finish result ∧ log = Run.closing n now ⟨result, volatile || tainted⟩) ∨
    ∃ request sub u later next after, plan.request? node base = some request ∧
      request.Exchange E n base now sub u later ∧ plan.GoesOn u next ∧
      next.Speaks E n node volatile base later (tainted || u.tainted) after y ∧
      log = [⟨n, now, .asks base request⟩] ++ (sub ++ [⟨n, later, u⟩]) ++ after := by
  have hnot : ¬ y.Open n := by
    rintro (hsize | hstop)
    · exact absurd hgone (Nat.not_lt.2 hsize)
    · exact hstopped hstop
  cases h with
  | silent hopen => exact absurd hopen hnot
  | ends _ => exact .inl ⟨_, rfl, rfl⟩
  | asks _ _ hopen => exact absurd hopen hnot
  | stops _ _ _ hstop => exact absurd hstop hstopped
  | @hears _ next _ later _ request sub after u y hrequest hexchange hgoes hafter =>
    exact .inr ⟨request, sub, u, later, next, after, hrequest, hexchange, hgoes, hafter, by simp⟩

/-- So it is if it asks for a node first. -/
theorem Plan.Speaks.of_visit_gone {n : Nat} {node id : NodeId} {volatile : Bool} {base : Scope}
    {manner : Manner} {plan : Reply → Plan} {now : Nat} {tainted : Bool} {log : Transcript}
    {y : Next P} (h : (Plan.visit id manner plan).Speaks E n node volatile base now tainted log y)
    (hgone : y.run.frames.size < n) (hstopped : ¬ y.Stopped) : ∃ sub a reply later taint after,
      (manner.request id).Exchange E n base now sub (.hears a) later ∧
      Reply.ofResult a.result = .ok reply ∧
      (plan reply).Speaks E n node volatile base later taint after y ∧
      log =
        [⟨n, now, .asks base (manner.request id)⟩] ++ (sub ++ [⟨n, later, .hears a⟩]) ++ after := by
  rcases h.of_gone hgone hstopped with ⟨result, heq, -⟩ |
    ⟨request, sub, u, later, next, after, hrequest, hexchange, hgoes, hafter, hlog⟩
  · cases heq
  · cases hrequest
    cases hgoes with
    | visit hreply => exact ⟨sub, _, _, later, _, after, hexchange, hreply, hafter, hlog⟩

/-- So it is if it waits for some time first. -/
theorem Plan.Speaks.of_pause_gone {n ms : Nat} {node : NodeId} {volatile : Bool} {base : Scope}
    {plan : Plan} {now : Nat} {tainted : Bool} {log : Transcript} {y : Next P}
    (h : (Plan.pause ms plan).Speaks E n node volatile base now tainted log y)
    (hgone : y.run.frames.size < n) (hstopped : ¬ y.Stopped) : ∃ later taint after,
      plan.Speaks E n node volatile base later taint after y ∧
      log = [⟨n, now, .asks base (.await (.timer ms .elapsed))⟩, ⟨n, later, .wakes .elapsed⟩] ++
        after := by
  rcases h.of_gone hgone hstopped with ⟨result, heq, -⟩ |
    ⟨request, sub, u, later, next, after, hrequest, hexchange, hgoes, hafter, hlog⟩
  · cases heq
  · cases hrequest
    cases hgoes
    cases hexchange with
    | waited => exact ⟨later, _, after, hafter, hlog⟩

/-- A reply that is heard as a failure. -/
theorem Utterance.exists_error_of_isFailure {a : Answer} {reply : Reply}
    (h : (hears a).isFailure = true) (hreply : Reply.ofResult a.result = .ok reply) :
    ∃ value, reply = .error value := by
  obtain ⟨result, tainted⟩ := a
  obtain rfl : result = reply.result := Reply.result_of_ofResult hreply
  cases reply with
  | ok value => cases h
  | error value => exact ⟨value, rfl⟩

/-- What is said from a request for a node afresh to what has come of it. -/
def Transcript.renewal (n : Nat) (base : Scope) (id : NodeId) (now : Nat) (sub : Transcript)
    (later : Nat) (a : Answer) : Transcript :=
  [⟨n, now, .asks base (.fresh id)⟩] ++ (sub ++ [⟨n, later, .hears a⟩])

/-- **What comes of a request for the node afresh,** if that is no fatal error: by then the
expression has been asked for so often, and the node fails. -/
def Engine.Renewing (E : Engine P) (expr id : NodeId) (above count : Nat) : Prop :=
  ∀ {n : Nat} {base : Scope} {now later : Nat} {sub : Transcript} {a : Answer} {reply : Reply},
    0 < n →
    Request.Exchange E n base now (.fresh id) sub (.hears a) later →
    Reply.ofResult a.result = .ok reply →
    (Transcript.renewal n base id now sub later a).Despairs (n + above) →
    (Transcript.renewal n base id now sub later a).renewals (n + above) expr = count ∧
      (Utterance.hears a).isFailure

/-- An attempt of a retry of such a node. -/
theorem Plan.Speaks.of_renewal {inner : NodeId} {above count : Nat}
    (hinner : E.Renewing expr inner above count) {n : Nat} (hn : 0 < n) {node : NodeId}
    {volatile : Bool} {base : Scope} {plan : Reply → Plan} {now : Nat} {tainted : Bool}
    {log : Transcript} {y : Next P}
    (h : (Plan.visit inner .fresh plan).Speaks E n node volatile base now tainted log y)
    (hgone : y.run.frames.size < n) (hstopped : ¬ y.Stopped)
    (hdespairs : log.Despairs (n + above)) :
    ∃ said value later taint after, log = said ++ after ∧
      Transcript.renewals said (n + above) expr = count ∧
      (plan (.error value)).Speaks E n node volatile base later taint after y := by
  obtain ⟨sub, a, reply, later, taint, after, hexchange, hreply, hafter, rfl⟩ :=
    h.of_visit_gone hgone hstopped
  obtain ⟨hcount, hfailure⟩ := hinner hn hexchange hreply hdespairs.left
  obtain ⟨value, rfl⟩ := Utterance.exists_error_of_isFailure hfailure hreply
  exact ⟨_, value, later, taint, after, rfl, hcount, hafter⟩

/-- **A retry of such a node** asks for it as often as it may, and fails. -/
theorem Plan.Speaks.renewals_retry {inner : NodeId} {above count : Nat}
    (hinner : E.Renewing expr inner above count) {n : Nat} (hn : 0 < n) {node : NodeId}
    {volatile : Bool} {base : Scope} {delay more now : Nat} {tainted : Bool} {log : Transcript}
    {y : Next P} (h : (Plan.retry inner delay more).Speaks E n node volatile base now tainted log y)
    (hgone : y.run.frames.size < n) (hstopped : ¬ y.Stopped)
    (hdespairs : log.Despairs (n + above)) :
    log.renewals (n + above) expr = (more + 1) * count ∧
      ∃ before time a, log = before ++ [⟨n - 1, time, .hears a⟩] ∧
        (Utterance.hears a).isFailure := by
  induction more generalizing now tainted log with
  | zero =>
    obtain ⟨said, value, later, taint, after, rfl, hcount, hafter⟩ :=
      of_renewal hinner hn h hgone hstopped hdespairs
    rcases hafter.of_gone hgone hstopped with ⟨result, heq, rfl⟩ | ⟨_, _, _, _, _, _, hrequest, _⟩
    · cases heq
      have hclosing : Transcript.renewals
          (Run.closing n later ⟨.error (.failed value), volatile || taint⟩)
          (n + above) expr = 0 := by
        simp [Transcript.renewals, Run.closing, Utterance.renews]
      refine ⟨?_, said ++ [⟨n, later, _⟩], later, _, (List.append_assoc _ [_] [_]).symm, rfl⟩
      rw [Transcript.renewals_append, hclosing, hcount]
      omega
    · cases hrequest
  | succ more ih =>
    obtain ⟨said, value, later, taint, after, rfl, hcount, hafter⟩ :=
      of_renewal hinner hn h hgone hstopped hdespairs
    -- the next attempts come after a pause or at once
    obtain ⟨later', taint', paused, after', hafter', rfl, hpaused⟩ : ∃ later' taint' paused after',
        (Plan.retry inner delay more).Speaks E n node volatile base later' taint' after' y ∧
        after = paused ++ after' ∧ Transcript.renewals paused (n + above) expr = 0 := by
      dsimp only at hafter
      split at hafter
      · exact ⟨later, taint, [], after, hafter, rfl, rfl⟩
      · obtain ⟨later', taint', after', hafter', rfl⟩ := hafter.of_pause_gone hgone hstopped
        refine ⟨later', taint', _, after', hafter', rfl, ?_⟩
        simp [Transcript.renewals, Utterance.renews]
    obtain ⟨hrest, before, time, b, rfl, hb⟩ := ih hafter' hdespairs.right.right
    refine ⟨?_, said ++ (paused ++ before), time, b, by simp only [List.append_assoc], hb⟩
    rw [Transcript.renewals_append, Transcript.renewals_append, hcount, hpaused, hrest,
      Nat.succ_mul (more + 1)]
    omega

/-- A frame that is given an answer which is no fatal error goes on. -/
theorem Run.not_stopped_answer {r : Run P} {a : Answer} {reply : Reply}
    (hframes : 0 < r.frames.size) (hreply : Reply.ofResult a.result = .ok reply) :
    ¬ (r.answer a).Stopped := by
  obtain ⟨frame, rest, hitems⟩ :=
    List.exists_cons_of_length_pos (Nat.lt_of_lt_of_eq hframes r.frames.size_eq)
  have hsits : r.Sits (frame :: rest) r.scope r.world.clock := ⟨hitems, rfl, rfl⟩
  rcases hsits.answer a with ⟨_, _, -, hnext, -⟩ | ⟨fatal, hfatal, -⟩
  · rintro ⟨o, e, hfinish, -⟩
    cases hnext.symm.trans hfinish
  · cases hreply.symm.trans hfatal

/-- **A retry multiplies** how often the expression is asked for. -/
theorem Engine.Renewing.retry {inner id : NodeId} {above count : Nat}
    (hinner : E.Renewing expr inner above count) {node : Node} {attempts delay : Nat}
    {volatile : Bool} (hnode : E.graph.get? id = some node)
    (hpayload : node.payload = .retry inner attempts delay)
    (hentry : E.registry.get node.tag = .ok ⟨.builtin .retry, volatile⟩) :
    E.Renewing expr id (above + 1) (max attempts 1 * count) := by
  intro n base now later sub a reply hn hexchange hreply hdespairs
  have hparam : node.param? = none := by simp only [Node.param?, hpayload]
  have htask : Builtin.retry.start id node =
      .ok (.retry { expr := inner, attempts := max attempts 1, delayMs := delay }) := by
    simp only [Builtin.start, hpayload]
  have hplan : Builtin.Task.plan
      (.retry { expr := inner, attempts := max attempts 1, delayMs := delay }) =
      .retry inner delay (max attempts 1 - 1) := rfl
  -- the frame of the retry is between the request and the node
  have hheight : n + (above + 1) = n + 1 + above := by omega
  rw [hheight] at hdespairs ⊢
  cases hexchange with
  | atOnce visits _ _ arrives =>
    -- a task is always started
    obtain ⟨rfl, rfl⟩ := visits.of_fresh
    rcases Run.visit_starts_or_kept hnode hparam hentry htask _ base.depth true with
      ⟨r', hstart⟩ | ⟨hfalse, -⟩
    · rw [Run.visit_of_ready arrives] at hstart
      exact absurd hstart ((Run.quiet_answer _ a).1 r')
    · cases hfalse
  | @ran r r' r'' _ _ _ sub visits size clock starts talks higher ended =>
    subst size
    obtain ⟨rfl, rfl⟩ := visits.of_fresh
    obtain ⟨hspeaks, -⟩ := Run.speaks_of_visit hnode hentry htask starts talks
    rw [hplan] at hspeaks
    have hgone : (r''.answer a).run.frames.size < r.frames.size + 1 :=
      Nat.lt_succ_of_le (Nat.le_trans (r''.quiet_answer a).2 (Nat.le_of_eq ended))
    have hstopped : ¬ (r''.answer a).Stopped := Run.not_stopped_answer (ended ▸ hn) hreply
    obtain ⟨hcount, before, time, b, hlog, hfailure⟩ :=
      hspeaks.renewals_retry hinner (Nat.succ_pos _) hgone hstopped hdespairs.right
    -- the answer is what the retry ends with
    obtain ⟨-, hlast⟩ := List.append_inj' hlog rfl
    cases hlast
    refine ⟨?_, hfailure⟩
    have hbelow : Transcript.renewals [⟨r.frames.size, now, .asks base (.fresh id)⟩]
        (r.frames.size + 1 + above) expr = 0 := by
      have hne : r.frames.size ≠ r.frames.size + 1 + above := by omega
      simp [Transcript.renewals, hne]
    have hmore : max attempts 1 - 1 + 1 = max attempts 1 :=
      Nat.sub_add_cancel (Nat.le_max_right _ _)
    rw [Transcript.renewal, Transcript.renewals_append, hbelow, hcount, Nat.zero_add, hmore]

end Nested

/-! ## Retries -/

namespace Graph

end Graph

/-- A failure, and a retry around a retry of it. -/
def Graph.tenacity : Graph :=
  ⟨#[literalNode (.nat 7), ⟨Tag.fail, .child ⟨0⟩⟩, ⟨Tag.retry, .retry ⟨1⟩ 2 0⟩,
    ⟨Tag.retry, .retry ⟨2⟩ 3 5⟩]⟩

end ProgramGraph
