import ProgramGraph.Proofs.Course.Basic
import ProgramGraph.Proofs.Evaluator.Scope
import ProgramGraph.Proofs.Evaluator.Taint
/-!
# Courses agree with the plain evaluator

A memo is sound if whatever it keeps is what the node is worth under every
scope. The empty memo is sound, and a course leaves a sound memo if it starts
from one. From a sound memo a course comes to the answer of the plain evaluator
wherever the evaluator has something to say: if nothing in the graph hangs on
time, or if the answer is untainted on either side. A course that is untainted
meets no tie either.

So the memo a course starts from makes no difference to its answer, not even
where answers hang on time (`Graph.course_answer_eq`).
-/

namespace ProgramGraph

variable {P : Plugins}

/-- **What the memo keeps is what the nodes are worth,** under every scope. -/
def Memo.Sound (g : Graph) (reg : Registry P) (m : Memo) : Prop :=
  ∀ id value, m.kept? id = some value → ∀ s, g.evaluate reg id s = ⟨.ok value, false⟩

namespace Memo

variable {g : Graph} {reg : Registry P} {m : Memo}

theorem sound_empty : Memo.empty.Sound g reg := by
  intro id value h
  rw [kept?_empty] at h
  cases h

/-- Soundness hangs on what is kept only. -/
theorem Sound.of_kept (hm : m.Sound g reg) {m' : Memo}
    (h : ∀ id value, m'.kept? id = some value → m.kept? id = some value) : m'.Sound g reg :=
  fun id value hkept => hm id value (h id value hkept)

theorem Sound.setTainted (hm : m.Sound g reg) (id : NodeId) : (m.setTainted id).Sound g reg := by
  refine hm.of_kept fun other value h => ?_
  rw [kept?_setTainted] at h
  split at h
  · cases h
  · exact h

/-- The memo that a frame works on: a fresh one has a memo of its own. -/
theorem Sound.inner (hm : m.Sound g reg) (fresh : Bool) :
    (if fresh then Memo.empty else m).Sound g reg := by
  split
  · exact sound_empty
  · exact hm

/-- A result may be kept if it is tainted, or if it is what the node is worth
under some scope. -/
theorem Sound.put (hm : m.Sound g reg) {id : NodeId} {value : Value} {tainted : Bool}
    (s : Scope) (h : tainted = false → g.evaluate reg id s = ⟨.ok value, false⟩) :
    (m.put id value tainted).Sound g reg := by
  intro other found hfound
  rw [kept?_put] at hfound
  split at hfound
  next heq =>
    subst heq
    cases tainted with
    | true => cases hfound
    | false =>
      cases hfound
      intro t
      rw [Graph.evaluate_steady g reg id s t (by rw [h rfl]), h rfl]
  next => exact hm other found hfound

/-- What is kept at the end of a frame, likewise. -/
theorem Sound.keep (hm : m.Sound g reg) {id : NodeId} {a : Answer} {s : Scope}
    (h : a.tainted = false → g.evaluate reg id s = a) : (Graph.keep id a m).Sound g reg := by
  unfold Graph.keep
  split
  next value hvalue =>
    refine hm.put s fun htainted => ?_
    rw [h htainted]
    exact Answer.ext hvalue htainted
  next => exact hm

end Memo

/-- **A course agrees with an answer:** where nothing hangs on time, or one of
the two is untainted, they are the same and there is no tie; and if they are
untainted, no parameter has been looked up. -/
def Course.Agrees (untimed : Prop) (c : Course) (ref : Answer) : Prop :=
  untimed ∨ ref.tainted = false ∨ c.answer.tainted = false →
    c.answer = ref ∧ c.cost.tied = false ∧ (ref.tainted = false → c.cost.tally.lookups = 0)

/-- Without a look-up in any of them there is none in all together. -/
theorem Tally.lookups_foldl {tallies : List Tally} {start : Tally} (hstart : start.lookups = 0)
    (h : ∀ t ∈ tallies, t.lookups = 0) : (tallies.foldl Tally.merge start).lookups = 0 := by
  induction tallies generalizing start with
  | nil => exact hstart
  | cons t rest ih =>
    rw [List.forall_mem_cons] at h
    refine ih ?_ h.2
    show start.lookups + t.lookups = 0
    omega

namespace Course

variable {untimed : Prop}

theorem answer_bind (c : Course) (next : Reply → Memo → Course) :
    (c.bind next).answer = c.answer.bind fun reply => (next reply c.memo).answer := by
  cases h : Reply.ofResult c.answer.result with
  | error fatal => simp only [bind, Answer.bind, h]
  | ok reply => simp only [bind, Answer.bind, h]

theorem memo_bind (c : Course) (next : Reply → Memo → Course) :
    (c.bind next).memo = c.memo ∨ ∃ reply, (c.bind next).memo = (next reply c.memo).memo := by
  unfold bind
  split
  next reply _ => exact .inr ⟨reply, rfl⟩
  next => exact .inl rfl

theorem tied_bind_of_reply {c : Course} {reply : Reply}
    (h : Reply.ofResult c.answer.result = .ok reply) (next : Reply → Memo → Course) :
    (c.bind next).cost.tied = (c.cost.tied || (next reply c.memo).cost.tied) := by
  simp only [bind, h, Cost.tied_add, Cost.tied_handing, Bool.or_false]

theorem lookups_bind_of_reply {c : Course} {reply : Reply}
    (h : Reply.ofResult c.answer.result = .ok reply) (next : Reply → Memo → Course) :
    (c.bind next).cost.tally.lookups =
      c.cost.tally.lookups + (next reply c.memo).cost.tally.lookups := by
  simp only [bind, h, Cost.tally_add, Tally.merge]
  cases reply <;> rfl

theorem tied_bind_of_fatal {c : Course} {fatal : EvalError}
    (h : Reply.ofResult c.answer.result = .error fatal) (next : Reply → Memo → Course) :
    (c.bind next).cost.tied = c.cost.tied := by
  simp only [bind, h]

/-- **Courses that answer alike** still do with what follows on them, and one is
tied if the other is. -/
theorem bind_eq {c c' : Course} {next next' : Reply → Memo → Course}
    (hanswer : c.answer = c'.answer) (htied : c.cost.tied = c'.cost.tied)
    (hnext : ∀ reply, (next reply c.memo).answer = (next' reply c'.memo).answer ∧
      (next reply c.memo).cost.tied = (next' reply c'.memo).cost.tied) :
    ((c.bind next).after .turn).answer = ((c'.bind next').after .turn).answer ∧
      ((c.bind next).after .turn).cost.tied = ((c'.bind next').after .turn).cost.tied := by
  have hnexts : (fun reply => (next reply c.memo).answer) =
      fun reply => (next' reply c'.memo).answer := funext fun reply => (hnext reply).1
  refine ⟨?_, congrArg (Cost.turn.tied || ·) ?_⟩
  · show (c.bind next).answer = (c'.bind next').answer
    rw [answer_bind, answer_bind, hanswer, hnexts]
  · show (c.bind next).cost.tied = (c'.bind next').cost.tied
    cases hreply : Reply.ofResult c.answer.result with
    | error fatal =>
      rw [tied_bind_of_fatal hreply, tied_bind_of_fatal (hanswer ▸ hreply), htied]
    | ok reply =>
      rw [tied_bind_of_reply hreply, tied_bind_of_reply (hanswer ▸ hreply), htied,
        (hnext reply).2]

/-- **Agreement goes on** with what follows. -/
theorem Agrees.bind {c : Course} {ref : Answer} {next : Reply → Memo → Course}
    {next' : Reply → Answer} (hc : c.Agrees untimed ref)
    (hnext : ∀ reply, (next reply c.memo).Agrees untimed (next' reply)) :
    (c.bind next).Agrees untimed (ref.bind next') := by
  intro h
  -- whichever side is known to be untainted, its first part is
  have hfirst : untimed ∨ ref.tainted = false ∨ c.answer.tainted = false := by
    rcases h with h | h | h
    · exact .inl h
    · exact .inr (.inl (Answer.untainted_of_bind h).1)
    · rw [answer_bind] at h
      exact .inr (.inr (Answer.untainted_of_bind h).1)
  obtain ⟨hanswer, htied, hlookups⟩ := hc hfirst
  cases hreply : Reply.ofResult ref.result with
  | error fatal =>
    rw [answer_bind, tied_bind_of_fatal (by rw [hanswer, hreply]), hanswer,
      Answer.bind_of_fatal hreply, Answer.bind_of_fatal hreply]
    exact ⟨rfl, htied, nofun⟩
  | ok reply =>
    rw [answer_bind, hanswer, Answer.bind_of_reply hreply] at h
    rw [Answer.bind_of_reply hreply] at h
    simp only [Answer.tainted_taintedBy, Bool.or_eq_false_iff] at h
    obtain ⟨hanswer', htied', hlookups'⟩ := hnext reply (h.imp_right (Or.imp And.right And.right))
    rw [answer_bind, tied_bind_of_reply (by rw [hanswer, hreply]), hanswer,
      Answer.bind_of_reply hreply, Answer.bind_of_reply hreply, hanswer', htied, htied',
      lookups_bind_of_reply (by rw [hanswer, hreply])]
    refine ⟨rfl, rfl, fun huntainted => ?_⟩
    simp only [Answer.tainted_taintedBy, Bool.or_eq_false_iff] at huntainted
    rw [hlookups huntainted.1, hlookups' huntainted.2]

/-- A cost without ties and look-ups makes no difference. -/
theorem Agrees.after {c : Course} {ref : Answer} (hc : c.Agrees untimed ref) {cost : Cost}
    (hcost : cost.tied = false) (hnone : cost.tally.lookups = 0) :
    (c.after cost).Agrees untimed ref := by
  intro h
  obtain ⟨hanswer, htied, hlookups⟩ := hc h
  refine ⟨hanswer, ?_, fun huntainted => ?_⟩
  · simp only [Course.after, Cost.tied_add, hcost, htied, Bool.or_self]
  · simp only [Course.after, Cost.tally_add, Tally.merge, hnone, hlookups huntainted]

/-- Agreement is kept by what a frame adds at its end. -/
theorem Agrees.taintedBy {c : Course} {ref : Answer} (hc : c.Agrees untimed ref)
    (volatile : Bool) (m : Memo) {cost : Cost} (hcost : cost.tied = false)
    (hnone : cost.tally.lookups = 0) :
    Course.Agrees untimed ⟨c.answer.taintedBy volatile, m, cost + c.cost⟩
      (ref.taintedBy volatile) := by
  intro h
  simp only [Answer.tainted_taintedBy, Bool.or_eq_false_iff] at h
  obtain ⟨hanswer, htied, hlookups⟩ := hc (h.imp_right (Or.imp And.right And.right))
  refine ⟨congrArg (Answer.taintedBy · volatile) hanswer, ?_, fun huntainted => ?_⟩
  · simp only [Cost.tied_add, hcost, htied, Bool.or_self]
  · simp only [Answer.tainted_taintedBy, Bool.or_eq_false_iff] at huntainted
    simp only [Cost.tally_add, Tally.merge, hnone, hlookups huntainted.2]

/-- Jobs agree together if each of them does. -/
theorem Agrees.all {α : Type} {jobs : List α} {course : α → Course} {ref : α → Answer}
    (h : ∀ job ∈ jobs, (course job).Agrees untimed (ref job)) (m : Memo) :
    (Course.all m (jobs.map course)).Agrees untimed (Answer.gather (jobs.map ref)) := by
  intro hu
  have hjob : ∀ job ∈ jobs, (course job).answer = ref job ∧ (course job).cost.tied = false ∧
      ((ref job).tainted = false → (course job).cost.tally.lookups = 0) := by
    intro job hjob
    refine h job hjob (hu.imp_right (Or.imp (fun href => ?_) fun hcourse => ?_))
    · exact Answer.untainted_of_gather href _ (List.mem_map_of_mem hjob)
    · exact Answer.untainted_of_gather hcourse _
        (List.mem_map_of_mem (List.mem_map_of_mem hjob))
  refine ⟨?_, ?_, fun huntainted => ?_⟩
  · have hanswers : (jobs.map course).map answer = jobs.map ref := by
      rw [List.map_map]
      exact List.map_congr_left fun job hmem => (hjob job hmem).1
    exact congrArg Answer.gather hanswers
  · have htied : anyTied (jobs.map course) = false := by
      simpa [anyTied] using fun job hmem => (hjob job hmem).2.1
    exact htied
  · refine Tally.lookups_foldl rfl fun tally htally => ?_
    obtain ⟨c, hc, rfl⟩ := List.mem_map.1 htally
    obtain ⟨job, hmem, rfl⟩ := List.mem_map.1 hc
    exact (hjob job hmem).2.2 (Answer.untainted_of_gather huntainted _ (List.mem_map_of_mem hmem))

end Course

namespace Plan

variable {go : Visits} {p : NodeId → Prop} {timed : Prop} {keeps : Memo → Prop}

/-- **A plan leaves a memo of some kind** if the visits do that it makes. -/
theorem course_memo (hgo : ∀ id, p id → ∀ s fresh height m, keeps m →
      keeps (go id s fresh height m).memo) {plan : Plan} (hplan : plan.Within p timed)
    (cx : Context) (height : Nat) {m : Memo} (hm : keeps m) :
    keeps (plan.course go cx height m).memo := by
  have hbind : ∀ (c : Course) (next : Reply → Memo → Course), keeps c.memo →
      (∀ reply, keeps (next reply c.memo).memo) → keeps (c.bind next).memo := by
    intro c next hc hnext
    rcases c.memo_bind next with h | ⟨reply, h⟩
    · rw [h]
      exact hc
    · rw [h]
      exact hnext reply
  induction plan generalizing m with
  | finish => exact hm
  | visit id manner next ih =>
    have hvisit := hgo id hplan.1 (manner.scope cx.scope) manner.isFresh height m hm
    exact hbind _ _ hvisit fun reply => ih reply (hplan.2 reply) hvisit
  | pause ms next ih => exact ih hplan hm
  | all jobs next ih => exact hbind _ _ hm fun reply => ih reply (hplan.2 reply) hm
  | first id others next ih =>
    obtain ⟨-, -, -, hnext⟩ := hplan
    exact hbind _ _ hm fun reply => ih reply (hnext reply) hm
  | deadline ms id next late ihn ihl =>
    obtain ⟨-, -, hnext, hlate⟩ := hplan
    simp only [course]
    split
    · exact hbind _ _ hm fun reply => ihn reply (hnext reply) hm
    · exact ihl hlate hm

variable {worth : NodeId → Scope → Answer} {untimed : Prop}

/-- **An untimed plan agrees with the evaluator** if the visits do. -/
theorem course_agrees
    (hgo : ∀ id, p id → ∀ s fresh height m, keeps m →
      keeps (go id s fresh height m).memo ∧
        (go id s fresh height m).Agrees untimed (worth id s))
    (hempty : keeps .empty) (halike : ∀ id s t, Scope.Alike s t → worth id s = worth id t)
    {plan : Plan} (hplan : plan.Within p False) (cx : Context) (height : Nat) {m : Memo}
    (hm : keeps m) :
    (plan.course go cx height m).Agrees untimed (plan.evaluate worth cx.scope) := by
  induction plan generalizing m with
  | finish result => exact fun _ => ⟨rfl, rfl, fun _ => rfl⟩
  | visit id manner next ih =>
    obtain ⟨hkeeps, hagrees⟩ :=
      hgo id hplan.1 (manner.scope cx.scope) manner.isFresh height m hm
    exact (hagrees.bind fun reply => ih reply (hplan.2 reply) hkeeps).after rfl rfl
  | pause ms next ih => exact (ih hplan hm).after rfl rfl
  | all jobs next ih =>
    have hjobs : ∀ job ∈ jobs,
        (go.job (cx.job job.1 job.2)).Agrees untimed (worth job.1 (cx.scope.push job.2)) := by
      intro job hjob
      rw [← halike job.1 _ _ (cx.alike_job job.1 job.2)]
      exact (hgo job.1 (hplan.1 job hjob) _ false 0 .empty hempty).2
    exact ((Course.Agrees.all hjobs m).bind fun reply => ih reply (hplan.2 reply) hm).after rfl rfl
  | first => exact hplan.1.elim
  | deadline => exact hplan.1.elim

/-- **The memo makes no difference** to what a plan comes to, if it makes none
to the visits. -/
theorem course_eq
    (hgo : ∀ id, p id → ∀ s fresh height height' m m', keeps m → keeps m' →
      keeps (go id s fresh height m).memo ∧ keeps (go id s fresh height' m').memo ∧
        (go id s fresh height m).answer = (go id s fresh height' m').answer ∧
        (go id s fresh height m).cost.tied = (go id s fresh height' m').cost.tied)
    {plan : Plan} (hplan : plan.Within p timed) (cx : Context) (height height' : Nat)
    {m m' : Memo} (hm : keeps m) (hm' : keeps m') :
    (plan.course go cx height m).answer = (plan.course go cx height' m').answer ∧
      (plan.course go cx height m).cost.tied = (plan.course go cx height' m').cost.tied := by
  induction plan generalizing m m' with
  | finish => exact ⟨rfl, rfl⟩
  | visit id manner next ih =>
    obtain ⟨hkeeps, hkeeps', hanswer, htied⟩ :=
      hgo id hplan.1 (manner.scope cx.scope) manner.isFresh height height' m m' hm hm'
    exact Course.bind_eq hanswer htied fun reply => ih reply (hplan.2 reply) hkeeps hkeeps'
  | pause ms next ih =>
    obtain ⟨hanswer, htied⟩ := ih hplan hm hm'
    exact ⟨hanswer, congrArg ((Cost.turn + Course.pausing ms).tied || ·) htied⟩
  | all jobs next ih =>
    exact Course.bind_eq rfl rfl fun reply => ih reply (hplan.2 reply) hm hm'
  | first id others next ih =>
    obtain ⟨-, -, -, hnext⟩ := hplan
    exact Course.bind_eq rfl rfl fun reply => ih reply (hnext reply) hm hm'
  | deadline ms id next late ihn ihl =>
    obtain ⟨-, -, hnext, hlate⟩ := hplan
    simp only [course]
    split
    · exact Course.bind_eq rfl rfl fun reply => ihn reply (hnext reply) hm hm'
    · obtain ⟨hanswer, htied⟩ := ihl hlate hm hm'
      exact ⟨hanswer, congrArg ((Cost.turn + Course.tooLate _ _).tied || ·) htied⟩

end Plan

namespace Graph

variable {g : Graph} {reg : Registry P}

/-- An answer that is tainted on both sides, in a graph with races or
timeouts, agrees with anything. -/
theorem agrees_of_tainted {c : Course} {ref : Answer} (hg : ¬ g.Untimed)
    (hc : c.answer.tainted = true) (href : ref.tainted = true) : c.Agrees g.Untimed ref := by
  rintro (h | h | h)
  · exact absurd h hg
  · rw [href] at h
    cases h
  · rw [hc] at h
    cases h

/-- **Courses agree with the plain evaluator** and leave sound memos. -/
theorem course_sound (hg : g.validate = .ok ()) (hr : reg.Native) (id : NodeId) (s : Scope)
    (fresh : Bool) (height : Nat) {m : Memo} (hm : m.Sound g reg) :
    (g.course reg id s fresh height m).memo.Sound g reg ∧
      (g.course reg id s fresh height m).Agrees g.Untimed (g.evaluate reg id s) := by
  induction hn : id.index using Nat.strongRecOn generalizing id s fresh height m with
  | _ n ih =>
    cases hkept : if fresh then none else m.kept? id with
    | some value =>
      have hworth : g.evaluate reg id s = ⟨.ok value, false⟩ := by
        split at hkept
        · cases hkept
        · exact hm id value hkept s
      have habsent : g.role reg id ≠ .absent := by
        intro h
        rw [evaluate_absent h] at hworth
        cases hworth
      have hparam : ∀ p, g.role reg id ≠ .param p := by
        intro p h
        rw [evaluate_param h] at hworth
        cases congrArg Answer.tainted hworth
      rw [course_kept habsent hparam hkept, hworth]
      exact ⟨hm, fun _ => ⟨rfl, rfl, fun _ => rfl⟩⟩
    | none =>
      cases hrole : g.role reg id with
      | absent =>
        rw [course_absent hrole, evaluate_absent hrole]
        exact ⟨hm, fun _ => ⟨rfl, rfl, fun _ => rfl⟩⟩
      | param p =>
        rw [course_param hrole, evaluate_param hrole]
        exact ⟨hm.setTainted id, fun _ => ⟨rfl, rfl, nofun⟩⟩
      | refused error volatile =>
        rw [course_refused hrole hkept, evaluate_refused hrole]
        exact ⟨hm, fun _ => ⟨rfl, rfl, fun _ => rfl⟩⟩
      | planned plan volatile =>
        have hwithin := within_of_role hg hr hrole
        have hgo : ∀ child, child < id → ∀ s fresh height m, m.Sound g reg →
            (g.course reg child s fresh height m).memo.Sound g reg ∧
              (g.course reg child s fresh height m).Agrees g.Untimed (g.evaluate reg child s) :=
          fun child hchild s fresh height m hm => ih _ (hn ▸ hchild) child s fresh height hm rfl
        have hinner := hm.inner fresh
        obtain ⟨c, hc⟩ : ∃ c, c = plan.course (g.course reg) ⟨id, s⟩ (height + 1)
          (if fresh then .empty else m) := ⟨_, rfl⟩
        have hcourse := course_planned hg hr hrole hkept hc
        have hmemo : c.memo.Sound g reg := by
          rw [hc]
          exact Plan.course_memo (fun child hchild s fresh height m hm =>
            (hgo child hchild s fresh height m hm).1) hwithin ⟨id, s⟩ (height + 1) hinner
        have hagrees : (g.course reg id s fresh height m).Agrees g.Untimed
            (g.evaluate reg id s) := by
          rw [hcourse, evaluate_planned hg hr hrole]
          -- where which comes first may matter, both sides are tainted and nothing is claimed
          by_cases htimed : volatile = true ∧ ¬ g.Untimed
          · refine agrees_of_tainted htimed.2 ?_ ?_ <;>
              simp only [Answer.tainted_taintedBy, htimed.1, Bool.true_or]
          · have hplan := hwithin.mono (fun _ h => h) htimed
            rw [hc]
            exact (Plan.course_agrees hgo Memo.sound_empty
              (fun id s t => evaluate_alike g reg id) hplan ⟨id, s⟩ (height + 1)
              hinner).taintedBy volatile _ rfl rfl
        refine ⟨?_, hagrees⟩
        -- what is kept of the node is what it is worth, by the agreement just shown
        have hworth := fun h => (hagrees (.inr (.inr h))).1.symm
        rw [hcourse] at hworth ⊢
        cases fresh with
        | true => exact hm
        | false => exact hmemo.keep hworth

/-- **From a sound memo a course comes to what the node is worth** if nothing
in the graph hangs on time. -/
theorem course_of_untimed (hg : g.validate = .ok ()) (hr : reg.Native) (hu : g.Untimed)
    (id : NodeId) (s : Scope) (fresh : Bool) (height : Nat) {m : Memo} (hm : m.Sound g reg) :
    (g.course reg id s fresh height m).answer = g.evaluate reg id s ∧
      (g.course reg id s fresh height m).cost.tied = false :=
  have hagrees := (course_sound hg hr id s fresh height hm).2 (.inl hu)
  ⟨hagrees.1, hagrees.2.1⟩

/-- The same for a node that is worth something untainted. No parameter is
looked up then. -/
theorem course_of_pure (hg : g.validate = .ok ()) (hr : reg.Native) {id : NodeId}
    (hp : g.Pure reg id) (s : Scope) (fresh : Bool) (height : Nat) {m : Memo}
    (hm : m.Sound g reg) :
    (g.course reg id s fresh height m).answer = g.evaluate reg id s ∧
      (g.course reg id s fresh height m).cost.tied = false ∧
      (g.course reg id s fresh height m).cost.tally.lookups = 0 :=
  have hagrees := (course_sound hg hr id s fresh height hm).2 (.inr (.inl (hp s)))
  ⟨hagrees.1, hagrees.2.1, hagrees.2.2 (hp s)⟩

/-- **The memo makes no difference** to what a visit comes to, nor to whether
there is a tie, as long as it is sound. -/
theorem course_eq_of_sound (hg : g.validate = .ok ()) (hr : reg.Native) (id : NodeId) (s : Scope)
    (fresh : Bool) (height height' : Nat) {m m' : Memo} (hm : m.Sound g reg)
    (hm' : m'.Sound g reg) :
    (g.course reg id s fresh height m).answer = (g.course reg id s fresh height' m').answer ∧
      (g.course reg id s fresh height m).cost.tied =
        (g.course reg id s fresh height' m').cost.tied := by
  induction hn : id.index using Nat.strongRecOn generalizing id s fresh height height' m m' with
  | _ n ih =>
    -- a result is only kept of a pure node, for which both sides agree with the evaluator
    by_cases hpure : g.Pure reg id
    · obtain ⟨hanswer, htied, -⟩ := course_of_pure hg hr hpure s fresh height hm
      obtain ⟨hanswer', htied', -⟩ := course_of_pure hg hr hpure s fresh height' hm'
      rw [hanswer, hanswer', htied, htied']
      exact ⟨rfl, rfl⟩
    · have hnone : ∀ {m : Memo}, m.Sound g reg → (if fresh then none else m.kept? id) = none := by
        intro m hm
        split
        · rfl
        · cases hkept : m.kept? id with
          | none => rfl
          | some value =>
            exact absurd (fun s => by rw [hm id value hkept s]) hpure
      cases hrole : g.role reg id with
      | absent =>
        rw [course_absent hrole, course_absent hrole]
        exact ⟨rfl, rfl⟩
      | param p =>
        rw [course_param hrole, course_param hrole]
        exact ⟨rfl, rfl⟩
      | refused error volatile =>
        rw [course_refused hrole (hnone hm), course_refused hrole (hnone hm')]
        exact ⟨rfl, rfl⟩
      | planned plan volatile =>
        rw [course_planned hg hr hrole (hnone hm) rfl, course_planned hg hr hrole (hnone hm') rfl]
        obtain ⟨hanswer, htied⟩ := Plan.course_eq
          (fun child hchild s fresh height height' m m' (hm : m.Sound g reg)
              (hm' : m'.Sound g reg) =>
            ⟨(course_sound hg hr child s fresh height hm).1,
              (course_sound hg hr child s fresh height' hm').1,
              ih _ (hn ▸ hchild) child s fresh height height' hm hm' rfl⟩)
          (within_of_role hg hr hrole) ⟨id, s⟩ (height + 1) (height' + 1) (hm.inner fresh)
          (hm'.inner fresh)
        exact ⟨congrArg (Answer.taintedBy · volatile) hanswer, htied⟩

end Graph

end ProgramGraph
