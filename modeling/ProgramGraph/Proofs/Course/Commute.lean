import ProgramGraph.Proofs.Course.Deed
/-!
# Visits commute

Where nothing in a graph hangs on time, it makes no difference in which order two
nodes are visited, neither to what is kept and marked afterwards nor to what has been
counted by then. The later visit may find a node that the earlier one has kept, and
the other way about; but a node is evaluated in full by whichever comes first.

A visit touches its node and smaller ones only (`Graph.deed_on`). So it commutes with
what is done to a larger node, and with the visits that are made on behalf of that
node by induction, which takes care of visits to different nodes. Of two visits to one
node either both evaluate it, and their plans commute by the induction; or the node is
pure, and they do the same whatever their scopes are (`Graph.deed_like`).
-/

namespace ProgramGraph

variable {P : Plugins}

/-! ## What courses do -/

/-- What a visit does apart from its answer. -/
def Visits.deed (go : Visits) (id : NodeId) (s : Scope) (fresh : Bool) (height : Nat) : Deed :=
  fun m => (go id s fresh height m).trace

/-- What a plan does apart from its answer. -/
def Plan.deed (go : Visits) (plan : Plan) (cx : Context) (height : Nat) : Deed :=
  fun m => (plan.course go cx height m).trace

/-- What a visit to a node of a graph does. -/
def Graph.deed (g : Graph) (reg : Registry P) (id : NodeId) (s : Scope) (fresh : Bool)
    (height : Nat) : Deed :=
  Visits.deed (g.course reg) id s fresh height

/-- What jobs count that are made in a context. -/
def Visits.jobsTally (go : Visits) (cx : Context) (jobs : List (NodeId × Bindings)) : Tally :=
  (jobs.map fun job => (go.job (cx.job job.1 job.2)).cost.tally).foldl Tally.merge .zero

theorem Tally.counts_foldl (tallies : List Tally) (t : Tally) :
    (tallies.foldl merge t).counts = (tallies.map counts).foldl merge t.counts := by
  induction tallies generalizing t with
  | nil => rfl
  | cons u rest ih => exact ih (t.merge u)

/-- **What follows on a course** is done after it. -/
theorem Course.trace_bind {c : Course} {a : Deed} {m : Memo} (hc : c.trace = a m)
    (next : Reply → Memo → Course) :
    (c.bind next).trace =
      (a.andThen (.following c.answer fun reply m => (next reply m).trace)) m := by
  have hmemo : (a m).1 = c.memo := congrArg Prod.fst hc.symm
  have htally : (a m).2 = c.cost.tally := congrArg Prod.snd hc.symm
  cases hreply : Reply.ofResult c.answer.result with
  | ok reply =>
    simp only [Course.bind, Course.trace, Deed.andThen, Deed.following, Deed.count, hreply, hmemo,
      htally, Cost.tally_add, Tally.merge_assoc]
  | error fatal =>
    simp only [Course.bind, Course.trace, Deed.andThen, Deed.following, Deed.count, hreply, hmemo,
      htally, Tally.merge_zero]

namespace Plan

variable {go : Visits} {id : NodeId} {manner : Manner} {next : Reply → Plan}
  {jobs : List (NodeId × Bindings)} {cx : Context} {height : Nat} {m : Memo}

theorem deed_visit {answer : Answer}
    (h : (go id (manner.scope cx.scope) manner.isFresh height m).answer = answer) :
    (visit id manner next).deed go cx height m =
      ((Deed.count Cost.turn.tally).andThen
        ((go.deed id (manner.scope cx.scope) manner.isFresh height).andThen
          (.following answer fun reply => (next reply).deed go cx height))) m := by
  have hbind := Course.trace_bind (c := go id (manner.scope cx.scope) manner.isFresh height m)
    (a := go.deed id (manner.scope cx.scope) manner.isFresh height) rfl
    fun reply m => (next reply).course go cx height m
  rw [h] at hbind
  exact congrArg (fun x => (x.1, Cost.turn.tally.merge x.2)) hbind

theorem deed_all {answers : List Answer}
    (h : (jobs.map fun job => (go.job (cx.job job.1 job.2)).answer) = answers) :
    (all jobs next).deed go cx height m =
      ((Deed.count Cost.turn.tally).andThen
        ((Deed.count (go.jobsTally cx jobs)).andThen
          (.following (.gather answers) fun reply => (next reply).deed go cx height))) m := by
  have htrace : (Course.all m (jobs.map fun job => go.job (cx.job job.1 job.2))).trace =
      Deed.count (go.jobsTally cx jobs) m := by
    simp only [Course.trace, Course.all, Deed.count, Visits.jobsTally, List.map_map]
    rfl
  have hanswer : (Course.all m (jobs.map fun job => go.job (cx.job job.1 job.2))).answer =
      .gather answers := by
    rw [← h]
    exact congrArg Answer.gather List.map_map
  have hbind := Course.trace_bind htrace fun reply m => (next reply).course go cx height m
  rw [hanswer] at hbind
  exact congrArg (fun x => (x.1, Cost.turn.tally.merge x.2)) hbind

end Plan

/-- **What is known of the visits to some nodes** while it is not yet known of larger
ones: they come to what the nodes are worth, touch no nodes but these, and do the same
under all scopes where a node is worth something untainted. -/
structure Visits.Settled (go : Visits) (g : Graph) (reg : Registry P) (p : NodeId → Prop) :
    Prop where
  answer : ∀ id, p id → ∀ s fresh height m, m.Sound g reg →
    (go id s fresh height m).answer = g.evaluate reg id s
  frame : ∀ id, p id → ∀ s fresh height, (go.deed id s fresh height).Frames g reg p
  like : ∀ id, p id → ∀ s t fresh height height',
    s = t ∨ (g.evaluate reg id s).tainted = false →
      (go.deed id s fresh height).Like g reg p (go.deed id t fresh height')

namespace Visits.Settled

variable {go : Visits} {g : Graph} {reg : Registry P} {p q : NodeId → Prop} {plan : Plan}

theorem on (hgo : go.Settled g reg p) {id : NodeId} (hid : p id) (s : Scope) (fresh : Bool)
    (height : Nat) : (go.deed id s fresh height).On g reg p :=
  ⟨hgo.like id hid s s fresh height height (.inl rfl), hgo.frame id hid s fresh height⟩

/-- The jobs of a plan come to what their nodes are worth. -/
theorem answers (hgo : go.Settled g reg p) {jobs : List (NodeId × Bindings)}
    (hjobs : ∀ job ∈ jobs, p job.1) (cx : Context) :
    (jobs.map fun job => (go.job (cx.job job.1 job.2)).answer) =
      jobs.map fun job => g.evaluate reg job.1 (cx.scope.push job.2) :=
  List.map_congr_left fun job hjob =>
    (hgo.answer _ (hjobs job hjob) _ false 0 .empty Memo.sound_empty).trans
      (g.evaluate_alike reg job.1 (cx.alike_job job.1 job.2))

/-- **A plan does the same in two contexts** if they are one and the same, or if it is
worth something untainted. -/
theorem plan_like (hgo : go.Settled g reg p) (hplan : plan.Within p False) {cx cx' : Context}
    (height height' : Nat)
    (hcx : cx = cx' ∨ (plan.evaluate (g.evaluate reg) cx.scope).tainted = false) :
    (plan.deed go cx height).Like g reg p (plan.deed go cx' height') := by
  -- what is worth something untainted under one scope is worth it under the other
  have hworth : ∀ id s t, s = t ∨ (g.evaluate reg id s).tainted = false →
      g.evaluate reg id t = g.evaluate reg id s := by
    rintro id s t (rfl | h)
    · rfl
    · exact g.evaluate_steady reg id s t h
  induction plan with
  | finish => exact .count rfl
  | visit id manner next ih =>
    obtain ⟨hid, hnext⟩ := hplan
    have hscope : manner.scope cx.scope = manner.scope cx'.scope ∨
        (g.evaluate reg id (manner.scope cx.scope)).tainted = false :=
      hcx.imp (fun h => by rw [h]) fun h => (Answer.untainted_of_bind h).1
    have hvisit := hgo.like id hid _ _ manner.isFresh height height' hscope
    refine Deed.Like.congr (.andThen (.count rfl) (.andThen hvisit
      (.following fun reply hreply => ?_)))
      (fun m hm => Plan.deed_visit (hgo.answer id hid _ _ _ m hm))
      (fun m hm => Plan.deed_visit ((hgo.answer id hid _ _ _ m hm).trans (hworth id _ _ hscope)))
    exact ih reply (hnext reply) (hcx.imp_right (Answer.untainted_of_reply hreply))
  | pause ms next ih =>
    exact Deed.Like.andThen (.count (t := (Cost.turn + Course.pausing ms).tally) rfl) (ih hplan hcx)
  | all jobs next ih =>
    obtain ⟨hids, hnext⟩ := hplan
    have hanswers := hgo.answers hids cx
    have hjob : ∀ job ∈ jobs, (cx.job job.1 job.2).scope = (cx'.job job.1 job.2).scope ∨
        (g.evaluate reg job.1 (cx.job job.1 job.2).scope).tainted = false := by
      refine fun job hjob => hcx.imp (fun h => by rw [h]) fun h => ?_
      rw [g.evaluate_alike reg job.1 (cx.alike_job job.1 job.2)]
      exact Answer.untainted_of_gather (Answer.untainted_of_bind h).1 _ (List.mem_map_of_mem hjob)
    have hanswers' : (jobs.map fun job => (go.job (cx'.job job.1 job.2)).answer) =
        jobs.map fun job => (go.job (cx.job job.1 job.2)).answer := by
      refine List.map_congr_left fun job hmem => ?_
      have hid := hids job hmem
      exact (hgo.answer _ hid _ _ _ _ Memo.sound_empty).trans
        ((hworth _ _ _ (hjob job hmem)).trans (hgo.answer _ hid _ _ _ _ Memo.sound_empty).symm)
    have htally : (go.jobsTally cx jobs).counts = (go.jobsTally cx' jobs).counts := by
      unfold Visits.jobsTally
      rw [Tally.counts_foldl, Tally.counts_foldl, List.map_map, List.map_map]
      refine congrArg (List.foldl _ _) (List.map_congr_left fun job hmem => ?_)
      exact (hgo.like _ (hids job hmem) _ _ false 0 0 (hjob job hmem) _ _ Memo.sound_empty.alike).2
    refine Deed.Like.congr (.andThen (.count rfl) (.andThen (.count htally)
      (.following fun reply hreply => ?_)))
      (fun m _ => Plan.deed_all hanswers) (fun m _ => Plan.deed_all (hanswers'.trans hanswers))
    exact ih reply (hnext reply) (hcx.imp_right (Answer.untainted_of_reply hreply))
  | first => exact hplan.1.elim
  | deadline => exact hplan.1.elim

/-- **A plan touches no nodes but those it may visit.** -/
theorem plan_on (hgo : go.Settled g reg p) (hplan : plan.Within p False) (cx : Context)
    (height : Nat) : (plan.deed go cx height).On g reg p := by
  refine ⟨hgo.plan_like hplan height height (.inl rfl), fun m hm => ?_⟩
  let keeps (m' : Memo) : Prop := m'.Sound g reg ∧ ∀ id, ¬ p id → m'.status id = m.status id
  have hvisits : ∀ id, p id → ∀ s fresh height m', keeps m' → keeps (go id s fresh height m').memo :=
    fun id hid s fresh height m' hm' => ⟨(hgo.on hid s fresh height).sound hm'.1,
      fun other hother => (hgo.frame id hid s fresh height m' hm'.1 other hother).trans
        (hm'.2 other hother)⟩
  have hmemo : keeps (plan.course go cx height m).memo :=
    Plan.course_memo hvisits hplan cx height ⟨hm, fun _ _ => rfl⟩
  exact hmemo.2

/-- **A plan commutes with whatever commutes with the visits** that it makes. -/
theorem plan_commute (hgo : go.Settled g reg p) (hplan : plan.Within p False) (cx : Context)
    (height : Nat) {a : Deed} (ha : a.On g reg q)
    (hcommute : ∀ id, p id → ∀ s fresh height, a.Commute g reg (go.deed id s fresh height)) :
    a.Commute g reg (plan.deed go cx height) := by
  induction plan with
  | finish => exact .count ha _
  | visit id manner next ih =>
    obtain ⟨hid, hnext⟩ := hplan
    have hvisit := hgo.on hid (manner.scope cx.scope) manner.isFresh height
    have hfollowing : (Deed.following (g.evaluate reg id (manner.scope cx.scope))
        fun reply => (next reply).deed go cx height).On g reg p :=
      .following fun reply => hgo.plan_on (hnext reply) cx height
    refine Deed.Commute.congr ?_ ha fun m hm => Plan.deed_visit (hgo.answer id hid _ _ _ m hm)
    refine .andThen (.count _) (hvisit.andThen hfollowing) (.count ha _) ?_
    refine .andThen hvisit hfollowing (hcommute id hid _ _ height) ?_
    exact .following ha (fun reply => hgo.plan_on (hnext reply) cx height)
      fun reply => ih reply (hnext reply)
  | pause ms next ih =>
    have hnext : next.Within p False := hplan
    exact Deed.Commute.andThen (b := .count (Cost.turn + Course.pausing ms).tally) (.count _)
      (hgo.plan_on hnext cx height) (.count ha _) (ih hnext)
  | all jobs next ih =>
    obtain ⟨hids, hnext⟩ := hplan
    have hfollowing : ∀ answer, (Deed.following answer fun reply =>
        (next reply).deed go cx height).On g reg p := fun answer => .following fun reply =>
      hgo.plan_on (hnext reply) cx height
    refine Deed.Commute.congr ?_ ha fun m _ => Plan.deed_all (hgo.answers hids cx)
    refine .andThen (.count _) (.andThen (.count _) (hfollowing _)) (.count ha _) ?_
    refine .andThen (.count _) (hfollowing _) (.count ha _) ?_
    exact .following ha (fun reply => hgo.plan_on (hnext reply) cx height)
      fun reply => ih reply (hnext reply)
  | first => exact hplan.1.elim
  | deadline => exact hplan.1.elim

end Visits.Settled

/-! ## Visits to nodes -/

namespace Graph

variable {g : Graph} {reg : Registry P} {id : NodeId} {s t : Scope} {fresh : Bool} {height : Nat}
  {m : Memo}

theorem deed_absent (h : g.role reg id = .absent) :
    g.deed reg id s fresh height = .count .zero := by
  funext m
  exact congrArg Course.trace (course_absent h)

theorem deed_param {p : ParamId} (h : g.role reg id = .param p) :
    g.deed reg id s fresh height =
      (Deed.record (·.setTainted id)).andThen (.count Tally.zero.countLookup) := by
  funext m
  exact congrArg Course.trace (course_param h)

/-- A node that is refused is kept by no sound memo. -/
theorem deed_refused {error : EvalError} {volatile : Bool}
    (h : g.role reg id = .refused error volatile) (hm : m.Sound g reg) :
    g.deed reg id s fresh height m = Deed.count .zero m := by
  have hnone : (if fresh then none else m.kept? id) = none := by
    split
    · rfl
    · cases hkept : m.kept? id with
      | none => rfl
      | some value =>
        have hworth := hm id value hkept s
        rw [evaluate_refused h] at hworth
        cases hworth
  exact congrArg Course.trace (course_refused h hnone)

/-- A node that is evaluated afresh leaves the memo alone. -/
theorem deed_fresh {plan : Plan} {volatile : Bool} (hg : g.validate = .ok ()) (hr : reg.Native)
    (h : g.role reg id = .planned plan volatile) :
    g.deed reg id s true height = .count
      ((Deed.count (Cost.start height).tally).andThen
        (plan.deed (g.course reg) ⟨id, s⟩ (height + 1)) .empty).2 := by
  funext m
  exact congrArg Course.trace (course_planned hg hr h rfl rfl)

/-- What is done with a frame of its own for a node: its task begins, the plan is
followed, and the node is kept or marked. -/
def frameDeed (g : Graph) (reg : Registry P) (plan : Plan) (id : NodeId) (s : Scope)
    (height : Nat) : Deed :=
  (Deed.count (Cost.start height).tally).andThen
    ((plan.deed (g.course reg) ⟨id, s⟩ (height + 1)).andThen
      (.record (keep id (g.evaluate reg id s))))

/-- **A node that is not kept** gets a frame. -/
theorem deed_planned {plan : Plan} {volatile : Bool} (hg : g.validate = .ok ()) (hr : reg.Native)
    (hu : g.Untimed) (h : g.role reg id = .planned plan volatile) (hm : m.Sound g reg) :
    g.deed reg id s false height m =
      Deed.ifKept id (.count Tally.zero.countHit) (g.frameDeed reg plan id s height) m := by
  have hanswer := (course_of_untimed hg hr hu id s false height hm).1
  unfold Deed.ifKept
  split
  next hkeeps =>
    obtain ⟨value, hvalue⟩ := Option.isSome_iff_exists.1 hkeeps
    have hfound : (if false then none else m.kept? id) = some value := hvalue
    refine congrArg Course.trace (course_kept ?_ ?_ hfound)
    · rw [h]
      nofun
    · rw [h]
      nofun
  next hkeeps =>
    have hnone : (if false then none else m.kept? id) = none := by simpa [Memo.keeps] using hkeeps
    have hcourse : g.course reg id s false height m = _ := course_planned hg hr h hnone rfl
    rw [hcourse] at hanswer
    refine (congrArg Course.trace hcourse).trans ?_
    rw [frameDeed, ← hanswer]
    simp only [Course.trace, Deed.andThen, Deed.count, Deed.record, Plan.deed,
      Cost.tally_add, Tally.merge_zero, Bool.false_eq_true, if_false]

/-- A node that is not pure is kept by no sound memo. -/
theorem deed_of_not_pure {plan : Plan} {volatile : Bool} (hg : g.validate = .ok ())
    (hr : reg.Native) (hu : g.Untimed) (h : g.role reg id = .planned plan volatile)
    (hpure : ¬ g.Pure reg id) (hm : m.Sound g reg) :
    g.deed reg id s false height m = g.frameDeed reg plan id s height m := by
  rw [deed_planned hg hr hu h hm, Deed.ifKept, if_neg]
  intro hkeeps
  obtain ⟨value, hvalue⟩ := Option.isSome_iff_exists.1 hkeeps
  exact hpure fun s => congrArg Answer.tainted (hm id value hvalue s)

/-- Such a node is marked at the end of its frame, if anything is done to it. -/
theorem record_keep_of_not_pure (hpure : ¬ g.Pure reg id) (s : Scope) :
    Deed.record (keep id (g.evaluate reg id s)) = .record (·.setTainted id) ∨
      Deed.record (keep id (g.evaluate reg id s)) = .count .zero := by
  have htainted : (g.evaluate reg id s).tainted = true :=
    Bool.of_not_eq_false fun h => hpure (pure_of_untainted h)
  unfold keep
  rw [htainted]
  cases (g.evaluate reg id s).result with
  | ok value => exact .inl rfl
  | error error => exact .inr rfl

section

variable (hg : g.validate = .ok ()) (hr : reg.Native) (hu : g.Untimed)
include hg hr hu

/-- A plan that is followed for a node visits smaller ones, and none of them for
whether it comes first. -/
theorem within_of_untimed {plan : Plan} {volatile : Bool}
    (h : g.role reg id = .planned plan volatile) : plan.Within (· < id) False :=
  (within_of_role hg hr h).mono (fun _ hchild => hchild) fun htimed => htimed.2 hu

/-- What is done with a frame touches its node and smaller ones only. -/
theorem frameDeed_on (hgo : Visits.Settled (g.course reg) g reg (· < id)) {plan : Plan}
    {volatile : Bool} (hrole : g.role reg id = .planned plan volatile) (s : Scope) (height : Nat) :
    (g.frameDeed reg plan id s height).On g reg (· ≤ id) := by
  have hplan := hgo.plan_on (within_of_untimed hg hr hu hrole) ⟨id, s⟩ (height + 1)
  exact .andThen (.count _) ((hplan.mono fun _ => Nat.le_of_lt).andThen
    ((Deed.On.keep rfl).mono fun _ h => h ▸ Nat.le_refl _))

/-- **A visit touches its node and smaller ones only,** if that is settled for the
smaller ones. -/
theorem on_of_settled (hgo : Visits.Settled (g.course reg) g reg (· < id)) (s : Scope)
    (fresh : Bool) (height : Nat) : (g.deed reg id s fresh height).On g reg (· ≤ id) := by
  have hself : ∀ other : NodeId, other = id → other ≤ id := fun _ h => h ▸ Nat.le_refl _
  cases hrole : g.role reg id with
  | absent =>
    rw [deed_absent hrole]
    exact .count _
  | param p =>
    rw [deed_param hrole]
    exact ((Deed.On.setTainted id).mono hself).andThen (.count _)
  | refused error volatile => exact .congr (.count _) fun m hm => deed_refused hrole hm
  | planned plan volatile =>
    cases fresh with
    | true =>
      rw [deed_fresh hg hr hrole]
      exact .count _
    | false =>
      refine .congr ?_ fun m hm => deed_planned hg hr hu hrole hm
      exact .ifKept (hself id rfl) (.count _) (frameDeed_on hg hr hu hgo hrole s height)

/-- **Visits to one node do the same** under one scope, and under all scopes if it is
worth something untainted; likewise. -/
theorem like_of_settled (hgo : Visits.Settled (g.course reg) g reg (· < id)) {s t : Scope}
    (fresh : Bool) (height height' : Nat) (hst : s = t ∨ (g.evaluate reg id s).tainted = false) :
    (g.deed reg id s fresh height).Like g reg (· ≤ id) (g.deed reg id t fresh height') := by
  have hself : ∀ other : NodeId, other = id → other ≤ id := fun _ h => h ▸ Nat.le_refl _
  have hsmaller : ∀ other : NodeId, other < id → other ≤ id := fun _ => Nat.le_of_lt
  cases hrole : g.role reg id with
  | absent =>
    rw [deed_absent hrole, deed_absent hrole]
    exact .count rfl
  | param p =>
    rw [deed_param hrole, deed_param hrole]
    exact (((Deed.On.setTainted id).mono hself).andThen (.count _)).like
  | refused error volatile =>
    exact .congr (.count rfl) (fun m hm => deed_refused hrole hm) fun m hm => deed_refused hrole hm
  | planned plan volatile =>
    have hwithin := within_of_untimed hg hr hu hrole
    have hcx : (⟨id, s⟩ : Context) = ⟨id, t⟩ ∨
        (plan.evaluate (g.evaluate reg) s).tainted = false := by
      refine hst.imp (fun h => by rw [h]) fun h => ?_
      rw [evaluate_planned hg hr hrole, Answer.tainted_taintedBy, Bool.or_eq_false_iff] at h
      exact h.2
    have hplan := hgo.plan_like hwithin (height + 1) (height' + 1) hcx
    cases fresh with
    | true =>
      rw [deed_fresh hg hr hrole, deed_fresh hg hr hrole]
      have hstart : Deed.Like g reg (· < id) (.count (Cost.start height).tally)
        (.count (Cost.start height').tally) := .count rfl
      exact .count (hstart.andThen hplan _ _ Memo.sound_empty.alike).2
    | false =>
      have hworth : g.evaluate reg id t = g.evaluate reg id s := by
        rcases hst with rfl | h
        · rfl
        · exact g.evaluate_steady reg id s t h
      have hplan' := hplan.mono (hgo.plan_on hwithin _ _).frame (hgo.plan_on hwithin _ _).frame
        hsmaller
      have hkeep : Deed.Like g reg (· ≤ id) (.record (keep id (g.evaluate reg id s)))
          (.record (keep id (g.evaluate reg id t))) := by
        rw [hworth]
        exact ((Deed.On.keep rfl).mono hself).like
      refine .congr ?_ (fun m hm => deed_planned hg hr hu hrole hm)
        fun m hm => deed_planned hg hr hu hrole hm
      exact .ifKept (hself id rfl) (.count rfl) (.andThen (.count rfl) (.andThen hplan' hkeep))

/-- **Visits to smaller nodes are settled,** by induction on the node. -/
theorem settled (id : NodeId) : Visits.Settled (g.course reg) g reg (· < id) := by
  induction hn : id.index using Nat.strongRecOn generalizing id with
  | _ n ih =>
    have hchild : ∀ child, child < id → Visits.Settled (g.course reg) g reg (· < child) :=
      fun child hlt => ih child.index (hn ▸ hlt) child rfl
    have hon := fun child hlt => on_of_settled hg hr hu (hchild child hlt)
    have hmono : ∀ child, child < id → ∀ other : NodeId, other ≤ child → other < id :=
      fun child hlt other hle => Nat.lt_of_le_of_lt hle hlt
    refine ⟨fun child _ s fresh height m hm =>
      (course_of_untimed hg hr hu child s fresh height hm).1, fun child hlt s fresh height =>
      ((hon child hlt s fresh height).mono (hmono child hlt)).frame,
      fun child hlt s t fresh height height' hst => ?_⟩
    exact (like_of_settled hg hr hu (hchild child hlt) fresh height height' hst).mono
      (hon child hlt s fresh height).frame (hon child hlt t fresh height').frame (hmono child hlt)

/-- **A visit touches its node and smaller ones only.** -/
theorem deed_on (id : NodeId) (s : Scope) (fresh : Bool) (height : Nat) :
    (g.deed reg id s fresh height).On g reg (· ≤ id) :=
  on_of_settled hg hr hu (settled hg hr hu id) s fresh height

/-! ## Two visits -/

/-- What commutes with a plan and with what is recorded after it commutes with the
frame. -/
theorem frameDeed_commute {a : Deed} {q : NodeId → Prop} (ha : a.On g reg q) {plan : Plan}
    {volatile : Bool} (hrole : g.role reg id = .planned plan volatile) (s : Scope) (height : Nat)
    (hplan : a.Commute g reg (plan.deed (g.course reg) ⟨id, s⟩ (height + 1)))
    (hkeep : a.Commute g reg (.record (keep id (g.evaluate reg id s)))) :
    a.Commute g reg (g.frameDeed reg plan id s height) := by
  have hon := (settled hg hr hu id).plan_on (within_of_untimed hg hr hu hrole) ⟨id, s⟩ (height + 1)
  have hon' : (plan.deed (g.course reg) ⟨id, s⟩ (height + 1)).On g reg fun _ => True :=
    hon.mono fun _ _ => trivial
  have hrecord : (Deed.record (keep id (g.evaluate reg id s))).On g reg fun _ => True :=
    (Deed.On.keep rfl).mono fun _ _ => trivial
  exact .andThen (.count _) (hon'.andThen hrecord) (.count ha _)
    (.andThen hon' hrecord hplan hkeep)

/-- **What touches smaller nodes only commutes with a visit** if it commutes with the
visits that are made on behalf of that one. -/
theorem deed_commute_of_lt {i : NodeId} (hlt : i < id) {a : Deed} (ha : a.On g reg (· ≤ i))
    (ih : ∀ child, child < id → ∀ s fresh height, a.Commute g reg (g.deed reg child s fresh height))
    (s : Scope) (fresh : Bool) (height : Nat) : a.Commute g reg (g.deed reg id s fresh height) := by
  have hne : ∀ other : NodeId, other ≤ i → ¬ other = id := by
    rintro other hle rfl
    exact Nat.not_lt_of_le hle hlt
  cases hrole : g.role reg id with
  | absent =>
    rw [deed_absent hrole]
    exact .count ha _
  | param p =>
    rw [deed_param hrole]
    exact .of_on ha ((Deed.On.setTainted id).andThen (.count _)) hne
  | refused error volatile => exact .congr (.count ha _) ha fun m hm => deed_refused hrole hm
  | planned plan volatile =>
    cases fresh with
    | true =>
      rw [deed_fresh hg hr hrole]
      exact .count ha _
    | false =>
      refine .congr ?_ ha fun m hm => deed_planned hg hr hu hrole hm
      refine .ifKept ha (Nat.not_le_of_lt hlt) (.count ha _) ?_
      refine frameDeed_commute hg hr hu ha hrole s height ?_ (.of_on ha (.keep rfl) hne)
      exact (settled hg hr hu id).plan_commute (within_of_untimed hg hr hu hrole) _ _ ha ih

/-- **Two frames of a node that is not pure commute** if all visits to smaller nodes do. -/
theorem frameDeed_commute_self {plan : Plan} {volatile : Bool}
    (hrole : g.role reg id = .planned plan volatile) (hpure : ¬ g.Pure reg id)
    (ih : ∀ child, child < id → ∀ child', child' < id → ∀ s t fresh fresh' height height',
      (g.deed reg child s fresh height).Commute g reg (g.deed reg child' t fresh' height'))
    (s t : Scope) (height height' : Nat) :
    (g.frameDeed reg plan id s height).Commute g reg (g.frameDeed reg plan id t height') := by
  have hwithin := within_of_untimed hg hr hu hrole
  have hgo : Visits.Settled (g.course reg) g reg (· < id) := settled hg hr hu id
  have hplan := fun s => hgo.plan_on hwithin ⟨id, s⟩
  have hkeep : ∀ s, (Deed.record (Graph.keep id (g.evaluate reg id s))).On g reg (· = id) :=
    fun s => .keep rfl
  have hne : ∀ other : NodeId, other < id → ¬ other = id := fun other hlt heq =>
    Nat.lt_irrefl _ (heq ▸ hlt)
  have hplans : (plan.deed (g.course reg) ⟨id, t⟩ (height' + 1)).Commute g reg
      (plan.deed (g.course reg) ⟨id, s⟩ (height + 1)) := by
    refine hgo.plan_commute hwithin _ _ (hplan t _) fun child hchild u fresh k => ?_
    refine .symm (hgo.plan_commute hwithin _ _ (hgo.on hchild u fresh k) ?_)
    exact fun child' hchild' v fresh' k' => ih child hchild child' hchild' u v fresh fresh' k k'
  have hmarks : Deed.Commute g reg (.record (keep id (g.evaluate reg id t)))
      (.record (keep id (g.evaluate reg id s))) := by
    rcases record_keep_of_not_pure hpure s with hs | hs
    · rcases record_keep_of_not_pure hpure t with ht | ht
      · rw [hs, ht]
        exact .of_like (Deed.On.setTainted id).everywhere
      · rw [ht]
        exact .symm (.count (hkeep s) _)
    · rw [hs]
      exact .count (hkeep t) _
  refine frameDeed_commute hg hr hu (frameDeed_on hg hr hu hgo hrole s height) hrole t height' ?_ ?_
  · exact .symm (frameDeed_commute hg hr hu (hplan t _) hrole s height hplans
      (.of_on (hplan t _) (hkeep s) hne))
  · exact .symm (frameDeed_commute hg hr hu (hkeep t) hrole s height
      (.symm (.of_on (hplan s _) (hkeep t) hne)) hmarks)

/-- **Two visits to one node commute** if all visits to smaller nodes do. -/
theorem deed_commute_self
    (ih : ∀ child, child < id → ∀ child', child' < id → ∀ s t fresh fresh' height height',
      (g.deed reg child s fresh height).Commute g reg (g.deed reg child' t fresh' height'))
    (s t : Scope) (fresh fresh' : Bool) (height height' : Nat) :
    (g.deed reg id s fresh height).Commute g reg (g.deed reg id t fresh' height') := by
  have hs := deed_on hg hr hu id s
  have ht := deed_on hg hr hu id t
  cases hrole : g.role reg id with
  | absent =>
    rw [deed_absent hrole (s := t)]
    exact .count (hs fresh height) _
  | param p =>
    have heq : g.deed reg id t fresh' height' = g.deed reg id s fresh height := by
      rw [deed_param hrole, deed_param hrole]
    rw [heq]
    exact .of_like (hs fresh height).everywhere
  | refused error volatile =>
    exact .congr (.count (hs fresh height) _) (hs fresh height) fun m hm => deed_refused hrole hm
  | planned plan volatile =>
    cases fresh' with
    | true =>
      rw [deed_fresh hg hr hrole (s := t)]
      exact .count (hs fresh height) _
    | false =>
    cases fresh with
    | true =>
      rw [deed_fresh hg hr hrole (s := s)]
      exact .symm (.count (ht false height') _)
    | false =>
    by_cases hpure : g.Pure reg id
    · -- the second visit finds what the first has kept, whichever is first
      have hlike := like_of_settled hg hr hu (settled hg hr hu id) (t := t) false height height'
        (.inr (hpure s))
      exact .of_like (hlike.mono (hs false height).frame (ht false height').frame fun _ _ => trivial)
    · -- neither visit ever finds the node kept
      have hframe : ∀ s height m, m.Sound g reg →
          g.deed reg id s false height m = g.frameDeed reg _ id s height m :=
        fun s height m hm => deed_of_not_pure hg hr hu hrole hpure hm
      have hgo : Visits.Settled (g.course reg) g reg (· < id) := settled hg hr hu id
      have hframes := frameDeed_commute_self hg hr hu hrole hpure ih s t height height'
      have hleft := hframes.symm.congr (frameDeed_on hg hr hu hgo hrole t height')
        (hframe s height)
      exact hleft.symm.congr (hs false height) (hframe t height')

/-- **It makes no difference in which order two nodes are visited.** -/
theorem deed_commute (i j : NodeId) (s t : Scope) (fresh fresh' : Bool) (height height' : Nat) :
    (g.deed reg i s fresh height).Commute g reg (g.deed reg j t fresh' height') := by
  induction hn : i.index + j.index using Nat.strongRecOn generalizing i j s t fresh fresh' height
    height' with
  | _ n ih =>
    rcases Nat.lt_trichotomy i.index j.index with hlt | heq | hlt
    · refine deed_commute_of_lt hg hr hu hlt (deed_on hg hr hu i s fresh height) ?_ t fresh' height'
      intro child hchild t fresh' height'
      exact ih _ (hn ▸ Nat.add_lt_add_left hchild _) i child s t fresh fresh' height height' rfl
    · obtain rfl : i = j := congrArg NodeId.mk heq
      refine deed_commute_self hg hr hu ?_ s t fresh fresh' height height'
      intro child hchild child' hchild' s t fresh fresh' height height'
      exact ih _ (hn ▸ Nat.add_lt_add hchild hchild') child child' s t fresh fresh' height height' rfl
    · refine .symm (deed_commute_of_lt hg hr hu hlt (deed_on hg hr hu j t fresh' height') ?_ s fresh
        height)
      intro child hchild s fresh height
      exact .symm (ih _ (hn ▸ Nat.add_lt_add_right hchild _) child j s t fresh fresh' height height'
        rfl)

end

end Graph

end ProgramGraph
