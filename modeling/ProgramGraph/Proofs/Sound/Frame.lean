import ProgramGraph.Proofs.Plan.Scope
import ProgramGraph.Proofs.Solo.Basic
import ProgramGraph.Proofs.Sound.Memo
/-!
# What frames keep to

An answer is right if it is what the plain evaluator says under every scope. That is
asked of an answer that is untainted, and of any answer for a pure node, unless the
run was cut off by the limit. A frame that is clean, neither volatile nor marked, is
in the middle of a plan, and what is left of the plan is worth what the node is worth,
again under every scope: what has been answered so far was right and untainted. Of a
frame that is not clean nothing has to be known, for nothing that it comes to will be
kept.

The frame of a pure node is never anything but clean. That it is not marked because
of a limit hangs on a wait for some jobs: the jobs of a wait are alike, so either all
of them are cut off or none is (`Conclusion.Even`).
-/

namespace ProgramGraph

variable {P : Plugins} (E : Engine P)

/-- **The run was cut off** by the limit on its steps. -/
def Answer.Cut (a : Answer) : Prop :=
  ∃ limit, E.limits.maxSteps = some limit ∧ a = ⟨.error (.stepLimitExceeded limit), true⟩

/-- **The answer is right for the node.** -/
def Answer.Right (id : NodeId) (a : Answer) : Prop :=
  a.tainted = false ∨ E.graph.Pure E.registry id →
    a.Cut E ∨ ∀ s, E.graph.evaluate E.registry id s = a

/-- The answer that a conclusion gives. -/
def Conclusion.answer (c : Conclusion) : Answer := ⟨c.result, c.tainted⟩

/-- **The frame keeps to a plan** as long as it is clean. What its task is about
to do is told by `state`. -/
structure Frame.Keeps (frame : Frame P) (state : Plan → Builtin.Task → Prop) : Prop where
  role : (E.graph.role E.registry frame.node).Evaluable
  pure : E.graph.Pure E.registry frame.node → (frame.volatile || frame.tainted) = false
  plan : (frame.volatile || frame.tainted) = false → ∃ plan task,
    frame.task = .builtin task ∧ plan.Within (· < frame.node) False ∧
    (∀ s, E.graph.evaluate E.registry frame.node s =
      plan.evaluate (E.graph.evaluate E.registry) s) ∧ state plan task

/-- The frame is about to be resumed with an input. -/
def Frame.Resumes (frame : Frame P) (input : Input) : Prop :=
  frame.Keeps E fun plan task => plan.Follows frame.node task input

/-- **The frame can take an answer in.** Its plan goes on with the reply, and the
answer is that of something whose worth is known. -/
def Frame.Hears (frame : Frame P) (a : Answer) : Prop :=
  frame.Keeps E fun plan task => ∃ (asked : Scope → Answer) (next : Reply → Plan),
    (a.tainted = false ∨ E.graph.Pure E.registry frame.node → a.Cut E ∨ ∀ s, asked s = a) ∧
    (∀ s, plan.evaluate (E.graph.evaluate E.registry) s =
      (asked s).bind fun reply => (next reply).evaluate (E.graph.evaluate E.registry) s) ∧
    ∀ reply, Reply.ofResult a.result = .ok reply → (next reply).Within (· < frame.node) False ∧
      (next reply).Follows frame.node task reply.toInput

/-- Each conclusion is right for its node. -/
def Conclusion.AllRight : List NodeId → List Conclusion → Prop
  | [], [] => True
  | id :: ids, c :: found => c.answer.Right E id ∧ AllRight ids found
  | _, _ => False

/-- If one of the runs was cut off, all were. -/
def Conclusion.Even (found : List Conclusion) : Prop :=
  (∃ c ∈ found, c.answer.Cut E) → ∀ c ∈ found, c.answer.Cut E

/-- **What comes of the wait is certain:** some time passes, or all of some jobs end
that evaluate one pure node. -/
def Await.Certain : Await → Prop
  | timer _ _ => True
  | all jobs => (∀ job ∈ jobs, E.graph.Pure E.registry job.node) ∧
      ∃ body, ∀ job ∈ jobs, job.node = body
  | _ => False

/-- What can come of a wait. -/
def Await.Fits : Await → Wake → Prop
  | timer _ answer, wake => wake = answer
  | all jobs, wake => ∃ found, Conclusion.AllRight E (jobs.map Job.node) found ∧
      (Await.Certain E (.all jobs) → Conclusion.Even E found) ∧ wake = .settled (.gather found)
  | _, _ => True

/-- **The frame can go on after a wait.** -/
def Frame.Wakes (frame : Frame P) : Wake → Prop
  | .settled c => frame.Hears E c.answer
  | .elapsed => frame.Resumes E .elapsed

/-- **What a frame may do.** What it ends with is right, what it asks for is pure if
its own node is, and whatever right answer it gets it can take in. -/
def Frame.May (frame : Frame P) : Step → Prop
  | .done value => Answer.Right E frame.node ⟨.ok value, frame.volatile || frame.tainted⟩
  | .fail error => Answer.Right E frame.node ⟨.error error, frame.volatile || frame.tainted⟩
  | .request (.await await) => (E.graph.Pure E.registry frame.node → await.Certain E) ∧
      ∀ wake, await.Fits E wake → frame.Wakes E wake
  | .request (.child id) | .request (.under id _) | .request (.fresh id) =>
    (E.graph.Pure E.registry frame.node → E.graph.Pure E.registry id) ∧
      ∀ a : Answer, a.Right E id → frame.Hears E a

/-- **The frames wait for an answer** for a node, each for the one above it; the
lowest answers for the root. A pure frame waits for a pure one. -/
def Frame.Await (root : NodeId) : List (Frame P) → NodeId → Prop
  | [], id => id = root
  | frame :: rest, id => (E.graph.Pure E.registry frame.node → E.graph.Pure E.registry id) ∧
      (∀ a : Answer, a.Right E id → frame.Hears E a) ∧ Frame.Await root rest frame.node

variable {E : Engine P}

namespace Answer

variable {id : NodeId} {a : Answer}

/-- What has been cut off is tainted. -/
theorem Cut.tainted (h : a.Cut E) : a.tainted = true := by
  obtain ⟨limit, -, rfl⟩ := h
  rfl

/-- What has been cut off has not come to a reply. -/
theorem Cut.ofResult_ne (h : a.Cut E) (reply : Reply) : Reply.ofResult a.result ≠ .ok reply := by
  obtain ⟨limit, -, rfl⟩ := h
  exact nofun

/-- An untainted answer that is right is what the node is worth. -/
theorem Right.of_untainted (h : a.Right E id) (ha : a.tainted = false) (s : Scope) :
    E.graph.evaluate E.registry id s = a := by
  rcases h (.inl ha) with hcut | hworth
  · rw [hcut.tainted] at ha
    cases ha
  · exact hworth s

/-- Without a limit nothing is cut off. -/
theorem not_cut_of_unlimited (hlimit : E.limits.maxSteps = none) : ¬ a.Cut E := by
  rintro ⟨limit, hsome, -⟩
  rw [hlimit] at hsome
  cases hsome

end Answer

namespace Frame

variable {frame : Frame P}

/-- Nothing has to be known of a frame that is not clean. -/
theorem keeps_of_dirty (hrole : (E.graph.role E.registry frame.node).Evaluable)
    (hpure : ¬ E.graph.Pure E.registry frame.node) (hd : (frame.volatile || frame.tainted) = true)
    (state : Plan → Builtin.Task → Prop) : frame.Keeps E state where
  role := hrole
  pure h := absurd h hpure
  plan hclean := by
    rw [hd] at hclean
    cases hclean

/-- A frame that is not clean is not that of a pure node. -/
theorem Keeps.not_pure {state : Plan → Builtin.Task → Prop} (h : frame.Keeps E state)
    (hd : (frame.volatile || frame.tainted) = true) : ¬ E.graph.Pure E.registry frame.node := by
  intro hpure
  rw [h.pure hpure] at hd
  cases hd

/-- What the frame of a pure node asks for comes untainted and not as a fatal
error, unless it is cut off. -/
theorem Hears.untainted {a : Answer} (h : frame.Hears E a)
    (hpure : E.graph.Pure E.registry frame.node) :
    a.Cut E ∨ a.tainted = false ∧ ∃ reply, Reply.ofResult a.result = .ok reply := by
  obtain ⟨plan, task, -, -, hworth, asked, next, hasked, hplan, -⟩ := h.plan (h.pure hpure)
  refine (hasked (.inr hpure)).imp_right fun hasked => ?_
  have hnode := hpure .empty
  rw [hworth, hplan, hasked] at hnode
  obtain ⟨ha, reply, hreply, -⟩ := Answer.untainted_of_bind hnode
  exact ⟨ha, reply, hreply⟩

/-- **A frame that takes an answer in** is resumed with the reply. -/
theorem Hears.resumes {a : Answer} (h : frame.Hears E a) {reply : Reply}
    (hreply : Reply.ofResult a.result = .ok reply) :
    Resumes E { frame with tainted := frame.tainted || a.tainted } reply.toInput where
  role := h.role
  pure hpure := by
    rcases h.untainted hpure with hcut | ⟨ha, -⟩
    · exact absurd hreply (hcut.ofResult_ne reply)
    · rw [ha, Bool.or_false]
      exact h.pure hpure
  plan hclean := by
    rw [← Bool.or_assoc, Bool.or_eq_false_iff] at hclean
    obtain ⟨hclean, ha⟩ := hclean
    obtain ⟨plan, task, htask, -, hworth, asked, next, hasked, hplan, hnext⟩ := h.plan hclean
    obtain ⟨hwithin, hfollows⟩ := hnext reply hreply
    refine ⟨next reply, task, htask, hwithin, fun s => ?_, hfollows⟩
    rcases hasked (.inl ha) with hcut | hasked
    · exact absurd hreply (hcut.ofResult_ne reply)
    · rw [hworth, hplan, hasked, Answer.bind_of_reply hreply, ha]
      rfl

/-- A frame that has done a step keeps to its plan if the step is one of it. -/
theorem Keeps.withTask {state state' : Plan → Builtin.Task → Prop} (h : frame.Keeps E state)
    {after : Builtin.Task} {plan : Plan} (hwithin : plan.Within (· < frame.node) False)
    (hworth : ∀ s, E.graph.evaluate E.registry frame.node s =
      plan.evaluate (E.graph.evaluate E.registry) s) (hstate : state' plan after) :
    Keeps E { frame with task := .builtin after } state' where
  role := h.role
  pure := h.pure
  plan _ := ⟨plan, after, rfl, hwithin, hworth, hstate⟩

end Frame

namespace Conclusion

/-- There are as many conclusions as there are nodes. -/
theorem AllRight.length_eq {ids : List NodeId} {found : List Conclusion}
    (h : AllRight E ids found) : found.length = ids.length := by
  induction ids generalizing found with
  | nil =>
    cases found with
    | nil => rfl
    | cons => exact h.elim
  | cons id ids ih =>
    cases found with
    | nil => exact h.elim
    | cons c found => rw [List.length_cons, List.length_cons, ih h.2]

/-- The answer of some conclusions together. -/
theorem answer_gather (found : List Conclusion) :
    (gather found).answer = Answer.gather (found.map answer) := by
  simp only [Answer.gather, gather, answer, List.mapM_map, List.any_map, Function.comp_def]

/-- **Gathered answers are right** if each of them is, and none was cut off. -/
theorem AllRight.gather {jobs : List (NodeId × Bindings)} {found : List Conclusion}
    (hright : AllRight E (jobs.map Prod.fst) found)
    (h : (∀ c ∈ found, c.tainted = false) ∨ ∀ job ∈ jobs, E.graph.Pure E.registry job.1)
    (hcut : ∀ c ∈ found, ¬ c.answer.Cut E) (s : Scope) :
    Answer.gather (jobs.map fun job => E.graph.evaluate E.registry job.1 (s.push job.2)) =
      (Conclusion.gather found).answer := by
  rw [answer_gather]
  congr 1
  induction jobs generalizing found with
  | nil =>
    cases found with
    | nil => rfl
    | cons => exact hright.elim
  | cons job jobs ih =>
    cases found with
    | nil => exact hright.elim
    | cons c found =>
      rw [List.forall_mem_cons, List.forall_mem_cons] at h
      rw [List.forall_mem_cons] at hcut
      have hc := (hright.1 (h.imp And.left And.left)).resolve_left hcut.1
      rw [List.map_cons, List.map_cons, hc, ih hright.2 (h.imp And.right And.right) hcut.2]

/-- **Where all runs were cut off, so was what waits for them.** -/
theorem cut_gather {found : List Conclusion} (hne : found ≠ [])
    (h : ∀ c ∈ found, c.answer.Cut E) : (gather found).answer.Cut E := by
  obtain ⟨c, rest, rfl⟩ := List.exists_cons_of_ne_nil hne
  obtain ⟨limit, hlimit, hc⟩ := h c List.mem_cons_self
  refine ⟨limit, hlimit, ?_⟩
  rw [answer_gather, List.map_cons, hc]
  rfl

end Conclusion

namespace Frame

variable {frame : Frame P}

/-- A frame that is not clean may do anything. -/
theorem may_of_dirty (hrole : (E.graph.role E.registry frame.node).Evaluable)
    (hpure : ¬ E.graph.Pure E.registry frame.node) (hd : (frame.volatile || frame.tainted) = true)
    (step : Step) : frame.May E step := by
  have hears : ∀ a, frame.Hears E a := fun a => keeps_of_dirty hrole hpure hd _
  have right : ∀ result, Answer.Right E frame.node ⟨result, frame.volatile || frame.tainted⟩ := by
    rintro result (h | h)
    · rw [hd] at h
      cases h
    · exact absurd h hpure
  cases step with
  | done value => exact right _
  | fail error => exact right _
  | request request =>
    cases request with
    | await await =>
      refine ⟨fun h => absurd h hpure, fun wake _ => ?_⟩
      cases wake with
      | settled c => exact hears c.answer
      | elapsed => exact keeps_of_dirty hrole hpure hd _
    | _ => exact ⟨fun h => absurd h hpure, fun a _ => hears a⟩

/-- A clean frame whose plan asks for a node. -/
theorem Keeps.may_visit {state : Plan → Builtin.Task → Prop} (h : frame.Keeps E state)
    {id : NodeId} {manner : Manner} {next : Reply → Plan} {after : Builtin.Task}
    (hwithin : (Plan.visit id manner next).Within (· < frame.node) False)
    (hworth : ∀ s, E.graph.evaluate E.registry frame.node s =
      (Plan.visit id manner next).evaluate (E.graph.evaluate E.registry) s)
    (hfollows : ∀ reply, (next reply).Follows frame.node after reply.toInput) :
    May E { frame with task := .builtin after } (manner.step id) := by
  have hpure : E.graph.Pure E.registry frame.node → E.graph.Pure E.registry id := by
    intro hpure
    have hnode := hpure .empty
    rw [hworth] at hnode
    exact Graph.pure_of_untainted (Answer.untainted_of_bind hnode).1
  have hears : ∀ a : Answer, a.Right E id → Hears E { frame with task := .builtin after } a :=
    fun a ha => h.withTask hwithin hworth
      ⟨fun s => E.graph.evaluate E.registry id (manner.scope s), next,
        fun hnode => (ha (hnode.imp_right hpure)).imp_right fun hworth s => hworth _,
        fun s => rfl, fun reply _ => ⟨hwithin.2 reply, hfollows reply⟩⟩
  cases manner <;> exact ⟨hpure, hears⟩

/-- A clean frame whose plan waits for some jobs. -/
theorem Keeps.may_all {state : Plan → Builtin.Task → Prop} (h : frame.Keeps E state)
    {jobs : List (NodeId × Bindings)} {next : Reply → Plan} {after : Builtin.Task} {scope : Scope}
    (hwithin : (Plan.all jobs next).Within (· < frame.node) False)
    (hworth : ∀ s, E.graph.evaluate E.registry frame.node s =
      (Plan.all jobs next).evaluate (E.graph.evaluate E.registry) s)
    (heven : Step.Even
      (.wait (.all (jobs.map fun job => Context.job ⟨frame.node, scope⟩ job.1 job.2))))
    (hfollowsError : ∀ value, (next (.error value)).Follows frame.node after (.error value))
    (hfollowsValues : ∀ values, values.length = jobs.length →
      (next (.ok (.array values))).Follows frame.node after (.value (.array values))) :
    May E { frame with task := .builtin after }
      (.wait (.all (jobs.map fun job => Context.job ⟨frame.node, scope⟩ job.1 job.2))) := by
  have hpure : E.graph.Pure E.registry frame.node → ∀ job ∈ jobs, E.graph.Pure E.registry job.1 := by
    intro hpure job hjob
    have hnode := hpure .empty
    rw [hworth] at hnode
    have hgather := (Answer.untainted_of_bind hnode).1
    exact Graph.pure_of_untainted (Answer.untainted_of_gather hgather _ (List.mem_map_of_mem hjob))
  have hcertain : E.graph.Pure E.registry frame.node →
      Await.Certain E (.all (jobs.map fun job => Context.job ⟨frame.node, scope⟩ job.1 job.2)) := by
    refine fun hnode => ⟨fun job hjob => ?_, heven⟩
    obtain ⟨pair, hpair, rfl⟩ := List.mem_map.1 hjob
    exact hpure hnode pair hpair
  refine ⟨hcertain, ?_⟩
  rintro wake ⟨found, hright, hcut, rfl⟩
  rw [List.map_map] at hright
  have hright' : Conclusion.AllRight E (jobs.map Prod.fst) found := hright
  let asked (s : Scope) : Answer :=
    .gather (jobs.map fun job => E.graph.evaluate E.registry job.1 (s.push job.2))
  refine h.withTask hwithin hworth ⟨asked, next, fun hclean => ?_, fun s => rfl,
    fun reply hreply => ⟨hwithin.2 reply, ?_⟩⟩
  · rcases hclean with hclean | hnode
    · have huntainted : ∀ c ∈ found, c.tainted = false := fun c hc => by
        simpa using List.any_eq_false.1 hclean c hc
      refine .inr (hright'.gather (.inl huntainted) fun c hc hcut => ?_)
      have htainted : c.tainted = true := hcut.tainted
      rw [huntainted c hc] at htainted
      cases htainted
    · by_cases hany : ∃ c ∈ found, c.answer.Cut E
      · obtain ⟨c, hc, -⟩ := id hany
        exact .inl (Conclusion.cut_gather (List.ne_nil_of_mem hc) (hcut (hcertain hnode) hany))
      · exact .inr (hright'.gather (.inr (hpure hnode)) fun c hc hcut => hany ⟨c, hc, hcut⟩)
  · rcases Reply.of_mapM hreply with ⟨value, rfl⟩ | ⟨values, hvalues, rfl⟩
    · exact hfollowsError value
    · refine hfollowsValues values (hvalues.trans ?_)
      rw [hright'.length_eq, List.length_map]

/-- **A frame that is resumed does what it may.** -/
theorem Resumes.may {input : Input} (h : frame.Resumes E input) {scope : Scope}
    {shared shared' : P.Shared} {step : Step} {after : Task P}
    (hstep : frame.task.resume ⟨frame.node, scope⟩ input shared = ((step, after), shared')) :
    May E { frame with task := after } step := by
  cases hd : frame.volatile || frame.tainted with
  | true =>
    refine may_of_dirty ?_ ?_ ?_ step
    · exact h.role
    · exact h.not_pure hd
    · exact hd
  | false =>
    -- a clean frame does the next thing on its plan
    obtain ⟨plan, task, htask, hwithin, hworth, hfollows⟩ := h.plan hd
    obtain ⟨task', hresume, rfl⟩ : ∃ task', task.resume ⟨frame.node, scope⟩ input = (step, task') ∧
        after = .builtin task' := by
      rw [htask] at hstep
      cases hstep
      exact ⟨_, rfl, rfl⟩
    have heven : step.Even := by
      have := task.resume_even ⟨frame.node, scope⟩ input
      rwa [hresume] at this
    cases plan with
    | finish result =>
      have hstep : step = .ofResult result := by
        have := hfollows scope
        rwa [hresume] at this
      have hright : Answer.Right E frame.node ⟨result, false⟩ := fun _ => .inr fun s => hworth s
      rw [← hd] at hright
      subst hstep
      cases result <;> exact hright
    | visit id manner next =>
      obtain ⟨task'', hstep, hnext⟩ := hfollows scope
      rw [hresume] at hstep
      cases hstep
      exact h.may_visit hwithin hworth hnext
    | pause ms next =>
      obtain ⟨task'', hstep, hnext⟩ := hfollows scope
      rw [hresume] at hstep
      cases hstep
      have hwithin' : next.Within (· < frame.node) False := hwithin
      refine ⟨fun _ => trivial, ?_⟩
      rintro wake rfl
      exact h.withTask hwithin' hworth hnext
    | all jobs next =>
      obtain ⟨task'', hstep, hnextError, hnextValues⟩ := hfollows scope
      rw [hresume] at hstep
      cases hstep
      exact h.may_all hwithin hworth heven hnextError hnextValues
    -- a clean frame is not volatile, so its plan does not ask which comes first
    | first id others next => exact hwithin.1.elim
    | deadline ms id next late => exact hwithin.1.elim

/-- **If the root is pure, so is what the frames wait for.** -/
theorem Await.pure {root id : NodeId} {frames : List (Frame P)} (h : Frame.Await E root frames id)
    (hroot : E.graph.Pure E.registry root) : E.graph.Pure E.registry id := by
  induction frames generalizing id with
  | nil =>
    obtain rfl : id = root := h
    exact hroot
  | cons frame rest ih => exact h.1 (ih h.2.2)

end Frame

end ProgramGraph
