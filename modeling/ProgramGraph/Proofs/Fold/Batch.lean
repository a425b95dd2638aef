import Mathlib.Algebra.Ring.Nat
import Mathlib.Data.List.Forall2
import ProgramGraph.Graph.Families
import ProgramGraph.Proofs.Transcript.Discourse
/-!
# Batches

A map that runs its body for several items at once takes the items of its collection a batch
at a time, and no batch is started before all of the one before it has succeeded. The batches
are pieces of the collection, one after the other (`Batch.Series`); how long each takes is
told by the longest of its evaluations. `Run.Maps` says at every point of a run how far a map
has got, and what it comes to in the end.
-/

namespace ProgramGraph

variable {P : Plugins}

/-! ## How long jobs take -/

/-- The latest of some times that are counted from now. -/
theorem foldl_max_add (now bound : Nat) (delays : List Nat) :
    (delays.map (now + ·)).foldl max (now + bound) = now + delays.foldl max bound := by
  induction delays generalizing bound with
  | nil => rfl
  | cons delay delays ih =>
    have hmax : max (now + bound) (now + delay) = now + max bound delay := by omega
    rw [List.map_cons, List.foldl_cons, List.foldl_cons, hmax, ih]

/-- When jobs end is told by how long they take. -/
theorem Job.exists_durations {E : Engine P} {asked : List Job} {now : Nat}
    {ends : List (Conclusion × Nat)}
    (h : List.Forall₂ (fun job ended => Job.Lasts E job now ended.1 ended.2) asked ends) :
    ∃ found : List (Conclusion × Nat),
      List.Forall₂ (fun job found => Job.Lasts E job now found.1 (now + found.2)) asked found ∧
      ends.map Prod.fst = found.map Prod.fst ∧
      ends.map Prod.snd = (found.map Prod.snd).map (now + ·) := by
  induction h with
  | nil => exact ⟨[], .nil, rfl, rfl⟩
  | @cons job ended jobs ends hlasts _ ih =>
    obtain ⟨found, hfound, hfst, hsnd⟩ := ih
    have hlate : now + (ended.2 - now) = ended.2 := Nat.add_sub_cancel' hlasts.le
    refine ⟨(ended.1, ended.2 - now) :: found, .cons (hlate.symm ▸ hlasts) hfound, ?_, ?_⟩
    · rw [List.map_cons, List.map_cons, hfst]
    · rw [List.map_cons, List.map_cons, List.map_cons, hsnd, hlate]

/-- **What comes of a wait for some jobs,** by how long each of them takes. -/
theorem Await.Takes.of_all {E : Engine P} {asked : List Job} {now time : Nat} {wake : Wake}
    (h : (Await.all asked).Takes (Job.Lasts E) now wake time) :
    ∃ found : List (Conclusion × Nat),
      List.Forall₂ (fun job found => Job.Lasts E job now found.1 (now + found.2)) asked found ∧
      wake = .settled (.gather (found.map Prod.fst)) ∧
        time = now + (found.map Prod.snd).foldl max 0 := by
  obtain ⟨ends, hends, rfl, rfl⟩ := h
  obtain ⟨found, hfound, hfst, hsnd⟩ := Job.exists_durations hends
  exact ⟨found, hfound, by rw [hfst], by rw [hsnd]; exact foldl_max_add now 0 _⟩

/-! ## Batches -/

/-- A batch of items, and what has come of each of them, with how long it has taken. -/
structure Batch where
  items : List Value
  found : List (Conclusion × Nat)

namespace Batch

/-- The evaluations that are started for some items: of the body, with its parameter bound. -/
def jobs (cx : Context) (lambda : Lambda) (items : List Value) : List Job :=
  items.map fun item => cx.job lambda.body [(lambda.param, item)]

/-- How long the batch takes: as long as the longest of its evaluations. -/
def longest (batch : Batch) : Nat := (batch.found.map Prod.snd).foldl max 0

/-- How long some batches take, one after the other. -/
def total (batches : List Batch) : Nat := (batches.map longest).sum

/-- All of its evaluations have a value. -/
def Succeeds (batch : Batch) : Prop := ∀ ended ∈ batch.found, ∃ value, ended.1.result = .ok value

/-- **The first of its evaluations that does not succeed** ends with the error. -/
def FailsWith (batch : Batch) (error : EvalError) : Prop :=
  ∃ before ended after, batch.found = before ++ ended :: after ∧
    (∀ earlier ∈ before, ∃ value, earlier.1.result = .ok value) ∧ ended.1.result = .error error

/-- Whether something in it is tainted. -/
def tainted (batch : Batch) : Bool := batch.found.any (·.1.tainted)

/-- What a map says of its batches: all evaluations of a batch are waited for at once. -/
def dialogue (cx : Context) (lambda : Lambda) (now : Nat) : List Batch → List (Nat × Utterance)
  | [] => []
  | batch :: rest =>
    (now, .asks cx.scope (.await (.all (jobs cx lambda batch.items)))) ::
      (now + batch.longest, .wakes (.settled (.gather (batch.found.map Prod.fst)))) ::
      dialogue cx lambda (now + batch.longest) rest

/-- **Batches of some size are taken off a collection,** one after the other from some time
on, and each takes what its evaluations take. The last argument is what is left. -/
inductive Series (E : Engine P) (cx : Context) (lambda : Lambda) (size : Nat) :
    List Value → Nat → List Batch → List Value → Prop
  | nil (left : List Value) (now : Nat) : Series E cx lambda size left now [] left
  | cons {left rest : List Value} {now : Nat} {batch : Batch} {batches : List Batch} : left ≠ [] →
    batch.items = left.take size →
    List.Forall₂ (fun job found => Job.Lasts E job now found.1 (now + found.2))
      (jobs cx lambda batch.items) batch.found →
    Series E cx lambda size (left.drop size) (now + batch.longest) batches rest →
    Series E cx lambda size left now (batch :: batches) rest

/-- The body has the value for the item. -/
def Worth (E : Engine P) (cx : Context) (lambda : Lambda) (item value : Value) : Prop :=
  ∃ begun c lasting,
    Job.Lasts E (cx.job lambda.body [(lambda.param, item)]) begun c (begun + lasting) ∧
    c.result = .ok value

/-- **How far a map has got** after some batches, when something of its collection is left:
what else is said, and what has become of the run. -/
inductive Standing (E : Engine P) (n : Nat) (cx : Context) (lambda : Lambda) (size : Nat)
    (items kept : List Value) (batches : List Batch) (left : List Value) (now : Nat)
    (tainted : Bool) :
    List (Nat × Utterance) → Next P → Prop
  /-- All has gone well so far. -/
  | between {y : Next P} : (∀ batch ∈ batches, batch.Succeeds) → y.Open n →
    Standing E n cx lambda size items kept batches left now tainted [] y
  /-- The next batch has been started. -/
  | started {y : Next P} : (∀ batch ∈ batches, batch.Succeeds) → left ≠ [] → y.Open n →
    Standing E n cx lambda size items kept batches left now tainted
      [(now, .asks cx.scope (.await (.all (jobs cx lambda (left.take size)))))] y
  /-- Nothing is left, and the map ends with the values of all evaluations in order, so with
  those of all items. -/
  | done {values : List Value} {y : Next P} : (∀ batch ∈ batches, batch.Succeeds) → left = [] →
    List.Forall₂ (fun ended value => ended.1.result = .ok value)
      (batches.flatMap Batch.found) values →
    List.Forall₂ (Worth E cx lambda) items values → y.run.frames.size < n →
    Standing E n cx lambda size items kept batches left now tainted
      [(now, .ends ⟨.ok (.array (kept ++ values)), tainted⟩)] y
  /-- The last batch has not succeeded. If the error is fatal the run is over. -/
  | troubled {earlier : List Batch} {batch : Batch} {error : EvalError} {y : Next P} :
    batches = earlier ++ [batch] → (∀ batch ∈ earlier, batch.Succeeds) → batch.FailsWith error →
    (error.isInterceptable = false → y.Stopped) → y.Open n →
    Standing E n cx lambda size items kept batches left now tainted [] y
  /-- The map ends with the first error. -/
  | failed {earlier : List Batch} {batch : Batch} {value : Value} {y : Next P} :
    batches = earlier ++ [batch] → (∀ batch ∈ earlier, batch.Succeeds) →
    batch.FailsWith (.failed value) →
    y.run.frames.size < n →
    Standing E n cx lambda size items kept batches left now tainted
      [(now, .ends ⟨.error (.failed value), tainted⟩)] y

variable {E : Engine P} {n : Nat} {cx : Context} {lambda : Lambda} {size : Nat}
  {items kept left rest values : List Value} {batch : Batch} {batches : List Batch} {now : Nat}
    {tainted : Bool}
  {tail : List (Nat × Utterance)} {y : Next P}

/-- All values of a batch are those of the body. -/
theorem forall₂_worth
    (hfound : List.Forall₂ (fun job found => Job.Lasts E job now found.1 (now + found.2))
      (jobs cx lambda items) batch.found)
    (hvalues : List.Forall₂ (fun ended value => ended.1.result = .ok value) batch.found values) :
    List.Forall₂ (Worth E cx lambda) items values := by
  obtain ⟨_, found⟩ := batch
  induction items generalizing found values with
  | nil =>
    cases hfound
    cases hvalues
    exact .nil
  | cons item items ih =>
    cases hfound with
    | cons hlasts hfound =>
      cases hvalues with
      | cons hvalue hvalues => exact .cons ⟨_, _, _, hlasts, hvalue⟩ (ih _ hfound hvalues)

/-- Values of all evaluations. -/
theorem succeeds_of_forall₂ {found : List (Conclusion × Nat)}
    (h : List.Forall₂ (fun ended value => ended.1.result = .ok value) found values) :
    ∀ ended ∈ found, ∃ value, ended.1.result = .ok value := by
  induction h with
  | nil => exact nofun
  | cons hvalue _ ih => exact List.forall_mem_cons.2 ⟨⟨_, hvalue⟩, ih⟩

/-- One more batch has come first, and has succeeded. -/
theorem Standing.cons
    (h : Standing E n cx lambda size (items.drop size) (kept ++ values) batches left now tainted
      tail y)
    (hvalues : List.Forall₂ (fun ended value => ended.1.result = .ok value) batch.found values)
    (hworth : List.Forall₂ (Worth E cx lambda) (items.take size) values) :
    Standing E n cx lambda size items kept (batch :: batches) left now tainted tail y := by
  have hcons : ∀ {earlier : List Batch}, (∀ batch ∈ earlier, batch.Succeeds) →
      ∀ other ∈ batch :: earlier, other.Succeeds :=
    fun hearlier => List.forall_mem_cons.2 ⟨succeeds_of_forall₂ hvalues, hearlier⟩
  cases h with
  | between hall hopen => exact .between (hcons hall) hopen
  | started hall hleft hopen => exact .started (hcons hall) hleft hopen
  | @done values' _ hall hleft hresults hrest hgone =>
    rw [List.append_assoc]
    refine .done (hcons hall) hleft ?_ ?_ hgone
    · rw [List.flatMap_cons]
      exact List.rel_append hvalues hresults
    · rw [← List.take_append_drop size items]
      exact List.rel_append hworth hrest
  | troubled heq hearlier hfails hfatal hopen =>
    exact .troubled (congrArg (batch :: ·) heq) (hcons hearlier) hfails hfatal hopen
  | failed heq hearlier hfails hgone =>
    exact .failed (congrArg (batch :: ·) heq) (hcons hearlier) hfails hgone

/-- **A batch comes to all its values,** or to the first error in it. -/
theorem result_gather (batch : Batch) :
    (∃ values, List.Forall₂ (fun ended value => ended.1.result = .ok value) batch.found values ∧
      (Conclusion.gather (batch.found.map Prod.fst)).result = .ok (.array values)) ∨
    ∃ error, batch.FailsWith error ∧
      (Conclusion.gather (batch.found.map Prod.fst)).result = .error error := by
  have hgather : (Conclusion.gather (batch.found.map Prod.fst)).result =
      (batch.found.mapM fun ended : Conclusion × Nat => ended.1.result).map .array := by
    rw [Conclusion.gather, List.mapM_map]
    rfl
  rw [hgather]
  rcases forall₂_or_exists_of_mapM (fun ended : Conclusion × Nat => ended.1.result) batch.found with
    ⟨values, hvalues, hall⟩ | ⟨before, ended, after, error, hfound, hbefore, hended, herror⟩
  · exact .inl ⟨values, hall, by rw [hvalues]; rfl⟩
  · exact .inr ⟨error, ⟨before, ended, after, hfound, hbefore, hended⟩, by rw [herror]; rfl⟩

theorem tainted_gather (batch : Batch) :
    (Conclusion.gather (batch.found.map Prod.fst)).tainted = batch.tainted := by
  rw [Conclusion.gather, List.any_map]
  rfl

/-- The jobs that a map asks for. -/
theorem map_jobsOf (cx : Context) (lambda : Lambda) (items : List Value) :
    ((Plan.jobsOf lambda items).map fun job => cx.job job.1 job.2) = jobs cx lambda items := by
  rw [Plan.jobsOf, List.map_map]
  rfl

end Batch

/-- What comes of a wait for all of some jobs. -/
theorem Request.Exchange.of_all {E : Engine P} {n : Nat} {base : Scope} {now later : Nat}
    {asked : List Job} {sub : Transcript} {u : Utterance}
    (h : (Request.await (.all asked)).Exchange E n base now sub u later) :
    ∃ found : List (Conclusion × Nat),
      List.Forall₂ (fun job found => Job.Lasts E job now found.1 (now + found.2)) asked found ∧
      sub = [] ∧ u = .wakes (.settled (.gather (found.map Prod.fst))) ∧
      later = now + (found.map Prod.snd).foldl max 0 := by
  obtain ⟨wake, rfl, rfl, htakes⟩ := h.of_await
  obtain ⟨found, hfound, rfl, rfl⟩ := htakes.of_all
  exact ⟨found, hfound, rfl, rfl, rfl⟩

namespace Batch

variable {E : Engine P} {n : Nat} {node : NodeId} {volatile : Bool} {base : Scope} {lambda : Lambda}
  {size : Nat} {left kept : List Value} {now : Nat} {tainted : Bool} {log : Transcript} {y : Next P}

/-- **What a map says from some batch on,** with what is left and what is kept of those before,
and how far it has got. -/
def Runs (E : Engine P) (n : Nat) (cx : Context) (volatile : Bool) (lambda : Lambda) (size : Nat)
    (left kept : List Value) (now : Nat) (tainted : Bool) (said : List (Nat × Utterance))
    (y : Next P) : Prop :=
  ∃ batches rest tail, Series E cx lambda size left now batches rest ∧
    said = dialogue cx lambda now batches ++ tail ∧
    Standing E n cx lambda size left kept batches rest (now + total batches)
      (volatile || (tainted || batches.any Batch.tainted)) tail y

/-- When nothing is left it ends. -/
theorem runs_nil (hn : 0 < n)
    (h : (Plan.finish (.ok (.array kept))).Speaks E n node volatile base now tainted log y) :
    Runs E n ⟨node, base⟩ volatile lambda size [] kept now tainted (log.at n) y := by
  rcases h.of_finish hn with ⟨hsaid, hopen⟩ | ⟨hsaid, hgone⟩
  · exact ⟨[], [], [], .nil _ _, hsaid, .between nofun hopen⟩
  · have hdone : Standing E n ⟨node, base⟩ lambda size [] kept [] [] now (volatile || tainted)
        [(now, .ends ⟨.ok (.array (kept ++ [])), volatile || tainted⟩)] y :=
          .done nofun rfl .nil .nil hgone
    rw [List.append_nil] at hdone
    exact ⟨[], [], _, .nil _ _, hsaid, by simpa [total] using hdone⟩

/-- After a batch with a failure it ends, too. -/
theorem runs_failure (hn : 0 < n) {batch : Batch} {value : Value}
    (h : (Plan.failure value).Speaks E n node volatile base (now + batch.longest)
      (tainted || batch.tainted) log y)
    (hleft : left ≠ []) (hitems : batch.items = left.take size)
    (hfound : List.Forall₂ (fun job found => Job.Lasts E job now found.1 (now + found.2))
      (jobs ⟨node, base⟩ lambda batch.items) batch.found)
    (hfails : batch.FailsWith (.failed value)) :
    Runs E n ⟨node, base⟩ volatile lambda size left kept now tainted
      ((now, .asks base (.await (.all (jobs ⟨node, base⟩ lambda batch.items)))) ::
        (now + batch.longest, .wakes (.settled (.gather (batch.found.map Prod.fst)))) ::
          log.at n) y := by
  have hsingle : [batch] = [] ++ [batch] := rfl
  have htotal : now + total [batch] = now + batch.longest := rfl
  have htainted : (tainted || [batch].any Batch.tainted) = (tainted || batch.tainted) := by
    rw [List.any_cons, List.any_nil, Bool.or_false]
  refine ⟨[batch], _, log.at n, .cons hleft hitems hfound (.nil _ _), rfl, ?_⟩
  rw [htotal, htainted]
  rcases h.of_finish hn with ⟨hsaid, hopen⟩ | ⟨hsaid, hgone⟩
  · rw [hsaid]
    exact .troubled hsingle nofun hfails nofun hopen
  · rw [hsaid]
    exact .failed hsingle nofun hfails hgone

/-- One more batch has come first, and has succeeded. -/
theorem Runs.cons {batch : Batch} {values : List Value} {said : List (Nat × Utterance)}
    (h : Runs E n ⟨node, base⟩ volatile lambda size (left.drop size) (kept ++ values)
      (now + batch.longest)
      (tainted || batch.tainted) said y) (hleft : left ≠ []) (hitems : batch.items = left.take size)
    (hfound : List.Forall₂ (fun job found => Job.Lasts E job now found.1 (now + found.2))
      (jobs ⟨node, base⟩ lambda batch.items) batch.found)
    (hvalues : List.Forall₂ (fun ended value => ended.1.result = .ok value) batch.found values) :
    Runs E n ⟨node, base⟩ volatile lambda size left kept now tainted
      ((now, .asks base (.await (.all (jobs ⟨node, base⟩ lambda batch.items)))) ::
        (now + batch.longest, .wakes (.settled (.gather (batch.found.map Prod.fst)))) ::
          said) y := by
  obtain ⟨batches, rest, tail, hseries, hsaid, hstanding⟩ := h
  have htotal : now + total (batch :: batches) = now + batch.longest + total batches := by
    rw [total, total, List.map_cons, List.sum_cons, Nat.add_assoc]
  have htainted : (tainted || (batch :: batches).any Batch.tainted) =
      (tainted || batch.tainted || batches.any Batch.tainted) := by
    rw [List.any_cons, Bool.or_assoc]
  refine ⟨batch :: batches, rest, tail, .cons hleft hitems hfound hseries, by rw [hsaid]; rfl, ?_⟩
  rw [htotal, htainted]
  exact hstanding.cons hvalues (hitems ▸ forall₂_worth hfound hvalues)

/-- **What becomes of a batch** that is asked for: nothing so far, or all its values, or the
first error in it. -/
theorem cases_of_speaks {items : List Value} {next : Reply → Plan}
    (h : (Plan.all (Plan.jobsOf lambda items) next).Speaks E n node volatile base now tainted
      log y) :
    log.at n = [] ∧ y.Open n ∨
    log.at n = [(now, .asks base (.await (.all (jobs ⟨node, base⟩ lambda items))))] ∧ y.Open n ∨
    ∃ (batch : Batch) (after : Transcript), batch.items = items ∧
      List.Forall₂ (fun job found => Job.Lasts E job now found.1 (now + found.2))
        (jobs ⟨node, base⟩ lambda items) batch.found ∧
      log.at n = dialogue ⟨node, base⟩ lambda now [batch] ++ after.at n ∧
      ((∃ error, batch.FailsWith error) ∧ after = [] ∧ y.Stopped ∨
        (∃ values, List.Forall₂ (fun ended value => ended.1.result = .ok value) batch.found values ∧
          (next (.ok (.array values))).Speaks E n node volatile base (now + batch.longest)
            (tainted || batch.tainted) after y) ∨
        ∃ value, batch.FailsWith (.failed value) ∧
          (next (.error value)).Speaks E n node volatile base (now + batch.longest)
            (tainted || batch.tainted) after y) := by
  have hjobs := map_jobsOf ⟨node, base⟩ lambda items
  cases h with
  | silent hopen => exact .inl ⟨rfl, hopen⟩
  | asks hrequest hhigher hopen =>
    obtain rfl := Option.some.inj hrequest
    refine .inr (.inl ⟨?_, hopen⟩)
    rw [Transcript.at_cons_self, Transcript.at_of_lt hhigher, hjobs]
  | stops hrequest hexchange hfatal hstopped =>
    obtain rfl := Option.some.inj hrequest
    rw [hexchange.at_append, hjobs]
    rw [hjobs] at hexchange
    obtain ⟨found, hfound, -, rfl, rfl⟩ := hexchange.of_all
    let batch : Batch := ⟨items, found⟩
    refine .inr (.inr ⟨batch, [], rfl, hfound, rfl, .inl ⟨?_, rfl, hstopped⟩⟩)
    obtain ⟨error, herror, -⟩ := hfatal
    rcases batch.result_gather with ⟨values, -, hok⟩ | ⟨error', hfails, -⟩
    · cases (Option.some.inj herror).symm.trans hok
    · exact ⟨error', hfails⟩
  | @hears _ _ _ _ _ _ _ after _ _ hrequest hexchange hgoes hafter =>
    obtain rfl := Option.some.inj hrequest
    rw [hexchange.at_append, hjobs]
    rw [hjobs] at hexchange
    obtain ⟨found, hfound, -, rfl, rfl⟩ := hexchange.of_all
    let batch : Batch := ⟨items, found⟩
    have htainted : (Utterance.wakes (.settled (.gather (found.map Prod.fst)))).tainted =
      batch.tainted := batch.tainted_gather
    rw [htainted] at hafter
    refine .inr (.inr ⟨batch, after, rfl, hfound, rfl, .inr ?_⟩)
    cases hgoes with
    | all hreply =>
      rcases batch.result_gather with ⟨values, hvalues, hok⟩ | ⟨error, hfails, herror⟩
      · rw [hok] at hreply
        cases hreply
        exact .inl ⟨values, hvalues, hafter⟩
      · rw [herror] at hreply
        cases error <;> cases hreply
        exact .inr ⟨_, hfails, hafter⟩

/-- **A map takes a batch after the other.** -/
theorem runs_of_speaks (hn : 0 < n) (hsize : 0 < size) (bound : Nat) (hbound : left.length ≤ bound)
    (h : (Plan.mapBatches lambda size left kept).Speaks E n node volatile base now tainted log y) :
    Runs E n ⟨node, base⟩ volatile lambda size left kept now tainted (log.at n) y := by
  -- on a bound for what is left, as a batch takes several items at once
  induction bound generalizing left kept now tainted log with
  | zero =>
    obtain rfl := List.length_eq_zero_iff.1 (Nat.le_zero.1 hbound)
    rw [Plan.mapBatches] at h
    exact runs_nil hn h
  | succ bound ih =>
    cases left with
    | nil =>
      rw [Plan.mapBatches] at h
      exact runs_nil hn h
    | cons item rest =>
      have hdrop : rest.drop (size - 1) = (item :: rest).drop size := by
        obtain ⟨more, rfl⟩ := Nat.exists_eq_add_of_le' hsize
        rfl
      have hnone : item :: rest ≠ [] := List.cons_ne_nil _ _
      rw [Plan.mapBatches, hdrop] at h
      rcases cases_of_speaks h with ⟨hsaid, hopen⟩ | ⟨hsaid, hopen⟩ |
        ⟨batch, after, hitems, hfound, hsaid, hend⟩
      · exact ⟨[], _, [], .nil _ _, hsaid, .between (List.forall_mem_nil _) hopen⟩
      · exact ⟨[], _, _, .nil _ _, hsaid, .started (List.forall_mem_nil _) hnone hopen⟩
      · rw [hsaid]
        rw [← hitems] at hfound
        rcases hend with ⟨⟨error, hfails⟩, rfl, hstopped⟩ | ⟨values, hvalues, hafter⟩ |
          ⟨value, hfails, hafter⟩
        · have hsingle : [batch] = [] ++ [batch] := rfl
          exact ⟨[batch], _, [], .cons hnone hitems hfound (.nil _ _), rfl, .troubled hsingle
            (List.forall_mem_nil _) hfails (fun _ => hstopped) (.inr hstopped)⟩
        · refine Runs.cons (ih ?_ hafter) hnone hitems hfound hvalues
          simp only [List.length_drop, List.length_cons] at hbound ⊢
          omega
        · exact runs_failure hn hafter hnone hitems hfound hfails

/-! ## Which batches there are -/

variable {cx : Context} {rest : List Value} {batches : List Batch}

/-- What is left comes after all batches. -/
theorem Series.rest_eq (h : Series E cx lambda size left now batches rest) :
    rest = left.drop (batches.length * size) := by
  induction h with
  | nil left now => rw [List.length_nil, Nat.zero_mul, List.drop_zero]
  | cons _ _ _ _ ih => rw [ih, List.drop_drop, List.length_cons, Nat.succ_mul, Nat.add_comm size]

/-- **Which items a batch has,** and when it is started. -/
theorem Series.of_getElem? (h : Series E cx lambda size left now batches rest) {k : Nat}
    {batch : Batch} (hbatch : batches[k]? = some batch) :
    k * size < left.length ∧ batch.items = (left.drop (k * size)).take size ∧
      List.Forall₂ (fun job found => Job.Lasts E job (now + total (batches.take k)) found.1
        (now + total (batches.take k) + found.2)) (jobs cx lambda batch.items) batch.found := by
  induction h generalizing k with
  | nil => cases hbatch
  | @cons left rest now first batches hleft hitems hfound _ ih =>
    cases k with
    | zero =>
      obtain rfl : first = batch := Option.some.inj hbatch
      rw [Nat.zero_mul, List.drop_zero]
      exact ⟨List.length_pos_iff.2 hleft, hitems, hfound⟩
    | succ k =>
      obtain ⟨hlt, hitems', hfound'⟩ := ih hbatch
      have hbegun : now + total ((first :: batches).take (k + 1)) =
          now + first.longest + total (batches.take k) := by
        rw [List.take_succ_cons, total, total, List.map_cons, List.sum_cons, Nat.add_assoc]
      rw [List.length_drop] at hlt
      rw [List.drop_drop, Nat.add_comm size] at hitems'
      rw [Nat.succ_mul, hbegun]
      exact ⟨by omega, hitems', hfound'⟩

/-- **There are as many batches as are needed** when nothing is left. -/
theorem Series.length_eq (h : Series E cx lambda size left now batches rest) (hsize : 0 < size)
    (hrest : rest = []) : batches.length = (left.length + size - 1) / size := by
  have hall : left.length ≤ batches.length * size := by
    rw [h.rest_eq] at hrest
    exact List.drop_eq_nil_iff.1 hrest
  symm
  refine Nat.div_eq_of_lt_le ?_ ?_
  · cases hlength : batches.length with
    | zero =>
      rw [Nat.zero_mul]
      exact Nat.zero_le _
    | succ k =>
      -- the last batch has some item
      have hk : k < batches.length := by omega
      obtain ⟨hlast, -⟩ := h.of_getElem? (List.getElem?_eq_getElem hk)
      rw [Nat.succ_mul]
      omega
  · rw [Nat.succ_mul]
    omega

/-- **Batches cover a collection** from some time on: batch after batch has the items from its
place on, as many as there may be, and is started when those before are over. -/
structure Cover (E : Engine P) (cx : Context) (lambda : Lambda) (size : Nat) (items : List Value)
    (begun : Nat) (batches : List Batch) : Prop where
  /-- There is something in each batch. -/
  inside : ∀ k < batches.length, k * size < items.length
  piece : ∀ (k : Nat) (batch : Batch), batches[k]? = some batch →
    batch.items = (items.drop (k * size)).take size
  /-- Each item is evaluated once, from the time on when the batches before are over. -/
  found : ∀ (k : Nat) (batch : Batch), batches[k]? = some batch →
    List.Forall₂ (fun job found => Job.Lasts E job (begun + total (batches.take k)) found.1
      (begun + total (batches.take k) + found.2)) (jobs cx lambda batch.items) batch.found
  /-- When nothing is left, there are as many as are needed. -/
  count : items.length ≤ batches.length * size → batches.length = (items.length + size - 1) / size

theorem Series.cover (h : Series E cx lambda size left now batches rest) (hsize : 0 < size) :
    Cover E cx lambda size left now batches where
  inside _ hk := (h.of_getElem? (List.getElem?_eq_getElem hk)).1
  piece _ _ hbatch := (h.of_getElem? hbatch).2.1
  found _ _ hbatch := (h.of_getElem? hbatch).2.2
  count hall := h.length_eq hsize (h.rest_eq.trans (List.drop_eq_nil_iff.2 hall))

end Batch

/-! ## Maps -/

/-- **What a map fails with** when there is no collection. -/
inductive Reply.NoCollection : Reply → Value → Prop
  | error (value : Value) : NoCollection (.error value) value
  | other {value : Value} : (∀ items, value ≠ .array items) →
    NoCollection (.ok value) (.text ("par_map expects an array, found " ++ value.kindName))

/-- **A map has got so far,** from the request `r` for it on. -/
inductive Run.Maps (E : Engine P) (r : Run P) (id collection : NodeId) (size : Nat)
    (lambda : Lambda) (volatile : Bool) (log : Transcript) (next : Next P) : Prop
  /-- It has asked for its collection, and has said no more. -/
  | collects (begun : Nat) (a : Answer) :
    log.at (r.frames.size + 1) <+:
      [(r.world.clock, .asks r.scope (.child collection)), (begun, .hears a)] →
    next.Open (r.frames.size + 1) → Maps E r id collection size lambda volatile log next
  /-- It has failed, because there is no collection. -/
  | refuses {begun : Nat} {heard : Hearing} {value : Value} : heard.reply.NoCollection value →
    log.at (r.frames.size + 1) = [(r.world.clock, .asks r.scope (.child collection)),
      (begun, .hears heard.answer),
      (begun, .ends ⟨.error (.failed value), volatile || heard.tainted⟩)] →
    next.run.frames.size < r.frames.size + 1 → Maps E r id collection size lambda volatile log next
  /-- It has its collection, and has taken some batches of it. -/
  | maps {begun : Nat} {items : List Value} {tainted : Bool} {batches : List Batch}
    {tail : List (Nat × Utterance)} :
    log.at (r.frames.size + 1) = (r.world.clock, .asks r.scope (.child collection)) ::
      (begun, .hears ⟨.ok (.array items), tainted⟩) ::
      (Batch.dialogue ⟨id, r.scope⟩ lambda begun batches ++ tail) →
    Batch.Cover E ⟨id, r.scope⟩ lambda size items begun batches →
    Batch.Standing E (r.frames.size + 1) ⟨id, r.scope⟩ lambda size items [] batches
      (items.drop (batches.length * size)) (begun + Batch.total batches)
      (volatile || (tainted || batches.any Batch.tainted)) tail next →
    Maps E r id collection size lambda volatile log next

section Maps

variable {E : Engine P} {r : Run P} {id collection : NodeId} {size : Nat} {lambda : Lambda}
  {volatile : Bool} {log after : Transcript} {next : Next P} {begun : Nat} {reply : Reply}
  {tainted : Bool}

/-- A map without a collection. -/
theorem Run.maps_of_failure {value : Value} (hnone : reply.NoCollection value)
    (hsaid : log.at (r.frames.size + 1) = (r.world.clock, .asks r.scope (.child collection)) ::
      (begun, .hears (Hearing.answer ⟨reply, tainted⟩)) :: after.at (r.frames.size + 1))
    (h : (Plan.failure value).Speaks E
      (r.frames.size + 1) id volatile r.scope begun tainted after next) :
    r.Maps E id collection size lambda volatile log next := by
  rcases h.of_finish (Nat.succ_pos _) with ⟨hafter, hopen⟩ | ⟨hafter, hgone⟩
  · rw [hafter] at hsaid
    exact .collects begun (Hearing.answer ⟨reply, tainted⟩)
      ⟨[], (List.append_nil _).trans hsaid⟩ hopen
  · rw [hafter] at hsaid
    exact .refuses hnone hsaid hgone

/-- **A map that has heard of its collection.** -/
theorem Run.maps_of_heard (hsize : 0 < size)
    (hsaid : log.at (r.frames.size + 1) = (r.world.clock, .asks r.scope (.child collection)) ::
      (begun, .hears (Hearing.answer ⟨reply, tainted⟩)) :: after.at (r.frames.size + 1))
    (h : (Plan.onValue (fun
        | .array items => .mapBatches lambda size items []
        | value => .failure (.text ("par_map expects an array, found " ++ value.kindName)))
          reply).Speaks E
      (r.frames.size + 1) id volatile r.scope begun tainted after next) :
    r.Maps E id collection size lambda volatile log next := by
  cases reply with
  | error value => exact maps_of_failure (.error value) hsaid h
  | ok value =>
    cases value with
    | array items =>
      obtain ⟨batches, rest, tail, hseries, hafter, hstanding⟩ :=
        Batch.runs_of_speaks (Nat.succ_pos _) hsize items.length (Nat.le_refl _) h
      rw [hafter] at hsaid
      rw [hseries.rest_eq] at hstanding
      exact .maps hsaid (hseries.cover hsize) hstanding
    | _ => exact maps_of_failure (.other fun _ hvalue => by cases hvalue) hsaid h

end Maps

/-- **A map covers its collection** in batches, in order and within the bound, wherever and
whenever it is evaluated. -/
theorem Engine.recounts_parMap {E : Engine P} {id : NodeId} {node : Node} {collection : NodeId}
    {concurrency : Nat} {lambda : Lambda} {volatile : Bool} (hnode : E.graph.get? id = some node)
    (hpayload : node.payload = .parMap collection concurrency lambda)
    (hentry : E.registry.get node.tag = .ok ⟨.builtin (.parMap true), volatile⟩) :
    E.Recounts id fun r log next =>
      r.Maps E id collection (max concurrency 1) lambda volatile log next := by
  have hparam : node.param? = none := by simp only [Node.param?, hpayload]
  have htask : (Builtin.parMap true).start id node =
      .ok (.parMap { collection, lambda, batch := max concurrency 1, concurrent := true }) := by
    simp only [Builtin.start, hpayload]
  refine recounts_of_speaks hnode hparam hentry htask fun r log next hspeaks _ => ?_
  have hn : 0 < r.frames.size + 1 := Nat.succ_pos _
  have hsize : 0 < max concurrency 1 := Nat.lt_of_lt_of_le Nat.zero_lt_one (Nat.le_max_right _ _)
  have hplan : Builtin.Task.plan
      (.parMap { collection, lambda, batch := max concurrency 1, concurrent := true }) =
      .parMap true collection (max concurrency 1) lambda := rfl
  rw [hplan] at hspeaks
  cases hspeaks with
  | silent hopen => exact .collects 0 ⟨.ok .null, false⟩ List.nil_prefix hopen
  | asks hrequest hhigher hopen =>
    obtain rfl := Option.some.inj hrequest
    refine .collects 0 ⟨.ok .null, false⟩ ?_ hopen
    rw [Transcript.at_cons_self, Transcript.at_of_lt hhigher]
    exact List.prefix_append [_] _
  | @stops _ _ later _ _ _ _ _ hrequest hexchange _ hstopped =>
    obtain rfl := Option.some.inj hrequest
    obtain ⟨a, rfl⟩ := hexchange.exists_hears
    exact .collects later a ⟨[], (List.append_nil _).trans (hexchange.at_append _ _)⟩
      (.inr hstopped)
  | hears hrequest hexchange hgoes hafter =>
    obtain rfl := Option.some.inj hrequest
    cases hgoes with
    | @visit _ _ _ a reply hreply =>
      rw [Bool.false_or] at hafter
      refine Run.maps_of_heard hsize ((hexchange.at_append _ _).trans ?_) hafter
      have heq : a = Hearing.answer ⟨reply, (Utterance.hears a).tainted⟩ := Hearing.eq_answer hreply
      rw [← heq]
      rfl

/-- An array, a parameter, and a map of it, two elements at a time. -/
def Graph.assembly : Graph :=
  ⟨#[literalNode (.array [.nat 3, .nat 4, .nat 5]), .ofParam ⟨0⟩,
    ⟨Tag.parMap, .parMap ⟨0⟩ 2 ⟨⟨0⟩, ⟨1⟩⟩⟩]⟩

/-- So it is for a map with a last batch that is not full. -/
theorem Engine.recounts_parMap_assembly :
    Graph.assembly.get? ⟨2⟩ = some ⟨Tag.parMap, .parMap ⟨0⟩ 2 ⟨⟨0⟩, ⟨1⟩⟩⟩ ∧
      (Registry.standard : Registry .none).get Tag.parMap = .ok ⟨.builtin (.parMap true), false⟩ ∧
      Engine.Recounts (P := .none) ⟨.assembly, .standard, {}⟩ ⟨2⟩ fun r log next =>
        r.Maps ⟨.assembly, .standard, {}⟩ ⟨2⟩ ⟨0⟩ (max 2 1) ⟨⟨0⟩, ⟨1⟩⟩ false log next :=
  ⟨rfl, rfl, recounts_parMap rfl rfl rfl⟩

end ProgramGraph
