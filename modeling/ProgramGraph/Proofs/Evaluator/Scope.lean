import ProgramGraph.Proofs.Evaluator.Basic
/-!
# Scopes are read by look-ups

Two scopes in which every parameter has the same value are as good as each
other: what a node is worth depends on its scope by look-ups alone. The scope
of a job, one frame of all visible bindings and one of its own, is therefore
as good as the scope it was made in with one more frame.
-/

namespace ProgramGraph

variable {P : Plugins}

/-! ## Bindings as one frame -/

namespace Bindings

theorem find?_append (as bs : Bindings) (p : ParamId) :
    find? (as ++ bs) p = (find? bs p).or (find? as p) := by
  simp only [find?, List.reverse_append, List.find?_append, Option.map_or]

theorem find?_singleton (p q : ParamId) (value : Value) :
    find? [(p, value)] q = if q = p then some value else none := by
  by_cases h : q = p
  · simp [find?, h]
  · have h' : ¬ p = q := fun hpq => h hpq.symm
    simp [find?, h, h']

theorem find?_cons (p : ParamId) (value : Value) (rest : Bindings) (q : ParamId) :
    find? ((p, value) :: rest) q = (find? rest q).or (if q = p then some value else none) := by
  rw [← find?_singleton, ← find?_append]
  rfl

/-- If no parameter is repeated it does not matter from which end bindings are
read. -/
theorem find?_eq_of_nodup {bindings : Bindings} (h : (Keyed.keys bindings).Nodup) (p : ParamId) :
    find? bindings p = Keyed.find? bindings p := by
  induction bindings with
  | nil => rfl
  | cons binding rest ih =>
    obtain ⟨q, value⟩ := binding
    simp only [Keyed.keys, List.map_cons, List.nodup_cons] at h
    rw [find?_cons, Keyed.find?_cons, ih h.2]
    split
    next hp =>
      cases hrest : Keyed.find? rest p with
      | none => rfl
      | some other =>
        have hmem := List.mem_map_of_mem (f := Prod.fst) (Keyed.mem_of_find? hrest)
        exact absurd (hp ▸ hmem) h.1
    next => cases Keyed.find? rest p <;> rfl

theorem keyedFind?_union (entries more : Bindings) (p : ParamId) :
    Keyed.find? (Keyed.union entries more) p = (find? more p).or (Keyed.find? entries p) := by
  induction more generalizing entries with
  | nil => rfl
  | cons binding rest ih =>
    obtain ⟨q, value⟩ := binding
    have hunion : Keyed.union entries ((q, value) :: rest) =
        Keyed.union (Keyed.insert entries q value) rest := rfl
    rw [hunion, ih, find?_cons, Keyed.find?_insert, Option.or_assoc]
    split <;> rfl

/-- **Bindings that come down to unique parameters** are read as before. -/
theorem find?_ofPairs (bindings : Bindings) (p : ParamId) :
    find? (Keyed.ofPairs bindings) p = find? bindings p := by
  rw [find?_eq_of_nodup (Keyed.nodup_keys_ofPairs bindings), Keyed.ofPairs, keyedFind?_union]
  exact Option.or_none

/-- Frames put one after another, outermost first, are read as a stack. -/
theorem find?_flatten_reverse (frames : List Bindings) (p : ParamId) :
    find? frames.reverse.flatten p = frames.findSome? fun bindings => bindings.find? p := by
  induction frames with
  | nil => rfl
  | cons bindings rest ih =>
    rw [List.reverse_cons, List.flatten_append, find?_append, ih, List.flatten_singleton,
      List.findSome?_cons]
    cases bindings.find? p <;> rfl

end Bindings

namespace Scope

/-- Every parameter has the same value in both scopes. -/
def Alike (s t : Scope) : Prop := ∀ p, s.lookup? p = t.lookup? p

theorem Alike.refl (s : Scope) : Alike s s := fun _ => rfl

theorem Alike.symm {s t : Scope} (h : Alike s t) : Alike t s := fun p => (h p).symm

theorem Alike.trans {s t u : Scope} (hst : Alike s t) (htu : Alike t u) : Alike s u :=
  fun p => (hst p).trans (htu p)

theorem lookup?_push (s : Scope) (bindings : Bindings) (p : ParamId) :
    (s.push bindings).lookup? p = (bindings.find? p).or (s.lookup? p) := by
  simp only [lookup?, push, Stack.items_push, List.findSome?_cons]
  cases bindings.find? p <;> rfl

theorem Alike.push {s t : Scope} (h : Alike s t) (bindings : Bindings) :
    Alike (s.push bindings) (t.push bindings) := by
  intro p
  rw [lookup?_push, lookup?_push, h p]

/-- A frame without bindings makes no difference. -/
theorem alike_push_nil (s : Scope) : Alike (s.push []) s := by
  intro p
  rw [lookup?_push]
  rfl

/-- **All visible bindings as one frame** are read as the scope. -/
theorem alike_ofBindings_flatten (s : Scope) : Alike (ofBindings s.flatten) s := by
  intro p
  have hread : Bindings.find? s.flatten p = s.lookup? p := by
    rw [flatten, Bindings.find?_ofPairs, Bindings.find?_flatten_reverse]
    rfl
  rw [← hread, ofBindings]
  split
  next h =>
    rw [List.isEmpty_iff.1 h]
    rfl
  next =>
    rw [lookup?_push]
    exact Option.or_none

end Scope

/-- **A job made in a context** sees what the scope with one more frame
shows. -/
theorem Context.alike_job (cx : Context) (id : NodeId) (bindings : Bindings) :
    Scope.Alike (cx.job id bindings).scope (cx.scope.push bindings) := by
  simp only [Context.job]
  split
  next h =>
    obtain rfl : bindings = [] := List.isEmpty_iff.1 h
    exact (Scope.alike_ofBindings_flatten _).trans (Scope.alike_push_nil _).symm
  next => exact (Scope.alike_ofBindings_flatten _).push bindings

/-! ## Evaluation under scopes that are alike -/

/-- A plan is worth the same under scopes that are alike, if the nodes are. -/
theorem Plan.evaluate_alike {worth : NodeId → Scope → Answer}
    (h : ∀ id s t, Scope.Alike s t → worth id s = worth id t) (plan : Plan) {s t : Scope}
    (hst : Scope.Alike s t) : plan.evaluate worth s = plan.evaluate worth t := by
  induction plan with
  | finish => rfl
  | visit id manner next ih =>
    have hscope : Scope.Alike (manner.scope s) (manner.scope t) := by
      cases manner with
      | plain => exact hst
      | under bindings => exact hst.push bindings
      | fresh => exact hst
    simp only [evaluate, h id _ _ hscope, ih]
  | pause ms next ih => exact ih
  | all jobs next ih =>
    have hjobs : (jobs.map fun job => worth job.1 (s.push job.2)) =
        jobs.map fun job => worth job.1 (t.push job.2) :=
      List.map_congr_left fun job _ => h _ _ _ (hst.push job.2)
    simp only [evaluate, hjobs, ih]
  | first id others next ih => simp only [evaluate, h id _ _ hst, ih]
  | deadline ms id next late ihn ihl => simp only [evaluate, h id _ _ hst, ihn]

namespace Graph

/-- **What a node is worth depends on its scope by look-ups alone.** -/
theorem evaluate_alike (g : Graph) (reg : Registry P) (id : NodeId) {s t : Scope}
    (hst : Scope.Alike s t) : g.evaluate reg id s = g.evaluate reg id t := by
  induction hn : id.index using Nat.strongRecOn generalizing id s t with
  | _ n ih =>
    rw [evaluate, evaluate]
    cases g.role reg id with
    | absent => rfl
    | param p => simp only [resolve, hst p]
    | refused error volatile => rfl
    | planned plan volatile =>
      simp only
      congr 1
      refine Plan.evaluate_alike (fun child s t hst => ?_) plan hst
      by_cases hchild : child < id
      · simp only [if_pos hchild]
        exact ih child.index (hn ▸ hchild) child hst rfl
      · simp only [if_neg hchild]

end Graph

end ProgramGraph
