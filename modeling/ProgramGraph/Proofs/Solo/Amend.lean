import ProgramGraph.Proofs.Schedule.Adequate
import ProgramGraph.Proofs.Solo.Untied
/-!
# Changes of abandoned work

A race abandons all branches but the fastest, and a timeout either the expression or
the fallback. An `Amendment` puts other nodes in the place of those that are abandoned,
or another deadline in the place of one that is kept.

The tasks that are made of the two versions of the node differ, but only in what they
wait for, and the one wait does for the other. So a graph with the one version mimics
the graph with the other (`Amendment.Applies.mimics`).
-/

namespace ProgramGraph

variable {P : Plugins} {E E' : Engine P}

/-! ## How long a job takes -/

/-- **A run by itself** comes to one thing, after one time. -/
theorem Solo.unique {next : Next P} {e e' : Report} {d d' n n' : Nat} (h : Solo E next e d n)
    (h' : Solo E next e' d' n') : e' = e ∧ d' = d := by
  obtain ⟨fuel, o, ho, hreport, hclock⟩ := h.follow
  obtain ⟨fuel', o', ho', hreport', hclock'⟩ := h'.follow
  have hmore := Schedule.follow_of_le ho (Nat.le_max_left fuel fuel')
  have hmore' := Schedule.follow_of_le ho' (Nat.le_max_right fuel fuel')
  obtain rfl : o = o' := Option.some.inj (hmore.symm.trans hmore')
  exact ⟨hreport'.symm.trans hreport, by omega⟩

namespace Engine

/-- **There is one way in which a job ends.** -/
theorem Fares.ending_unique [Nonempty P.Shared] {job : Job} {fate fate' : Fate}
    (h : E.Fares job fate) (h' : E.Fares job fate') : fate'.ending = fate.ending := by
  obtain ⟨shared⟩ := ‹Nonempty P.Shared›
  obtain ⟨hreport, hduration⟩ := (h { shared }).unique (h' { shared })
  simp only [Fate.ending, hreport, hduration]

/-- **How long a node takes** as a job in a context. -/
def Takes (E : Engine P) (cx : Context) (id : NodeId) (d : Nat) : Prop :=
  ∃ fate, E.Fares (cx.job id []) fate ∧ fate.duration = d

/-- It is how long the job takes. -/
theorem Takes.duration_eq [Nonempty P.Shared] {cx : Context} {id : NodeId} {d : Nat}
    (h : E.Takes cx id d) {fate : Fate} (hfate : E.Fares (cx.job id []) fate) :
    fate.duration = d := by
  obtain ⟨fate', hfate', rfl⟩ := h
  exact congrArg Prod.snd (hfate'.ending_unique hfate)

/-- **One branch is faster than all others.** -/
def Wins (E : Engine P) (cx : Context) (winner : NodeId) (branches : List NodeId) : Prop :=
  winner ∈ branches ∧ ∃ d, E.Takes cx winner d ∧
    ∀ id ∈ branches, id ≠ winner → ∃ d', E.Takes cx id d' ∧ d < d'

end Engine

/-! ## Waits without ties -/

namespace Await

variable {fate : Conclusion × Nat} {wake : Wake} {delay : Nat}

/-- **The first of some jobs,** if one of them is faster than the others. -/
theorem resolves_first_iff {job : Job} {others : List Job} {fates : List (Conclusion × Nat)}
    (hfate : fate ∈ fates) (h : ∀ other ∈ fates, other = fate ∨ fate.2 < other.2) :
    (first job others).Resolves fates wake delay ↔ wake = .settled fate.1 ∧ delay = fate.2 := by
  constructor
  · rintro ⟨found, hfound, rfl, rfl, hleast⟩
    -- what is found is not slower, so it is the fastest
    rcases h found hfound with rfl | hslower
    · exact ⟨rfl, rfl⟩
    · exact absurd (hleast fate hfate).1 (Nat.not_le.2 hslower)
  · rintro ⟨rfl, rfl⟩
    refine ⟨fate, hfate, rfl, rfl, fun other hother => ?_⟩
    rcases h other hother with rfl | hslower
    · exact ⟨Nat.le_refl _, fun _ => rfl⟩
    · exact ⟨Nat.le_of_lt hslower, fun heq => absurd heq (Nat.ne_of_gt hslower)⟩

/-- **A job that ends in time.** -/
theorem resolves_deadline_iff_of_lt {ms : Nat} {job : Job} (h : fate.2 < min ms Wait.longest) :
    (deadline ms job).Resolves [fate] wake delay ↔ wake = .settled fate.1 ∧ delay = fate.2 := by
  have hnot : ¬ min ms Wait.longest < fate.2 := Nat.lt_asymm h
  simp only [Resolves, List.mem_singleton, exists_eq_left, h, hnot, true_and, false_and, or_false]

/-- **A job that does not.** -/
theorem resolves_deadline_iff_of_gt {ms : Nat} {job : Job} (h : min ms Wait.longest < fate.2) :
    (deadline ms job).Resolves [fate] wake delay ↔
      wake = .elapsed ∧ delay = min ms Wait.longest := by
  have hnot : ¬ fate.2 < min ms Wait.longest := Nat.lt_asymm h
  simp only [Resolves, List.mem_singleton, exists_eq_left, h, hnot, true_and, false_and, false_or]

end Await

namespace Engine

variable {cx : Context} {winner : NodeId} {branches : List NodeId} {fates : List Fate}

variable [Nonempty P.Shared]

/-- **What comes of a race** is what comes of the branch that wins. -/
theorem Wins.resolves_iff (h : E.Wins cx winner branches) {job : Job} {others : List Job}
    (hjobs : job :: others = branches.map (cx.job · []))
    (hfates : List.Forall₂ E.Fares (job :: others) fates) {fate : Fate}
    (hfate : E.Fares (cx.job winner []) fate) {wake : Wake} {delay : Nat} :
    (Await.first job others).Resolves (fates.map Fate.ending) wake delay ↔
      wake = .settled fate.report.conclusion ∧ delay = fate.duration := by
  obtain ⟨hmem, d, hd, hothers⟩ := h
  rw [hjobs] at hfates
  obtain ⟨hleft, hright⟩ := exists_mem_of_forall₂ hfates
  have hfirst : fate.ending ∈ fates.map Fate.ending := by
    obtain ⟨fate', hfate', hfares⟩ := hleft _ (List.mem_map_of_mem hmem)
    rw [← hfate.ending_unique hfares]
    exact List.mem_map_of_mem hfate'
  refine Await.resolves_first_iff hfirst fun ending hending => ?_
  obtain ⟨other, hother, rfl⟩ := List.mem_map.1 hending
  obtain ⟨asked, hasked, hfares⟩ := hright other hother
  obtain ⟨id, hid, rfl⟩ := List.mem_map.1 hasked
  by_cases heq : id = winner
  · exact .inl (hfate.ending_unique (heq ▸ hfares))
  · obtain ⟨d', hd', hlt⟩ := hothers id hid heq
    right
    rw [← hd.duration_eq hfate, ← hd'.duration_eq hfares] at hlt
    exact hlt

/-- **What comes of a deadline** that the job keeps. -/
theorem Takes.resolves_iff_of_lt {id : NodeId} {d ms : Nat} (h : E.Takes cx id d)
    (hlt : d < min ms Wait.longest) {fate : Fate} (hfate : E.Fares (cx.job id []) fate) {wake : Wake}
    {delay : Nat} :
    (Await.deadline ms (cx.job id [])).Resolves [fate.ending] wake delay ↔
      wake = .settled fate.report.conclusion ∧ delay = fate.duration := by
  rw [← h.duration_eq hfate] at hlt
  exact Await.resolves_deadline_iff_of_lt hlt

/-- **What comes of a deadline** that the job does not keep. -/
theorem Takes.resolves_iff_of_gt {id : NodeId} {d ms : Nat} (h : E.Takes cx id d)
    (hlt : min ms Wait.longest < d) {fate : Fate} (hfate : E.Fares (cx.job id []) fate) {wake : Wake}
    {delay : Nat} :
    (Await.deadline ms (cx.job id [])).Resolves [fate.ending] wake delay ↔
      wake = .elapsed ∧ delay = min ms Wait.longest := by
  rw [← h.duration_eq hfate] at hlt
  exact Await.resolves_deadline_iff_of_gt hlt

end Engine

/-! ## Amendments -/

/-- The branches of a race. -/
def Race.branches (race : Race) : List NodeId := race.branch :: race.others

/-- **A change of what is abandoned** at a node. -/
inductive Amendment
  /-- Other branches of a race, but the one that wins. -/
  | race (winner : NodeId) (old new : Race)
  /-- Another deadline and another fallback for an expression that ends in time. -/
  | prompt (expr : NodeId) (ms ms' : Nat) (fallback fallback' : NodeId)
  /-- Another expression for one that does not. -/
  | late (expr expr' : NodeId) (ms : Nat) (fallback : NodeId)

namespace Amendment

/-- The task before the change. -/
def old : Amendment → Builtin.Task
  | race _ old _ => .race old
  | prompt expr ms _ fallback _ => .timeout ⟨expr, ms, fallback⟩
  | late expr _ ms fallback => .timeout ⟨expr, ms, fallback⟩

/-- The task after the change. -/
def new : Amendment → Builtin.Task
  | race _ _ new => .race new
  | prompt expr _ ms' _ fallback' => .timeout ⟨expr, ms', fallback'⟩
  | late _ expr' ms fallback => .timeout ⟨expr', ms, fallback⟩

/-- The node before the change. -/
def before : Amendment → Node
  | race _ old _ => ⟨Tag.race, .args old.branches⟩
  | prompt expr ms _ fallback _ => ⟨Tag.timeout, .timeout expr ms fallback⟩
  | late expr _ ms fallback => ⟨Tag.timeout, .timeout expr ms fallback⟩

/-- The node after the change. -/
def after : Amendment → Node
  | race _ _ new => ⟨Tag.race, .args new.branches⟩
  | prompt expr _ ms' _ fallback' => ⟨Tag.timeout, .timeout expr ms' fallback'⟩
  | late _ expr' ms fallback => ⟨Tag.timeout, .timeout expr' ms fallback⟩

/-- **The change is of abandoned work only,** where the node is evaluated in a context:
the same branch wins before and after, the expression ends before either deadline, or
neither expression ends before the deadline. Deadlines count as far as can be waited for. -/
def Spares (E E' : Engine P) (cx : Context) : Amendment → Prop
  | race winner old new => E.Wins cx winner old.branches ∧ E'.Wins cx winner new.branches
  | prompt expr ms ms' _ _ =>
    ∃ d, E.Takes cx expr d ∧ d < min ms Wait.longest ∧ d < min ms' Wait.longest
  | late expr expr' ms _ => ∃ d d', E.Takes cx expr d ∧ E'.Takes cx expr' d' ∧
      min ms Wait.longest < d ∧ min ms Wait.longest < d'

/-- What the task waits for before the change. -/
def oldWait (cx : Context) : Amendment → Await
  | race _ old _ => .first (cx.job old.branch []) (old.others.map (cx.job · []))
  | prompt expr ms _ _ _ => .deadline ms (cx.job expr [])
  | late expr _ ms _ => .deadline ms (cx.job expr [])

/-- What the task waits for after the change. -/
def newWait (cx : Context) : Amendment → Await
  | race _ _ new => .first (cx.job new.branch []) (new.others.map (cx.job · []))
  | prompt expr _ ms' _ _ => .deadline ms' (cx.job expr [])
  | late _ expr' ms _ => .deadline ms (cx.job expr' [])

/-- Whether the task may be told that its time is up. -/
def Elapses : Amendment → Prop
  | prompt .. => False
  | _ => True

variable (a : Amendment) (cx : Context)

/-- The tasks begin with these waits. -/
theorem resume_start : a.old.resume cx .start = (.wait (a.oldWait cx), a.old) ∧
    a.new.resume cx .start = (.wait (a.newWait cx), a.new) := by
  cases a <;> exact ⟨rfl, rfl⟩

/-- The tasks stay as they are. -/
theorem resume_snd (input : Input) :
    (a.old.resume cx input).2 = a.old ∧ (a.new.resume cx input).2 = a.new := by
  cases a <;> cases input <;> exact ⟨rfl, rfl⟩

variable {a cx} [Nonempty P.Shared]

/-- **What comes of the wait before the change** can be told. -/
theorem Spares.exists_resolves (h : a.Spares E E' cx) {fates : List Fate}
    (hfates : List.Forall₂ E.Fares (a.oldWait cx).jobs fates) :
    ∃ wake delay, (a.oldWait cx).Resolves (fates.map Fate.ending) wake delay := by
  cases a with
  | race winner old new =>
    obtain ⟨hold, -⟩ := h
    obtain ⟨-, d, ⟨fate, hfate, -⟩, -⟩ := id hold
    exact ⟨_, _, (hold.resolves_iff rfl hfates hfate).2 ⟨rfl, rfl⟩⟩
  | prompt expr ms ms' fallback fallback' =>
    obtain ⟨d, htakes, hlt, -⟩ := h
    obtain ⟨fate, rfl, hfate⟩ := Engine.exists_fate_of_single hfates
    exact ⟨_, _, (htakes.resolves_iff_of_lt hlt hfate).2 ⟨rfl, rfl⟩⟩
  | late expr expr' ms fallback =>
    obtain ⟨d, d', htakes, -, hlt, -⟩ := h
    obtain ⟨fate, rfl, hfate⟩ := Engine.exists_fate_of_single hfates
    exact ⟨_, _, (htakes.resolves_iff_of_gt hlt hfate).2 ⟨rfl, rfl⟩⟩

end Amendment

/-! ## The graph with the change -/

namespace Amendment

variable (a : Amendment) (n : NodeId)

/-- The tasks of the node go with each other, all others with themselves. -/
def pairing : Pairing := fun id task task' =>
  id = n ∧ task = a.old ∧ task' = a.new ∨ id ≠ n ∧ task' = task

/-- At the start of the node the task waits for something else. -/
def other (id : NodeId) (s : Scope) : Input → Option Await
  | .start => if id = n then some (a.newWait ⟨id, s⟩) else none
  | _ => none

/-- The nodes whose tasks may be told that their time is up. -/
def told (id : NodeId) : Prop := id = n → a.Elapses

variable {a n}

/-- **The change is made to a node** of a graph under a standard registry, and nothing
else is changed. -/
structure Applies (a : Amendment) (n : NodeId) (E E' : Engine P) : Prop where
  standard : E.registry = .standard ∨ E.registry = .standardSequential
  registry : E'.registry = E.registry
  limits : E'.limits = E.limits
  before : E.graph.get? n = some a.before
  after : E'.graph.get? n = some a.after
  others : ∀ id, id ≠ n → E'.graph.get? id = E.graph.get? id

namespace Applies

/-- The handlers make these tasks. -/
theorem starts (h : a.Applies n E E') : E.Starts n a.old true ∧ E'.Starts n a.new true := by
  have hrace : E.registry.get Tag.race = .ok ⟨.builtin .race, true⟩ := by
    rcases h.standard with hr | hr <;> rw [hr] <;> cbv
  have htimeout : E.registry.get Tag.timeout = .ok ⟨.builtin .timeout, true⟩ := by
    rcases h.standard with hr | hr <;> rw [hr] <;> cbv
  have hbefore := h.before
  have hafter := h.after
  cases a with
  | race => exact ⟨⟨_, _, _, hbefore, rfl, hrace, rfl, rfl, rfl⟩,
      ⟨_, _, _, hafter, rfl, h.registry ▸ hrace, rfl, rfl, rfl⟩⟩
  | prompt => exact ⟨⟨_, _, _, hbefore, rfl, htimeout, rfl, rfl, rfl⟩,
      ⟨_, _, _, hafter, rfl, h.registry ▸ htimeout, rfl, rfl, rfl⟩⟩
  | late => exact ⟨⟨_, _, _, hbefore, rfl, htimeout, rfl, rfl, rfl⟩,
      ⟨_, _, _, hafter, rfl, h.registry ▸ htimeout, rfl, rfl, rfl⟩⟩

end Applies

end Amendment

end ProgramGraph
