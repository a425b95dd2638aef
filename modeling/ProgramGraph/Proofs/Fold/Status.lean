import ProgramGraph.Proofs.Fold.Moment
import ProgramGraph.Proofs.Fold.Reference
/-!
# The status of a node never flips

What a memo says of a node at one moment it says at every later one, whatever has
been folded in between, with whatever limits, and whether or not it came to an end. A
node that is kept is served from then on, and a node that is marked is evaluated anew
at every visit.

No bookkeeping would give this by itself, for a memo lets itself be told anything: it
drops a result when the node is marked, and a mark when a result is kept. It holds
because neither is ever told to it of a node of which it says the other
(`Memo.Grows`).
-/

namespace ProgramGraph

open Relation

variable {P : Plugins} {g : Graph} {reg : Registry P}

namespace Moment

/-- **The memo says nothing wrong of any node,** and whatever fold is under way
keeps track of its jobs. -/
def Sound (g : Graph) (reg : Registry P) : Moment P → Prop
  | rest m => m.Sound g reg ∧ m.Marked g reg
  | fold limits s => ∃ m asked, m.Sound g reg ∧ m.Marked g reg ∧
      Schedule.TracksFocus ⟨g, reg, limits⟩ (fun _ => True) (fun _ => True) m asked s s.focus

variable {a b : Moment P}

/-- There is a memo at every moment. -/
theorem Sound.exists_memo (hg : g.validate = .ok ()) (hr : reg.Native) (h : a.Sound g reg) :
    ∃ m, a.memo? = some m ∧ m.Sound g reg ∧ m.Marked g reg := by
  cases a with
  | rest m => exact ⟨m, rfl, h⟩
  | fold limits s =>
    obtain ⟨m, asked, hm, hmarked, htracks⟩ := h
    obtain ⟨next, hpasses, hmain⟩ := htracks.exists_main
    have hgrows := (hpasses.sound (E := ⟨g, reg, limits⟩) hg hr hm).1.grown.memo
    exact ⟨next.run.memo, congrArg (Option.map Run.memo) hmain, hgrows.sound hm, hgrows.marked hmarked⟩

/-- **From one moment to the next the memo grows.** -/
theorem Then.grows (hg : g.validate = .ok ()) (hr : reg.Native) (h : Then g reg a b)
    (ha : a.Sound g reg) :
    b.Sound g reg ∧ ∃ m m', a.memo? = some m ∧ b.memo? = some m' ∧ m.Grows g reg m' := by
  cases h with
  | begin m limits root shared =>
    obtain ⟨hm, hmarked⟩ := ha
    have hpasses : Passes ⟨g, reg, limits⟩ (fun _ => True) m ⟨root.target, .empty⟩
        (Run.begin ⟨g, reg, limits⟩ { memo := m, world := { shared } } root.target) := .begin trivial
    have hgrows := (hpasses.sound (E := ⟨g, reg, limits⟩) hg hr hm).1.grown.memo
    exact ⟨⟨m, _, hm, hmarked, Schedule.tracksFocus_start trivial hpasses⟩, m, _, rfl, rfl, hgrows⟩
  | @step limits s s' hstep =>
    obtain ⟨m, asked, hm, hmarked, htracks⟩ := ha
    obtain ⟨r, r', hbefore, hafter, hgrows⟩ :=
      htracks.growsTo (E := ⟨g, reg, limits⟩) hg hr hm hstep
    refine ⟨?_, r.memo, r'.memo, congrArg (Option.map Run.memo) hbefore,
      congrArg (Option.map Run.memo) hafter, hgrows⟩
    rcases htracks.step (Schedule.closed_true _ m) with ⟨t, asked', ht, -, htracks'⟩ | ⟨o, ho, -⟩
    · rw [hstep] at ht
      cases ht
      exact ⟨m, asked', hm, hmarked, htracks'⟩
    · rw [hstep] at ho
      cases ho
  | @finish limits s o hstep =>
    obtain ⟨m, hmemo, hm, hmarked⟩ := ha.exists_memo hg hr
    have hmain := Schedule.main?_of_root (Schedule.focus_of_ended hstep)
    obtain rfl : o.run.memo = m :=
      Option.some.inj ((congrArg (Option.map Run.memo) hmain).symm.trans hmemo)
    exact ⟨⟨hm, hmarked⟩, _, _, hmemo, rfl, .refl⟩

/-- **So it does from any moment to any later one,** by induction on what there is
in between. -/
theorem Reaches.grows (hg : g.validate = .ok ()) (hr : reg.Native) (h : Reaches g reg a b)
    (ha : a.Sound g reg) :
    b.Sound g reg ∧ ∃ m m', a.memo? = some m ∧ b.memo? = some m' ∧ m.Grows g reg m' := by
  induction h with
  | refl =>
    obtain ⟨m, hmemo, -⟩ := ha.exists_memo hg hr
    exact ⟨ha, m, m, hmemo, hmemo, .refl⟩
  | tail _ hthen ih =>
    obtain ⟨hb, m, m', hbefore, hafter, hgrows⟩ := ih
    obtain ⟨hc, n, n', hbefore', hafter', hgrows'⟩ := hthen.grows hg hr hb
    rw [hafter] at hbefore'
    cases hbefore'
    exact ⟨hc, m, n', hbefore, hafter', hgrows.trans hgrows'⟩

/-! ## Visits -/

/-- A request that is answered from the memo finds there what the memo says. -/
theorem Visits.status {limits : Limits} {r : Run P} {id : NodeId} {restore : Nat}
    (h : b.Visits g reg limits r id restore) : ∃ m, b.memo? = some m ∧
      ∀ id, r.innermost.kept? id = m.kept? id ∧ r.memo.isTainted id = m.isTainted id := by
  cases h with
  | root m => exact ⟨m, rfl, fun _ => ⟨rfl, rfl⟩⟩
  | @turn limits s next r id restore hfocus hvisits hoverlays =>
    refine ⟨next.run.memo, congrArg (Option.map Run.memo) (Schedule.main?_of_root hfocus),
      fun id => ?_⟩
    have hinner : r.innermost = r.memo := by simp only [Run.innermost, hoverlays]
    rw [hinner]
    cases hvisits with
    | @turn r₀ r' input request scope id fresh _ hresumed _ =>
      have hmemo : (r₀.countTurn.resumeFrame input).1.memo = r₀.countTurn.memo := by
        unfold Run.resumeFrame
        split <;> rfl
      rw [hresumed] at hmemo
      have hkept : r'.memo = r₀.countTurn.memo := hmemo
      exact ⟨by rw [hkept]; rfl, by rw [hkept]; rfl⟩

variable {E : Engine P} {r : Run P} {id : NodeId} {restore : Nat}

/-- **A node that is kept is served.** Its handler is not asked for anything. -/
theorem arrive_of_kept {value : Value} (hsound : r.innermost.Sound E.graph E.registry)
    (hkept : r.innermost.kept? id = some value) :
    ∃ r' : Run P, r.arrive E id restore false = (r', .ready ⟨.ok value, false⟩) ∧
      r'.frames = r.frames ∧ r'.world.journal = .served id :: r.world.journal := by
  have hpure := hsound.pure hkept
  have hworth := hsound id value hkept .empty
  have harrives := r.arrives E id restore false
  generalize r.arrive E id restore false = arrival at harrives
  cases harrives with
  | absent hnode =>
    have hrole : E.graph.role E.registry id = .absent := by simp only [Graph.role, hnode]
    rw [Graph.evaluate_absent hrole] at hworth
    cases hworth
  | param hnode hparam =>
    rw [(hpure.of_get? hnode).1] at hparam
    cases hparam
  | served _ _ _ hfound =>
    rw [hkept] at hfound
    cases hfound
    exact ⟨_, rfl, rfl, rfl⟩
  | missing _ _ hnone | refused _ _ hnone | started _ _ hnone =>
    rw [if_neg Bool.false_ne_true, hkept] at hnone
    cases hnone

/-- **A node that is marked is evaluated,** whatever is kept: a parameter is looked
up, and for any other node a task begins. -/
theorem arrive_of_evaluable (hr : E.registry.Native)
    (hrole : (E.graph.role E.registry id).Evaluable) (hkept : r.innermost.kept? id = none) :
    ∃ r' arrival, r.arrive E id restore false = (r', arrival) ∧
      (r'.world.journal = .lookedUp id :: r.world.journal ∨
        arrival = .pushed ∧ r'.world.journal = .started id false true :: r.world.journal) := by
  obtain ⟨inner, tail, hcaches⟩ := r.exists_caches
  have hstands : r.Stands r.frames r.scope (inner :: tail) r.memo.tally := ⟨rfl, rfl, hcaches, rfl⟩
  have harrives := r.arrives E id restore false
  refine ⟨(r.arrive E id restore false).1, (r.arrive E id restore false).2, rfl, ?_⟩
  cases hcase : E.graph.role E.registry id with
  | absent =>
    rw [hcase] at hrole
    exact hrole.elim
  | refused error volatile =>
    rw [hcase] at hrole
    exact hrole.elim
  | param p =>
    obtain ⟨node, hnode, hparam⟩ := Graph.plays_of_role hcase
    generalize r.arrive E id restore false = arrival at harrives
    cases harrives with
    | absent hnone =>
      rw [hnode] at hnone
      cases hnone
    | param =>
      refine .inl ?_
      dsimp only [Run.note]
      rw [Run.world_mapInnermost]
      rfl
    | served hnode' hnone | missing hnode' hnone | refused hnode' hnone | started hnode' hnone =>
      rw [hnode] at hnode'
      cases hnode'
      rw [hparam] at hnone
      cases hnone
  | planned plan volatile =>
    have hnone : (if false then none else inner.kept? id) = none := by
      rw [← Run.kept?_innermost hcaches, hkept]
      rfl
    obtain ⟨r', task, harrive, -⟩ := hstands.arrive_planned hr hcase hnone restore
    rw [harrive] at harrives ⊢
    cases harrives with
    | started => exact .inr ⟨rfl, rfl⟩

/-- **What the memo says holds at a later moment,** and there is acted upon. -/
structure Abides (g : Graph) (reg : Registry P) (m : Memo) (b : Moment P) : Prop where
  /-- What is kept is kept, with its value. -/
  kept : ∀ id value, m.kept? id = some value →
    ∃ m', b.memo? = some m' ∧ m'.kept? id = some value ∧ m'.isTainted id = false
  /-- What is marked is marked, and is not kept. -/
  marked : ∀ id, m.isTainted id = true →
    ∃ m', b.memo? = some m' ∧ m'.isTainted id = true ∧ m'.kept? id = none
  /-- A request for what is kept is served from the memo, and no handler starts. -/
  served : ∀ limits r id restore value, b.Visits g reg limits r id restore →
    m.kept? id = some value → ∃ r' : Run P,
      r.arrive ⟨g, reg, limits⟩ id restore false = (r', .ready ⟨.ok value, false⟩) ∧
        r'.frames = r.frames ∧ r'.world.journal = .served id :: r.world.journal
  /-- A request for what is marked is not. -/
  evaluated : ∀ limits r id restore, b.Visits g reg limits r id restore →
    m.isTainted id = true → ∃ r' arrival,
      r.arrive ⟨g, reg, limits⟩ id restore false = (r', arrival) ∧
        (r'.world.journal = .lookedUp id :: r.world.journal ∨
          arrival = .pushed ∧ r'.world.journal = .started id false true :: r.world.journal)

/-- **The status of a node never flips,** from the moment on at which it has one. -/
theorem abides (hg : g.validate = .ok ()) (hr : reg = .standard ∨ reg = .standardSequential)
    (ha : Reaches g reg (.rest .empty) a) (hab : Reaches g reg a b) {m : Memo}
    (hm : a.memo? = some m) : b.Abides g reg m := by
  have hnative : reg.Native := Registry.native_of_standard_or hr
  have hempty : (Moment.rest .empty : Moment P).Sound g reg := ⟨Memo.sound_empty, Memo.marked_empty⟩
  have hsoundA := (ha.grows hg hnative hempty).1
  obtain ⟨n, hn, hsound, hmarked⟩ := hsoundA.exists_memo hg hnative
  obtain rfl : n = m := Option.some.inj (hn.symm.trans hm)
  obtain ⟨-, n', m', hn', hm', hgrows⟩ := hab.grows hg hnative hsoundA
  obtain rfl : n' = n := Option.some.inj (hn'.symm.trans hm)
  -- what is found on a visit is what the later memo says
  have hvisits : ∀ {limits r id restore}, b.Visits g reg limits r id restore →
      ∀ id, r.innermost.kept? id = m'.kept? id := by
    intro limits r id restore hvisit other
    obtain ⟨m'', hm'', hstatus⟩ := hvisit.status
    obtain rfl : m' = m'' := Option.some.inj (hm'.symm.trans hm'')
    exact (hstatus other).1
  refine ⟨fun id value hkept => ?_, fun id htainted => ?_, ?_, ?_⟩
  · have hlater := hgrows.kept hsound hkept
    refine ⟨m', hm', hlater, Bool.eq_false_iff.2 fun htainted => ?_⟩
    rw [Memo.kept?_of_isTainted htainted] at hlater
    cases hlater
  · have hlater := hgrows.isTainted hmarked htainted
    exact ⟨m', hm', hlater, Memo.kept?_of_isTainted hlater⟩
  · intro limits r id restore value hvisit hkept
    have hfound := (hvisits hvisit id).trans (hgrows.kept hsound hkept)
    refine arrive_of_kept (E := ⟨g, reg, limits⟩) (fun other value' hother => ?_) hfound
    exact hgrows.sound hsound other value' ((hvisits hvisit other).symm.trans hother)
  · intro limits r id restore hvisit htainted
    have hlater := hgrows.isTainted hmarked htainted
    have hfound := (hvisits hvisit id).trans (Memo.kept?_of_isTainted hlater)
    exact arrive_of_evaluable (E := ⟨g, reg, limits⟩) hnative (hmarked id htainted).2 hfound

/-- Folds of the constants and of the element leave a memo that keeps the constants
and marks the element. -/
theorem exists_reaches_pairing : ∃ m : Memo,
    Reaches .pairing (.standard : Registry .none) (.rest .empty) (.rest m) ∧
      m.kept? ⟨0⟩ = some (.array [.nat 1, .nat 2, .nat 3]) ∧ m.isTainted ⟨1⟩ = true := by
  have hr : (Registry.standard : Registry .none).Native := Registry.native_standard
  have hcourse : Graph.pairing.course (.standard : Registry .none) ⟨0⟩ .empty false 0 .empty =
      ⟨⟨.ok (.array [.nat 1, .nat 2, .nat 3]), false⟩,
        Memo.empty.put ⟨0⟩ (.array [.nat 1, .nat 2, .nat 3]) false, .start 0 + .turn⟩ := by
    have hrole : Graph.pairing.role (.standard : Registry .none) ⟨0⟩ =
        .planned (.finish (.ok (.array [.nat 1, .nat 2, .nat 3]))) false := rfl
    have hnone : (if false then none else Memo.empty.kept? ⟨0⟩) = none := Memo.kept?_empty _
    exact Graph.course_planned rfl hr hrole hnone rfl
  obtain ⟨o, ho, hreport, -⟩ := Engine.evaluates_of_course (E := ⟨.pairing, .standard, {}⟩)
    rfl hr rfl ⟨0⟩ .empty .empty () hcourse.symm rfl
  have hkept : o.run.memo.kept? ⟨0⟩ = some (.array [.nat 1, .nat 2, .nat 3]) := by
    have hmemo := congrArg (fun e => e.memo.kept? ⟨0⟩) hreport
    exact hmemo.trans ((Memo.kept?_put _ _ _ _ _).trans (if_pos rfl))
  have hconstants : Engine.Folds ⟨.pairing, .standard, {}⟩ (.node ⟨0⟩) .empty () o := ho
  -- nothing binds the element, and it is marked all the same
  have helement : Engine.Folds ⟨.pairing, (.standard : Registry .none), {}⟩ (.node ⟨1⟩)
      o.run.memo () _ := ⟨1, rfl⟩
  refine ⟨_, (reaches_of_folds hconstants).trans (reaches_of_folds helement), ?_, ?_⟩
  · exact (Memo.kept?_setTainted _ ⟨1⟩ ⟨0⟩).trans hkept
  · exact Memo.isTainted_setTainted _ ⟨1⟩ ⟨1⟩

/-- Both statuses last through one more fold of the element. -/
theorem abides_pairing : Graph.pairing.validate = .ok () ∧
    ∃ m m' : Memo, Reaches .pairing (.standard : Registry .none) (.rest .empty) (.rest m) ∧
      Reaches .pairing (.standard : Registry .none) (.rest m) (.rest m') ∧
      m.kept? ⟨0⟩ = some (.array [.nat 1, .nat 2, .nat 3]) ∧ m.isTainted ⟨1⟩ = true ∧
      Abides .pairing (.standard : Registry .none) m (.rest m') := by
  have hg : Graph.pairing.validate = .ok () := rfl
  obtain ⟨m, hm, hkept, htainted⟩ := exists_reaches_pairing
  have helement : Engine.Folds ⟨.pairing, (.standard : Registry .none), {}⟩ (.node ⟨1⟩) m () _ :=
    ⟨1, rfl⟩
  have hlater := reaches_of_folds helement
  exact ⟨hg, m, _, hm, hlater, hkept, htainted, abides hg (.inl rfl) hm hlater rfl⟩

end Moment

end ProgramGraph
