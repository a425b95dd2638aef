import Mathlib.Algebra.BigOperators.Group.List.Basic
import ProgramGraph.Proofs.Passage.Depth
import ProgramGraph.Proofs.Passage.Ledger
/-!
# What a run adds to its counters

Counters that are merged add up, and depths go with them as far as the greater one of two
is their sum. So all that a run does to its counters is a sum (`Run.Gains`): what the
events come to that it has written down, a resumption that the limit did not allow, the
counters of jobs that it has taken over, and how deep it stands.

That the depth is told in this way hangs on its never falling behind the frames that there
are, so that only a frame that is pushed can change it.
-/

namespace ProgramGraph

variable {P : Plugins} {E : Engine P}

/-! ## Sums of counters -/

namespace Tally

instance : Add Tally := ⟨merge⟩

instance : Zero Tally := ⟨zero⟩

/-- Counters add up when they are merged. -/
instance : AddCommMonoid Tally where
  add_assoc := merge_assoc
  zero_add := zero_merge
  add_zero := merge_zero
  add_comm := merge_comm
  nsmul := nsmulRec

theorem add_def (t u : Tally) : t + u = t.merge u := rfl

/-- The counters that a depth has been reached with, and nothing else. -/
def ofDepth (depth : Nat) : Tally := { depth }

/-- Counters are told by what adds up and the depth. -/
theorem ext_of_counts {t u : Tally} (hcounts : t.counts = u.counts) (hdepth : t.depth = u.depth) :
    t = u := by
  cases t
  cases u
  cases hcounts
  cases hdepth
  rfl

end Tally

theorem Event.depth_total (events : List Event) : (total events).depth = 0 := by
  induction events with
  | nil => rfl
  | cons event events ih =>
    have hdepth : event.tally.depth = 0 := congrArg Tally.depth event.counts_tally.symm
    rw [total_cons, Tally.merge, hdepth, ih, Nat.max_self]

/-! ## The depth goes with the frames -/

namespace Run

/-- The depth has not fallen behind the frames. -/
def Deep (r : Run P) : Prop := r.frames.size ≤ r.memo.tally.depth

variable {r : Run P}

/-- Where it has not, it never does. -/
theorem Deepens.depth_eq {next : Next P} (h : r.Deepens next) (hdeep : r.Deep) :
    next.run.memo.tally.depth = max r.memo.tally.depth next.run.frames.size := by
  rcases h with ⟨hdepth, hsize⟩ | hdepth
  · exact hdepth.trans (Nat.max_eq_left (Nat.le_trans hsize hdeep)).symm
  · exact hdepth

/-! ## Gains -/

end Run

/-- What has been counted by what was waited for. -/
def Wake.tally : Wake → Tally
  | settled c => c.tally
  | elapsed => 0

namespace Run

variable {r : Run P}

/-- **What a run has gained** on the way to what is next: what it was given, what its events
come to that it has written down, and how deep it stands. -/
def Gains (r : Run P) (given : Tally) (next : Next P) : Prop :=
  ∃ events, next.run.world.journal = events ++ r.world.journal ∧
    next.run.memo.tally =
      r.memo.tally + given + Event.total events + .ofDepth next.run.frames.size

/-- What has gained goes on to be deep. -/
theorem Gains.deep {given : Tally} {next : Next P} (h : r.Gains given next) : next.run.Deep := by
  obtain ⟨events, -, htally⟩ := h
  rw [Deep, htally]
  exact Nat.le_max_right _ _

/-- **Books are gains,** with what the depth goes by. -/
theorem Books.gains {next : Next P} (h : r.Books next.run)
    (hdepth : next.run.memo.tally.depth = max r.memo.tally.depth next.run.frames.size) :
    r.Gains 0 next := by
  obtain ⟨events, hjournal, hcounts⟩ := h
  refine ⟨events, hjournal, ?_⟩
  rw [add_zero]
  refine Tally.ext_of_counts ?_ ?_
  · have htotal : (Event.total events).counts = Event.total events :=
      Tally.ext_of_counts rfl (Event.depth_total events).symm
    rw [hcounts, Tally.add_def, Tally.add_def, Tally.counts_merge, Tally.counts_merge, htotal]
    exact (Tally.merge_zero _).symm
  · simp only [Tally.add_def, Tally.merge, Event.depth_total, hdepth, Tally.ofDepth]
    omega

/-- **A run begins** with what it finds. -/
theorem gains_begin (hframes : r.frames.items = []) (root : NodeId) :
    r.Gains 0 (r.begin E root) := by
  have hsize : r.frames.size = 0 := r.frames.size_eq_zero_iff.2 hframes
  refine (r.books_visit root _ _).gains ((r.deepens_visit root _ _).depth_eq ?_)
  rw [Deep, hsize]
  exact Nat.zero_le _

/-- **A turn** gains what it does, and a resumption if the limit does not allow it. -/
theorem Deep.gains_turn (h : r.Deep) (hframes : r.frames.items ≠ []) (input : Input) :
    r.Gains (r.refusal E) (r.turn E input) := by
  cases hexceeded : r.countTurn.exceeded? E.limits with
  | some limit =>
    have hrefusal : r.refusal E = Tally.zero.countResumption := by
      rw [refusal, hexceeded]
      rfl
    rw [turn_of_exceeded hexceeded]
    refine ⟨[], rfl, ?_⟩
    have hdepth : Tally.ofDepth (0 : Nat) = 0 := rfl
    have htally : r.countTurn.memo.tally = r.memo.tally + r.refusal E := by
      rw [hrefusal, Tally.add_def, Tally.merge_countResumption]
      rfl
    have htotal : Event.total [] = 0 := rfl
    rw [htotal, add_zero]
    exact htally.trans (add_zero _).symm
  | none =>
    have hrefusal : r.refusal E = 0 := by
      rw [refusal, hexceeded]
      rfl
    rw [hrefusal]
    exact (books_turn r hframes hexceeded input).gains ((r.deepens_turn input).depth_eq h)

/-- **The end of a wait** gains what has been counted by what was waited for. -/
theorem Deep.gains_wake (h : r.Deep) (hframes : r.frames.items ≠ []) (world : World P) (wake : Wake) :
    Gains { r with world } wake.tally (r.wake world wake) := by
  cases wake with
  | elapsed =>
    refine ⟨[], rfl, ?_⟩
    have hdepth : r.memo.tally + .ofDepth r.frames.size = r.memo.tally :=
      Tally.ext_of_counts rfl (Nat.max_eq_left h)
    have htotal : Event.total [] = 0 := rfl
    have htally : Wake.elapsed.tally = 0 := rfl
    rw [htotal, htally, add_zero, add_zero]
    exact hdepth.symm
  | settled c =>
    let merged : Run P := ({ r with world } : Run P).mapTally (·.merge c.tally)
    have hdeep : r.frames.size ≤ (r.memo.tally.merge c.tally).depth :=
      Nat.le_trans h (Nat.le_max_left _ _)
    have hdepth : (r.wake world (.settled c)).run.memo.tally.depth =
        max merged.memo.tally.depth (r.wake world (.settled c)).run.frames.size := by
      have hsame : (r.wake world (.settled c)).run.memo.tally.depth = merged.memo.tally.depth :=
        depth_handOver _ _
      rw [hsame]
      exact (Nat.max_eq_left (Nat.le_trans (quiet_wake r world (.settled c)).2 hdeep)).symm
    obtain ⟨events, hjournal, htally⟩ := (books_wake r hframes world c).gains hdepth
    refine ⟨events, hjournal, ?_⟩
    rw [htally, add_zero]
    rfl

end Run

/-- **No run ever falls behind,** by induction on what it may come to. -/
theorem Engine.MayReach.deep {root : NodeId} {memo : Memo} {scope : Scope} {world : World P}
    {next : Next P} (h : E.MayReach root memo scope world next) : next.run.Deep := by
  induction h with
  | refl => exact (Run.gains_begin (r := { memo, scope, world }) rfl root).deep
  | @tail next next' hreach hleads ih =>
    have hframes := next.run.frames.size_eq_zero_iff.not
    have hmanned := MayReach.manned hreach
    cases hleads with
    | turn r input => exact (Run.Deep.gains_turn ih (hframes.1 hmanned) input).deep
    | wake r await world' wake => exact (Run.Deep.gains_wake ih (hframes.1 hmanned) world' wake).deep

end ProgramGraph
