import ProgramGraph.Engine.Fold
import ProgramGraph.Proofs.Passage.Await
import ProgramGraph.Proofs.Schedule.Step
/-!
# Runs that are alone

If nothing that the engine starts asks for jobs, the run of the root is the only one of its
evaluation. It takes its turns and pauses, and the world stays as the run leaves it but for
the clock (`Next.Strolls`). So whatever is found in the world at the end has been done by
this run (`Engine.Solitary.strolls`).
-/

namespace ProgramGraph

open Relation

variable {P : Plugins} {E : Engine P}

/-- **What a run does by itself:** it takes a turn, or goes on after a pause as it was, only
later. -/
inductive Next.Strolls (E : Engine P) : Next P → Next P → Prop
  | turn (r : Run P) (input : Input) : Strolls E (.resume r input) (r.turn E input)
  | pause (r : Run P) (ms clock : Nat) : Strolls E (.wait r (.timer ms .elapsed))
    (r.wake { r.world with clock } .elapsed)

theorem Next.Strolls.leads {next next' : Next P} (h : next.Strolls E next') : next.Leads E next' := by
  cases h with
  | turn r input => exact .turn r input
  | pause r ms clock => exact .wake r _ _ _

/-- **What a run comes to by itself** is something that it may come to. -/
theorem Engine.mayReach_of_strolls {root : NodeId} {memo : Memo} {scope : Scope} {world : World P}
    {next : Next P}
    (h : ReflTransGen (Next.Strolls E) (Run.begin E { memo, scope, world } root) next) :
    E.MayReach root memo scope world next :=
  ReflTransGen.mono (fun _ _ => Next.Strolls.leads) _ _ h

/-- A pause is over, or it goes on as before. -/
theorem Wait.look_pause (conclusion? : JobId → Option Conclusion) (now due : Nat) :
    look conclusion? now (.timer due .elapsed) = .inl .elapsed ∨
      look conclusion? now (.timer due .elapsed) = .inr (.timer due .elapsed) := by
  by_cases hdue : due ≤ now
  · exact .inl (if_pos hdue)
  · exact .inr (if_neg hdue)

namespace Schedule

variable {begin : Next P} {s : Schedule P} {o : Outcome P}

/-- How far the only run of a schedule has come, as told by what the schedule attends to. -/
inductive Lingers (E : Engine P) (begin : Next P) (s : Schedule P) : Focus P → Prop
  /-- It is going on. -/
  | going {next : Next P} : ReflTransGen (Next.Strolls E) begin next →
    Lingers E begin s (.job root next)
  /-- It pauses, and the world is as it has left it, only later. -/
  | pausing {r : Run P} {ms due clock : Nat} {alarm : Option Place} :
    ReflTransGen (Next.Strolls E) begin (.wait r (.timer ms .elapsed)) →
    s.stage? root = some (.waiting r (.timer due .elapsed) alarm) →
    Lingers E begin s (.agenda { r.world with clock })

/-- **There is one run only,** and it has come by itself to where it is. -/
structure Alone (E : Engine P) (begin : Next P) (s : Schedule P) : Prop where
  size : s.jobs.size = 1
  lingers : s.Lingers E begin s.focus

theorem alone_start (begin : Next P) : (start begin).Alone E begin := ⟨rfl, .going .refl⟩

/-- A pause is looked at. -/
theorem alone_attend {r : Run P} {ms due clock : Nat} {alarm : Option Place}
    (hsize : s.jobs.size = 1)
    (hpauses : ReflTransGen (Next.Strolls E) begin (.wait r (.timer ms .elapsed))) :
    (s.attend root r (.timer due .elapsed) alarm { r.world with clock }).Alone E begin := by
  unfold attend
  rcases Wait.look_pause s.conclusion? clock due with hlook | hlook
  · simp only [hlook]
    exact ⟨hsize, .going (hpauses.tail (.pause r ms clock))⟩
  · simp only [hlook]
    have hstage := stage?_setStage_self (.waiting r (.timer due .elapsed) alarm)
      (Nat.lt_of_lt_of_eq Nat.zero_lt_one hsize.symm)
    exact ⟨(size_setStage s root _).trans hsize, .pausing hpauses hstage⟩

/-- A pause begins. -/
theorem alone_suspend {r : Run P} {ms : Nat} (hsize : s.jobs.size = 1)
    (hpauses : ReflTransGen (Next.Strolls E) begin (.wait r (.timer ms .elapsed))) :
    (s.suspend root r (.timer ms .elapsed)).Alone E begin := by
  unfold suspend
  simp only [arrange]
  rcases Wait.look_pause s.conclusion? r.world.clock (Wait.dueAfter r.world.clock ms)
    with hlook | hlook
  · simp only [hlook]
    exact ⟨hsize, .going (hpauses.tail (.pause r ms r.world.clock))⟩
  · simp only [hlook]
    have hlt : root < s.jobs.size := Nat.lt_of_lt_of_eq Nat.zero_lt_one hsize.symm
    refine ⟨(size_setStage _ root _).trans hsize, ?_⟩
    exact .pausing hpauses (stage?_setStage_self (.waiting r (.timer _ .elapsed) _) hlt)

/-- **The run stays alone** if it waits for pauses only. -/
theorem Alone.step (h : s.Alone E begin)
    (hpaused : ∀ r await, ReflTransGen (Next.Strolls E) begin (.wait r await) →
      ∃ ms, await = .timer ms .elapsed) : match s.step E with
    | .going s' => s'.Alone E begin
    | .ended o => ReflTransGen (Next.Strolls E) begin (.finish o)
    | .stuck => True := by
  obtain ⟨hsize, hlingers⟩ := h
  unfold Schedule.step
  generalize s.focus = focus at hlingers
  cases hlingers with
  | @going next hnext =>
    cases next with
    | resume r input => exact ⟨hsize, .going (hnext.tail (.turn r input))⟩
    | wait r await =>
      obtain ⟨ms, rfl⟩ := hpaused r await hnext
      exact alone_suspend hsize hnext
    | finish o => exact hnext
  | @pausing r ms due clock alarm hpauses hstage =>
    unfold proceed
    dsimp only
    cases s.agenda.next? with
    | none => trivial
    | some first =>
      obtain ⟨⟨place, id⟩, agenda⟩ := first
      -- the agenda may name the run or a job that there has never been
      by_cases hid : id = root
      · subst hid
        have hwaiting : ({ s with agenda } : Schedule P).stage? root =
            some (.waiting r (.timer due .elapsed) alarm) := hstage
        simp only [hwaiting]
        exact alone_attend ((size_setStage _ root _).trans hsize) hpauses
      · have hnone : ({ s with agenda } : Schedule P).stage? id = none := by
          refine Option.eq_none_iff_forall_ne_some.2 fun stage hsome => hid ?_
          have hlt : id < s.jobs.size := lt_size_of_stage? hsome
          rw [hsize] at hlt
          exact Nat.lt_one_iff.1 hlt
        simp only [hnone]
        exact ⟨hsize, .pausing hpauses hstage⟩

/-- **The run has come by itself** to the end of the schedule. -/
theorem Alone.follow
    (hpaused : ∀ r await, ReflTransGen (Next.Strolls E) begin (.wait r await) →
      ∃ ms, await = .timer ms .elapsed) {fuel : Nat} (h : s.Alone E begin)
    (hfollow : s.follow E fuel = some o) : ReflTransGen (Next.Strolls E) begin (.finish o) := by
  induction fuel generalizing s with
  | zero => cases hfollow
  | succ fuel ih =>
    have hstep := h.step hpaused
    simp only [Schedule.follow] at hfollow
    split at hfollow
    next s' hgoing =>
      rw [hgoing] at hstep
      exact ih hstep hfollow
    next o' hended =>
      rw [hended] at hstep
      exact Option.some.inj hfollow ▸ hstep
    next => cases hfollow

end Schedule

/-- **An evaluation without jobs** is what its run does by itself. -/
theorem Engine.Solitary.strolls (h : E.Solitary) {fuel : Nat} {root : NodeId} {memo : Memo}
    {scope : Scope} {shared : P.Shared} {o : Outcome P}
    (ho : E.evaluate? fuel root memo scope shared = some o) :
    ReflTransGen (Next.Strolls E) (Run.begin E { memo, scope, world := { shared } } root) (.finish o) :=
  (Schedule.alone_start _).follow (fun _ _ hwait => h.paused (mayReach_of_strolls hwait)) ho

end ProgramGraph
