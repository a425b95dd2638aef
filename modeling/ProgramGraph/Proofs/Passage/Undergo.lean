import ProgramGraph.Proofs.Passage.Enclose
/-!
# What runs undergo

A run is at the mercy of its waits: nothing else that it does is open. So a run is told from
what comes of its waits, one after the other (`Next.Undergoes`). If one run goes on inside of
another, what the one undergoes the other does (`Next.Mirrors.undergoes`), and the other way
round, until the inner one has ended (`Next.Mirrors.exists_undergoes`).

If nothing hangs on which of two things comes first, there is only one thing to undergo, and
then the inner run comes to it by itself (`Next.Mirrors.exists_solo`).
-/

namespace ProgramGraph

variable {P : Plugins} {E : Engine P}

/-- **What a run does next,** and what comes of its wait, if it waits. -/
inductive Next.LeadsBy (E : Engine P) : List (Await × Wake) → Next P → Next P → Prop
  | turn (r : Run P) (input : Input) : LeadsBy E [] (.resume r input) (r.turn E input)
  | wake (r : Run P) (await : Await) (world : World P) (wake : Wake) :
    LeadsBy E [(await, wake)] (.wait r await) (r.wake world wake)

/-- **A run gets on,** and this comes of its waits, last things first. -/
inductive Next.Undergoes (E : Engine P) (start : Next P) : List (Await × Wake) → Next P → Prop
  | refl : Undergoes E start [] start
  | tail {waits new : List (Await × Wake)} {next next' : Next P} : Undergoes E start waits next →
    next.LeadsBy E new next' → Undergoes E start (new ++ waits) next'

theorem Next.LeadsBy.leads {new : List (Await × Wake)} {next next' : Next P}
    (h : next.LeadsBy E new next') : next.Leads E next' := by
  cases h with
  | turn r input => exact .turn r input
  | wake r await world wake => exact .wake r await world wake

/-- **What a job passes through** it undergoes, and of its waits comes what may come of them. -/
theorem Passes.exists_undergoes {W : World P → Prop} {m : Memo} {job : Job} {next : Next P}
    (h : Passes E W m job next) :
    ∃ world waits, (Run.begin E { memo := m, scope := job.scope, world } job.node).Undergoes E waits
      next ∧ ∀ wait ∈ waits, wait.1.Comes (Job.Ends E W) wait.2 := by
  obtain ⟨world, hadvances⟩ := h.exists_advances
  refine ⟨world, ?_⟩
  clear h
  induction hadvances with
  | refl => exact ⟨[], .refl, List.forall_mem_nil _⟩
  | tail _ hlast ih =>
    obtain ⟨waits, hundergoes, hcome⟩ := ih
    cases hlast with
    | turn r input => exact ⟨waits, hundergoes.tail (.turn r input), hcome⟩
    | @wake r await world wake _ hwake =>
      exact ⟨_, hundergoes.tail (.wake r await world wake), List.forall_mem_cons.2 ⟨hwake, hcome⟩⟩

/-- **What a run at a root undergoes,** if its waits come to what may come of them, is what a
job passes through. -/
theorem Next.Undergoes.passes {m : Memo} {job : Job} {world : World P}
    {waits : List (Await × Wake)} {next : Next P}
    (h : (Run.begin E { memo := m, scope := job.scope, world } job.node).Undergoes E waits next)
    (hcome : ∀ wait ∈ waits, wait.1.Comes (Job.Ends E fun _ => True) wait.2) :
    Passes E (fun _ => True) m job next := by
  induction h with
  | refl => exact .begin trivial
  | tail _ hleads ih =>
    cases hleads with
    | turn r input => exact (ih hcome).turn
    | wake r await world wake =>
      obtain ⟨hwake, hbefore⟩ := List.forall_mem_cons.1 hcome
      exact (ih hbefore).wake_of_comes trivial hwake

/-! ## Runs inside of runs -/

namespace Next.Mirrors

variable {base : Run P} {inner outer inner' outer' : Next P} {waits new : List (Await × Wake)}

/-- **The runs go on together,** or the one that goes on inside of the other has ended. -/
theorem cases_next (h : Mirrors base inner outer) :
    (∃ r r' input, inner = .resume r input ∧ outer = .resume r' input ∧ base.Encloses r r') ∨
      (∃ r r' await, inner = .wait r await ∧ outer = .wait r' await ∧ base.Encloses r r') ∨
      ∃ o r, inner = .finish o ∧ outer = r.answer ⟨o.result, o.tainted⟩ ∧ base.Receives o r := by
  cases h with
  | resume input h => exact .inl ⟨_, _, input, rfl, rfl, h⟩
  | wait await h => exact .inr (.inl ⟨_, _, await, rfl, rfl, h⟩)
  | finish h => exact .inr (.inr ⟨_, _, rfl, rfl, h⟩)

variable (hbase : base.frames.items ≠ []) (hdet : E.registry.Deterministic)
  (hlimit : E.limits.maxSteps = none)

include hbase hdet hlimit

/-- **What the inner run does next** is done in the outer one. -/
theorem step (h : Mirrors base inner outer) (hstaffed : inner.run.Staffed E)
    (hleads : inner.LeadsBy E new inner') :
    ∃ outer', outer.LeadsBy E new outer' ∧ Mirrors base inner' outer' := by
  cases hleads with
  | turn r input =>
    cases h with
    | resume _ hencloses =>
      exact ⟨_, .turn _ input, hencloses.turn hbase hdet hlimit hstaffed input⟩
  | wake r await world wake =>
    cases h with
    | wait _ hencloses => exact ⟨_, .wake _ await world wake, hencloses.wake hbase world world wake⟩

/-- **What the outer run does next** is done by the inner one, if that has not ended. -/
theorem exists_step (h : Mirrors base inner outer) (hstaffed : inner.run.Staffed E)
    (hleads : outer.LeadsBy E new outer') :
    (∃ inner', inner.LeadsBy E new inner' ∧ Mirrors base inner' outer') ∨
      ∃ o r, inner = .finish o ∧ outer = r.answer ⟨o.result, o.tainted⟩ ∧ base.Receives o r := by
  rcases h.cases_next with ⟨r, r', input, rfl, rfl, hencloses⟩ | ⟨r, r', await, rfl, rfl, hencloses⟩ | hended
  · cases hleads
    exact .inl ⟨_, .turn r input, hencloses.turn hbase hdet hlimit hstaffed input⟩
  · cases hleads with
    | wake _ _ world wake =>
      exact .inl ⟨_, .wake r await world wake, hencloses.wake hbase world world wake⟩
  · exact .inr hended

/-- **Whatever the inner run undergoes,** the outer one does. -/
theorem undergoes (h : Mirrors base inner outer) (hstaffed : inner.run.Staffed E)
    (hinner : inner.Undergoes E waits inner') :
    ∃ outer', outer.Undergoes E waits outer' ∧ Mirrors base inner' outer' ∧ inner'.run.Staffed E := by
  induction hinner with
  | refl => exact ⟨outer, .refl, h, hstaffed⟩
  | tail _ hleads ih =>
    obtain ⟨outer', houter, hmirrors, hr⟩ := ih
    obtain ⟨outer'', hstep, hmirrors'⟩ := hmirrors.step hbase hdet hlimit hr hleads
    exact ⟨outer'', houter.tail hstep, hmirrors', hleads.leads.staffed hr⟩

/-- **Whatever the outer run undergoes,** the inner one does until it ends, and the rest comes
after the answer. -/
theorem exists_undergoes (h : Mirrors base inner outer) (hstaffed : inner.run.Staffed E)
    (houter : outer.Undergoes E waits outer') :
    (∃ inner', inner.Undergoes E waits inner' ∧ Mirrors base inner' outer' ∧ inner'.run.Staffed E) ∨
      ∃ before after o r, waits = after ++ before ∧ inner.Undergoes E before (.finish o) ∧
        base.Receives o r ∧ outer.Undergoes E before (r.answer ⟨o.result, o.tainted⟩) ∧
        (r.answer ⟨o.result, o.tainted⟩).Undergoes E after outer' := by
  induction houter with
  | refl => exact .inl ⟨inner, .refl, h, hstaffed⟩
  | @tail waits new outer' outer'' houter hleads ih =>
    rcases ih with ⟨inner', hinner, hmirrors, hr⟩ |
      ⟨before, after, o, r, rfl, hinner, hreceives, hanswer, hafter⟩
    · rcases hmirrors.exists_step hbase hdet hlimit hr hleads with ⟨inner'', hstep, hmirrors'⟩ |
        ⟨o, r, rfl, rfl, hreceives⟩
      · exact .inl ⟨inner'', hinner.tail hstep, hmirrors', hstep.leads.staffed hr⟩
      · have hfirst := Undergoes.tail .refl hleads
        rw [List.append_nil] at hfirst
        exact .inr ⟨waits, new, o, r, rfl, hinner, hreceives, houter, hfirst⟩
    · exact .inr ⟨before, new ++ after, o, r, (List.append_assoc _ _ _).symm, hinner, hreceives,
        hanswer, hafter.tail hleads⟩

/-- **If the outer run comes to something by itself,** so does the inner one, and the outer one
goes on from its end. -/
theorem exists_solo (h : Mirrors base inner outer) (hstaffed : inner.run.Staffed E) {e : Report}
    {d n : Nat} (hsolo : Solo E outer e d n) :
    ∃ o r own work rest left, Solo E inner o.report own work ∧ base.Receives o r ∧
      Solo E (r.answer ⟨o.result, o.tainted⟩) e rest left ∧ d = own + rest := by
  -- once the inner run has ended, nothing of the outer one is its
  have hended : ∀ {inner outer : Next P} {e : Report} {d n : Nat}, Solo E outer e d n →
      (∃ o r, inner = .finish o ∧ outer = r.answer ⟨o.result, o.tainted⟩ ∧ base.Receives o r) →
      ∃ o r own work rest left, Solo E inner o.report own work ∧ base.Receives o r ∧
        Solo E (r.answer ⟨o.result, o.tainted⟩) e rest left ∧ d = own + rest := by
    rintro _ _ e d n hsolo ⟨o, r, rfl, rfl, hreceives⟩
    exact ⟨o, r, 0, 2, d, n, .finish o, hreceives, hsolo, (Nat.zero_add d).symm⟩
  induction hsolo generalizing inner with
  | finish o =>
    rcases h.cases_next with ⟨_, _, _, -, hsame, -⟩ | ⟨_, _, _, -, hsame, -⟩ | hfinish
    · cases hsame
    · cases hsame
    · exact hended (.finish o) hfinish
  | @resume r input e d n hturn ih =>
    rcases h.cases_next with ⟨r₀, _, _, rfl, hsame, hencloses⟩ | ⟨_, _, _, -, hsame, -⟩ | hfinish
    · cases hsame
      obtain ⟨o, r', own, work, rest, left, hinner, hreceives, hrest, hd⟩ :=
        ih (hencloses.turn hbase hdet hlimit hstaffed input) (Run.Staffed.turn hstaffed input)
      exact ⟨o, r', own, work + 1, rest, left, .resume hinner, hreceives, hrest, hd⟩
    · cases hsame
    · exact hended (.resume hturn) hfinish
  | @wait r await fates wake delay e d n hlength hfates hres hwake _ ih =>
    rcases h.cases_next with ⟨_, _, _, -, hsame, -⟩ | ⟨r₀, _, _, rfl, hsame, hencloses⟩ | hfinish
    · cases hsame
    · cases hsame
      have hwoken : (r₀.wake r.world wake).run.Staffed E := Run.Staffed.wake hstaffed r.world wake
      obtain ⟨o, r', own, work, rest, left, hinner, hreceives, hrest, hd⟩ :=
        ih r.world (hencloses.wake hbase r.world r.world wake) hwoken
      -- in other worlds the inner run comes to the same
      have hworlds : ∀ world, Solo E (r₀.wake world wake) o.report own work := by
        intro world
        have hself : r₀.Level r₀ := ⟨rfl, rfl, rfl, rfl, rfl⟩
        exact hinner.level hdet _ (hself.wake r.world world wake) hwoken
      refine ⟨o, r', delay + own, _, rest, left, .wait hlength hfates hres hworlds, hreceives, hrest, ?_⟩
      rw [hd, Nat.add_assoc]
    · exact hended (.wait hlength hfates hres hwake) hfinish

end Next.Mirrors

end ProgramGraph
