import ProgramGraph.Proofs.Passage.Alike
import ProgramGraph.Proofs.Schedule.Fallow
/-!
# A schedule that is lodged in another

Two schedules may have some of their jobs in common: each job of the first, the guest, does
what some job of the second, the host, does, under scopes that are alike and after a lag.
The host may have further jobs, which take their turns in between. So the same job has
different numbers in the two, its entries on the agenda have different tickets, and its clock
shows different times; a `Lodging` says which of them stand for each other.

What the two have in common is kept by whatever a common job does in both, and by whatever
any other job does in the host: such a job plans jobs of its own, is told of their ends, and
moves the clock only to a time at which nothing has been missed. Tickets are given out in
ascending order in both, so common entries come up in the same order.
-/

namespace ProgramGraph

variable {P : Plugins}

/-- **Which numbers stand for which** in a schedule and in one that it is lodged in, whose
clock is ahead by a lag. -/
structure Lodging (lag : Nat) where
  /-- The same job. -/
  job : JobId → JobId → Prop
  /-- The tickets of the same entry. -/
  ticket : Nat → Nat → Prop

variable {lag : Nat}

namespace Lodging

/-- The places of the same entry. -/
structure Place (l : Lodging lag) (p q : ProgramGraph.Place) : Prop where
  ticket : l.ticket p.ticket q.ticket
  time : q.time = p.time + lag

/-- The job is the host's own. -/
def Outside (l : Lodging lag) (k : JobId) : Prop := ∀ i, ¬ l.job i k

/-- More jobs and more entries are in common. -/
structure Within (l l' : Lodging lag) : Prop where
  job : ∀ i k, l.job i k → l'.job i k
  ticket : ∀ t u, l.ticket t u → l'.ticket t u

/-- One more job in common. -/
def withJob (l : Lodging lag) (i k : JobId) : Lodging lag :=
  { l with job := fun i' k' => l.job i' k' ∨ (i' = i ∧ k' = k) }

/-- One more entry in common. -/
def withTicket (l : Lodging lag) (t u : Nat) : Lodging lag :=
  { l with ticket := fun t' u' => l.ticket t' u' ∨ (t' = t ∧ u' = u) }

variable {l l' l'' : Lodging lag}

namespace Within

theorem refl (l : Lodging lag) : l.Within l := ⟨fun _ _ h => h, fun _ _ h => h⟩

theorem trans (h : l.Within l') (h' : l'.Within l'') : l.Within l'' :=
  ⟨fun i k hjob => h'.job i k (h.job i k hjob),
    fun t u hticket => h'.ticket t u (h.ticket t u hticket)⟩

theorem withJob (l : Lodging lag) (i k : JobId) : l.Within (l.withJob i k) :=
  ⟨fun _ _ => .inl, fun _ _ h => h⟩

theorem withTicket (l : Lodging lag) (t u : Nat) : l.Within (l.withTicket t u) :=
  ⟨fun _ _ h => h, fun _ _ => .inl⟩

theorem place (h : l.Within l') {p q : ProgramGraph.Place} (hplace : l.Place p q) : l'.Place p q :=
  ⟨h.ticket _ _ hplace.ticket, hplace.time⟩

end Within

end Lodging

/-! ## Agendas -/

/-- **The entries of common jobs** are on both agendas, in the same order. -/
structure Agenda.Lodges (l : Lodging lag) (a b : Agenda) : Prop where
  issued : a.Issued
  hostIssued : b.Issued
  bounds : ∀ t u, l.ticket t u → t < a.ticket ∧ u < b.ticket
  order : ∀ t u t' u', l.ticket t u → l.ticket t' u' → (t < t' ↔ u < u')
  guest : ∀ p i, a.Has p i → ∃ q k, l.job i k ∧ l.Place p q ∧ b.Has q k
  host : ∀ q i k, l.job i k → b.Has q k → ∃ p, l.Place p q ∧ a.Has p i

namespace Agenda.Lodges

variable {l l' : Lodging lag} {a b b' : Agenda} {p q p' q' : Place} {i k : JobId}

/-- Entries are the same in both or in neither. -/
theorem place_iff (h : a.Lodges l b) (hplace : l.Place p q) (hplace' : l.Place p' q') :
    p = p' ↔ q = q' := by
  have hlt := h.order _ _ _ _ hplace.ticket hplace'.ticket
  have hgt := h.order _ _ _ _ hplace'.ticket hplace.ticket
  have htime := hplace.time
  have htime' := hplace'.time
  rw [Place.mk.injEq, Place.mk.injEq]
  omega

/-- One more job in common, for which there is no entry yet. -/
theorem withJob (h : a.Lodges l b) (hhost : ∀ q, ¬ b.Has q k) :
    a.Lodges (l.withJob i k) b where
  issued := h.issued
  hostIssued := h.hostIssued
  bounds := h.bounds
  order := h.order
  guest p j hp := by
    obtain ⟨q, k', hjob, hplace, hq⟩ := h.guest p j hp
    exact ⟨q, k', .inl hjob, ⟨hplace.ticket, hplace.time⟩, hq⟩
  host q j k' hjob hq := by
    rcases hjob with hjob | ⟨rfl, rfl⟩
    · obtain ⟨p, hplace, hp⟩ := h.host q j k' hjob hq
      exact ⟨p, ⟨hplace.ticket, hplace.time⟩, hp⟩
    · exact absurd hq (hhost q)

/-- **An entry more for a common job.** -/
theorem add (h : a.Lodges l b) (hunique : ∀ i', l.job i' k → i' = i) (hjob : l.job i k)
    (time : Nat) :
    (a.add time i).2.Lodges (l.withTicket a.ticket b.ticket) (b.add (time + lag) k).2 ∧
      (l.withTicket a.ticket b.ticket).Place (a.add time i).1 (b.add (time + lag) k).1 := by
  have hnew : (l.withTicket a.ticket b.ticket).Place (a.add time i).1 (b.add (time + lag) k).1 :=
    ⟨.inr ⟨rfl, rfl⟩, rfl⟩
  have hwithin := Lodging.Within.withTicket l a.ticket b.ticket
  refine ⟨⟨h.issued.add time i, h.hostIssued.add _ k, fun t u hticket => ?_,
    fun t u t' u' hticket hticket' => ?_, fun p j hp => ?_, fun q j k' hj hq => ?_⟩, hnew⟩
  · rw [ticket_add, ticket_add]
    rcases hticket with hticket | ⟨rfl, rfl⟩
    · exact ⟨Nat.lt_succ_of_lt (h.bounds t u hticket).1, Nat.lt_succ_of_lt (h.bounds t u hticket).2⟩
    · exact ⟨Nat.lt_succ_self _, Nat.lt_succ_self _⟩
  · -- the new tickets are above all others
    rcases hticket with hticket | ⟨rfl, rfl⟩ <;> rcases hticket' with hticket' | ⟨rfl, rfl⟩
    · exact h.order t u t' u' hticket hticket'
    · have := h.bounds t u hticket
      omega
    · have := h.bounds t' u' hticket'
      omega
    · omega
  · rcases (has_add h.issued time).1 hp with ⟨rfl, rfl⟩ | hp
    · exact ⟨_, k, hjob, hnew, has_add_self h.hostIssued _⟩
    · obtain ⟨q, k', hj, hplace, hq⟩ := h.guest p j hp
      exact ⟨q, k', hj, hwithin.place hplace, hq.add h.hostIssued _ k⟩
  · rcases (has_add h.hostIssued (time + lag)).1 hq with ⟨rfl, rfl⟩ | hq
    · obtain rfl := hunique j hj
      exact ⟨_, hnew, has_add_self h.issued time⟩
    · obtain ⟨p, hplace, hp⟩ := h.host q j k' hj hq
      exact ⟨p, hwithin.place hplace, hp.add h.issued time i⟩

/-- **An entry less.** -/
theorem remove (h : a.Lodges l b) (hplace : l.Place p q) : (a.remove p).Lodges l (b.remove q) where
  issued := h.issued.remove p
  hostIssued := h.hostIssued.remove q
  bounds := h.bounds
  order := h.order
  guest p' j hp' := by
    obtain ⟨hne, hp'⟩ := has_remove.1 hp'
    obtain ⟨q', k', hj, hplace', hq'⟩ := h.guest p' j hp'
    exact ⟨q', k', hj, hplace', has_remove.2 ⟨fun heq => hne ((h.place_iff hplace' hplace).2 heq), hq'⟩⟩
  host q' j k' hj hq' := by
    obtain ⟨hne, hq'⟩ := has_remove.1 hq'
    obtain ⟨p', hplace', hp'⟩ := h.host q' j k' hj hq'
    exact ⟨p', hplace', has_remove.2 ⟨fun heq => hne ((h.place_iff hplace' hplace).1 heq), hp'⟩⟩

/-- **An entry more for a job of the host.** -/
theorem hostAdd (h : a.Lodges l b) (hout : l.Outside k) (time : Nat) :
    a.Lodges l (b.add time k).2 where
  issued := h.issued
  hostIssued := h.hostIssued.add time k
  bounds t u hticket := ⟨(h.bounds t u hticket).1, Nat.lt_succ_of_lt (h.bounds t u hticket).2⟩
  order := h.order
  guest p j hp := by
    obtain ⟨q, k', hj, hplace, hq⟩ := h.guest p j hp
    exact ⟨q, k', hj, hplace, hq.add h.hostIssued time k⟩
  host q j k' hj hq := by
    rcases (has_add h.hostIssued time).1 hq with ⟨-, rfl⟩ | hq
    · exact absurd hj (hout j)
    · exact h.host q j k' hj hq

/-- **An entry less of a job of the host,** if there is one at all. -/
theorem hostRemove (h : a.Lodges l b) (hout : ∀ k, b.Has q k → l.Outside k) :
    a.Lodges l (b.remove q) where
  issued := h.issued
  hostIssued := h.hostIssued.remove q
  bounds := h.bounds
  order := h.order
  guest p j hp := by
    obtain ⟨q', k', hj, hplace, hq'⟩ := h.guest p j hp
    refine ⟨q', k', hj, hplace, has_remove.2 ⟨?_, hq'⟩⟩
    rintro rfl
    exact hout k' hq' j hj
  host q' j k' hj hq' := h.host q' j k' hj (has_remove.1 hq').2

/-- **A common job that is next on the host's agenda** is next on the guest's. -/
theorem next? (h : a.Lodges l b) {rest : Agenda} (hnext : b.next? = some ((q, k), rest))
    (hjob : l.job i k) :
    ∃ p, l.Place p q ∧ a.Has p i ∧ a.next? = some ((p, i), a.remove p) := by
  obtain ⟨p, hplace, hp⟩ := h.host q i k hjob (next?_eq_some hnext).1
  refine ⟨p, hplace, hp, next?_of_isLE hp fun p' j hp' => ?_⟩
  obtain ⟨q', k', hj, hplace', hq'⟩ := h.guest p' j hp'
  -- the order of the host is the order of the guest
  have hle := isLE_of_next? hnext hq'
  rw [Place.compare_isLE_iff] at hle ⊢
  have horder := h.order _ _ _ _ hplace'.ticket hplace.ticket
  have htime := hplace.time
  have htime' := hplace'.time
  omega

end Agenda.Lodges

/-! ## Waits -/

/-- The same wait: for common jobs, and until the same time. -/
inductive Wait.Lodges (l : Lodging lag) : Wait → Wait → Prop
  | timer (due : Nat) (answer : Wake) : Lodges l (.timer due answer) (.timer (due + lag) answer)
  | job {i k : JobId} : l.job i k → Lodges l (.job i) (.job k)
  | all (found : List Conclusion) {ids ids' : List JobId} : List.Forall₂ l.job ids ids' →
    Lodges l (.all found ids) (.all found ids')
  | first {ids ids' : List JobId} : List.Forall₂ l.job ids ids' → Lodges l (.first ids) (.first ids')
  | deadline (due : Nat) {i k : JobId} : l.job i k →
    Lodges l (.deadline due i) (.deadline (due + lag) k)

namespace Wait.Lodges

variable {l l' : Lodging lag} {wait wait' : Wait} {conclusion? conclusion?' : JobId → Option Conclusion}

theorem mono (h : wait.Lodges l wait') (hwithin : l.Within l') : wait.Lodges l' wait' := by
  cases h with
  | timer due answer => exact .timer due answer
  | job hjob => exact .job (hwithin.job _ _ hjob)
  | all found hids => exact .all found (hids.imp fun _ _ => hwithin.job _ _)
  | first hids => exact .first (hids.imp fun _ _ => hwithin.job _ _)
  | deadline due hjob => exact .deadline due (hwithin.job _ _ hjob)

/-- The time of the wait. -/
theorem due? (h : wait.Lodges l wait') : wait'.due? = wait.due?.map (· + lag) := by
  cases h <;> rfl

theorem isLarge (h : wait.Lodges l wait') : wait'.isLarge = wait.isLarge := by
  cases h with
  | all found hids => simp only [Wait.isLarge, hids.length_eq]
  | _ => rfl

/-- The same jobs in front have settled. -/
theorem collect (hsame : ∀ i k, l.job i k → conclusion?' k = conclusion? i)
    {ids ids' : List JobId} (hids : List.Forall₂ l.job ids ids') (found : List Conclusion) :
    ∃ found' rest rest', collect conclusion? found ids = (found', rest) ∧
      collect conclusion?' found ids' = (found', rest') ∧ List.Forall₂ l.job rest rest' := by
  induction hids generalizing found with
  | nil => exact ⟨found, [], [], rfl, rfl, .nil⟩
  | @cons i k ids ids' hjob hids ih =>
    simp only [Wait.collect, hsame i k hjob]
    cases conclusion? i with
    | none => exact ⟨found, _, _, rfl, rfl, .cons hjob hids⟩
    | some c => exact ih (c :: found)

/-- The same job has settled first. -/
theorem findSome? (hsame : ∀ i k, l.job i k → conclusion?' k = conclusion? i)
    {ids ids' : List JobId} (hids : List.Forall₂ l.job ids ids') :
    ids'.findSome? conclusion?' = ids.findSome? conclusion? := by
  induction hids with
  | nil => rfl
  | @cons i k ids ids' hjob hids ih => simp only [List.findSome?_cons, hsame i k hjob, ih]

/-- **A look at the same wait** at the same time finds the same. -/
theorem look (h : wait.Lodges l wait') (hsame : ∀ i k, l.job i k → conclusion?' k = conclusion? i)
    (now : Nat) :
    (∃ wake, wait.look conclusion? now = .inl wake ∧
      wait'.look conclusion?' (now + lag) = .inl wake) ∨
    ∃ left left', wait.look conclusion? now = .inr left ∧
      wait'.look conclusion?' (now + lag) = .inr left' ∧ left.Lodges l left' := by
  cases h with
  | timer due answer =>
    simp only [Wait.look, Nat.add_le_add_iff_right]
    split
    · exact .inl ⟨answer, rfl, rfl⟩
    · exact .inr ⟨_, _, rfl, rfl, .timer due answer⟩
  | @job i k hjob =>
    simp only [Wait.look, hsame i k hjob]
    cases conclusion? i with
    | none => exact .inr ⟨_, _, rfl, rfl, .job hjob⟩
    | some c => exact .inl ⟨_, rfl, rfl⟩
  | all found hids =>
    obtain ⟨found', rest, rest', hcollect, hcollect', hrest⟩ := collect hsame hids found
    simp only [Wait.look, hcollect, hcollect']
    cases hrest with
    | nil => exact .inl ⟨_, rfl, rfl⟩
    | cons hjob hrest => exact .inr ⟨_, _, rfl, rfl, .all found' (.cons hjob hrest)⟩
  | @first ids ids' hids =>
    simp only [Wait.look, findSome? hsame hids]
    cases ids.findSome? conclusion? with
    | none => exact .inr ⟨_, _, rfl, rfl, .first hids⟩
    | some c => exact .inl ⟨_, rfl, rfl⟩
  | @deadline due i k hjob =>
    simp only [Wait.look, hsame i k hjob, Nat.add_le_add_iff_right]
    cases conclusion? i with
    | some c => exact .inl ⟨_, rfl, rfl⟩
    | none =>
      dsimp only
      split
      · exact .inl ⟨_, rfl, rfl⟩
      · exact .inr ⟨_, _, rfl, rfl, .deadline due hjob⟩

end Wait.Lodges

/-- **The wait that is arranged** for the same jobs. -/
theorem Await.Matches.lodges_toWait {l : Lodging lag} {await await' : Await} (h : await.Matches await')
    {ids ids' : List JobId} (hids : List.Forall₂ l.job ids ids')
    (hlength : ids.length = await.jobs.length) (now : Nat) :
    (await.toWait now ids).Lodges l (await'.toWait (now + lag) ids') := by
  have hdue : ∀ ms, Wait.dueAfter (now + lag) ms = Wait.dueAfter now ms + lag := fun ms => by
    simp only [Wait.dueAfter]
    omega
  cases h with
  | timer ms answer =>
    simp only [Await.toWait, hdue]
    exact .timer _ answer
  | job _ =>
    obtain ⟨i, rfl⟩ := List.length_eq_one_iff.1 hlength
    cases hids with
    | cons hjob _ => exact .job hjob
  | all _ => exact .all [] hids
  | first _ _ => exact .first hids
  | deadline ms _ =>
    obtain ⟨i, rfl⟩ := List.length_eq_one_iff.1 hlength
    cases hids with
    | cons hjob _ =>
      simp only [Await.toWait, hdue]
      exact .deadline _ hjob

/-! ## Schedules -/

/-- **The same stage** of a common job. -/
inductive Stage.Lodges (l : Lodging lag) : Stage P → Stage P → Prop
  | planned {job job' : Job} : job.Alike job' → Lodges l (.planned job) (.planned job')
  | active : Lodges l .active .active
  | waiting {run run' : Run P} {wait wait' : Wait} {alarm alarm' : Option Place} :
    run.Alike lag run' → wait.Lodges l wait' → Option.Rel l.Place alarm alarm' →
    Lodges l (.waiting run wait alarm) (.waiting run' wait' alarm')
  | settled (c : Conclusion) : Lodges l (.settled c) (.settled c)

theorem Stage.Lodges.mono {l l' : Lodging lag} {stage stage' : Stage P} (h : stage.Lodges l stage')
    (hwithin : l.Within l') : stage.Lodges l' stage' := by
  cases h with
  | planned hjob => exact .planned hjob
  | active => exact .active
  | waiting hrun hwait halarm =>
    refine .waiting hrun (hwait.mono hwithin) ?_
    cases halarm with
    | none => exact .none
    | some hplace => exact .some (hwithin.place hplace)
  | settled c => exact .settled c

namespace Schedule

/-- **A schedule is lodged in another.** Whoever asked for a common job is a common job, but
for the root of the guest, and whatever a common job asks for is one. -/
structure Lodges (l : Lodging lag) (g s : Schedule P) : Prop where
  stages : ∀ i k, l.job i k →
    ∃ stage stage', g.stage? i = some stage ∧ s.stage? k = some stage' ∧ stage.Lodges l stage'
  unique : ∀ i k i' k', l.job i k → l.job i' k' → (i = i' ↔ k = k')
  parents : ∀ i k, l.job i k → i ≠ root →
    ∃ i' k', g.parent? i = some i' ∧ s.parent? k = some k' ∧ l.job i' k'
  children : ∀ i k child, l.job i k → s.parent? child = some k → ∃ i', l.job i' child
  agenda : g.agenda.Lodges l s.agenda
  numbered : s.Numbered

namespace Lodges

variable {l : Lodging lag} {g s : Schedule P} {i k : JobId}

theorem lt_size (h : g.Lodges l s) (hjob : l.job i k) : i < g.jobs.size ∧ k < s.jobs.size := by
  obtain ⟨_, _, hi, hk, -⟩ := h.stages i k hjob
  exact ⟨lt_size_of_stage? hi, lt_size_of_stage? hk⟩

/-- A common job has settled in both schedules or in neither. -/
theorem conclusion?_eq (h : g.Lodges l s) (hjob : l.job i k) : s.conclusion? k = g.conclusion? i := by
  obtain ⟨_, _, hi, hk, hstage⟩ := h.stages i k hjob
  simp only [conclusion?, hi, hk]
  cases hstage <;> rfl

theorem eq_guest (h : g.Lodges l s) (hjob : l.job i k) {i' : JobId} (hjob' : l.job i' k) : i' = i :=
  (h.unique i' k i k hjob' hjob).2 rfl

/-- What is attended to is of no account. -/
theorem withFocus (h : g.Lodges l s) (focus focus' : Focus P) :
    Lodges l { g with focus } { s with focus := focus' } :=
  ⟨h.stages, h.unique, h.parents, h.children, h.agenda,
    ⟨h.numbered.issued, h.numbered.entries, h.numbered.parents⟩⟩

/-! ### What a common job does -/

theorem withAgenda {l' : Lodging lag} (h : g.Lodges l s) (hwithin : l.Within l')
    (hsame : ∀ i k, l'.job i k → l.job i k) {a b : Agenda} (hagenda : a.Lodges l' b)
    (hnumbered : Numbered { s with agenda := b }) :
    Lodges l' { g with agenda := a } { s with agenda := b } where
  stages i k hjob := by
    obtain ⟨stage, stage', hi, hk, hstage⟩ := h.stages i k (hsame i k hjob)
    exact ⟨stage, stage', hi, hk, hstage.mono hwithin⟩
  unique i k i' k' hjob hjob' := h.unique i k i' k' (hsame i k hjob) (hsame i' k' hjob')
  parents i k hjob hroot := by
    obtain ⟨i', k', hi, hk, hparent⟩ := h.parents i k (hsame i k hjob) hroot
    exact ⟨i', k', hi, hk, hwithin.job i' k' hparent⟩
  children i k child hjob hchild := by
    obtain ⟨i', hi'⟩ := h.children i k child (hsame i k hjob) hchild
    exact ⟨i', hwithin.job i' child hi'⟩
  agenda := hagenda
  numbered := hnumbered

/-- A common job comes to another stage. -/
theorem setStage (h : g.Lodges l s) (hjob : l.job i k) {stage stage' : Stage P}
    (hstage : stage.Lodges l stage') : (g.setStage i stage).Lodges l (s.setStage k stage') where
  stages i' k' hjob' := by
    by_cases hi : i' = i
    · obtain rfl := hi
      obtain rfl := (h.unique i' k i' k' hjob hjob').1 rfl
      exact ⟨stage, stage', stage?_setStage_self stage (h.lt_size hjob).1,
        stage?_setStage_self stage' (h.lt_size hjob).2, hstage⟩
    · have hk : k' ≠ k := fun heq => hi ((h.unique i' k' i k hjob' hjob).2 heq)
      obtain ⟨before, before', hbefore, hbefore', hsame⟩ := h.stages i' k' hjob'
      exact ⟨before, before', (stage?_setStage_of_ne stage hi).trans hbefore,
        (stage?_setStage_of_ne stage' hk).trans hbefore', hsame⟩
  unique := h.unique
  parents i' k' hjob' hroot := by
    rw [parent?_setStage, parent?_setStage]
    exact h.parents i' k' hjob' hroot
  children i' k' child hjob' hchild := by
    rw [parent?_setStage] at hchild
    exact h.children i' k' child hjob' hchild
  agenda := h.agenda
  numbered := h.numbered.setStage k stage'

/-- **A common job has an entry more.** -/
theorem add (h : g.Lodges l s) (hjob : l.job i k) (time : Nat) :
    ∃ l', l.Within l' ∧ l'.Place (g.agenda.add time i).1 (s.agenda.add (time + lag) k).1 ∧
      Lodges l' { g with agenda := (g.agenda.add time i).2 }
        { s with agenda := (s.agenda.add (time + lag) k).2 } := by
  obtain ⟨hagenda, hplace⟩ := h.agenda.add (fun _ => h.eq_guest hjob) hjob time
  have hwithin := Lodging.Within.withTicket l g.agenda.ticket s.agenda.ticket
  exact ⟨_, hwithin, hplace, h.withAgenda hwithin (fun _ _ hjob => hjob) hagenda
    (h.numbered.add (h.lt_size hjob).2 _)⟩

/-- **A common job plans a job.** The new job is common as well. -/
theorem plan (h : g.Lodges l s) (hjob : l.job i k) {job job' : Job} (halike : job.Alike job')
    (now : Nat) :
    ∃ l', l.Within l' ∧ l'.job g.jobs.size s.jobs.size ∧
      (g.plan now i job).2.Lodges l' (s.plan (now + lag) k job').2 := by
  have hnew : (l.withJob g.jobs.size s.jobs.size).job g.jobs.size s.jobs.size := .inr ⟨rfl, rfl⟩
  have hwithin : l.Within _ := (Lodging.Within.withJob l g.jobs.size s.jobs.size).trans
    (Lodging.Within.withTicket _ g.agenda.ticket s.agenda.ticket)
  have hguest : ∀ i', (l.withJob g.jobs.size s.jobs.size).job i' s.jobs.size → i' = g.jobs.size := by
    rintro i' (hold | ⟨rfl, -⟩)
    · exact absurd (h.lt_size hold).2 (Nat.lt_irrefl _)
    · rfl
  have hagenda : g.agenda.Lodges (l.withJob g.jobs.size s.jobs.size) s.agenda :=
    h.agenda.withJob fun q hq => Nat.lt_irrefl _ (h.numbered.entries q _ hq)
  refine ⟨_, hwithin, hnew, ?_⟩
  constructor
  case stages =>
    rintro i' k' (hold | ⟨rfl, rfl⟩)
    · obtain ⟨stage, stage', hi, hk, hstage⟩ := h.stages i' k' hold
      refine ⟨stage, stage', ?_, ?_, hstage.mono hwithin⟩
      · rw [stage?_plan, if_neg (Nat.ne_of_lt (h.lt_size hold).1), hi]
      · rw [stage?_plan, if_neg (Nat.ne_of_lt (h.lt_size hold).2), hk]
    · refine ⟨.planned job, .planned job', ?_, ?_, .planned halike⟩
      · rw [stage?_plan, if_pos rfl]
      · rw [stage?_plan, if_pos rfl]
  case unique =>
    rintro i₁ k₁ i₂ k₂ (hold | ⟨rfl, rfl⟩) (hold' | ⟨rfl, rfl⟩)
    · exact h.unique i₁ k₁ i₂ k₂ hold hold'
    · have hlt := h.lt_size hold
      exact ⟨fun heq => absurd heq (Nat.ne_of_lt hlt.1), fun heq => absurd heq (Nat.ne_of_lt hlt.2)⟩
    · have hlt := h.lt_size hold'
      exact ⟨fun heq => absurd heq (Nat.ne_of_gt hlt.1), fun heq => absurd heq (Nat.ne_of_gt hlt.2)⟩
    · exact ⟨fun _ => rfl, fun _ => rfl⟩
  case parents =>
    rintro i' k' (hold | ⟨rfl, rfl⟩) hroot
    · obtain ⟨i₁, k₁, hi, hk, hparent⟩ := h.parents i' k' hold hroot
      refine ⟨i₁, k₁, ?_, ?_, hwithin.job i₁ k₁ hparent⟩
      · rw [parent?_plan, if_neg (Nat.ne_of_lt (h.lt_size hold).1), hi]
      · rw [parent?_plan, if_neg (Nat.ne_of_lt (h.lt_size hold).2), hk]
    · refine ⟨i, k, ?_, ?_, hwithin.job i k hjob⟩
      · rw [parent?_plan, if_pos rfl]
      · rw [parent?_plan, if_pos rfl]
  case children =>
    intro i' k' child hjob' hchild
    rw [parent?_plan] at hchild
    split at hchild
    next hnew' =>
      rw [hnew']
      exact ⟨g.jobs.size, hnew⟩
    next =>
      rcases hjob' with hold | ⟨-, rfl⟩
      · obtain ⟨i₁, hi₁⟩ := h.children i' k' child hold hchild
        exact ⟨i₁, hwithin.job i₁ child hi₁⟩
      · exact absurd (h.numbered.parents child _ hchild) (Nat.lt_irrefl _)
  case agenda => exact (hagenda.add (fun i' => hguest i') hnew now).1
  case numbered => exact h.numbered.plan (h.lt_size hjob).2 _ job'

theorem planAll (h : g.Lodges l s) (hjob : l.job i k) {jobs jobs' : List Job}
    (halike : List.Forall₂ Job.Alike jobs jobs') (now : Nat) :
    ∃ l', l.Within l' ∧
      List.Forall₂ l'.job (g.planAll now i jobs).1 (s.planAll (now + lag) k jobs').1 ∧
      (g.planAll now i jobs).2.Lodges l' (s.planAll (now + lag) k jobs').2 := by
  induction halike generalizing l g s with
  | nil => exact ⟨l, .refl l, .nil, h⟩
  | @cons job job' jobs jobs' hfirst _ ih =>
    obtain ⟨l₁, hwithin, hnew, hplanned⟩ := h.plan hjob hfirst now
    obtain ⟨l₂, hwithin', hids, hall⟩ := ih hplanned (hwithin.job i k hjob)
    rw [planAll_cons, planAll_cons]
    exact ⟨l₂, hwithin.trans hwithin', .cons (hwithin'.job _ _ hnew) hids, hall⟩

/-! ### What a job of the host does -/

theorem hostWithAgenda (h : g.Lodges l s) {b : Agenda} (hagenda : g.agenda.Lodges l b)
    (hnumbered : Numbered { s with agenda := b }) : Lodges l g { s with agenda := b } :=
  ⟨h.stages, h.unique, h.parents, h.children, hagenda, hnumbered⟩

/-- A job of the host comes to another stage. -/
theorem hostSetStage (h : g.Lodges l s) (hout : l.Outside k) (stage : Stage P) :
    g.Lodges l (s.setStage k stage) where
  stages i' k' hjob := by
    have hk : k' ≠ k := by
      rintro rfl
      exact hout i' hjob
    obtain ⟨before, before', hi, hk', hstage⟩ := h.stages i' k' hjob
    exact ⟨before, before', hi, (stage?_setStage_of_ne stage hk).trans hk', hstage⟩
  unique := h.unique
  parents i' k' hjob hroot := by
    rw [parent?_setStage]
    exact h.parents i' k' hjob hroot
  children i' k' child hjob hchild := by
    rw [parent?_setStage] at hchild
    exact h.children i' k' child hjob hchild
  agenda := h.agenda
  numbered := h.numbered.setStage k stage

/-- A job of the host has an entry more. -/
theorem hostAdd (h : g.Lodges l s) (hout : l.Outside k) (hk : k < s.jobs.size) (time : Nat) :
    Lodges l g { s with agenda := (s.agenda.add time k).2 } :=
  h.hostWithAgenda (h.agenda.hostAdd hout time) (h.numbered.add hk time)

/-- A job of the host plans a job. -/
theorem hostPlan (h : g.Lodges l s) (hout : l.Outside k) (hk : k < s.jobs.size) (now : Nat)
    (job : Job) : g.Lodges l (s.plan now k job).2 where
  stages i' k' hjob := by
    obtain ⟨stage, stage', hi, hk', hstage⟩ := h.stages i' k' hjob
    refine ⟨stage, stage', hi, ?_, hstage⟩
    rw [stage?_plan, if_neg (Nat.ne_of_lt (h.lt_size hjob).2), hk']
  unique := h.unique
  parents i' k' hjob hroot := by
    rw [parent?_plan, if_neg (Nat.ne_of_lt (h.lt_size hjob).2)]
    exact h.parents i' k' hjob hroot
  children i' k' child hjob hchild := by
    rw [parent?_plan] at hchild
    split at hchild
    · cases hchild
      exact absurd hjob (hout i')
    · exact h.children i' k' child hjob hchild
  agenda := by
    refine h.agenda.hostAdd (fun i' hjob => ?_) now
    exact Nat.lt_irrefl _ (h.lt_size hjob).2
  numbered := h.numbered.plan hk now job

theorem hostPlanAll (h : g.Lodges l s) (hout : l.Outside k) (hk : k < s.jobs.size) (now : Nat)
    (jobs : List Job) : g.Lodges l (s.planAll now k jobs).2 := by
  induction jobs generalizing s with
  | nil => exact h
  | cons job jobs ih =>
    rw [planAll_cons]
    refine ih (h.hostPlan hout hk now job) ?_
    rw [size_plan]
    exact Nat.lt_succ_of_lt hk

end Lodges

end Schedule

end ProgramGraph
