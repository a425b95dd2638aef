import Mathlib.Data.List.Forall2
import Mathlib.Logic.Relation
import ProgramGraph.Proofs.Solo.Basic
/-!
# What an evaluation involves

An evaluation that goes on by itself involves the turns of its run, whatever comes of
the jobs that the run waits for, and the run again when it has been told how they
ended. Jobs are followed to their ends here, whether their ends are waited for or not.

Two things may be asked of all this: that no wait hangs on which of two things comes
first (`Next.Untied`), and under which scopes a node is evaluated in the course of it
(`Next.Meets`).
-/

namespace ProgramGraph

open Relation

variable {P : Plugins}

/-- **What becomes of a job by itself,** whatever the world is when it begins. -/
def Engine.Fares (E : Engine P) (job : Job) (fate : Fate) : Prop :=
  ∀ world : World P, Solo E (Run.begin E { scope := job.scope, world } job.node)
    fate.report fate.duration fate.work

/-- **One thing brings another** in an evaluation that goes on by itself. -/
inductive Next.Brings (E : Engine P) : Next P → Next P → Prop
  | turn (r : Run P) (input : Input) : Brings E (.resume r input) (r.turn E input)
  | job {r : Run P} {await : Await} {job : Job} (world : World P) : job ∈ await.jobs →
    Brings E (.wait r await) (Run.begin E { scope := job.scope, world } job.node)
  | wake {r : Run P} {await : Await} {fates : List Fate} {wake : Wake} {delay : Nat}
      (world : World P) : List.Forall₂ E.Fares await.jobs fates →
    await.Resolves (fates.map Fate.ending) wake delay →
    Brings E (.wait r await) (r.wake world wake)

/-- **What an evaluation involves.** -/
def Next.Involves (E : Engine P) : Next P → Next P → Prop := ReflTransGen (Brings E)

/-- **No wait is tied:** however long the jobs of a wait take, it can be told what comes
of it and when. -/
def Next.Untied (E : Engine P) (next : Next P) : Prop :=
  ∀ (r : Run P) (await : Await) (fates : List Fate), next.Involves E (.wait r await) →
    List.Forall₂ E.Fares await.jobs fates →
    ∃ wake delay, await.Resolves (fates.map Fate.ending) wake delay

/-- **A node is evaluated under a scope:** its task has just been started there. -/
def Next.Meets (E : Engine P) (next : Next P) (id : NodeId) (s : Scope) : Prop :=
  ∃ (r : Run P) (frame : Frame P) (rest : List (Frame P)), next.Involves E (.resume r .start) ∧
    r.frames.items = frame :: rest ∧ frame.node = id ∧ r.scope = s

namespace Next

variable {E : Engine P} {next next' : Next P}

/-- What is untied stays so. -/
theorem Untied.of_brings (h : next.Untied E) (hbrings : next.Brings E next') : next'.Untied E :=
  fun r await fates hinvolves => h r await fates (ReflTransGen.head hbrings hinvolves)

/-- A node that is evaluated later on is evaluated. -/
theorem Meets.of_brings {id : NodeId} {s : Scope} (h : next'.Meets E id s)
    (hbrings : next.Brings E next') : next.Meets E id s := by
  obtain ⟨r, frame, rest, hinvolves, h⟩ := h
  exact ⟨r, frame, rest, ReflTransGen.head hbrings hinvolves, h⟩

end Next

/-! ## Waits -/

/-- What there is for each there is for all side by side. -/
theorem exists_forall₂ {α β : Type} {p : α → β → Prop} {as : List α} (h : ∀ a ∈ as, ∃ b, p a b) :
    ∃ bs, List.Forall₂ p as bs := by
  induction as with
  | nil => exact ⟨[], .nil⟩
  | cons a as ih =>
    rw [List.forall_mem_cons] at h
    obtain ⟨b, hb⟩ := h.1
    obtain ⟨bs, hbs⟩ := ih h.2
    exact ⟨b :: bs, .cons hb hbs⟩

/-- What is side by side with something. -/
theorem exists_mem_of_forall₂ {α β : Type} {p : α → β → Prop} {as : List α} {bs : List β}
    (h : List.Forall₂ p as bs) :
    (∀ a ∈ as, ∃ b ∈ bs, p a b) ∧ ∀ b ∈ bs, ∃ a ∈ as, p a b := by
  induction h with
  | nil => exact ⟨nofun, nofun⟩
  | cons hab _ ih =>
    simp only [List.forall_mem_cons, List.exists_mem_cons_iff]
    exact ⟨⟨.inl hab, fun a ha => .inr (ih.1 a ha)⟩, .inl hab, fun b hb => .inr (ih.2 b hb)⟩

/-- What is side by side with the same things is so with each other. -/
theorem forall₂_of_getElem? {α β γ : Type} {p : β → γ → Prop} {as : List α} {bs : List β} {cs : List γ}
    (hbs : bs.length = as.length) (hcs : cs.length = as.length)
    (h : ∀ (i : Nat) (a : α) (b : β) (c : γ), as[i]? = some a → bs[i]? = some b →
      cs[i]? = some c → p b c) : List.Forall₂ p bs cs :=
  List.forall₂_iff_get.2 ⟨hbs.trans hcs.symm, fun i hb hc =>
    h i _ _ _ (List.getElem?_eq_getElem (hbs ▸ hb)) (List.getElem?_eq_getElem hb)
      (List.getElem?_eq_getElem hc)⟩

/-- Jobs and their fates, side by side and one by one. -/
theorem Engine.forall₂_fares_iff {E : Engine P} {jobs : List Job} {fates : List Fate} :
    List.Forall₂ E.Fares jobs fates ↔ fates.length = jobs.length ∧
      ∀ (i : Nat) (job : Job) (fate : Fate), jobs[i]? = some job → fates[i]? = some fate →
        E.Fares job fate := by
  rw [List.forall₂_iff_get]
  refine ⟨fun ⟨hlength, h⟩ => ⟨hlength.symm, fun i job fate hjob hfate => ?_⟩,
    fun ⟨hlength, h⟩ => ⟨hlength.symm, fun i hi hi' => ?_⟩⟩
  · obtain ⟨hi, rfl⟩ := List.getElem?_eq_some_iff.1 hjob
    obtain ⟨hi', rfl⟩ := List.getElem?_eq_some_iff.1 hfate
    exact h i hi hi'
  · exact h i _ _ (List.getElem?_eq_getElem hi) (List.getElem?_eq_getElem hi')

/-- The fate of the only job. -/
theorem Engine.exists_fate_of_single {E : Engine P} {job : Job} {fates : List Fate}
    (h : List.Forall₂ E.Fares [job] fates) : ∃ fate, fates = [fate] ∧ E.Fares job fate := by
  cases h with
  | cons hfate hnil =>
    cases hnil
    exact ⟨_, rfl, hfate⟩

namespace Solo

variable {E : Engine P} {r : Run P} {await : Await} {e : Report} {d n : Nat}

/-- A run that waits, told from the fates of its jobs. -/
theorem of_fares {fates : List Fate} {wake : Wake} {delay : Nat}
    (hfates : List.Forall₂ E.Fares await.jobs fates)
    (hres : await.Resolves (fates.map Fate.ending) wake delay)
    (hwake : ∀ world : World P, Solo E (r.wake world wake) e d n) :
    Solo E (.wait r await) e (delay + d) (Fate.workOf fates + n) := by
  obtain ⟨hlength, hjobs⟩ := Engine.forall₂_fares_iff.1 hfates
  exact .wait hlength hjobs hres hwake

/-- The fates of the jobs that a run waits for. -/
theorem exists_fares (h : Solo E (.wait r await) e d n) :
    ∃ (fates : List Fate) (wake : Wake) (delay rest left : Nat),
      List.Forall₂ E.Fares await.jobs fates ∧
      await.Resolves (fates.map Fate.ending) wake delay ∧
      (∀ world : World P, Solo E (r.wake world wake) e rest left) ∧
      d = delay + rest ∧ n = Fate.workOf fates + left := by
  obtain ⟨fates, wake, delay, rest, left, hlength, hjobs, hrest⟩ := h.of_wait
  exact ⟨fates, wake, delay, rest, left, Engine.forall₂_fares_iff.2 ⟨hlength, hjobs⟩, hrest⟩

end Solo

end ProgramGraph
