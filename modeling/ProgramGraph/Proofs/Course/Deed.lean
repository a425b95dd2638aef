import ProgramGraph.Proofs.Course.Sound
/-!
# Deeds

What a course does apart from its answer is a deed: it takes a memo, leaves another
and adds to the counters. Deeds are done one after another, and two of them commute
if it makes no difference which is done first.

All that is said here of deeds is said of sound memos, and of what the memos say of
the nodes, not of how they hold it. The depth is no counter that adds up and is left
out (`Tally.counts`). The one way in which deeds come to commute is that they touch
different nodes (`Deed.Commute.of_on`); the others are that one of them touches none
(`Deed.Commute.count`), or that they are the same.
-/

namespace ProgramGraph

variable {P : Plugins}

/-! ## Counters that add up -/

/-- The counters that add up. -/
def Tally.counts (t : Tally) : Tally := { t with depth := 0 }

theorem Tally.counts_merge (t u : Tally) : (t.merge u).counts = t.counts.merge u.counts := rfl

/-! ## What memos say -/

/-- What the memo says of a node. -/
def Memo.status (m : Memo) (id : NodeId) : Option Value × Bool := (m.kept? id, m.isTainted id)

/-- **Sound memos that say the same of some nodes.** -/
def Memo.Alike (g : Graph) (reg : Registry P) (p : NodeId → Prop) (m m' : Memo) : Prop :=
  m.Sound g reg ∧ m'.Sound g reg ∧ ∀ id, p id → m.status id = m'.status id

namespace Memo

variable {g : Graph} {reg : Registry P} {p q : NodeId → Prop} {m m' m'' : Memo}

theorem Sound.alike (h : m.Sound g reg) : m.Alike g reg p m := ⟨h, h, fun _ _ => rfl⟩

theorem Alike.symm (h : m.Alike g reg p m') : m'.Alike g reg p m :=
  ⟨h.2.1, h.1, fun id hid => (h.2.2 id hid).symm⟩

theorem Alike.trans (h : m.Alike g reg p m') (h' : m'.Alike g reg p m'') : m.Alike g reg p m'' :=
  ⟨h.1, h'.2.1, fun id hid => (h.2.2 id hid).trans (h'.2.2 id hid)⟩

theorem Alike.mono (h : m.Alike g reg p m') (hpq : ∀ id, q id → p id) : m.Alike g reg q m' :=
  ⟨h.1, h.2.1, fun id hid => h.2.2 id (hpq id hid)⟩

theorem Alike.kept?_eq (h : m.Alike g reg p m') {id : NodeId} (hid : p id) :
    m.kept? id = m'.kept? id := congrArg Prod.fst (h.2.2 id hid)

theorem status_setTainted (m : Memo) (id other : NodeId) :
    (m.setTainted id).status other = if id = other then (none, true) else m.status other := by
  unfold status
  rw [kept?_setTainted, isTainted_setTainted]
  by_cases h : id = other
  · simp [h]
  · simp [h]

theorem status_put (m : Memo) (id other : NodeId) (value : Value) (tainted : Bool) :
    (m.put id value tainted).status other =
      if id = other then (if tainted then none else some value, tainted) else m.status other := by
  unfold status
  rw [kept?_put, isTainted_put]
  split <;> rfl

end Memo

/-! ## Deeds -/

/-- **Something done with a memo:** the memo that it leaves, and what it adds to the
counters. -/
def Deed := Memo → Memo × Tally

/-- What a course does apart from its answer. -/
def Course.trace (c : Course) : Memo × Tally := (c.memo, c.cost.tally)

namespace Deed

/-- Something is counted, and nothing else is done. -/
def count (t : Tally) : Deed := fun m => (m, t)

/-- The memo is changed, and nothing is counted. -/
def record (f : Memo → Memo) : Deed := fun m => (f m, .zero)

/-- One deed after another. -/
def andThen (a b : Deed) : Deed := fun m => ((b (a m).1).1, (a m).2.merge (b (a m).1).2)

/-- One deed if the node is kept, another if it is not. -/
def ifKept (id : NodeId) (a b : Deed) : Deed := fun m => if m.keeps id then a m else b m

/-- **What follows on an answer,** which is handed over first. A fatal error lets
nothing follow. -/
def following (answer : Answer) (next : Reply → Deed) : Deed :=
  match Reply.ofResult answer.result with
  | .ok reply => (count (Cost.handing reply).tally).andThen (next reply)
  | .error _ => count .zero

variable {a a' b b' c : Deed}

theorem andThen_assoc (a b c : Deed) : (a.andThen b).andThen c = a.andThen (b.andThen c) := by
  funext m
  exact congrArg (Prod.mk _) (Tally.merge_assoc _ _ _)

@[simp] theorem count_zero_andThen (a : Deed) : (count .zero).andThen a = a := by
  funext m
  exact congrArg (Prod.mk _) (Tally.zero_merge _)

@[simp] theorem andThen_count_zero (a : Deed) : a.andThen (count .zero) = a := by
  funext m
  exact congrArg (Prod.mk _) (Tally.merge_zero _)

section

variable (g : Graph) (reg : Registry P)

/-- **Two deeds do the same with some nodes:** done with memos that say the same of
these nodes they leave such memos again, and count the same. -/
def Like (p : NodeId → Prop) (a b : Deed) : Prop :=
  ∀ m m', m.Alike g reg p m' →
    (a m).1.Alike g reg p (b m').1 ∧ (a m).2.counts = (b m').2.counts

/-- The deed changes nothing but these nodes. -/
def Frames (p : NodeId → Prop) (a : Deed) : Prop :=
  ∀ m, m.Sound g reg → ∀ id, ¬ p id → (a m).1.status id = m.status id

/-- **The deed touches these nodes only:** what it does hangs on none of the others
and changes none of them. -/
structure On (p : NodeId → Prop) (a : Deed) : Prop where
  like : Like g reg p a a
  frame : Frames g reg p a

/-- **It makes no difference which of two deeds is done first.** -/
def Commute (a b : Deed) : Prop := Like g reg (fun _ => True) (a.andThen b) (b.andThen a)

end

variable {g : Graph} {reg : Registry P} {p q : NodeId → Prop} {id : NodeId} {m : Memo}

/-! ## Deeds that do the same -/

namespace Like

theorem symm (h : Like g reg p a b) : Like g reg p b a := by
  intro m m' hm
  obtain ⟨halike, hcounts⟩ := h m' m hm.symm
  exact ⟨halike.symm, hcounts.symm⟩

theorem trans (h : Like g reg p a b) (h' : Like g reg p b c) : Like g reg p a c := by
  intro m m' hm
  obtain ⟨halike, hcounts⟩ := h m m hm.1.alike
  obtain ⟨halike', hcounts'⟩ := h' m m' hm
  exact ⟨halike.trans halike', hcounts.trans hcounts'⟩

theorem andThen (h : Like g reg p a a') (h' : Like g reg p b b') :
    Like g reg p (a.andThen b) (a'.andThen b') := by
  intro m m' hm
  obtain ⟨halike, hcounts⟩ := h m m' hm
  obtain ⟨halike', hcounts'⟩ := h' _ _ halike
  refine ⟨halike', ?_⟩
  simp only [Deed.andThen, Tally.counts_merge, hcounts, hcounts']

/-- Deeds that are the same with sound memos. -/
theorem congr (h : Like g reg p a b) (ha : ∀ m, m.Sound g reg → a' m = a m)
    (hb : ∀ m, m.Sound g reg → b' m = b m) : Like g reg p a' b' := by
  intro m m' hm
  rw [ha m hm.1, hb m' hm.2.1]
  exact h m m' hm

/-- **What two deeds do alike with all nodes they change** they do alike with more. -/
theorem mono (h : Like g reg p a b) (ha : Frames g reg p a) (hb : Frames g reg p b)
    (hpq : ∀ id, p id → q id) : Like g reg q a b := by
  intro m m' hm
  obtain ⟨halike, hcounts⟩ := h m m' (hm.mono hpq)
  refine ⟨⟨halike.1, halike.2.1, fun id hid => ?_⟩, hcounts⟩
  by_cases hp : p id
  · exact halike.2.2 id hp
  · rw [ha m hm.1 id hp, hb m' hm.2.1 id hp]
    exact hm.2.2 id hid

theorem count {t u : Tally} (h : t.counts = u.counts) : Like g reg p (count t) (count u) :=
  fun _ _ hm => ⟨hm, h⟩

theorem following {answer : Answer} {next next' : Reply → Deed}
    (h : ∀ reply, Reply.ofResult answer.result = .ok reply →
      Like g reg p (next reply) (next' reply)) :
    Like g reg p (following answer next) (following answer next') := by
  unfold Deed.following
  split
  next reply hreply => exact (count rfl).andThen (h reply hreply)
  next => exact count rfl

/-- What two deeds do if the node is kept they do alike in one case, and in the
other. -/
theorem ifKept (hid : p id) (h : Like g reg p a a') (h' : Like g reg p b b') :
    Like g reg p (ifKept id a b) (ifKept id a' b') := by
  intro m m' hm
  have hkeeps : m.keeps id = m'.keeps id := congrArg Option.isSome (hm.kept?_eq hid)
  simp only [Deed.ifKept, hkeeps]
  split
  · exact h m m' hm
  · exact h' m m' hm

end Like

/-! ## Deeds on some nodes -/

namespace On

theorem sound (h : On g reg p a) (hm : m.Sound g reg) : (a m).1.Sound g reg :=
  (h.like m m hm.alike).1.1

/-- **What touches some nodes only** touches only some of more. -/
theorem mono (h : On g reg p a) (hpq : ∀ id, p id → q id) : On g reg q a :=
  ⟨h.like.mono h.frame h.frame hpq, fun m hm id hid => h.frame m hm id fun hp => hid (hpq id hp)⟩

theorem everywhere (h : On g reg p a) : Like g reg (fun _ => True) a a :=
  (h.mono fun _ _ => trivial).like

theorem count (t : Tally) : On g reg p (count t) := ⟨.count rfl, fun _ _ _ _ => rfl⟩

theorem andThen (h : On g reg p a) (h' : On g reg p b) : On g reg p (a.andThen b) := by
  refine ⟨h.like.andThen h'.like, fun m hm id hid => ?_⟩
  exact (h'.frame _ (h.sound hm) id hid).trans (h.frame m hm id hid)

theorem congr (h : On g reg p a) (ha : ∀ m, m.Sound g reg → a' m = a m) : On g reg p a' := by
  refine ⟨h.like.congr ha ha, fun m hm id hid => ?_⟩
  rw [ha m hm]
  exact h.frame m hm id hid

theorem following {answer : Answer} {next : Reply → Deed} (h : ∀ reply, On g reg p (next reply)) :
    On g reg p (following answer next) := by
  unfold Deed.following
  split
  next reply _ => exact (count _).andThen (h reply)
  next => exact count _

theorem ifKept (hid : p id) (h : On g reg p a) (h' : On g reg p b) :
    On g reg p (ifKept id a b) := by
  refine ⟨h.like.ifKept hid h'.like, fun m hm other hother => ?_⟩
  unfold Deed.ifKept
  split
  · exact h.frame m hm other hother
  · exact h'.frame m hm other hother

/-- A mark touches its node. -/
theorem setTainted (id : NodeId) : On g reg (· = id) (record (·.setTainted id)) := by
  refine ⟨fun m m' hm => ⟨⟨hm.1.setTainted id, hm.2.1.setTainted id, ?_⟩, rfl⟩, ?_⟩
  · rintro _ rfl
    simp only [record, Memo.status_setTainted]
    rfl
  · intro m _ other hother
    exact (Memo.status_setTainted m id other).trans (if_neg (Ne.symm hother))

/-- So does a result that is rightly kept. -/
theorem keep {answer : Answer} {s : Scope} (h : g.evaluate reg id s = answer) :
    On g reg (· = id) (record (Graph.keep id answer)) := by
  have hkeep : ∀ m, m.Sound g reg → (Graph.keep id answer m).Sound g reg :=
    fun m hm => hm.keep fun _ => h
  refine ⟨fun m m' hm => ⟨⟨hkeep m hm.1, hkeep m' hm.2.1, ?_⟩, rfl⟩, fun m hm other hother => ?_⟩
  · rintro _ rfl
    simp only [record, Graph.keep]
    split
    · simp only [Memo.status_put, if_true]
    · exact hm.2.2 _ rfl
  · simp only [record, Graph.keep]
    split
    · exact (Memo.status_put m id other _ _).trans (if_neg (Ne.symm hother))
    · rfl

end On

/-! ## Deeds that commute -/

namespace Commute

theorem symm (h : Commute g reg a b) : Commute g reg b a := Like.symm h

/-- Deeds that do the same commute. -/
theorem of_like (h : Like g reg (fun _ => True) a b) : Commute g reg a b := h.andThen h.symm

/-- **Counting commutes with everything.** -/
theorem count (ha : On g reg p a) (t : Tally) : Commute g reg a (count t) := by
  intro m m' hm
  obtain ⟨halike, hcounts⟩ := ha.everywhere m m' hm
  refine ⟨halike, ?_⟩
  simp only [andThen, Deed.count, Tally.counts_merge, hcounts, Tally.merge_comm]

/-- **Deeds on different nodes commute.** -/
theorem of_on (ha : On g reg p a) (hb : On g reg q b) (h : ∀ id, p id → ¬ q id) :
    Commute g reg a b := by
  intro m m' hm
  have hsound := hm.1
  have hsound' := hm.2.1
  -- neither deed sees what the other has done
  have hseen := ha.like (b m').1 m' ⟨hb.sound hsound', hsound', fun id hid =>
    hb.frame m' hsound' id (h id hid)⟩
  have hseen' := hb.like (a m).1 m ⟨ha.sound hsound, hsound, fun id hid =>
    ha.frame m hsound id fun hp => h id hp hid⟩
  have hpart := ha.everywhere m m' hm
  have hpart' := hb.everywhere m m' hm
  refine ⟨⟨hb.sound (ha.sound hsound), ha.sound (hb.sound hsound'), fun id _ => ?_⟩, ?_⟩
  · show (b (a m).1).1.status id = (a (b m').1).1.status id
    by_cases hp : p id
    · rw [hb.frame _ (ha.sound hsound) id (h id hp), hseen.1.2.2 id hp]
      exact hpart.1.2.2 id trivial
    rw [ha.frame _ (hb.sound hsound') id hp]
    by_cases hq : q id
    · rw [hseen'.1.2.2 id hq]
      exact hpart'.1.2.2 id trivial
    · rw [hb.frame _ (ha.sound hsound) id hq, ha.frame m hsound id hp, hb.frame m' hsound' id hq]
      exact hm.2.2 id trivial
  · simp only [andThen, Tally.counts_merge]
    rw [hseen'.2, hpart.2, hpart'.2, hseen.2, Tally.merge_comm]

/-- What commutes with one deed and another commutes with both one after the
other. -/
theorem andThen (hb : On g reg q b) (hc : On g reg q c)
    (h : Commute g reg a b) (h' : Commute g reg a c) : Commute g reg a (b.andThen c) := by
  have hfirst : Like g reg (fun _ => True) ((a.andThen b).andThen c) ((b.andThen a).andThen c) :=
    Like.andThen h hc.everywhere
  have hsecond : Like g reg (fun _ => True) (b.andThen (a.andThen c)) (b.andThen (c.andThen a)) :=
    hb.everywhere.andThen h'
  rw [andThen_assoc, andThen_assoc] at hfirst
  have hboth := hfirst.trans hsecond
  rwa [← andThen_assoc b] at hboth

theorem congr (h : Commute g reg a b) (ha : On g reg p a) (hb : ∀ m, m.Sound g reg → b' m = b m) :
    Commute g reg a b' := by
  refine Like.congr h (fun m hm => ?_) fun m hm => ?_
  · simp only [Deed.andThen, hb _ (ha.sound hm)]
  · simp only [Deed.andThen, hb m hm]

theorem following {answer : Answer} {next : Reply → Deed} (ha : On g reg p a)
    (hnext : ∀ reply, On g reg q (next reply)) (h : ∀ reply, Commute g reg a (next reply)) :
    Commute g reg a (following answer next) := by
  unfold Deed.following
  split
  next reply _ => exact andThen (.count _) (hnext reply) (count ha _) (h reply)
  next => exact count ha _

/-- **A deed that does not touch the node** commutes with what is done if it is
kept, and with what is done if not. -/
theorem ifKept (ha : On g reg p a) (hid : ¬ p id) (h : Commute g reg a b)
    (h' : Commute g reg a c) : Commute g reg a (ifKept id b c) := by
  intro m m' hm
  have hframe : (a m).1.keeps id = m.keeps id :=
    congrArg (Option.isSome ∘ Prod.fst) (ha.frame m hm.1 id hid)
  have hkeeps : m.keeps id = m'.keeps id := congrArg Option.isSome (hm.kept?_eq trivial)
  simp only [Deed.andThen, Deed.ifKept, hframe, hkeeps]
  split
  · exact h m m' hm
  · exact h' m m' hm

end Commute

end Deed

end ProgramGraph
