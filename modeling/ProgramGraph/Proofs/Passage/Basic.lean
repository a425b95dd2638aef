import Mathlib.Logic.Relation
import ProgramGraph.Proofs.Schedule.Clock
/-!
# Passages of a run

Seen by itself, a run goes from turn to turn, and whenever it waits it goes on
with whatever comes of the wait, in whatever the world is by then. What is true
of all that a run may reach in this way is true of it on every schedule, among
whatever other jobs.

What a turn does to the frames is said once, by `Run.Shifts`: they stay, one is
pushed, one is popped, or all are dropped, and the scope and the overlays go
along. Nothing is assumed of the tasks.
-/

namespace ProgramGraph

variable {P : Plugins}

/-- The run that goes on, waits or has ended. -/
def Next.run : Next P → Run P
  | resume run _ => run
  | wait run _ => run
  | finish o => o.run

/-- **What a run can do next.** Its turns are settled; what comes of a wait is
not, and neither is the world after it. -/
inductive Next.Leads (E : Engine P) : Next P → Next P → Prop
  | turn (r : Run P) (input : Input) : Leads E (.resume r input) (r.turn E input)
  | wake (r : Run P) (await : Await) (world : World P) (wake : Wake) :
    Leads E (.wait r await) (r.wake world wake)

/-- **What a run at a root may come to,** from a memo and under a scope. -/
def Engine.MayReach (E : Engine P) (root : NodeId) (memo : Memo) (scope : Scope) (world : World P)
    (next : Next P) : Prop :=
  Relation.ReflTransGen (Next.Leads E) (Run.begin E { memo, scope, world } root) next

/-- A run that has ended does nothing more. -/
theorem Next.not_leads_finish {E : Engine P} (o : Outcome P) (next : Next P) :
    ¬ Leads E (.finish o) next := nofun

/-! ## Memos as they are made -/

/-- **The memo has been made by the operations of memos.** There are no others,
so every memo that there is has been made in this way. -/
inductive Memo.Made : Memo → Prop
  | empty : Made .empty
  | put {m : Memo} (id : NodeId) (value : Value) (tainted : Bool) :
    m.Made → (m.put id value tainted).Made
  | setTainted {m : Memo} (id : NodeId) : m.Made → (m.setTainted id).Made
  | clear {m : Memo} : m.Made → m.clear.Made
  | mapTally {m : Memo} : m.Made → ∀ f : Tally → Tally, (m.mapTally f).Made

/-- **No node is both kept and marked as tainted.** -/
theorem Memo.Made.notMem_results {m : Memo} (h : m.Made) {id : NodeId}
    (hid : m.isTainted id = true) : id ∉ m.results := by
  induction h with
  | empty => simp at hid
  | clear _ _ => simp at hid
  | mapTally _ f ih => exact ih hid
  | @setTainted m other _ ih =>
    rw [isTainted_setTainted] at hid
    by_cases hother : other = id
    · simp [Memo.setTainted, hother]
    · have hm : m.isTainted id = true := by simpa [hother] using hid
      simp [Memo.setTainted, ih hm]
  | @put m other value tainted _ ih =>
    rw [isTainted_put] at hid
    by_cases hother : other = id
    · rw [if_pos hother] at hid
      simp [Memo.put, Memo.setTainted, hid, hother]
    · rw [if_neg hother] at hid
      cases tainted <;> simp [Memo.put, Memo.setTainted, hother, ih hid]

/-! ## What a visit comes to -/

/-- **What a visit comes to,** case by case, and what each case takes. -/
inductive Run.Arrives (E : Engine P) (r : Run P) (id : NodeId) (restore : Nat) (fresh : Bool) :
    Run P × Arrival → Prop
  /-- There is no such node. -/
  | absent (node : E.graph.get? id = none) :
    Arrives E r id restore fresh
      (r.truncate restore, .ready ⟨.error (.invalidNode id "not in graph"), false⟩)
  /-- The node is a parameter. -/
  | param {node : Node} {p : ParamId} {result : Except EvalError Value}
    (found : E.graph.get? id = some node) (param : node.param? = some p) :
    Arrives E r id restore fresh
      ((((r.truncate restore).mapTally .countLookup).mapInnermost (·.setTainted id)).note
        (.lookedUp id), .ready ⟨result, true⟩)
  /-- Its result is kept. -/
  | served {node : Node} {value : Value} (found : E.graph.get? id = some node)
    (param : node.param? = none) (fresh_eq : fresh = false)
    (kept : r.innermost.kept? id = some value) :
    Arrives E r id restore fresh
      (((r.truncate restore).mapTally .countHit).note (.served id), .ready ⟨.ok value, false⟩)
  /-- There is no handler for it. -/
  | missing {node : Node} {error : EvalError} (found : E.graph.get? id = some node)
    (param : node.param? = none) (kept : (if fresh then none else r.innermost.kept? id) = none) :
    Arrives E r id restore fresh (r.truncate restore, .ready ⟨.error error, false⟩)
  /-- Its handler refuses it. -/
  | refused {node : Node} {error : EvalError} {volatile : Bool} {shared : P.Shared}
    (found : E.graph.get? id = some node) (param : node.param? = none)
    (kept : (if fresh then none else r.innermost.kept? id) = none) :
    Arrives E r id restore fresh
      (((r.truncate restore).withShared shared).note (.started id fresh false),
        .ready ⟨.error error, volatile⟩)
  /-- Its handler makes a task. -/
  | started {node : Node} {task : Task P} {volatile : Bool} {shared : P.Shared}
    (found : E.graph.get? id = some node) (param : node.param? = none)
    (kept : (if fresh then none else r.innermost.kept? id) = none) :
    Arrives E r id restore fresh
      (({ r.withShared shared with
          frames := r.frames.push ⟨id, task, volatile, false, restore, fresh⟩
          overlays := if fresh then .empty :: r.overlays else r.overlays }.mapTally
            fun tally => tally.countStart.reachDepth (r.frames.size + 1)).note
        (.started id fresh true), .pushed)

theorem Run.arrives (E : Engine P) (r : Run P) (id : NodeId) (restore : Nat) (fresh : Bool) :
    r.Arrives E id restore fresh (r.arrive E id restore fresh) := by
  unfold arrive
  split
  next hnode => exact .absent hnode
  next node hnode =>
  split
  next p hp => exact .param hnode hp
  next hp =>
  split
  next value hkept =>
    cases fresh with
    | true => cases hkept
    | false => exact .served hnode hp rfl hkept
  next hkept =>
  split
  next => exact .missing hnode hp hkept
  next =>
  split
  next => exact .refused hnode hp hkept
  next => exact .started hnode hp hkept

/-- **A frame that is pushed** has the task that the handler of its node has made. -/
theorem Run.exists_start_of_pushed {E : Engine P} {r r' : Run P} {id : NodeId} {restore : Nat}
    {fresh : Bool} (h : r.arrive E id restore fresh = (r', .pushed)) :
    ∃ (node : Node) (entry : Entry P) (task : Task P) (shared : P.Shared),
      E.graph.get? id = some node ∧ E.registry.get node.tag = .ok entry ∧
      entry.handler.start id node r.world.shared = (.ok task, shared) ∧
      r'.frames.items = ⟨id, task, entry.volatile, false, restore, fresh⟩ :: r.frames.items ∧
      r'.scope = r.scope ∧ r'.world.clock = r.world.clock := by
  unfold arrive at h
  split at h
  next => cases h
  next node hnode =>
  split at h
  next => cases h
  next =>
  split at h
  next => cases h
  next =>
  split at h
  next => cases h
  next entry hentry =>
  split at h
  next => cases h
  next task shared hstart =>
  cases h
  exact ⟨node, entry, task, shared, hnode, hentry, hstart, rfl, rfl, rfl⟩

/-- **Why a visit fails at once:** for want of the node, of a binding or of a handler, or because
the handler refuses the node. -/
inductive Run.Refuses (E : Engine P) (r : Run P) (id : NodeId) : EvalError → Prop
  | absent : E.graph.get? id = none → Refuses E r id (.invalidNode id "not in graph")
  | unbound {node : Node} {p : ParamId} : E.graph.get? id = some node → node.param? = some p →
    r.scope.lookup? p = none → Refuses E r id (.unboundParameter p)
  | missing {node : Node} {error : EvalError} : E.graph.get? id = some node → node.param? = none →
    E.registry.get node.tag = .error error → Refuses E r id error
  | refused {node : Node} {entry : Entry P} {error : EvalError} {shared : P.Shared} :
    E.graph.get? id = some node → node.param? = none → E.registry.get node.tag = .ok entry →
    entry.handler.start id node r.world.shared = (.error error, shared) → Refuses E r id error

theorem Run.refuses_of_arrive {E : Engine P} {r : Run P} {id : NodeId} {restore : Nat}
    {fresh tainted : Bool} {error : EvalError}
    (h : (r.arrive E id restore fresh).2 = .ready ⟨.error error, tainted⟩) :
    r.Refuses E id error := by
  unfold arrive at h
  split at h
  next hnode =>
    cases h
    exact .absent hnode
  next node hnode =>
  split at h
  next p hparam =>
    cases hlookup : r.scope.lookup? p <;> simp only [hlookup] at h <;> cases h
    exact .unbound hnode hparam hlookup
  next hparam =>
  split at h
  next => cases h
  next =>
  split at h
  next hmissing =>
    cases h
    exact .missing hnode hparam hmissing
  next entry hentry =>
  split at h
  next hstart =>
    cases h
    exact .refused hnode hparam hentry hstart
  next => cases h

/-! ## What happens to the frames -/

/-- What stays the same of a frame from its beginning to its end. -/
structure Slot where
  /-- The node that is evaluated. -/
  node : NodeId
  /-- The depth of the scope to go back to. -/
  depth : Nat
  /-- Whether there is an overlay for it. -/
  fresh : Bool

/-- What stays the same of the frame. -/
def Frame.slot (frame : Frame P) : Slot := ⟨frame.node, frame.scopeDepth, frame.fresh⟩

namespace Run

/-- What stays the same of the frames, top first. -/
def slots (r : Run P) : List Slot := r.frames.items.map Frame.slot

/-- The scope as it will be when the frames down to the lowest `n` have ended. -/
def scopeAt (r : Run P) (n : Nat) : Scope :=
  (r.slots.take (r.slots.length - n)).foldl (fun scope slot => scope.truncate slot.depth) r.scope

theorem length_slots (r : Run P) : r.slots.length = r.frames.size := by
  rw [slots, List.length_map, ← r.frames.size_eq]

/-- All memos of the run are made by the operations of memos. -/
def Whole (r : Run P) : Prop := ∀ m ∈ r.memo :: r.overlays, m.Made

/-- With no frame taken off the scope is the one at hand. -/
theorem scopeAt_length {r : Run P} {n : Nat} (h : r.slots.length ≤ n) : r.scopeAt n = r.scope := by
  rw [scopeAt, Nat.sub_eq_zero_of_le h, List.take_zero, List.foldl_nil]

/-- **A frame more makes no difference below it** if the scope goes back to what
it was. -/
theorem scopeAt_of_cons {r r' : Run P} {slot : Slot} (hslots : r'.slots = slot :: r.slots)
    (hscope : r'.scope.truncate slot.depth = r.scope) {n : Nat} (hn : n ≤ r.slots.length) :
    r'.scopeAt n = r.scopeAt n := by
  have hlength : r'.slots.length - n = r.slots.length - n + 1 := by
    rw [hslots, List.length_cons]
    omega
  rw [scopeAt, hlength, hslots, List.take_succ_cons, List.foldl_cons, hscope, scopeAt]

/-- The frames stay what they are, as far as the scope and the overlays go. -/
structure Rests (r r' : Run P) : Prop where
  slots : r'.slots = r.slots
  scope : r'.scope = r.scope
  overlays : r'.overlays.length = r.overlays.length
  whole : r.Whole → r'.Whole

/-- The top frame has ended. -/
structure Pops (slot : Slot) (r r' : Run P) : Prop where
  slots : r.slots = slot :: r'.slots
  scope : r'.scope = r.scope.truncate slot.depth
  overlays : r'.overlays.length = r.overlays.length - slot.fresh.toNat
  whole : r.Whole → r'.Whole

/-- All frames are dropped. -/
structure Drops (r r' : Run P) : Prop where
  slots : r'.slots = []
  scope : r'.scope = r.scopeAt 0
  overlays : r'.overlays = []
  whole : r.Whole → r'.Whole

/-- There is one frame more, for a node that is no parameter. It keeps the depth
of the scope that the node was asked for under, and has an overlay if it is a
fresh one. -/
structure Pushes (E : Engine P) (slot : Slot) (r r' : Run P) : Prop where
  node : ∃ node, E.graph.get? slot.node = some node ∧ node.param? = none
  slots : r'.slots = slot :: r.slots
  depth : slot.depth = r.scope.depth
  scope : r'.scope.truncate slot.depth = r.scope
  overlays : r'.overlays.length = r.overlays.length + slot.fresh.toNat
  whole : r.Whole → r'.Whole

/-- **What can become of the frames** in one go, the scope and the overlays with
them. -/
inductive Shifts (E : Engine P) (r r' : Run P) : Prop
  | stay (h : r.Rests r')
  | push (slot : Slot) (h : r.Pushes E slot r')
  | pop (slot : Slot) (h : r.Pops slot r')
  | stop (h : r.Drops r')

variable {E : Engine P} {r r' r'' : Run P}

theorem Rests.refl (r : Run P) : r.Rests r := ⟨rfl, rfl, rfl, id⟩

theorem Rests.trans (h : r.Rests r') (h' : r'.Rests r'') : r.Rests r'' :=
  ⟨h'.slots.trans h.slots, h'.scope.trans h.scope, h'.overlays.trans h.overlays,
    fun hr => h'.whole (h.whole hr)⟩

theorem Rests.scopeAt_eq (h : r.Rests r') (n : Nat) : r'.scopeAt n = r.scopeAt n := by
  rw [scopeAt, scopeAt, h.slots, h.scope]

theorem Rests.drops (h : r.Rests r') (h' : r'.Drops r'') : r.Drops r'' :=
  ⟨h'.slots, h'.scope.trans (h.scopeAt_eq 0), h'.overlays, fun hr => h'.whole (h.whole hr)⟩

theorem Rests.shifts (h : r.Rests r') (h' : r'.Shifts E r'') : r.Shifts E r'' := by
  cases h' with
  | stay h' => exact .stay (h.trans h')
  | push slot h' =>
    obtain ⟨node, slots, depth, scope, overlays, whole⟩ := h'
    rw [h.slots] at slots
    rw [h.scope] at depth scope
    rw [h.overlays] at overlays
    exact .push slot ⟨node, slots, depth, scope, overlays, fun hr => whole (h.whole hr)⟩
  | pop slot h' =>
    obtain ⟨slots, scope, overlays, whole⟩ := h'
    rw [h.slots] at slots
    rw [h.scope] at scope
    rw [h.overlays] at overlays
    exact .pop slot ⟨slots, scope, overlays, fun hr => whole (h.whole hr)⟩
  | stop h' => exact .stop (h.drops h')

/-- What follows on the end of the top frame. -/
theorem Pops.shifts {slot : Slot} (h : r.Pops slot r') (h' : r'.Rests r'' ∨ r'.Drops r'') :
    r.Shifts E r'' := by
  rcases h' with h' | h'
  · exact .pop slot ⟨by rw [h.slots, h'.slots], h'.scope.trans h.scope, h'.overlays.trans h.overlays,
      fun hr => h'.whole (h.whole hr)⟩
  · have hat : r'.scopeAt 0 = r.scopeAt 0 :=
      (scopeAt_of_cons h.slots h.scope.symm (Nat.zero_le _)).symm
    exact .stop ⟨h'.slots, h'.scope.trans hat, h'.overlays, fun hr => h'.whole (h.whole hr)⟩

namespace Shifts

theorem whole (h : r.Shifts E r') : r.Whole → r'.Whole := by
  cases h with
  | stay h => exact h.whole
  | push slot h => exact h.whole
  | pop slot h => exact h.whole
  | stop h => exact h.whole

/-- **The scope below a frame stays what it is** as long as the frame is there. -/
theorem scopeAt_eq (h : r.Shifts E r') {n : Nat} (hn : n ≤ r.slots.length)
    (hn' : n ≤ r'.slots.length) : r'.scopeAt n = r.scopeAt n := by
  cases h with
  | stay h => exact h.scopeAt_eq n
  | push slot h => exact scopeAt_of_cons h.slots h.scope hn
  | pop slot h => exact (scopeAt_of_cons h.slots h.scope.symm hn').symm
  | stop h =>
    rw [h.slots, List.length_nil, Nat.le_zero] at hn'
    rw [hn', ← h.scope]
    exact scopeAt_length (by rw [h.slots]; exact Nat.le_refl 0)

/-- **The frames below stay the same ones.** -/
theorem drop_slots_eq (h : r.Shifts E r') {n : Nat} (hn : n ≤ r.slots.length)
    (hn' : n ≤ r'.slots.length) :
    r'.slots.drop (r'.slots.length - n) = r.slots.drop (r.slots.length - n) := by
  cases h with
  | stay h => rw [h.slots]
  | push slot h =>
    rw [h.slots, List.length_cons, Nat.succ_sub hn, List.drop_succ_cons]
  | pop slot h =>
    rw [h.slots, List.length_cons, Nat.succ_sub hn', List.drop_succ_cons]
  | stop h =>
    rw [h.slots, List.length_nil, Nat.le_zero] at hn'
    simp [hn']

end Shifts

/-! ## What a turn does to them -/

theorem Whole.of_memo {m : Memo} (h : r.Whole) (hm : r'.memo = m) (hmade : r.memo.Made → m.Made)
    (hoverlays : r'.overlays = r.overlays) : r'.Whole := by
  obtain ⟨hmemo, hrest⟩ := List.forall_mem_cons.1 h
  unfold Whole
  rw [hm, hoverlays]
  exact List.forall_mem_cons.2 ⟨hmade hmemo, hrest⟩

theorem rests_mapInnermost (r : Run P) {f : Memo → Memo} (hf : ∀ m : Memo, m.Made → (f m).Made) :
    r.Rests (r.mapInnermost f) := by
  cases ho : r.overlays with
  | nil =>
    have heq : r.mapInnermost f = { r with memo := f r.memo } := by simp only [mapInnermost, ho]
    rw [heq]
    exact ⟨rfl, rfl, rfl, fun h => h.of_memo rfl (hf _) rfl⟩
  | cons overlay rest =>
    have heq : r.mapInnermost f = { r with overlays := f overlay :: rest } := by
      simp only [mapInnermost, ho]
    rw [heq]
    refine ⟨rfl, rfl, by rw [ho]; rfl, fun h => ?_⟩
    simp only [Whole, ho, List.forall_mem_cons] at h ⊢
    exact ⟨h.1, hf _ h.2.1, h.2.2⟩

theorem rests_mapTally (r : Run P) (f : Tally → Tally) : r.Rests (r.mapTally f) :=
  ⟨rfl, rfl, rfl, fun h => h.of_memo rfl (·.mapTally f) rfl⟩

theorem rests_note (r : Run P) (event : Event) : r.Rests (r.note event) := ⟨rfl, rfl, rfl, id⟩

/-- A change of the top frame that leaves what it keeps for its end. -/
theorem rests_mapTop (r : Run P) {f : Frame P → Frame P}
    (hf : ∀ frame, (f frame).slot = frame.slot) :
    r.Rests { r with frames := r.frames.mapTop f } := by
  refine ⟨?_, rfl, rfl, id⟩
  unfold slots
  rw [Stack.items_mapTop]
  cases r.frames.items with
  | nil => rfl
  | cons frame rest => simp only [List.modifyHead_cons, List.map_cons, hf]

theorem drops_stop (r : Run P) (error : EvalError) : r.Drops (r.stop error).run where
  slots := rfl
  scope := by
    simp only [stop, Next.run, scopeAt, Nat.sub_zero, List.take_length, slots, List.foldl_map]
    rfl
  overlays := rfl
  whole h := List.forall_mem_cons.2 ⟨h _ List.mem_cons_self, nofun⟩

/-- A result that is handed over leaves the frames as they are or ends the run. -/
theorem handOver_rests_or_drops (r : Run P) (result : Except EvalError Value) :
    r.Rests (r.handOver result).run ∨ r.Drops (r.handOver result).run := by
  unfold handOver
  split
  · exact .inl (.refl r)
  · split
    · exact .inr (r.drops_stop _)
    · dsimp only
      split
      · exact .inl (r.rests_mapTally _)
      · exact .inl ((r.rests_mapTally _).trans (rests_note _ _))

theorem observe_handOver_rests_or_drops (r : Run P) (tainted : Bool)
    (result : Except EvalError Value) :
    r.Rests ((r.observe tainted).handOver result).run ∨
      r.Drops ((r.observe tainted).handOver result).run := by
  have hobserve : r.Rests (r.observe tainted) := r.rests_mapTop fun _ => rfl
  exact ((r.observe tainted).handOver_rests_or_drops result).imp hobserve.trans hobserve.drops

theorem answer_rests_or_drops (r : Run P) (a : Answer) :
    r.Rests (r.answer a).run ∨ r.Drops (r.answer a).run := by
  unfold answer
  split
  · exact .inl (.refl r)
  · exact r.observe_handOver_rests_or_drops a.tainted a.result

theorem shifts_of_rests_or_drops (h : r.Rests r' ∨ r.Drops r') : r.Shifts E r' :=
  h.elim .stay .stop

/-- **A visit** pushes a frame or finds the answer without one. The scope that it
is made under goes back to what it was before. -/
theorem visit_shifts (E : Engine P) (r r' : Run P) (hslots : r'.slots = r.slots)
    (hscope : r'.scope.truncate r.scope.depth = r.scope) (hoverlays : r'.overlays = r.overlays)
    (hmemo : r'.memo = r.memo) (id : NodeId) (fresh : Bool) :
    r.Shifts E (r'.visit E id r.scope.depth fresh).run := by
  have hwhole : r.Whole → r'.Whole := fun h => h.of_memo hmemo (fun h => h) hoverlays
  -- without a frame the scope is cut back at once
  have hback : r.Rests (r'.truncate r.scope.depth) :=
    ⟨hslots, hscope, congrArg List.length hoverlays, hwhole⟩
  have hready : ∀ {r'' : Run P} (a : Answer), (r'.truncate r.scope.depth).Rests r'' →
      r.Shifts E (r''.answer a).run := by
    intro r'' a hrests
    have hrests := hback.trans hrests
    exact shifts_of_rests_or_drops ((r''.answer_rests_or_drops a).imp hrests.trans hrests.drops)
  have harrives := r'.arrives E id r.scope.depth fresh
  unfold visit
  generalize r'.arrive E id r.scope.depth fresh = arrived at harrives
  cases harrives with
  | absent => exact hready _ (.refl _)
  | param =>
    refine hready _ (Rests.trans ?_ (rests_note _ _))
    exact (rests_mapTally _ .countLookup).trans (rests_mapInnermost _ fun m => .setTainted id)
  | served => exact hready _ ((rests_mapTally _ _).trans (rests_note _ _))
  | missing => exact hready _ (.refl _)
  | refused => exact hready _ ⟨rfl, rfl, rfl, fun h => h⟩
  | started found param =>
    refine .push ⟨id, r.scope.depth, fresh⟩ ⟨⟨_, found, param⟩, ?_, rfl, hscope, ?_, fun h => ?_⟩
    · exact congrArg ((⟨id, r.scope.depth, fresh⟩ : Slot) :: ·) hslots
    · cases fresh with
      | true => exact congrArg (List.length · + 1) hoverlays
      | false => exact congrArg List.length hoverlays
    · obtain ⟨hm, ho⟩ := List.forall_mem_cons.1 (hwhole h)
      refine List.forall_mem_cons.2
        ⟨hm.mapTally fun tally => tally.countStart.reachDepth (r'.frames.size + 1), ?_⟩
      cases fresh with
      | true => exact List.forall_mem_cons.2 ⟨.empty, ho⟩
      | false => exact ho

/-- The top frame is taken off. Its overlay goes with it, or else the innermost memo is
changed. -/
def leave (r : Run P) (frame : Frame P) (f : Memo → Memo) : Run P :=
  let r := { r.truncate frame.scopeDepth with frames := r.frames.pop }
  if frame.fresh then { r with overlays := r.overlays.tail } else r.mapInnermost f

theorem succeed_eq {frame : Frame P} {rest : List (Frame P)}
    (hitems : r.frames.items = frame :: rest) (value : Value) :
    r.succeed value =
      (r.leave frame (·.put frame.node value (frame.volatile || frame.tainted)),
        ⟨.ok value, frame.volatile || frame.tainted⟩) := by
  simp only [succeed, hitems, leave]

theorem fail_eq {frame : Frame P} {rest : List (Frame P)}
    (hitems : r.frames.items = frame :: rest) (error : EvalError) :
    r.fail error = (r.leave frame id, ⟨.error error, frame.volatile || frame.tainted⟩) := by
  have hid : ∀ r : Run P, r.mapInnermost id = r := by
    intro r
    unfold mapInnermost
    split
    next => rfl
    next hoverlays => simp only [id, ← hoverlays]
  simp only [fail, hitems, leave, hid]

/-- **The end of a frame.** -/
theorem leave_pops {frame : Frame P} {rest : List (Frame P)}
    (hitems : r.frames.items = frame :: rest) {f : Memo → Memo} (hf : ∀ m : Memo, m.Made → (f m).Made) :
    r.Pops frame.slot (r.leave frame f) := by
  have hslots : r.slots = frame.slot :: (r.frames.pop).items.map Frame.slot := by
    rw [slots, hitems, Stack.items_pop, hitems]
    rfl
  unfold leave
  cases hfresh : frame.fresh with
  | true =>
    simp only [if_true]
    refine ⟨hslots, rfl, by simp only [Frame.slot, hfresh, List.length_tail]; rfl, fun h => ?_⟩
    obtain ⟨hm, ho⟩ := List.forall_mem_cons.1 h
    exact List.forall_mem_cons.2 ⟨hm, fun m hmem => ho m (List.mem_of_mem_tail hmem)⟩
  | false =>
    simp only [Bool.false_eq_true, if_false]
    have hrests := rests_mapInnermost { r.truncate frame.scopeDepth with frames := r.frames.pop } hf
    exact ⟨by rw [hrests.slots]; exact hslots, hrests.scope,
      by simp only [Frame.slot, hfresh, hrests.overlays]; rfl, fun h => hrests.whole h⟩

theorem succeed_pops {frame : Frame P} {rest : List (Frame P)}
    (hitems : r.frames.items = frame :: rest) (value : Value) :
    r.Pops frame.slot (r.succeed value).1 := by
  rw [succeed_eq hitems]
  exact leave_pops hitems fun m => .put frame.node value (frame.volatile || frame.tainted)

theorem fail_pops {frame : Frame P} {rest : List (Frame P)}
    (hitems : r.frames.items = frame :: rest) (error : EvalError) :
    r.Pops frame.slot (r.fail error).1 := by
  rw [fail_eq hitems]
  exact leave_pops hitems fun _ hm => hm

theorem serve_shifts (r : Run P) (step : Step) : r.Shifts E (r.serve E step).run := by
  cases step with
  | done value =>
    cases hitems : r.frames.items with
    | nil =>
      simp only [serve, succeed, hitems]
      exact shifts_of_rests_or_drops (r.answer_rests_or_drops _)
    | cons frame rest =>
      exact (succeed_pops hitems value).shifts (answer_rests_or_drops _ _)
  | fail error =>
    cases hitems : r.frames.items with
    | nil =>
      simp only [serve, fail, hitems]
      exact shifts_of_rests_or_drops (r.answer_rests_or_drops _)
    | cons frame rest =>
      exact (fail_pops hitems error).shifts (answer_rests_or_drops _ _)
  | request request =>
    cases request with
    | child id => exact visit_shifts E r r rfl r.scope.truncate_depth rfl rfl id false
    | under id bindings =>
      exact visit_shifts E r { r with scope := r.scope.push bindings } rfl
        (r.scope.truncate_push bindings) rfl rfl id false
    | fresh id => exact visit_shifts E r r rfl r.scope.truncate_depth rfl rfl id true
    | await await => exact .stay (.refl r)

theorem rests_resumeFrame (r : Run P) (input : Input) : r.Rests (r.resumeFrame input).1 := by
  unfold resumeFrame
  split
  · exact .refl r
  next frame rest hitems =>
    refine ⟨?_, rfl, rfl, fun h => h⟩
    simp only [slots, note, withShared, Stack.items_mapTop, hitems, List.modifyHead_cons,
      List.map_cons]
    rfl

theorem rests_countTurn (r : Run P) : r.Rests r.countTurn :=
  ⟨rfl, rfl, rfl, fun h => h.of_memo rfl (·.mapTally _) rfl⟩

/-- **A turn.** -/
theorem turn_shifts (r : Run P) (input : Input) : r.Shifts E (r.turn E input).run := by
  unfold turn
  dsimp only
  split
  · exact .stop (r.rests_countTurn.drops (drops_stop _ _))
  · exact (r.rests_countTurn.trans (rests_resumeFrame _ input)).shifts (serve_shifts _ _)

/-- **The end of a wait.** -/
theorem wake_shifts (r : Run P) (world : World P) (wake : Wake) :
    r.Shifts E (r.wake world wake).run := by
  have hworld : r.Rests { r with world } := ⟨rfl, rfl, rfl, id⟩
  cases wake with
  | elapsed => exact .stay hworld
  | settled c =>
    refine hworld.shifts ((rests_mapTally _ (·.merge c.tally)).shifts ?_)
    exact shifts_of_rests_or_drops (observe_handOver_rests_or_drops _ c.tainted c.result)

/-- **The beginning.** -/
theorem begin_shifts (r : Run P) (root : NodeId) : r.Shifts E (r.begin E root).run :=
  visit_shifts E r r rfl r.scope.truncate_depth rfl rfl root false

end Run

/-- **Whatever a run does next** is one of these. -/
theorem Next.Leads.shifts {E : Engine P} {next next' : Next P} (h : next.Leads E next') :
    next.run.Shifts E next'.run := by
  cases h with
  | turn r input => exact r.turn_shifts input
  | wake r await world wake => exact r.wake_shifts world wake

end ProgramGraph
