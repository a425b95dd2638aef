import ProgramGraph.Ident
import ProgramGraph.Stack
import ProgramGraph.Value.Equality
/-!
# Scopes

A scope is a stack of frames of bindings. A look-up goes from the
innermost frame outwards and, inside a frame, from the last binding to the
first. Frames are pushed for the time of one evaluation; cutting the stack
back to the depth it had before takes them off again.
-/

namespace ProgramGraph

/-- The bindings of one frame. -/
abbrev Bindings := List (ParamId × Value)

/-- The value that the last binding of a parameter gives it. -/
def Bindings.find? (bindings : Bindings) (p : ParamId) : Option Value :=
  (bindings.reverse.find? fun binding => binding.1 == p).map Prod.snd

/-- A scope. -/
structure Scope where
  /-- The frames, innermost on top. -/
  frames : Stack Bindings := .empty

namespace Scope

/-- The scope without bindings. -/
def empty : Scope := ⟨.empty⟩

instance : Inhabited Scope := ⟨empty⟩

/-- The number of frames. -/
def depth (s : Scope) : Nat := s.frames.size

/-- The scope with one more frame inside. -/
def push (s : Scope) (bindings : Bindings) : Scope := ⟨s.frames.push bindings⟩

/-- The scope cut back to its outermost `depth` frames. -/
def truncate (s : Scope) (depth : Nat) : Scope := ⟨s.frames.truncate depth⟩

/-- The value of a parameter. -/
def lookup? (s : Scope) (p : ParamId) : Option Value :=
  s.frames.items.findSome? fun bindings => bindings.find? p

/-- All visible bindings as one frame. A parameter stands where its
outermost binding is, with the value of its innermost. -/
def flatten (s : Scope) : Bindings := Keyed.ofPairs s.frames.items.reverse.flatten

/-- The scope of one frame; without bindings there is none. -/
def ofBindings (bindings : Bindings) : Scope :=
  if bindings.isEmpty then empty else empty.push bindings

/-- Equality of frames, binding by binding. -/
def eqvBindings : Bindings → Bindings → Bool
  | [], [] => true
  | (p, a) :: as, (q, b) :: bs => p == q && a == b && eqvBindings as bs
  | _, _ => false

/-- Equality of scopes, frame by frame. -/
def eqv (s t : Scope) : Bool := go s.frames.items t.frames.items
where
  /-- Compares the frames. -/
  go : List Bindings → List Bindings → Bool
    | [], [] => true
    | a :: as, b :: bs => eqvBindings a b && go as bs
    | _, _ => false

@[simp] theorem depth_empty : empty.depth = 0 := rfl

@[simp] theorem depth_push (s : Scope) (bindings : Bindings) :
    (s.push bindings).depth = s.depth + 1 := rfl

theorem depth_truncate (s : Scope) (depth : Nat) :
    (s.truncate depth).depth = min depth s.depth := s.frames.size_truncate depth

/-- **A pushed frame is taken off again** by cutting back to the depth
before it. -/
@[simp] theorem truncate_push (s : Scope) (bindings : Bindings) :
    (s.push bindings).truncate s.depth = s := by
  simp [truncate, push, depth]

@[simp] theorem truncate_depth (s : Scope) : s.truncate s.depth = s := by
  simp [truncate, depth]

end Scope

end ProgramGraph
