import ProgramGraph.Handler
/-!
# Registries

A registry gives each tag its handler, in the order in which the tags were
first registered. The later entry of a tag wins. That a tag is missing is
noticed only when a node with the tag is visited.
-/

namespace ProgramGraph

variable {P : Plugins}

/-- What a registry holds for a tag. -/
structure Entry (P : Plugins) where
  handler : Handler P
  /-- Whether the results of the handler must never be kept. -/
  volatile : Bool := false

/-- Handlers under tags. -/
structure Registry (P : Plugins) where
  entries : Keyed String (Entry P) := []

namespace Registry

/-- The registry without handlers. -/
def empty : Registry P := {}

instance : Inhabited (Registry P) := ⟨empty⟩

/-- The registry with one entry more, or replaced. -/
def insert (r : Registry P) (tag : String) (entry : Entry P) : Registry P :=
  ⟨r.entries.insert tag entry⟩

/-- The registry with a handler whose results may be kept. -/
def register (r : Registry P) (tag : String) (handler : Handler P) : Registry P :=
  r.insert tag ⟨handler, false⟩

/-- The registry with a handler whose results must never be kept. -/
def registerVolatile (r : Registry P) (tag : String) (handler : Handler P) : Registry P :=
  r.insert tag ⟨handler, true⟩

/-- Both registries together; where both have a tag, `other` wins. -/
def union (r other : Registry P) : Registry P := ⟨r.entries.union other.entries⟩

/-- The registry without a tag; the others keep their order. -/
def unregister (r : Registry P) (tag : String) : Registry P := ⟨r.entries.erase tag⟩

/-- The entry of a tag, if there is one. -/
def find? (r : Registry P) (tag : String) : Option (Entry P) := r.entries.find? tag

/-- The entry of a tag. -/
def get (r : Registry P) (tag : String) : Except EvalError (Entry P) :=
  match r.find? tag with
  | some entry => .ok entry
  | none => .error (.missingHandler tag)

/-- Whether a tag has a handler. -/
def contains (r : Registry P) (tag : String) : Bool := (r.find? tag).isSome

/-- Whether a tag has a volatile handler. -/
def isVolatile (r : Registry P) (tag : String) : Bool := (r.find? tag).any (·.volatile)

/-- The tags, in the order of registration. -/
def tags (r : Registry P) : List String := r.entries.keys

/-- The number of tags. -/
def size (r : Registry P) : Nat := r.entries.length

/-- Whether there are no handlers. -/
def isEmpty (r : Registry P) : Bool := r.entries.isEmpty

end Registry

open Text

/-- The structural text of an entry. The handler is not looked into. -/
def Entry.inspect (entry : Entry P) : String :=
  "HandlerEntry \x7b volatile: " ++ (if entry.volatile then "true" else "false") ++ ", .. \x7d"

/-- The structural text of a registry. -/
def Registry.inspect (r : Registry P) : String :=
  braced (r.entries.map fun (tag, entry) => (tag, entry.inspect))

end ProgramGraph
