import ProgramGraph.Json.Spelling
/-!
# JSON documents

A document is a spelling that has been read as a whole, down to its
leaves: the fields of an object stand in the order of the text, and a key
may be repeated. What a repeated key means is left to the reader of the
document.

A document may be embedded in another one as the text that spells it, in
an object whose one field has the key `embeddingKey`. Such an object reads
as the document embedded in it.
-/

namespace ProgramGraph

/-- A JSON document. -/
inductive Json
  | null
  | bool (b : Bool)
  | number (n : Number)
  | text (s : String)
  | array (items : List Json)
  | object (fields : List (String × Json))

namespace Json

instance : Inhabited Json := ⟨.null⟩

/-- The key that an object begins with if it is there for a text. -/
def embeddingKey : String := "$serde_json::private::RawValue"

/-- Whether some fields begin with the key of an embedded document. -/
def isEmbedding {α : Type} : List (String × α) → Bool
  | (key, _) :: _ => key == embeddingKey
  | [] => false

mutual

/-- The document of a spelling, if all of it can be read. `read` is how
the text of an embedded document is read. -/
def readWith? (read : String → Option Json) : Spelling → Option Json
  | .null => some .null
  | .bool b => some (.bool b)
  | .number n => some (.number n)
  | .text s => some (.text s)
  | .array items => (readItems? read items).map .array
  | .object fields =>
    if isEmbedding fields then
      match fields with
      | [(_, .text source)] => read source
      | _ => none
    else (readFields? read fields).map .object
  | .unreadable => none

/-- The documents of the items of an array. -/
def readItems? (read : String → Option Json) : List Spelling → Option (List Json)
  | [] => some []
  | item :: rest => return (← readWith? read item) :: (← readItems? read rest)

/-- The documents of the fields of an object. -/
def readFields? (read : String → Option Json) :
    List (String × Spelling) → Option (List (String × Json))
  | [] => some []
  | (key, item) :: rest => return (key, ← readWith? read item) :: (← readFields? read rest)

end

/-- The document that a text spells, with embedded documents on at most so
many levels, its own included. -/
def ofTextWithin? : (levels : Nat) → String → Option Json
  | 0, _ => none
  | levels + 1, source => (Spelling.ofText? source).bind (readWith? (ofTextWithin? levels))

/-- The document that an embedded text spells. A text is longer than any
text embedded in it, so there are as many levels as there can be. -/
def ofEmbedded? (source : String) : Option Json := ofTextWithin? source.length source

/-- The document of a spelling, if all of it can be read. -/
def ofSpelling? (spelling : Spelling) : Option Json := readWith? ofEmbedded? spelling

/-- The document that a text spells, if it is JSON and can be read. -/
def ofText? (source : String) : Option Json := (Spelling.ofText? source).bind ofSpelling?

end Json

end ProgramGraph
