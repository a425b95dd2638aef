import ProgramGraph.Value.Basic
/-!
# Equality of values

Objects are equal when they have the same number of fields and every field
of the one has an equal field in the other, whatever the order. A value
can be compared with a document as it stands, without the value that the
document denotes being made first.
-/

namespace ProgramGraph.Value

mutual

/-- Equality of values. -/
def eqv : Value → Value → Bool
  | null, null => true
  | bool a, bool b => a == b
  | number a, number b => a.eqv b
  | text a, text b => a == b
  | array as, array bs => eqvItems as bs
  | object as, object bs => as.length == bs.length && eqvFields as bs
  | _, _ => false

/-- Equality of items, one by one. -/
def eqvItems : List Value → List Value → Bool
  | [], [] => true
  | a :: as, b :: bs => a.eqv b && eqvItems as bs
  | _, _ => false

/-- Every field has an equal one among the others. -/
def eqvFields : List (String × Value) → List (String × Value) → Bool
  | [], _ => true
  | (key, a) :: as, bs =>
    (match Keyed.find? bs key with
      | some b => a.eqv b
      | none => false) && eqvFields as bs

end

instance : BEq Value := ⟨eqv⟩

mutual

/-- Equality of a value and a document. A repeated key of the document
counts once, with its last value. -/
def eqvJson : Value → Json → Bool
  | null, .null => true
  | bool a, .bool b => a == b
  | number a, .number b => a.eqv b
  | text a, .text b => a == b
  | array as, .array bs => eqvJsonItems as bs
  | object as, .object bs =>
    as.length == (Keyed.ofPairs bs).length && eqvJsonFields as (Keyed.ofPairs bs)
  | _, _ => false

/-- Equality of items and documents, one by one. -/
def eqvJsonItems : List Value → List Json → Bool
  | [], [] => true
  | a :: as, b :: bs => a.eqvJson b && eqvJsonItems as bs
  | _, _ => false

/-- Every field has an equal one in the document. -/
def eqvJsonFields : List (String × Value) → List (String × Json) → Bool
  | [], _ => true
  | (key, a) :: as, bs =>
    (match Keyed.find? bs key with
      | some b => a.eqvJson b
      | none => false) && eqvJsonFields as bs

end

end ProgramGraph.Value
