import Rendezvous.Json.Basic

/-!
# Reading records and variants

How the domain's data is read from JSON values.

- A record is an object with its fields as members, in any order and among others, or an array of
  its fields in the order of declaration (`Json.record?`). Members that are no fields are passed
  over, whatever they hold.
- A variant is an object with one member, named for the variant; a variant without content may
  also be just its name (`Json.variant?`).
- An integer has to be written without fraction and exponent.
-/

namespace Rendezvous

/-- Reads a value of type `α`. -/
abbrev Reader (α : Type) := Json → Option α

/-- The fields of a record, and whether they were given by position. -/
structure Fields where
  members : List (String × Json)
  positional : Bool

namespace Json

variable {α β : Type}

/-! ## Scalars and lists -/

/-- Reads a text. -/
def string : Reader String
  | .str s => some s
  | _ => none

/-- Reads a number from 0 to `2 ^ 64 - 1`. -/
def nat64 : Reader Nat
  | .int n => if 0 ≤ n ∧ n < UInt64.size then some n.toNat else none
  | _ => none

/-- Reads a number from `-2 ^ 63` to `2 ^ 63 - 1`. -/
def int64 : Reader Int
  | .int n => if Int64.minValue.toInt ≤ n ∧ n ≤ Int64.maxValue.toInt then some n else none
  | _ => none

/-- Reads a truth value. -/
def truth : Reader Bool
  | .bool b => some b
  | _ => none

/-- Reads any value as it stands, in canonical form; all of it has to be readable. -/
def whole : Reader Json := fun j => if j.isReadable then some j.canonical else none

/-- Reads a value or nothing, which is written `null`. -/
def nullable (read : Reader α) : Reader (Option α)
  | .null => some none
  | j => (read j).map some

/-- Reads an array. -/
def list (read : Reader α) : Reader (List α)
  | .arr items => items.mapM read
  | _ => none

/-- Reads an array of two. -/
def pair (left : Reader α) (right : Reader β) : Reader (α × β)
  | .arr [a, b] => do pure (← left a, ← right b)
  | _ => none

/-- Reads the members of an object, as they stand. -/
def entries (read : Reader α) : Reader (List (String × α))
  | .obj members => members.mapM fun m => (read m.2).map fun a => (m.1, a)
  | _ => none

/-! ## Records and variants -/

/-- How often a name occurs among members. -/
def occurrences (name : String) (members : List (String × Json)) : Nat :=
  members.countP fun m => m.1 = name

/-- The fields of a record written as an object; no field may be given twice. -/
def object? (names : List String) : Json → Option Fields
  | .obj members =>
    if names.all fun name => occurrences name members ≤ 1 then some ⟨members, false⟩ else none
  | _ => none

/-- The fields of a record. -/
def record? (names : List String) : Json → Option Fields
  | .arr items =>
    if items.length ≤ names.length then some ⟨names.zip items, true⟩ else none
  | j => object? names j

/-- The name of a variant and its content, if any is given. -/
def variant? : Json → Option (String × Option Json)
  | .str name => some (name, none)
  | .obj [(name, content)] => some (name, some content)
  | _ => none

end Json

namespace Fields

variable {α : Type}

/-- The value given for a field. -/
def get? (f : Fields) (name : String) : Option Json := Table.find? name f.members

/-- Reads a field that has to be given. -/
def required (f : Fields) (name : String) (read : Reader α) : Option α :=
  (f.get? name).bind read

/-- Reads a field that may be missing from an object, or be `null`. -/
def optional (f : Fields) (name : String) (read : Reader α) : Option (Option α) :=
  match f.get? name with
  | some j => Json.nullable read j
  | none => if f.positional then none else some none

/-- Reads a field that stands for `default` where it is missing. -/
def defaulted (f : Fields) (name : String) (default : α) (read : Reader α) : Option α :=
  match f.get? name with
  | some j => read j
  | none => some default

end Fields

end Rendezvous
