import Rendezvous.Id
import Rendezvous.Json.Fields
import Rendezvous.Name

/-!
# Names in JSON

Ids and qualified names are texts, revisions are numbers of 64 bits, and a missing value is
`null`.
-/

namespace Rendezvous

/-- Writes an id in full. -/
def Id.toJson (id : Id) : Json := .str id.text

/-- Reads an id in any of its spellings. -/
def Id.ofJson? : Reader Id
  | .str s => Id.ofText? s
  | _ => none

/-- Writes a name as it is. -/
def QualName.toJson (name : QualName) : Json := .str name.text

/-- Reads a qualified name. -/
def QualName.ofJson? : Reader QualName
  | .str s => QualName.parse? s
  | _ => none

/-- Writes a revision. -/
def Rev.toJson (r : Rev) : Json := .int r.value

/-- Reads a revision. -/
def Rev.ofJson? : Reader Rev := fun j => (Json.nat64 j).map Rev.mk

namespace Json

variable {α β : Type}

/-- Writes a value, or `null` where there is none. -/
def ofOption (write : α → Json) : Option α → Json
  | some a => write a
  | none => .null

/-- Writes a list as an array. -/
def ofList (write : α → Json) (xs : List α) : Json := .arr (xs.map write)

/-- Writes a table as an array of pairs, in its order. -/
def ofTable (key : α → Json) (write : β → Json) (t : Table α β) : Json :=
  .arr (t.entries.map fun e => .arr [key e.1, write e.2])

/-- Writes named values as an object. -/
def ofEntries (write : α → Json) (entries : List (String × α)) : Json :=
  .obj (entries.map fun e => (e.1, write e.2))

end Json

end Rendezvous
