import Rendezvous.Table

/-!
# JSON values

Scripts, terms and changes travel as JSON. A value keeps what its text says: the members of an
object in the order of the text and with repetitions, and a number that is no integer of 64 bits
as it is spelled.

A text may follow the grammar and still stand for nothing, as half a surrogate pair does. Such a
part is kept as `Json.unreadable`: whoever asks for it gets nothing, and whoever passes over it is
not disturbed. `Json.isReadable` says that there is no such part.

`Json.canonical` sorts the members of every object by name and keeps the last of several with one
name.
-/

namespace Rendezvous

/-- A JSON value. -/
inductive Json where
  | null
  | bool (b : Bool)
  /-- An integer that fits in 64 bits, with or without a sign. -/
  | int (n : Int)
  /-- Any other number, as spelled. -/
  | real (spelling : String)
  | str (s : String)
  | arr (items : List Json)
  | obj (members : List (String × Json))
  /-- Something that follows the grammar and stands for nothing: a text with half a surrogate
  pair, a number too large to be held, a container inside too many others, or an object with a
  name that is such a text. -/
  | unreadable

/-- Enters `name` in a list with increasing names, replacing the value of a name that is there. -/
def insertSorted {α : Type} (name : String) (value : α) :
    List (String × α) → List (String × α)
  | [] => [(name, value)]
  | e :: rest =>
    if name < e.1 then (name, value) :: e :: rest
    else if name = e.1 then (name, value) :: rest
    else e :: insertSorted name value rest

/-- The entries by increasing name; of several with one name the last stays. -/
def sortEntries {α : Type} (entries : List (String × α)) : List (String × α) :=
  entries.foldl (fun sorted e => insertSorted e.1 e.2 sorted) []

namespace Json

mutual

/-- The value with the members of every object sorted and distinct. -/
def canonical : Json → Json
  | .arr items => .arr (canonicalItems items)
  | .obj members => .obj (sortEntries (canonicalMembers members))
  | j => j

/-- `canonical` for the items of an array. -/
def canonicalItems : List Json → List Json
  | [] => []
  | j :: rest => j.canonical :: canonicalItems rest

/-- `canonical` for the values of members. -/
def canonicalMembers : List (String × Json) → List (String × Json)
  | [] => []
  | (name, j) :: rest => (name, j.canonical) :: canonicalMembers rest

end

mutual

/-- Whether every part of a value stands for something. -/
def isReadable : Json → Bool
  | .unreadable => false
  | .arr items => areReadable items
  | .obj members => membersReadable members
  | _ => true

/-- `isReadable` for the items of an array. -/
def areReadable : List Json → Bool
  | [] => true
  | j :: rest => j.isReadable && areReadable rest

/-- `isReadable` for the values of members. -/
def membersReadable : List (String × Json) → Bool
  | [] => true
  | (_, j) :: rest => j.isReadable && membersReadable rest

end

end Json

end Rendezvous
