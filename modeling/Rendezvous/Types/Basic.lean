import Rendezvous.Id
import Rendezvous.Name
import Rendezvous.Table

/-!
# Session types

A session type says how a channel is used from now on. It comes in two forms:

- `SessionType`, a tree, is how types are written and shown;
- `TypeNode`, one node of an arena, addresses its children by id and aliases by name, so a
  recursive type is a finite set of records (`TypeRec`).

`SessionType.lower` takes the first form to the second: the root's record comes first and the
rest follow in preorder, each under an id of its own. A choice lists its labels in increasing
order (`SessionType.Ordered`), which makes the tree of a type unique.
-/

namespace Rendezvous

/-- The tree form of a session type. -/
inductive SessionType where
  /-- The channel is closed. -/
  | one
  /-- The type declared under this name. -/
  | link (name : QualName)
  /-- The provider sends a channel. -/
  | tensor (value cont : SessionType)
  /-- The provider receives a channel. -/
  | lolli (value cont : SessionType)
  /-- The provider picks a label. -/
  | plus (choices : List (Sym × SessionType))
  /-- The client picks a label. -/
  | with (choices : List (Sym × SessionType))
  /-- A shared channel, to be acquired. -/
  | up (cont : SessionType)
  /-- An acquired channel, to be handed back. -/
  | down (cont : SessionType)

/-- The outermost form of a type. -/
inductive Connective where
  | one | link | tensor | lolli | plus | with | up | down
deriving DecidableEq

/-- Who acts next on a channel: its provider (`pos`) or its client (`neg`). An alias has no
direction of its own. -/
inductive Polarity where
  | pos | neg | zero
deriving DecidableEq

/-- One node of the type arena. -/
inductive TypeNode where
  | one
  | link (name : QualName)
  | tensor (value cont : Id)
  | lolli (value cont : Id)
  | plus (choices : Table Sym Id)
  | with (choices : Table Sym Id)
  | up (cont : Id)
  | down (cont : Id)
deriving DecidableEq

/-- A node and the id it is addressed by. -/
structure TypeRec where
  id : Id
  node : TypeNode
deriving DecidableEq

namespace Connective

/-- The word for a connective in messages. -/
def name : Connective → String
  | .one => "one"
  | .link => "link"
  | .tensor => "tensor"
  | .lolli => "lolli"
  | .plus => "plus"
  | .with => "with"
  | .up => "up"
  | .down => "down"

end Connective

namespace TypeNode

/-- The direction of a node. -/
def polarity : TypeNode → Polarity
  | .one | .tensor .. | .plus _ | .down _ => .pos
  | .lolli .. | .with _ | .up _ => .neg
  | .link _ => .zero

/-- The connective of a node. -/
def connective : TypeNode → Connective
  | .one => .one
  | .link _ => .link
  | .tensor .. => .tensor
  | .lolli .. => .lolli
  | .plus _ => .plus
  | .with _ => .with
  | .up _ => .up
  | .down _ => .down

/-- The ids a node refers to, in order. -/
def children : TypeNode → List Id
  | .one | .link _ => []
  | .tensor value cont | .lolli value cont => [value, cont]
  | .plus choices | .with choices => choices.values
  | .up cont | .down cont => [cont]

end TypeNode

/-! ## Lowering -/

/-- A type in arena form: the id of its root and its records, the root's first. -/
structure Lowered where
  root : Id
  recs : List TypeRec
deriving DecidableEq

namespace SessionType

mutual

/-- Gives every node of the tree an id of its own, in preorder, and lists the records. -/
def lower : SessionType → Supply → Lowered × Supply
  | .one, ids => (⟨ids.id, [⟨ids.id, .one⟩]⟩, ids.rest)
  | .link name, ids => (⟨ids.id, [⟨ids.id, .link name⟩]⟩, ids.rest)
  | .tensor value cont, ids =>
    let v := value.lower ids.rest
    let c := cont.lower v.2
    (⟨ids.id, ⟨ids.id, .tensor v.1.root c.1.root⟩ :: (v.1.recs ++ c.1.recs)⟩, c.2)
  | .lolli value cont, ids =>
    let v := value.lower ids.rest
    let c := cont.lower v.2
    (⟨ids.id, ⟨ids.id, .lolli v.1.root c.1.root⟩ :: (v.1.recs ++ c.1.recs)⟩, c.2)
  | .plus choices, ids =>
    let l := lowerChoices choices ids.rest
    (⟨ids.id, ⟨ids.id, .plus (Table.ofList l.1)⟩ :: l.2.1⟩, l.2.2)
  | .with choices, ids =>
    let l := lowerChoices choices ids.rest
    (⟨ids.id, ⟨ids.id, .with (Table.ofList l.1)⟩ :: l.2.1⟩, l.2.2)
  | .up cont, ids =>
    let c := cont.lower ids.rest
    (⟨ids.id, ⟨ids.id, .up c.1.root⟩ :: c.1.recs⟩, c.2)
  | .down cont, ids =>
    let c := cont.lower ids.rest
    (⟨ids.id, ⟨ids.id, .down c.1.root⟩ :: c.1.recs⟩, c.2)

/-- Lowers the branches of a choice one after the other: their roots by label, their records. -/
def lowerChoices :
    List (Sym × SessionType) → Supply → List (Sym × Id) × List TypeRec × Supply
  | [], ids => ([], [], ids)
  | (label, typ) :: rest, ids =>
    let t := typ.lower ids
    let r := lowerChoices rest t.2
    ((label, t.1.root) :: r.1, t.1.recs ++ r.2.1, r.2.2)

end

/-! ## Aliases -/

mutual

/-- The type names a tree refers to, in tree order and with repetitions. -/
def links : SessionType → List QualName
  | .one => []
  | .link name => [name]
  | .tensor value cont | .lolli value cont => value.links ++ cont.links
  | .plus choices | .with choices => linksOfChoices choices
  | .up cont | .down cont => cont.links

/-- The type names the branches of a choice refer to. -/
def linksOfChoices : List (Sym × SessionType) → List QualName
  | [] => []
  | (_, typ) :: rest => typ.links ++ linksOfChoices rest

end

/-! ## Order of labels -/

mutual

/-- Every choice in the tree lists distinct labels in increasing order. -/
def Ordered : SessionType → Prop
  | .one | .link _ => True
  | .tensor value cont | .lolli value cont => value.Ordered ∧ cont.Ordered
  | .plus choices | .with choices =>
    (choices.map Prod.fst).Pairwise (· < ·) ∧ OrderedChoices choices
  | .up cont | .down cont => cont.Ordered

/-- Every branch of a choice is `Ordered`. -/
def OrderedChoices : List (Sym × SessionType) → Prop
  | [] => True
  | (_, typ) :: rest => typ.Ordered ∧ OrderedChoices rest

end

/-! ## Display -/

mutual

/-- A type as messages show it. -/
def text : SessionType → String
  | .one => "1"
  | .link name => name.text
  | .tensor value cont => "(" ++ value.text ++ " * " ++ cont.text ++ ")"
  | .lolli value cont => "(" ++ value.text ++ " -o " ++ cont.text ++ ")"
  | .plus choices => "+\x7b" ++ choicesText choices ++ "\x7d"
  | .with choices => "&\x7b" ++ choicesText choices ++ "\x7d"
  | .up cont => "up " ++ cont.text
  | .down cont => "down " ++ cont.text

/-- The branches of a choice, with commas between them. -/
def choicesText : List (Sym × SessionType) → String
  | [] => ""
  | (label, typ) :: rest => label ++ ": " ++ typ.text ++ moreChoicesText rest

/-- The branches after the first, each behind a comma. -/
def moreChoicesText : List (Sym × SessionType) → String
  | [] => ""
  | (label, typ) :: rest => ", " ++ label ++ ": " ++ typ.text ++ moreChoicesText rest

end

end SessionType

end Rendezvous
