import Rendezvous.Codec.Name
import Rendezvous.Declarations

/-!
# Types and declarations in JSON

The tree form of a type is a variant: `"one"`, or an object with one member named for the
connective. A choice is an object with a member for each label. Labels are read in any order and
kept in increasing order.
-/

namespace Rendezvous

/-! ## Trees -/

namespace SessionType

mutual

/-- Writes a type. -/
def toJson : SessionType → Json
  | .one => .str "one"
  | .link name => .obj [("link", name.toJson)]
  | .tensor value cont => .obj [("tensor", .arr [value.toJson, cont.toJson])]
  | .lolli value cont => .obj [("lolli", .arr [value.toJson, cont.toJson])]
  | .plus choices => .obj [("plus", .obj (choicesToJson choices))]
  | .with choices => .obj [("with", .obj (choicesToJson choices))]
  | .up cont => .obj [("up", cont.toJson)]
  | .down cont => .obj [("down", cont.toJson)]

/-- Writes the branches of a choice. -/
def choicesToJson : List (Sym × SessionType) → List (String × Json)
  | [] => []
  | (label, typ) :: rest => (label, typ.toJson) :: choicesToJson rest

end

mutual

/-- Reads a type. -/
def ofJson? : Json → Option SessionType
  | .str name => if name = "one" then some .one else none
  | .obj [(name, j)] =>
    if name = "up" then (ofJson? j).map .up
    else if name = "down" then (ofJson? j).map .down
    else
      match j with
      | .null => if name = "one" then some .one else none
      | .str s => if name = "link" then (QualName.parse? s).map .link else none
      | .arr [value, cont] =>
        match ofJson? value, ofJson? cont with
        | some v, some c =>
          if name = "tensor" then some (.tensor v c)
          else if name = "lolli" then some (.lolli v c)
          else none
        | _, _ => none
      | .obj members =>
        match choicesOfJson? members with
        | some choices =>
          if name = "plus" then some (.plus (sortEntries choices))
          else if name = "with" then some (.with (sortEntries choices))
          else none
        | none => none
      | _ => none
  | _ => none

/-- Reads the branches of a choice. -/
def choicesOfJson? : List (String × Json) → Option (List (Sym × SessionType))
  | [] => some []
  | (label, j) :: rest =>
    match ofJson? j, choicesOfJson? rest with
    | some typ, some choices => some ((label, typ) :: choices)
    | _, _ => none

end

end SessionType

/-! ## Nodes -/

namespace TypeNode

/-- Writes the two ids of a node. -/
def idsToJson (value cont : Id) : Json := .obj [("value", value.toJson), ("cont", cont.toJson)]

/-- Reads the two ids of a node. -/
def idsOfJson? (j : Json) : Option (Id × Id) := do
  let f ← Json.object? ["value", "cont"] j
  pure (← f.required "value" Id.ofJson?, ← f.required "cont" Id.ofJson?)

/-- Reads the branches of a node. -/
def choicesOfJson? (j : Json) : Option (Table Sym Id) :=
  (Json.entries Id.ofJson? j).map fun entries => Table.ofList (sortEntries entries)

/-- Writes a node. -/
def toJson : TypeNode → Json
  | .one => .str "one"
  | .link name => .obj [("link", name.toJson)]
  | .tensor value cont => .obj [("tensor", idsToJson value cont)]
  | .lolli value cont => .obj [("lolli", idsToJson value cont)]
  | .plus choices => .obj [("plus", Json.ofEntries Id.toJson choices.entries)]
  | .with choices => .obj [("with", Json.ofEntries Id.toJson choices.entries)]
  | .up cont => .obj [("up", cont.toJson)]
  | .down cont => .obj [("down", cont.toJson)]

/-- Reads a node. -/
def ofJson? (j : Json) : Option TypeNode := do
  match ← Json.variant? j with
  | ("one", none) | ("one", some .null) => pure .one
  | ("link", some j) => .link <$> QualName.ofJson? j
  | ("tensor", some j) => (fun ids => .tensor ids.1 ids.2) <$> idsOfJson? j
  | ("lolli", some j) => (fun ids => .lolli ids.1 ids.2) <$> idsOfJson? j
  | ("plus", some j) => .plus <$> choicesOfJson? j
  | ("with", some j) => .with <$> choicesOfJson? j
  | ("up", some j) => .up <$> Id.ofJson? j
  | ("down", some j) => .down <$> Id.ofJson? j
  | _ => none

end TypeNode

/-- Writes a type record. -/
def TypeRec.toJson (r : TypeRec) : Json := .obj [("id", r.id.toJson), ("node", r.node.toJson)]

/-- Reads a type record. -/
def TypeRec.ofJson? (j : Json) : Option TypeRec := do
  let f ← Json.record? ["id", "node"] j
  pure ⟨← f.required "id" Id.ofJson?, ← f.required "node" TypeNode.ofJson?⟩

/-- The word for a polarity. -/
def Polarity.name : Polarity → String
  | .pos => "Pos"
  | .neg => "Neg"
  | .zero => "Zero"

/-! ## Declarations -/

/-- Writes a type declaration. -/
def TypeDecl.toJson (d : TypeDecl) : Json :=
  .obj [("id", d.id.toJson), ("title", d.title.toJson), ("term_id", Json.ofOption Id.toJson d.root),
    ("rev", d.rev.toJson)]

/-- Reads a type declaration. -/
def TypeDecl.ofJson? (j : Json) : Option TypeDecl := do
  let f ← Json.record? ["id", "title", "term_id", "rev"] j
  pure ⟨← f.required "id" Id.ofJson?, ← f.required "title" QualName.ofJson?,
    ← f.optional "term_id" Id.ofJson?, ← f.required "rev" Rev.ofJson?⟩

/-- Writes a version of a type. -/
def TypeVersion.toJson (v : TypeVersion) : Json :=
  .obj [("decl_id", v.decl.toJson), ("term_id", Json.ofOption Id.toJson v.root),
    ("from", v.start.toJson), ("to", Json.ofOption Rev.toJson v.stop)]

/-- Reads a version of a type. -/
def TypeVersion.ofJson? (j : Json) : Option TypeVersion := do
  let f ← Json.record? ["decl_id", "term_id", "from", "to"] j
  pure ⟨← f.required "decl_id" Id.ofJson?, ← f.optional "term_id" Id.ofJson?,
    ← f.required "from" Rev.ofJson?, ← f.optional "to" Rev.ofJson?⟩

/-- Writes a reference to a declaration. -/
def DeclRef.toJson (r : DeclRef) : Json :=
  .obj [("id", r.id.toJson), ("title", r.title.toJson), ("rev", r.rev.toJson)]

/-- Writes a type with its definition. -/
def TypeView.toJson (v : TypeView) : Json :=
  .obj [("id", v.id.toJson), ("title", v.title.toJson), ("rev", v.rev.toJson),
    ("spec", Json.ofOption SessionType.toJson v.spec)]

/-- Writes a parameter. -/
def Parameter.toJson (p : Parameter) : Json :=
  .obj [("ph", .str p.placeholder), ("type", p.type.toJson)]

/-- Reads a parameter. -/
def Parameter.ofJson? (j : Json) : Option Parameter := do
  let f ← Json.record? ["ph", "type"] j
  pure ⟨← f.required "ph" Json.string, ← f.required "type" QualName.ofJson?⟩

/-- Writes a signature. -/
def Signature.toJson (s : Signature) : Json :=
  .obj [("id", s.id.toJson), ("title", s.title.toJson), ("provision", s.provision.toJson),
    ("receptions", Json.ofList Parameter.toJson s.receptions), ("rev", s.rev.toJson)]

/-- Reads a signature. -/
def Signature.ofJson? (j : Json) : Option Signature := do
  let f ← Json.record? ["id", "title", "provision", "receptions", "rev"] j
  pure ⟨← f.required "id" Id.ofJson?, ← f.required "title" QualName.ofJson?,
    ← f.required "provision" Parameter.ofJson?,
    ← f.required "receptions" (Json.list Parameter.ofJson?), ← f.required "rev" Rev.ofJson?⟩

/-- Reads what a signature is declared from; receptions may be left out. -/
def SignatureSpec.ofJson? (j : Json) : Option SignatureSpec := do
  let f ← Json.record? ["title", "provision", "receptions"] j
  pure ⟨← f.required "title" QualName.ofJson?, ← f.required "provision" Parameter.ofJson?,
    ← f.defaulted "receptions" [] (Json.list Parameter.ofJson?)⟩

end Rendezvous
