import Rendezvous.Codec.Name
import Rendezvous.Term

/-!
# Terms in JSON

A term is an object with one member, named for the operation, whose value is an object with the
parts of the term. The branches of a case are read in any order and kept by increasing label.
-/

namespace Rendezvous

namespace Term

mutual

/-- Writes a term. -/
def toJson : Term → Json
  | .close via => .obj [("close", .obj [("via", .str via)])]
  | .wait via cont => .obj [("wait", .obj [("via", .str via), ("cont", cont.toJson)])]
  | .send via value => .obj [("send", .obj [("via", .str via), ("value", .str value)])]
  | .recv via value cont =>
    .obj [("recv", .obj [("via", .str via), ("value", .str value), ("cont", cont.toJson)])]
  | .lab via label => .obj [("lab", .obj [("via", .str via), ("label", .str label)])]
  | .case via conts =>
    .obj [("case", .obj [("via", .str via), ("conts", .obj (branchesToJson conts))])]
  | .fwd via target => .obj [("fwd", .obj [("via", .str via), ("target", .str target)])]
  | .call via sig values cont =>
    .obj [("call", .obj [("via", .str via), ("sig", sig.toJson),
      ("values", Json.ofList Json.str values), ("cont", cont.toJson)])]
  | .spawn via sig values pool cont =>
    .obj [("spawn", .obj [("via", .str via), ("sig", sig.toJson),
      ("values", Json.ofList Json.str values), ("pool", pool.toJson), ("cont", cont.toJson)])]
  | .acquire via => .obj [("acquire", .obj [("via", .str via)])]
  | .accept via cont => .obj [("accept", .obj [("via", .str via), ("cont", cont.toJson)])]
  | .detach via => .obj [("detach", .obj [("via", .str via)])]
  | .release via cont => .obj [("release", .obj [("via", .str via), ("cont", cont.toJson)])]

/-- Writes the branches of a case. -/
def branchesToJson : List (Sym × Term) → List (String × Json)
  | [] => []
  | (label, cont) :: rest => (label, cont.toJson) :: branchesToJson rest

end

/-- Reads a part that is a text. -/
def symIn? (name : String) (members : List (String × Json)) : Option Sym :=
  (Table.find? name members).bind Json.string

/-- Reads a part that is an id. -/
def idIn? (name : String) (members : List (String × Json)) : Option Id :=
  (Table.find? name members).bind Id.ofJson?

/-- Reads the values passed to an instance. -/
def valuesIn? (members : List (String × Json)) : Option (List Sym) :=
  (Table.find? "values" members).bind (Json.list Json.string)

/-- A term from its operation and its parts; continuation and branches are read where needed. -/
def assemble (op : String) (members : List (String × Json)) (cont : Unit → Option Term)
    (conts : Unit → Option (List (Sym × Term))) : Option Term := do
  let via ← symIn? "via" members
  match op with
  | "close" => pure (.close via)
  | "wait" => pure (.wait via (← cont ()))
  | "send" => pure (.send via (← symIn? "value" members))
  | "recv" => pure (.recv via (← symIn? "value" members) (← cont ()))
  | "lab" => pure (.lab via (← symIn? "label" members))
  | "case" => pure (.case via (sortEntries (← conts ())))
  | "fwd" => pure (.fwd via (← symIn? "target" members))
  | "call" => pure (.call via (← idIn? "sig" members) (← valuesIn? members) (← cont ()))
  | "spawn" =>
    pure (.spawn via (← idIn? "sig" members) (← valuesIn? members) (← idIn? "pool" members)
      (← cont ()))
  | "acquire" => pure (.acquire via)
  | "accept" => pure (.accept via (← cont ()))
  | "detach" => pure (.detach via)
  | "release" => pure (.release via (← cont ()))
  | _ => none

mutual

/-- Reads a term. -/
def ofJson? : Json → Option Term
  | .obj [(op, .obj members)] =>
    assemble op members (fun _ => contIn? members) (fun _ => contsIn? members)
  | _ => none

/-- Reads the continuation among the parts of a term. -/
def contIn? : List (String × Json) → Option Term
  | [] => none
  | (name, j) :: rest => if name = "cont" then ofJson? j else contIn? rest

/-- Reads the branches among the parts of a case. -/
def contsIn? : List (String × Json) → Option (List (Sym × Term))
  | [] => none
  | (name, .obj members) :: rest =>
    if name = "conts" then branchesOfJson? members else contsIn? rest
  | (name, _) :: rest => if name = "conts" then none else contsIn? rest

/-- Reads branches. -/
def branchesOfJson? : List (String × Json) → Option (List (Sym × Term))
  | [] => some []
  | (label, j) :: rest =>
    match ofJson? j, branchesOfJson? rest with
    | some cont, some conts => some ((label, cont) :: conts)
    | _, _ => none

end

end Term

end Rendezvous
