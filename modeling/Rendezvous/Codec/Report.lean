import Rendezvous.Codec.Change
import Rendezvous.Codec.Types
import Rendezvous.Context
import Rendezvous.Engine.Basic
import Rendezvous.Types.Env

/-!
# Errors, contexts and environments in JSON

An error is reported with its class, its code, its text, whether it is worth another attempt, and
its advice if it has any. An interrupted chain also reports how far it came, what is pending, and
what stopped it.
-/

namespace Rendezvous

/-- The advice of an error, as a member. -/
def Error.helpMember (e : Error) : List (String × Json) :=
  match e.help? with
  | some help => [("help", .str help)]
  | none => []

/-- Reports an error. -/
def Error.toJson : Error → Json
  | .interrupted taken pending source =>
    let e := Error.interrupted taken pending source
    .obj ([("error", .str e.kind.name), ("code", .str e.code), ("message", .str e.message),
      ("retryable", .bool e.isRetryable)] ++ e.helpMember ++
      [("taken", .int taken), ("pending", pending.toJson), ("source", source.toJson)])
  | e =>
    .obj ([("error", .str e.kind.name), ("code", .str e.code), ("message", .str e.message),
      ("retryable", .bool e.isRetryable)] ++ e.helpMember)

/-- Writes a context. -/
def Context.toJson (ctx : Context) : Json :=
  .obj [("assets", Json.ofTable Json.str Id.toJson ctx.assets),
    ("liabs", Json.ofTable Json.str Id.toJson ctx.liabilities)]

/-- Reads an environment; a later entry replaces an earlier one with the same key. -/
def Env.ofJson? (j : Json) : Option Env := do
  let f ← Json.record? ["types", "names", "sigs"] j
  let recs ← f.required "types" (Json.list TypeRec.ofJson?)
  let names ←
    f.required "names" (Json.list (Json.pair QualName.ofJson? (Json.nullable Id.ofJson?)))
  let sigs ← f.required "sigs" (Json.list Signature.ofJson?)
  pure {
    types := .ofList (recs.map fun r => (r.id, r.node))
    names := .ofList names
    sigs := .ofList (sigs.map fun s => (s.id, s)) }

/-- Reads settings; what is missing keeps its default. -/
def Settings.ofJson? (j : Json) : Option Settings := do
  let f ← Json.record? ["max_steps"] j
  pure { maxSteps := ← f.defaulted "max_steps" ({} : Settings).maxSteps Json.nat64 }

end Rendezvous
