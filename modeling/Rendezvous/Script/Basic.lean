import Rendezvous.Codec.Report
import Rendezvous.Json.Parser

/-!
# Scripts

A script declares types, signatures and pools and then lists actions to take in order. It is
written in JSON; everything in it goes by name. Inside terms, a text `@name` stands for the id of
the signature or pool with that name, so a term is kept as JSON until its action is taken. What a
script holds beyond this is passed over and only has to follow the grammar.
-/

namespace Rendezvous

/-- A pool that a script declares. -/
structure PoolEntry where
  name : String
  sup : Option String
deriving DecidableEq

/-- One thing a script does. -/
inductive Action where
  /-- Instantiates a signature; `values` binds what it needs to the channels that processes
  named before provide. -/
  | create (name pool sig : String) (values : Table Sym String)
  /-- Submits a term, which may be expected to fail. -/
  | take (proc : String) (term : Json) (fails : Option ErrorKind)
  /-- Looks up the process liable for a pool, and may give it a name. -/
  | poll (pool : String) (name : Option String)
  /-- Says what a process should have bound and how many halves should be pending for it. -/
  | expect (proc : String) (bound : Option (List Sym)) (pending : Option Nat)

/-- A type that a script declares. -/
structure TypeEntry where
  title : QualName
  spec : SessionType

/-- A scripted run. -/
structure Script where
  settings : Settings
  types : List TypeEntry
  sigs : List SignatureSpec
  pools : List PoolEntry
  actions : List Action

/-! ## Reading -/

/-- Reads a pool entry. -/
def PoolEntry.ofJson? (j : Json) : Option PoolEntry := do
  let f ← Json.record? ["name", "sup"] j
  pure ⟨← f.required "name" Json.string, ← f.defaulted "sup" none (Json.nullable Json.string)⟩

/-- Reads a type entry. -/
def TypeEntry.ofJson? (j : Json) : Option TypeEntry := do
  let f ← Json.record? ["title", "spec"] j
  pure ⟨← f.required "title" QualName.ofJson?, ← f.required "spec" SessionType.ofJson?⟩

/-- Reads a class of error. -/
def ErrorKind.ofJson? (j : Json) : Option ErrorKind := do
  match ← Json.variant? j with
  | (name, none) | (name, some .null) => ErrorKind.ofName? name
  | _ => none

/-- Reads an action. -/
def Action.ofJson? (j : Json) : Option Action := do
  match ← Json.variant? j with
  | ("create", some j) =>
    let f ← Json.record? ["name", "pool", "sig", "values"] j
    pure (.create (← f.required "name" Json.string) (← f.required "pool" Json.string)
      (← f.required "sig" Json.string)
      (.ofList (← f.defaulted "values" [] (Json.entries Json.string))))
  | ("take", some j) =>
    let f ← Json.record? ["proc", "term", "fails"] j
    pure (.take (← f.required "proc" Json.string) (← f.required "term" Json.whole)
      (← f.defaulted "fails" none (Json.nullable ErrorKind.ofJson?)))
  | ("poll", some j) =>
    let f ← Json.record? ["pool", "name"] j
    pure (.poll (← f.required "pool" Json.string)
      (← f.defaulted "name" none (Json.nullable Json.string)))
  | ("expect", some j) =>
    let f ← Json.record? ["proc", "bound", "pending"] j
    pure (.expect (← f.required "proc" Json.string)
      (← f.defaulted "bound" none (Json.nullable (Json.list Json.string)))
      (← f.defaulted "pending" none (Json.nullable Json.nat64)))
  | _ => none

/-- Reads a script. Only the actions have to be there. -/
def Script.ofJson? (j : Json) : Option Script := do
  let f ← Json.record? ["config", "types", "sigs", "pools", "actions"] j
  pure {
    settings := ← f.defaulted "config" {} Settings.ofJson?
    types := ← f.defaulted "types" [] (Json.list TypeEntry.ofJson?)
    sigs := ← f.defaulted "sigs" [] (Json.list SignatureSpec.ofJson?)
    pools := ← f.defaulted "pools" [] (Json.list PoolEntry.ofJson?)
    actions := ← f.required "actions" (Json.list Action.ofJson?) }

/-- Reads a script from its text. -/
def Script.parse? (text : String) : Option Script := (Json.scan? text).bind Script.ofJson?

end Rendezvous
