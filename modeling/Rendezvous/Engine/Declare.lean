import Rendezvous.Engine.Basic
import Rendezvous.Loading

/-!
# Declaring types and signatures

- `Request.incept` takes a name for a type, so that other types can refer to it;
- `Request.createType` and `Request.modifyType` give a name its first or next definition;
- `Registry.typeView` and `Registry.typeViewAt` show a type as it is and as it was;
- `Request.createSig` declares a signature over declared types.
-/

namespace Rendezvous

namespace Registry

/-! ## Types -/

/-- Every alias has to name a declared type, or the type being defined. -/
def checkLinks (r : Registry) (title : QualName) : List QualName → Except Error Unit
  | [] => .ok ()
  | name :: rest =>
    if name ≠ title ∧ r.typeNamed? name = none then
      .error (.notFound .type name.text)
    else
      r.checkLinks title rest

/-- The tree of a definition. -/
def specOf (r : Registry) : Option Id → Except Error (Option SessionType)
  | none => .ok none
  | some root => do
    let env ← r.loadTypes [root]
    some <$> env.lift root

/-- A declaration by its id. -/
def typeDecl (r : Registry) (id : Id) : Except Error TypeDecl :=
  match r.types.get? id with
  | some decl => .ok decl
  | none => .error (.noSuch .type id)

/-- A type as it is. -/
def typeView (r : Registry) (id : Id) : Except Error TypeView := do
  let decl ← r.typeDecl id
  pure ⟨id, decl.title, decl.rev, ← r.specOf decl.root⟩

/-- A type as it was at `rev`. -/
def typeViewAt (r : Registry) (id : Id) (rev : Rev) : Except Error TypeView := do
  let decl ← r.typeDecl id
  match r.versionAt? id rev with
  | some v => pure ⟨id, decl.title, v.start, ← r.specOf v.root⟩
  | none => throw (.notFound .type (decl.title.text ++ "@" ++ rev.text))

/-- References to all types. -/
def typeRefs (r : Registry) : List DeclRef := r.types.values.map TypeDecl.ref

/-! ## Signatures -/

/-- Placeholders of a signature have to be distinct and their types declared. -/
def checkParameters (r : Registry) (seen : List Sym) : List Parameter → Except Error Unit
  | [] => .ok ()
  | parameter :: rest =>
    if parameter.placeholder ∈ seen then
      .error (.shadowedBinding parameter.placeholder)
    else if r.typeNamed? parameter.type = none then
      .error (.notFound .type parameter.type.text)
    else
      r.checkParameters (parameter.placeholder :: seen) rest

/-- A signature by its id. -/
def sigDecl (r : Registry) (id : Id) : Except Error Signature :=
  match r.sigs.get? id with
  | some sig => .ok sig
  | none => .error (.noSuch .sig id)

/-- References to all signatures. -/
def sigRefs (r : Registry) : List DeclRef := r.sigs.values.map Signature.ref

end Registry

namespace Request

/-- The arena form of a type, under new ids. -/
def lower (spec : SessionType) : Request Lowered := do
  let e ← get
  let (lowered, ids) := spec.lower e.ids
  set { e with ids }
  pure lowered

/-- Declares a type name without a definition. -/
def incept (title : QualName) : Request DeclRef := do
  let decl : TypeDecl := ⟨← draw, title, none, .initial⟩
  declare (·.declareType decl [])
  pure decl.ref

/-- Declares a type. -/
def createType (title : QualName) (spec : SessionType) : Request DeclRef := do
  read fun s => s.decls.checkLinks title spec.links
  let lowered ← lower spec
  let decl : TypeDecl := ⟨← draw, title, some lowered.root, .initial⟩
  declare (·.declareType decl lowered.recs)
  pure decl.ref

/-- Gives a declared type a new definition, provided it is still at `rev`. -/
def modifyType (id : Id) (rev : Rev) (spec : SessionType) : Request DeclRef := do
  let decl ← read fun s => s.decls.typeDecl id
  if decl.rev ≠ rev then
    throw (.optimisticConflict .type decl.id rev decl.rev)
  read fun s => s.decls.checkLinks decl.title spec.links
  let lowered ← lower spec
  let modified : TypeDecl := { decl with root := some lowered.root, rev := rev.next }
  declare (·.redefineType modified rev lowered.recs)
  pure modified.ref

/-- Declares a signature. -/
def createSig (spec : SignatureSpec) : Request DeclRef := do
  let sig : Signature := ⟨← draw, spec.title, spec.provision, spec.receptions, .initial⟩
  read fun s => s.decls.checkParameters [] sig.parameters
  declare (·.declareSig sig)
  pure sig.ref

end Request

end Rendezvous
