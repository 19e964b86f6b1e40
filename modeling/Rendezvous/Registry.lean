import Rendezvous.Declarations
import Rendezvous.Error

/-!
# The registry of declarations

Types and signatures by name and by id. Names are taken once and for all; a type may get a new
definition, and every definition it has had stays on record with the revisions at which it was
in force (`Registry.versionAt?`). Type nodes are never removed.
-/

namespace Rendezvous

/-- All declarations. -/
structure Registry where
  types : Table Id TypeDecl
  versions : List TypeVersion
  typeNames : Table QualName Id
  nodes : Table Id TypeNode
  sigs : Table Id Signature
  sigNames : Table QualName Id

namespace Registry

instance : EmptyCollection Registry := ⟨⟨∅, [], ∅, ∅, ∅, ∅⟩⟩

instance : Inhabited Registry := ⟨∅⟩

/-! ## Types -/

/-- The declaration of a type name. -/
def typeNamed? (r : Registry) (name : QualName) : Option TypeDecl :=
  (r.typeNames.get? name).bind r.types.get?

/-- The version of a declaration in force at `rev`. -/
def versionAt? (r : Registry) (id : Id) (rev : Rev) : Option TypeVersion :=
  r.versions.find? fun v => v.decl = id && v.covers rev

/-- The records of some ids; ids without one are skipped. -/
def recsOf (r : Registry) (ids : List Id) : List TypeRec :=
  ids.filterMap fun id => (r.nodes.get? id).map fun node => ⟨id, node⟩

/-- Adds type nodes. -/
def addNodes (nodes : Table Id TypeNode) (recs : List TypeRec) : Table Id TypeNode :=
  recs.foldl (fun t rec => t.insert rec.id rec.node) nodes

/-- Puts a declaration on record as the definition in force from its revision on. -/
def record (r : Registry) (decl : TypeDecl) (recs : List TypeRec) : Registry :=
  { r with
    nodes := addNodes r.nodes recs
    versions := r.versions ++ [⟨decl.id, decl.root, decl.rev, none⟩]
    types := r.types.insert decl.id decl }

/-- Declares a type under a name that is not taken. -/
def declareType (r : Registry) (decl : TypeDecl) (recs : List TypeRec) : Except Error Registry :=
  if r.typeNames.contains decl.title then
    .error (.alreadyDefined .type decl.title.text)
  else
    .ok { r.record decl recs with typeNames := r.typeNames.insert decl.title decl.id }

/-- Ends the version of a declaration that is in force. -/
def closeVersions (id : Id) (stop : Rev) (versions : List TypeVersion) : List TypeVersion :=
  versions.map fun v => if v.decl = id ∧ v.stop = none then { v with stop := some stop } else v

/-- Gives a type a new definition, provided its declaration is still at `expected`. -/
def redefineType (r : Registry) (decl : TypeDecl) (expected : Rev) (recs : List TypeRec) :
    Except Error Registry :=
  match r.types.get? decl.id with
  | none => .error (.noSuch .type decl.id)
  | some stored =>
    if stored.rev ≠ expected then
      .error (.optimisticConflict .type decl.id expected stored.rev)
    else
      .ok ({ r with versions := closeVersions decl.id decl.rev r.versions }.record decl recs)

/-! ## Signatures -/

/-- Declares a signature under a name that is not taken. -/
def declareSig (r : Registry) (sig : Signature) : Except Error Registry :=
  if r.sigNames.contains sig.title then
    .error (.alreadyDefined .sig sig.title.text)
  else
    .ok { r with
      sigNames := r.sigNames.insert sig.title sig.id
      sigs := r.sigs.insert sig.id sig }

end Registry

end Rendezvous
