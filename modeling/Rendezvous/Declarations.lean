import Rendezvous.Types.Basic

/-!
# Declarations

What is declared before processes run: named types with their history, and the signatures that
processes instantiate.
-/

namespace Rendezvous

/-! ## Types -/

/-- A declared type. It has no root while only its name is known. -/
structure TypeDecl where
  id : Id
  title : QualName
  root : Option Id
  rev : Rev
deriving DecidableEq

/-- One definition a declaration has had, in force from revision `start` to before `stop`. -/
structure TypeVersion where
  decl : Id
  root : Option Id
  start : Rev
  stop : Option Rev
deriving DecidableEq

/-- Whether a version is the one in force at `rev`. -/
def TypeVersion.covers (v : TypeVersion) (rev : Rev) : Bool :=
  v.start.value ≤ rev.value && v.stop.all fun stop => rev.value < stop.value

/-- What a caller gets to hold after declaring a type or a signature. -/
structure DeclRef where
  id : Id
  title : QualName
  rev : Rev
deriving DecidableEq

/-- The reference to a type declaration. -/
def TypeDecl.ref (d : TypeDecl) : DeclRef := ⟨d.id, d.title, d.rev⟩

/-- A declared type with its definition in tree form. -/
structure TypeView where
  id : Id
  title : QualName
  rev : Rev
  spec : Option SessionType

/-! ## Signatures -/

/-- One end of a signature: a placeholder and the name of its type. -/
structure Parameter where
  placeholder : Sym
  type : QualName
deriving DecidableEq

/-- What a signature is declared from. -/
structure SignatureSpec where
  title : QualName
  provision : Parameter
  receptions : List Parameter
deriving DecidableEq

/-- The shape that every instance of a process has: what it provides and what it needs. -/
structure Signature where
  id : Id
  title : QualName
  provision : Parameter
  receptions : List Parameter
  rev : Rev
deriving DecidableEq

namespace Signature

/-- All ends of a signature, the provided one first. -/
def parameters (s : Signature) : List Parameter := s.provision :: s.receptions

/-- The reference to a signature. -/
def ref (s : Signature) : DeclRef := ⟨s.id, s.title, s.rev⟩

end Signature

end Rendezvous
