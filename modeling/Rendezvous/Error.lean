import Rendezvous.Configuration
import Rendezvous.Types.Basic

/-!
# Errors

Everything that can be wrong with a request, as causes. The wording is in `Error.message`, the
diagnostic code in `Error.code`, and `Error.kind` sorts causes into the classes that callers act
on: an error of kind `optimisticConflict` is worth another attempt (`Error.isRetryable`).
-/

namespace Rendezvous

/-- The kinds of thing that can be missing, taken or stale. -/
inductive Entity where
  | type | typeTerm | sig | process | pool | channel
deriving DecidableEq

/-- The word for an entity in messages. -/
def Entity.name : Entity → String
  | .type => "type"
  | .typeTerm => "type term"
  | .sig => "process declaration"
  | .process => "process"
  | .pool => "pool"
  | .channel => "channel"

/-- The two ends of a channel. -/
inductive Side where
  | provider | client
deriving DecidableEq

/-- The word for a side in messages. -/
def Side.name : Side → String
  | .provider => "provider"
  | .client => "client"

/-- The classes of error. -/
inductive ErrorKind where
  | structuralMismatch | missingBinding | arityMismatch | optimisticConflict | notFound | duplicate
  | fault
deriving DecidableEq

namespace ErrorKind

/-- The class as one word with underscores. -/
def name : ErrorKind → String
  | .structuralMismatch => "structural_mismatch"
  | .missingBinding => "missing_binding"
  | .arityMismatch => "arity_mismatch"
  | .optimisticConflict => "optimistic_conflict"
  | .notFound => "not_found"
  | .duplicate => "duplicate"
  | .fault => "fault"

/-- The class as scripts show it. -/
def title : ErrorKind → String
  | .structuralMismatch => "StructuralMismatch"
  | .missingBinding => "MissingBinding"
  | .arityMismatch => "ArityMismatch"
  | .optimisticConflict => "OptimisticConflict"
  | .notFound => "NotFound"
  | .duplicate => "Duplicate"
  | .fault => "Fault"

/-- All classes. -/
def all : List ErrorKind :=
  [.structuralMismatch, .missingBinding, .arityMismatch, .optimisticConflict, .notFound,
   .duplicate, .fault]

/-- The class with a given name. -/
def ofName? (name : String) : Option ErrorKind := all.find? fun kind => kind.name = name

end ErrorKind

/-- Why a request failed. -/
inductive Error where
  /-- A term does not fit its side of a channel of this form. -/
  | structuralMismatch (op : Operation) (side : Side) (found : Connective)
  /-- A channel of one type stands where another is required. -/
  | typeMismatch (want got : String)
  /-- A placeholder has no channel. -/
  | missingBinding (placeholder : Sym)
  /-- A placeholder would be bound twice. -/
  | shadowedBinding (placeholder : Sym)
  /-- A process would end with channels left. -/
  | unfulfilledObligations (placeholders : List Sym)
  /-- A label is picked that is not offered. -/
  | missingLabel (label : Sym)
  /-- The number of channels given is not the number required. -/
  | arityMismatch (what : String) (want got : Nat)
  /-- The branches of a case are not the labels offered. -/
  | branchMismatch (missing redundant : List Sym)
  /-- A revision has moved on. -/
  | optimisticConflict (entity : Entity) (id : Id) (expected actual : Rev)
  /-- The half on a channel has come or gone. -/
  | recordConflict (channel : Id)
  /-- There is no such entity. -/
  | notFound (entity : Entity) (what : String)
  /-- There is such an entity already. -/
  | alreadyDefined (entity : Entity) (what : String)
  /-- A type has a name but no definition. -/
  | typeless (name : QualName)
  /-- A type is defined as itself. -/
  | linkCycle (name : QualName)
  /-- A channel has a client already. -/
  | held (channel : Id)
  /-- A process is asked to act in a pool it does not live in. -/
  | foreignProcess (process pool : Id)
  /-- A channel would be held inside the pool that provides it. -/
  | poolLoop (channel pool : Id)
  /-- Stored state disagrees with the checked protocol. -/
  | unexpectedVariant (want found : String)
  /-- A process with a service pending is asked for another step. -/
  | suspended (process channel : Id)
  /-- A chain of steps is longer than allowed. -/
  | stepLimit (limit : Nat)
  /-- A chain of steps stopped after some of them were committed. -/
  | interrupted (taken : Nat) (pending : StepSpec) (source : Error)

/-- Names in a message: each in backquotes, with commas between them. -/
def nameList : List Sym → String
  | [] => "none"
  | names => ", ".intercalate (names.map fun name => "`" ++ name ++ "`")

namespace Error

/-- An entity that is missing, shown by its id. -/
def noSuch (entity : Entity) (id : Id) : Error := .notFound entity id.short

/-- The text of an error. -/
def message : Error → String
  | .structuralMismatch op side found =>
    "`" ++ op.name ++ "` cannot be performed by a " ++ side.name ++ " of a `" ++ found.name ++
      "` channel"
  | .typeMismatch want got =>
    "this type was required:\n\n  " ++ want ++
      "\n\nbut an incompatible type was provided:\n\n  " ++ got
  | .missingBinding ph => "placeholder `" ++ ph ++ "` is not bound"
  | .shadowedBinding ph => "cannot re-bind `" ++ ph ++ "` before handling it"
  | .unfulfilledObligations phs => "cannot end this process before handling " ++ nameList phs
  | .missingLabel label => "label `" ++ label ++ "` is not offered"
  | .arityMismatch what want got =>
    what ++ ": " ++ toString want ++ " required, but " ++ toString got ++ " provided"
  | .branchMismatch missing redundant =>
    "branches do not match the offered labels (missing: " ++ nameList missing ++
      "; redundant: " ++ nameList redundant ++ ")"
  | .optimisticConflict entity id expected actual =>
    entity.name ++ " " ++ id.short ++ " was expected at " ++ expected.text ++
      ", but it is at " ++ actual.text
  | .recordConflict channel =>
    "pending record on channel " ++ channel.short ++ " changed concurrently"
  | .notFound entity what => entity.name ++ " `" ++ what ++ "` not found"
  | .alreadyDefined entity what => entity.name ++ " `" ++ what ++ "` is already defined"
  | .typeless name => "type `" ++ name.text ++ "` is declared, but is missing a definition"
  | .linkCycle name => "type `" ++ name.text ++ "` is an alias of itself"
  | .held channel => "channel " ++ channel.short ++ " already has a client"
  | .foreignProcess process pool =>
    "process " ++ process.short ++ " does not act in pool " ++ pool.short
  | .poolLoop channel pool =>
    "channel " ++ channel.short ++ " cannot be held inside its provider pool " ++ pool.short
  | .unexpectedVariant want found => "found " ++ found ++ " where " ++ want ++ " was expected"
  | .suspended process channel =>
    "process " ++ process.short ++ " waits on channel " ++ channel.short ++
      " and takes no other step until it is served"
  | .stepLimit limit => "step chain exceeded the limit of " ++ toString limit ++ " steps"
  | .interrupted taken _ source =>
    "step chain stopped after " ++ toString taken ++ " committed steps: " ++ source.message

/-- The diagnostic code of an error. -/
def code : Error → String
  | .structuralMismatch .. => "sepulka::structural_mismatch"
  | .typeMismatch .. => "sepulka::type_mismatch"
  | .missingBinding _ => "sepulka::missing_binding"
  | .shadowedBinding _ => "sepulka::shadowed_binding"
  | .unfulfilledObligations _ => "sepulka::unfulfilled_obligations"
  | .missingLabel _ => "sepulka::missing_label"
  | .arityMismatch .. => "sepulka::arity_mismatch"
  | .branchMismatch .. => "sepulka::branch_mismatch"
  | .optimisticConflict .. => "sepulka::optimistic_conflict"
  | .recordConflict _ => "sepulka::record_conflict"
  | .notFound .. => "sepulka::not_found"
  | .alreadyDefined .. => "sepulka::already_defined"
  | .typeless _ => "sepulka::typeless"
  | .linkCycle _ => "sepulka::link_cycle"
  | .held _ => "sepulka::held"
  | .foreignProcess .. => "sepulka::foreign_process"
  | .poolLoop .. => "sepulka::pool_loop"
  | .unexpectedVariant .. => "sepulka::unexpected_variant"
  | .suspended .. => "sepulka::suspended"
  | .stepLimit _ => "sepulka::step_limit"
  | .interrupted .. => "sepulka::interrupted"

/-- Advice that goes with an error. -/
def help? : Error → Option String
  | .optimisticConflict .. | .recordConflict _ =>
    some "re-read the current state and submit the step again"
  | .unexpectedVariant .. =>
    some "stored state disagrees with the checked protocol; this is a bug"
  | .interrupted .. => some "submit `pending` to carry on where the chain stopped"
  | _ => none

/-- The class of an error. An interrupted chain is of the class of what stopped it. -/
def kind : Error → ErrorKind
  | .structuralMismatch .. | .typeMismatch .. | .shadowedBinding _ | .unfulfilledObligations _
  | .linkCycle _ | .poolLoop .. => .structuralMismatch
  | .missingBinding _ | .typeless _ | .foreignProcess .. => .missingBinding
  | .missingLabel _ | .arityMismatch .. | .branchMismatch .. => .arityMismatch
  | .optimisticConflict .. | .recordConflict _ => .optimisticConflict
  | .notFound .. => .notFound
  | .alreadyDefined .. | .held _ | .suspended .. => .duplicate
  | .unexpectedVariant .. | .stepLimit _ => .fault
  | .interrupted _ _ source => source.kind

/-- Whether a second attempt on the current state may succeed. -/
def isRetryable (e : Error) : Bool := e.kind = .optimisticConflict

end Error

end Rendezvous
