import Rendezvous.Declarations
import Rendezvous.Error
import Rendezvous.Unseen

/-!
# Type environments

An `Env` holds the type nodes, type names and signatures that a check or a step may consult.

- `Env.resolve` follows aliases from a node until it reaches one that is no alias; it reports an
  alias of itself, since a name met twice on the way would be met for ever;
- `Env.lift` rebuilds the tree of a type from its nodes, aliases staying aliases;
- `Env.typeText` shows a type, by its id where there is no tree to show.
-/

namespace Rendezvous

/-- Declarations and type nodes at hand. -/
structure Env where
  types : Table Id TypeNode
  /-- Type names and their roots; a declared name may lack one. -/
  names : Table QualName (Option Id)
  sigs : Table Id Signature

namespace Env

instance : EmptyCollection Env := ⟨⟨∅, ∅, ∅⟩⟩

instance : Inhabited Env := ⟨∅⟩

/-- The node with a given id. -/
def node (env : Env) (id : Id) : Except Error TypeNode :=
  match env.types.get? id with
  | some n => .ok n
  | none => .error (.noSuch .typeTerm id)

/-- The root of a type name. -/
def rootOf (env : Env) (name : QualName) : Except Error Id :=
  match env.names.get? name with
  | some (some root) => .ok root
  | some none => .error (.typeless name)
  | none => .error (.notFound .type name.text)

/-- The signature with a given id. -/
def sig (env : Env) (id : Id) : Except Error Signature :=
  match env.sigs.get? id with
  | some s => .ok s
  | none => .error (.noSuch .sig id)

theorem mem_names_of_rootOf_eq_ok {env : Env} {name : QualName} {root : Id}
    (h : env.rootOf name = .ok root) : name ∈ env.names.keys := by
  unfold rootOf at h
  split at h
  · next hn => exact Table.mem_keys_of_get?_eq_some hn
  · cases h
  · cases h

theorem mem_types_of_node_eq_ok {env : Env} {id : Id} {n : TypeNode} (h : env.node id = .ok n) :
    id ∈ env.types.keys := by
  unfold node at h
  split at h
  · next hn => exact Table.mem_keys_of_get?_eq_some hn
  · cases h

/-! ## Aliases -/

/-- Follows aliases from `id`, having passed the names in `seen`. -/
def resolveFrom (env : Env) (seen : List QualName) (id : Id) : Except Error (Id × TypeNode) :=
  match env.node id with
  | .error e => .error e
  | .ok (.link name) =>
    if name ∈ seen then
      .error (.linkCycle name)
    else
      match _h : env.rootOf name with
      | .error e => .error e
      | .ok root => env.resolveFrom (name :: seen) root
  | .ok n => .ok (id, n)
termination_by unseen env.names.keys seen
decreasing_by exact unseen_cons_lt (mem_names_of_rootOf_eq_ok _h) (by assumption)

/-- The node that `id` stands for when aliases are followed, with its own id. -/
def resolve (env : Env) (id : Id) : Except Error (Id × TypeNode) := env.resolveFrom [] id

/-! ## Trees -/

/-- Rebuilds the tree below `id`, down to `depth` levels. -/
def liftTo (env : Env) : Nat → Id → Except Error SessionType
  | 0, id => .error (.noSuch .typeTerm id)
  | depth + 1, id => do
    match ← env.node id with
    | .one => pure .one
    | .link name => pure (.link name)
    | .tensor value cont => pure (.tensor (← env.liftTo depth value) (← env.liftTo depth cont))
    | .lolli value cont => pure (.lolli (← env.liftTo depth value) (← env.liftTo depth cont))
    | .plus choices =>
      pure (.plus (← choices.entries.mapM fun e => do pure (e.1, ← env.liftTo depth e.2)))
    | .with choices =>
      pure (.with (← choices.entries.mapM fun e => do pure (e.1, ← env.liftTo depth e.2)))
    | .up cont => pure (.up (← env.liftTo depth cont))
    | .down cont => pure (.down (← env.liftTo depth cont))

/-- The tree of a type. A tree is no deeper than there are nodes; a node that lies below itself
has none. -/
def lift (env : Env) (id : Id) : Except Error SessionType := env.liftTo (env.types.size + 1) id

/-- A type as messages show it: its tree, or its id where it has none. -/
def typeText (env : Env) (id : Id) : String :=
  match env.lift id with
  | .ok t => t.text
  | .error _ => "<" ++ id.short ++ ">"

end Env

end Rendezvous
