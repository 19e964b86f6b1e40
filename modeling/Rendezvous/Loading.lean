import Rendezvous.Registry
import Rendezvous.Types.Env

/-!
# Loading declarations

An environment is loaded with what a step needs and whatever that reaches: children of nodes,
roots of aliases, the types of the signatures a term instantiates. Loading goes in batches: the
ids asked for and not loaded yet are fetched together, and what their nodes refer to is asked for
next. Each batch loads nodes of the registry that were not loaded before, so there is a last one
(`Registry.fill`).
-/

namespace Rendezvous

/-- An environment and the type nodes it still needs. -/
structure Loading where
  env : Env
  pending : List Id

namespace Registry

/-- Makes a type name known, and asks for its root. -/
def addName (r : Registry) (name : QualName) (l : Loading) : Except Error Loading :=
  if l.env.names.contains name then
    .ok l
  else
    match r.typeNamed? name with
    | none => .error (.notFound .type name.text)
    | some decl =>
      .ok ⟨{ l.env with names := l.env.names.insert name decl.root },
        l.pending ++ decl.root.toList⟩

/-- Makes a signature known, with the types of its parameters. -/
def addSig (r : Registry) (id : Id) (l : Loading) : Except Error Loading :=
  if l.env.sigs.contains id then
    .ok l
  else
    match r.sigs.get? id with
    | none => .error (.noSuch .sig id)
    | some sig => do
      let l ← sig.parameters.foldlM (fun l parameter => r.addName parameter.type l) l
      pure { l with env := { l.env with sigs := l.env.sigs.insert id sig } }

/-- Adds one node, asking for what it refers to. -/
def addNode (r : Registry) (id : Id) (node : TypeNode) (l : Loading) : Except Error Loading := do
  let asked : Loading := { l with pending := l.pending ++ node.children }
  let named ← match node with
    | .link name => r.addName name asked
    | _ => pure asked
  pure { named with env := { named.env with types := named.env.types.insert id node } }

/-- Adds nodes one after the other. -/
def addAll (r : Registry) : List (Id × TypeNode) → Loading → Except Error Loading
  | [], l => .ok l
  | (id, node) :: rest, l =>
    match r.addNode id node l with
    | .error e => .error e
    | .ok l => r.addAll rest l

/-- The nodes of some ids, all of which have to be on record. -/
def fetch (r : Registry) : List Id → Except Error (List (Id × TypeNode))
  | [] => .ok []
  | id :: rest =>
    match r.nodes.get? id with
    | none => .error (.noSuch .typeTerm id)
    | some node =>
      match r.fetch rest with
      | .error e => .error e
      | .ok nodes => .ok ((id, node) :: nodes)

/-- The ids to fetch next: what is asked for and not loaded, each once. -/
def batch (env : Env) (pending : List Id) : List Id :=
  distinct (pending.filter fun id => !env.types.contains id)

/-! ## Why loading ends -/

theorem types_addName {r : Registry} {name : QualName} {l l' : Loading}
    (h : r.addName name l = .ok l') : l'.env.types = l.env.types := by
  unfold addName at h
  split at h
  · cases h; rfl
  · split at h
    · cases h
    · cases h; rfl

theorem types_addNode {r : Registry} {id : Id} {node : TypeNode} {l l' : Loading}
    (h : r.addNode id node l = .ok l') : l'.env.types = l.env.types.insert id node := by
  unfold addNode at h
  cases node
  case link name =>
    cases hn : r.addName name { l with pending := l.pending ++ (TypeNode.link name).children } with
    | error e => simp [hn, bind, Except.bind] at h
    | ok named =>
      simp only [hn, bind, Except.bind, pure, Except.pure, Except.ok.injEq] at h
      subst h
      simp [types_addName hn]
  all_goals
    simp only [bind, Except.bind, pure, Except.pure, Except.ok.injEq] at h
    subst h
    rfl

theorem mem_types_addAll {r : Registry} {nodes : List (Id × TypeNode)} {l l' : Loading}
    (h : r.addAll nodes l = .ok l') (k : Id) :
    k ∈ l'.env.types.keys ↔ k ∈ l.env.types.keys ∨ k ∈ nodes.map Prod.fst := by
  induction nodes generalizing l with
  | nil => cases h; simp
  | cons e rest ih =>
    obtain ⟨id, node⟩ := e
    rw [addAll] at h
    split at h
    · cases h
    · next m hm =>
      rw [ih h, types_addNode hm, Table.mem_keys_insert, List.map_cons, List.mem_cons]
      constructor
      · rintro ((rfl | hk) | hk)
        · exact .inr (.inl rfl)
        · exact .inl hk
        · exact .inr (.inr hk)
      · rintro (hk | rfl | hk)
        · exact .inl (.inr hk)
        · exact .inl (.inl rfl)
        · exact .inr hk

theorem keys_fetch {r : Registry} {ids : List Id} {nodes : List (Id × TypeNode)}
    (h : r.fetch ids = .ok nodes) : nodes.map Prod.fst = ids ∧ ∀ id ∈ ids, id ∈ r.nodes.keys := by
  induction ids generalizing nodes with
  | nil => cases h; simp
  | cons id rest ih =>
    rw [fetch] at h
    split at h
    · cases h
    · next hid =>
      split at h
      · cases h
      · next hrest =>
        cases h
        obtain ⟨hkeys, hmem⟩ := ih hrest
        refine ⟨by simp [hkeys], fun k hk => ?_⟩
        rcases List.mem_cons.1 hk with rfl | hk
        · exact Table.mem_keys_of_get?_eq_some hid
        · exact hmem k hk

theorem notMem_types_of_mem_batch {env : Env} {pending : List Id} {id : Id}
    (h : id ∈ batch env pending) : id ∉ env.types.keys := by
  simp only [batch, mem_distinct, List.mem_filter, Table.contains, Bool.not_eq_true',
    Option.isSome_eq_false_iff, Option.isNone_iff_eq_none] at h
  exact (Table.get?_eq_none_iff _ _).1 h.2

/-- Loads what is asked for and everything that it reaches. -/
def fill (r : Registry) (l : Loading) : Except Error Env :=
  match _hb : batch l.env l.pending with
  | [] => .ok l.env
  | id :: ids =>
    match _hf : r.fetch (id :: ids) with
    | .error e => .error e
    | .ok nodes =>
      match _ha : r.addAll nodes { l with pending := [] } with
      | .error e => .error e
      | .ok l' => r.fill l'
termination_by unseen r.nodes.keys l.env.types.keys
decreasing_by
  obtain ⟨hkeys, hmem⟩ := keys_fetch _hf
  have hid : id ∈ batch l.env l.pending := by rw [_hb]; exact List.mem_cons_self
  refine unseen_lt (a := id) (fun k hk => (mem_types_addAll _ha k).2 (.inl hk))
    (hmem id List.mem_cons_self) (notMem_types_of_mem_batch hid) ?_
  exact (mem_types_addAll _ha id).2 (.inr (by rw [hkeys]; exact List.mem_cons_self))

/-! ## What is loaded when -/

/-- What a check of `term` needs: the types of all channels of the process, and the signatures
that the term instantiates. -/
def load (r : Registry) (cfg : Configuration) (term : Term) : Except Error Env := do
  let start : Loading := ⟨∅, cfg.channels.values.map Endpoint.type⟩
  let l ← term.sigs.foldlM (fun l id => r.addSig id l) start
  r.fill l

/-- The environment of some types. -/
def loadTypes (r : Registry) (roots : List Id) : Except Error Env := r.fill ⟨∅, roots⟩

/-- The environment of a signature. -/
def loadSig (r : Registry) (id : Id) : Except Error Env := do
  let l ← r.addSig id ⟨∅, []⟩
  r.fill l

/-- Loads more types into an environment. -/
def extend (r : Registry) (env : Env) (roots : List Id) : Except Error Env := r.fill ⟨env, roots⟩

end Registry

end Rendezvous
