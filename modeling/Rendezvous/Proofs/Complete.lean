import Rendezvous.Proofs.History

/-!
# What a registry can load

A declaration is only taken if what it refers to is on record, or comes with it. So the registry of
an engine is complete after any calls (`Registry.Complete`, `Engine.complete_final`): the children of
its nodes, the names of its aliases and of the parameters of its signatures are declared, and the
roots of its names are nodes.

From a complete registry a term is loaded exactly if the types of all channels and the signatures
that it refers to are on record (`Registry.Complete.exists_load_iff`). Whatever the registry, loading
comes to an end: `Registry.loadWithin` may look so many times only at what is asked for, and it gives
the same answer as soon as it may look once for each node on record, and once more
(`Registry.loadWithin_eq_some`).
-/

namespace Rendezvous

/-! ## Records of a tree -/

/-- What these records refer to: nodes among them, and names among `names`. -/
def Sealed (recs : List TypeRec) (names : List QualName) : Prop :=
  ∀ rec ∈ recs, (∀ c ∈ rec.node.children, c ∈ recs.map TypeRec.id) ∧
    ∀ name, rec.node = .link name → name ∈ names

section

variable {recs recs' : List TypeRec} {names names' : List QualName}

theorem Sealed.append (h : Sealed recs names) (h' : Sealed recs' names') :
    Sealed (recs ++ recs') (names ++ names') := by
  intro rec hrec
  rw [List.map_append]
  rcases List.mem_append.1 hrec with hrec | hrec
  · obtain ⟨hc, hl⟩ := h rec hrec
    exact ⟨fun c hmem => List.mem_append_left _ (hc c hmem),
      fun name hname => List.mem_append_left _ (hl name hname)⟩
  · obtain ⟨hc, hl⟩ := h' rec hrec
    exact ⟨fun c hmem => List.mem_append_right _ (hc c hmem),
      fun name hname => List.mem_append_right _ (hl name hname)⟩

/-- A node goes in front of the records of its children. -/
theorem Sealed.cons (h : Sealed recs names) (id : Id) {node : TypeNode}
    (hc : ∀ c ∈ node.children, c ∈ recs.map TypeRec.id) (hl : ∀ name, node ≠ .link name) :
    Sealed (⟨id, node⟩ :: recs) names := by
  refine List.forall_mem_cons.2 ⟨⟨fun c hmem => List.mem_cons_of_mem _ (hc c hmem),
    fun name hname => absurd hname (hl name)⟩, fun rec hrec => ?_⟩
  obtain ⟨hc, hl⟩ := h rec hrec
  exact ⟨fun c hmem => List.mem_cons_of_mem _ (hc c hmem), hl⟩

end

/-- What a table made of a list holds was in the list. -/
theorem Table.mem_of_mem_values_ofList {κ α : Type} [DecidableEq κ] {l : List (κ × α)} {v : α}
    (h : v ∈ (Table.ofList l).values) : v ∈ l.map Prod.snd := by
  obtain ⟨k, hk⟩ := (Table.mem_values_iff _).1 h
  rcases Table.get?_or_mem_of_foldl_insert hk with h | ⟨e, he, -, rfl⟩
  · cases h
  · exact List.mem_map_of_mem he

namespace SessionType

theorem root_mem_lower (t : SessionType) (ids : Supply) :
    (t.lower ids).1.root ∈ (t.lower ids).1.recs.map TypeRec.id := by
  cases t <;> exact List.mem_cons_self

mutual

/-- The records of a tree refer to each other and to the aliases in the tree. -/
theorem sealed_lower : ∀ (t : SessionType) (ids : Supply), Sealed (t.lower ids).1.recs t.links
  | .one, _ => List.forall_mem_singleton.2 ⟨nofun, nofun⟩
  | .link name, _ => List.forall_mem_singleton.2
    ⟨nofun, fun _ h => by cases h; exact List.mem_singleton_self name⟩
  | .tensor value cont, ids => by
    refine ((value.sealed_lower ids.rest).append (cont.sealed_lower _)).cons _ ?_ nofun
    rw [List.map_append]
    exact List.forall_mem_cons.2 ⟨List.mem_append_left _ (value.root_mem_lower _),
      List.forall_mem_singleton.2 (List.mem_append_right _ (cont.root_mem_lower _))⟩
  | .lolli value cont, ids => by
    refine ((value.sealed_lower ids.rest).append (cont.sealed_lower _)).cons _ ?_ nofun
    rw [List.map_append]
    exact List.forall_mem_cons.2 ⟨List.mem_append_left _ (value.root_mem_lower _),
      List.forall_mem_singleton.2 (List.mem_append_right _ (cont.root_mem_lower _))⟩
  | .plus choices, ids =>
    have ⟨hsealed, hroots⟩ := sealed_lowerChoices choices ids.rest
    hsealed.cons _ (fun c hc => hroots c (Table.mem_of_mem_values_ofList hc)) nofun
  | .with choices, ids =>
    have ⟨hsealed, hroots⟩ := sealed_lowerChoices choices ids.rest
    hsealed.cons _ (fun c hc => hroots c (Table.mem_of_mem_values_ofList hc)) nofun
  | .up cont, ids =>
    (cont.sealed_lower ids.rest).cons _ (List.forall_mem_singleton.2 (cont.root_mem_lower _)) nofun
  | .down cont, ids =>
    (cont.sealed_lower ids.rest).cons _ (List.forall_mem_singleton.2 (cont.root_mem_lower _)) nofun

theorem sealed_lowerChoices : ∀ (choices : List (Sym × SessionType)) (ids : Supply),
    Sealed (lowerChoices choices ids).2.1 (linksOfChoices choices) ∧
      ∀ root ∈ (lowerChoices choices ids).1.map Prod.snd,
        root ∈ (lowerChoices choices ids).2.1.map TypeRec.id
  | [], _ => ⟨nofun, nofun⟩
  | (_, t) :: rest, ids => by
    obtain ⟨hsealed, hroots⟩ := sealed_lowerChoices rest (t.lower ids).2
    refine ⟨(t.sealed_lower ids).append hsealed, ?_⟩
    rw [lowerChoices, List.map_append]
    exact List.forall_mem_cons.2 ⟨List.mem_append_left _ (t.root_mem_lower ids),
      fun root hroot => List.mem_append_right _ (hroots root hroot)⟩

end

end SessionType

namespace Registry

variable {r r' : Registry} {decl : TypeDecl} {recs : List TypeRec}

/-! ## Complete registries -/

/-- A name that is declared. -/
def Declared (r : Registry) (name : QualName) : Prop := ∃ decl, r.typeNamed? name = some decl

/-- All that the registry refers to is on record. -/
structure Complete (r : Registry) : Prop where
  supplies : r.Supplies (· ∈ r.nodes.keys) r.Declared (· ∈ r.sigs.keys)
  titles : ∀ {id decl}, r.types.get? id = some decl → r.Declared decl.title

theorem complete_empty : Complete ∅ :=
  ⟨⟨nofun, fun ⟨_, h⟩ => (nomatch h), nofun⟩, nofun⟩

theorem mem_keys_addNodes {nodes : Table Id TypeNode} {id : Id} :
    id ∈ (addNodes nodes recs).keys ↔ id ∈ nodes.keys ∨ id ∈ recs.map TypeRec.id := by
  unfold addNodes
  induction recs generalizing nodes with
  | nil => simp
  | cons rec rest ih =>
    rw [List.foldl_cons, ih, Table.mem_keys_insert, List.map_cons, List.mem_cons]
    tauto

/-- The registry with a declaration and the records of its tree, under a name that was declared or
is now. -/
structure Enters (r r' : Registry) (decl : TypeDecl) (recs : List TypeRec) : Prop where
  nodes : r'.nodes = addNodes r.nodes recs
  types : r'.types = r.types.insert decl.id decl
  names : ∀ {name id}, r.typeNames.get? name = some id → r'.typeNames.get? name = some id
  title : ∃ id, r'.typeNames.get? decl.title = some id ∧ id ∈ r'.types.keys
  only : ∀ {name id}, r'.typeNames.get? name = some id →
    r.typeNames.get? name = some id ∨ id = decl.id
  sigs : r'.sigs = r.sigs

theorem enters_of_declareType (hd : r.declareType decl recs = .ok r') :
    r.Enters r' decl recs := by
  unfold declareType at hd
  split at hd
  · cases hd
  next hfree =>
  cases hd
  refine ⟨rfl, rfl, fun {name id} hname => ?_, ⟨decl.id, Table.get?_insert_self .., ?_⟩,
    fun {name id} hname => ?_, rfl⟩
  · show (r.typeNames.insert decl.title decl.id).get? name = some id
    rw [Table.get?_insert, if_neg, hname]
    rintro rfl
    exact hfree ((Table.contains_eq_true_iff _).2 ⟨id, hname⟩)
  · exact (Table.mem_keys_insert ..).2 (.inl rfl)
  · change (r.typeNames.insert decl.title decl.id).get? name = some id at hname
    rw [Table.get?_insert] at hname
    split at hname
    · exact .inr (Option.some.inj hname).symm
    · exact .inl hname

theorem enters_of_redefineType {expected : Rev} (hd : r.redefineType decl expected recs = .ok r')
    (htitle : r.Declared decl.title) : r.Enters r' decl recs := by
  unfold redefineType at hd
  split at hd
  · cases hd
  split at hd
  · cases hd
  cases hd
  obtain ⟨named, hnamed⟩ := htitle
  obtain ⟨id, hid, htype⟩ := Option.bind_eq_some_iff.1 hnamed
  exact ⟨rfl, rfl, fun h => h, ⟨id, hid,
    (Table.mem_keys_insert ..).2 (.inr (Table.mem_keys_of_get?_eq_some htype))⟩, .inl, rfl⟩

section Enters

variable (he : r.Enters r' decl recs)

include he

theorem Enters.declared_title : r'.Declared decl.title := by
  obtain ⟨id, hid, htype⟩ := he.title
  obtain ⟨named, hnamed⟩ := (Table.mem_keys_iff _).1 htype
  exact ⟨named, Option.bind_eq_some_iff.2 ⟨id, hid, hnamed⟩⟩

theorem Enters.declared {name : QualName} (h : r.Declared name) : r'.Declared name := by
  obtain ⟨old, hold⟩ := h
  obtain ⟨id, hid, htype⟩ := Option.bind_eq_some_iff.1 hold
  have hkey : id ∈ r'.types.keys := by
    rw [he.types, Table.mem_keys_insert]
    exact .inr (Table.mem_keys_of_get?_eq_some htype)
  obtain ⟨named, hnamed⟩ := (Table.mem_keys_iff _).1 hkey
  exact ⟨named, Option.bind_eq_some_iff.2 ⟨id, he.names hid, hnamed⟩⟩

/-- A name stands for what it stood for, or for the new declaration. -/
theorem Enters.eq_or_typeNamed? {name : QualName} {decl' : TypeDecl}
    (h : r'.typeNamed? name = some decl') : decl' = decl ∨ r.typeNamed? name = some decl' := by
  obtain ⟨id, hid, htype⟩ := Option.bind_eq_some_iff.1 h
  rw [he.types, Table.get?_insert] at htype
  split at htype
  · exact .inl (Option.some.inj htype).symm
  next hne =>
  exact .inr (Option.bind_eq_some_iff.2 ⟨id, (he.only hid).resolve_right hne, htype⟩)

theorem Enters.get?_nodes {id : Id} {n : TypeNode} (h : r'.nodes.get? id = some n) :
    r.nodes.get? id = some n ∨ ⟨id, n⟩ ∈ recs := by
  rw [he.nodes] at h
  refine (Table.get?_or_mem_of_foldl_insert h).imp_right ?_
  rintro ⟨rec, hrec, rfl, rfl⟩
  exact hrec

/-- A declaration leaves the registry complete if its records refer to each other and to names that
are declared, and its root is among them. -/
theorem Complete.enters (h : r.Complete) {names : List QualName} (hsealed : Sealed recs names)
    (hnames : ∀ name ∈ names, name = decl.title ∨ r.Declared name)
    (hroot : ∀ root, decl.root = some root → root ∈ recs.map TypeRec.id) : r'.Complete := by
  have hnodes : ∀ {id : Id}, id ∈ r'.nodes.keys ↔ id ∈ r.nodes.keys ∨ id ∈ recs.map TypeRec.id := by
    intro id
    rw [he.nodes, mem_keys_addNodes]
  refine ⟨⟨fun {id} hid => ?_, ?_, fun {id} hid => ?_⟩, fun {id d} hd => ?_⟩
  · obtain ⟨n, hn⟩ := (Table.mem_keys_iff _).1 hid
    refine ⟨n, hn, ?_⟩
    rcases he.get?_nodes hn with hold | hnew
    · obtain ⟨n', hn', hc, hl⟩ := h.supplies.node (Table.mem_keys_of_get?_eq_some hold)
      cases hold.symm.trans hn'
      exact ⟨fun c hmem => hnodes.2 (.inl (hc c hmem)), fun name hname => he.declared (hl name hname)⟩
    · obtain ⟨hc, hl⟩ := hsealed _ hnew
      refine ⟨fun c hmem => hnodes.2 (.inr (hc c hmem)), fun name hname => ?_⟩
      rcases hnames name (hl name hname) with rfl | hdeclared
      · exact he.declared_title
      · exact he.declared hdeclared
  · rintro name ⟨decl', hdecl'⟩
    refine ⟨decl', hdecl', fun root hr => hnodes.2 ?_⟩
    rcases he.eq_or_typeNamed? hdecl' with rfl | hold
    · exact .inr (hroot root hr)
    · obtain ⟨d, hd, hroots⟩ := h.supplies.name ⟨decl', hold⟩
      cases hold.symm.trans hd
      exact .inl (hroots root hr)
  · rw [he.sigs] at hid ⊢
    obtain ⟨sig, hsig, hparams⟩ := h.supplies.sig hid
    exact ⟨sig, hsig, fun p hp => he.declared (hparams p hp)⟩
  · rw [he.types, Table.get?_insert] at hd
    split at hd
    · cases hd
      exact he.declared_title
    · exact he.declared (h.titles hd)

end Enters

/-- The parameters of a signature that is accepted have declared types. -/
theorem declared_of_checkParameters {seen : List Sym} {parameters : List Parameter}
    (h : r.checkParameters seen parameters = .ok ()) : ∀ p ∈ parameters, r.Declared p.type := by
  induction parameters generalizing seen with
  | nil => nofun
  | cons p rest ih =>
    rw [checkParameters] at h
    split at h
    · cases h
    split at h
    · cases h
    next hp => exact List.forall_mem_cons.2 ⟨Option.ne_none_iff_exists'.1 hp, ih h⟩

theorem Complete.declareSig (h : r.Complete) {sig : Signature} (hd : r.declareSig sig = .ok r')
    (hp : ∀ p ∈ sig.parameters, r.Declared p.type) : r'.Complete := by
  unfold Registry.declareSig at hd
  split at hd
  · cases hd
  cases hd
  refine ⟨⟨h.supplies.node, h.supplies.name, fun {id} hid => ?_⟩, h.titles⟩
  obtain ⟨found, hfound⟩ := (Table.mem_keys_iff _).1 hid
  refine ⟨found, hfound, ?_⟩
  rw [Table.get?_insert] at hfound
  split at hfound
  · cases hfound
    exact hp
  · obtain ⟨old, hold, hparams⟩ := h.supplies.sig (Table.mem_keys_of_get?_eq_some hfound)
    cases hfound.symm.trans hold
    exact hparams

end Registry

namespace Registry

variable {r : Registry} {cfg : Configuration} {term : Term}

/-! ## Loading -/

/-- From a complete registry a term is loaded exactly if the types of all channels and the signatures
that it refers to are on record. -/
theorem Complete.exists_load_iff (h : r.Complete) :
    (∃ env, r.load cfg term = .ok env) ↔
      (∀ ep ∈ cfg.channels.values, ep.type ∈ r.nodes.keys) ∧
        ∀ id ∈ term.mentions, id ∈ r.sigs.keys := by
  constructor
  · rintro ⟨env, henv⟩
    obtain ⟨-, htypes, hsigs⟩ := closed_of_load henv
    have hwithin := within_load henv
    refine ⟨fun ep hep => ?_, fun id hid => ?_⟩
    · obtain ⟨n, hn⟩ := (Table.mem_keys_iff _).1 (htypes ep hep)
      exact Table.mem_keys_of_get?_eq_some (hwithin.types hn)
    · obtain ⟨sig, hsig⟩ := (Table.mem_keys_iff _).1 (hsigs id hid)
      exact Table.mem_keys_of_get?_eq_some (hwithin.sigs hsig)
  · rintro ⟨htypes, hsigs⟩
    exact exists_load h.supplies htypes hsigs

/-- Loads as `fill` does, in at most so many looks at what is asked for; nothing where there are
more. -/
def fillWithin (r : Registry) : Nat → Loading → Option (Except Error Env)
  | 0, _ => none
  | looks + 1, l =>
    match batch l.env l.pending with
    | [] => some (.ok l.env)
    | id :: ids =>
      match r.fetch (id :: ids) with
      | .error e => some (.error e)
      | .ok nodes =>
        match r.addAll nodes { l with pending := [] } with
        | .error e => some (.error e)
        | .ok l' => r.fillWithin looks l'

/-- Loads as `load` does, in at most so many looks at what is asked for. -/
def loadWithin (r : Registry) (looks : Nat) (cfg : Configuration) (term : Term) :
    Option (Except Error Env) :=
  match term.sigs.foldlM (fun l id => r.addSig id l) ⟨∅, cfg.channels.values.map Endpoint.type⟩ with
  | .error e => some (.error e)
  | .ok l => r.fillWithin looks l

/-- A batch that is added leaves fewer nodes to load. -/
theorem unseen_addAll_lt {l l' : Loading} {id : Id} {ids : List Id} {nodes : List (Id × TypeNode)}
    (hb : batch l.env l.pending = id :: ids) (hf : r.fetch (id :: ids) = .ok nodes)
    (ha : r.addAll nodes ⟨l.env, []⟩ = .ok l') :
    unseen r.nodes.keys l'.env.types.keys < unseen r.nodes.keys l.env.types.keys := by
  obtain ⟨hkeys, hmem⟩ := keys_fetch hf
  have hid : id ∈ batch l.env l.pending := by rw [hb]; exact List.mem_cons_self
  refine unseen_lt (fun k hk => (mem_types_addAll ha k).2 (.inl hk)) (hmem id List.mem_cons_self)
    (notMem_types_of_mem_batch hid) ((mem_types_addAll ha id).2 (.inr ?_))
  rw [hkeys]
  exact List.mem_cons_self

/-- With a look for each node that is not loaded, and one more, the bounded loading gives the
answer. -/
theorem fillWithin_eq_some {looks : Nat} {l : Loading}
    (h : unseen r.nodes.keys l.env.types.keys < looks) :
    r.fillWithin looks l = some (r.fill l) := by
  induction looks generalizing l with
  | zero => exact absurd h (Nat.not_lt_zero _)
  | succ looks ih =>
    fun_cases fill r l with
    | case1 hb => simp only [fillWithin, hb]
    | case2 id ids hb e hf => simp only [fillWithin, hb, hf]
    | case3 id ids hb nodes hf e ha => simp only [fillWithin, hb, hf, ha]
    | case4 id ids hb nodes hf l' ha =>
      have hlt := unseen_addAll_lt hb hf ha
      simp only [fillWithin, hb, hf, ha]
      exact ih (by omega)

/-- Loading comes to an end: it looks once for each node on record and once more, if at all. -/
theorem loadWithin_eq_some {looks : Nat} (h : r.nodes.size < looks) (cfg : Configuration)
    (term : Term) : r.loadWithin looks cfg term = some (r.load cfg term) := by
  have hall : ∀ {seen : List Id}, unseen r.nodes.keys seen < looks := fun {seen} =>
    Nat.lt_of_le_of_lt (List.countP_le_length.trans (List.length_map _).le) h
  unfold loadWithin load
  split
  · next e he => simp only [he, bind, Except.bind]
  · next l hl => simp only [hl, bind, Except.bind, fillWithin_eq_some hall]

end Registry

/-! ## Complete after any calls -/

namespace Engine

variable {e e' : Engine}

/-- The records of a definition that is accepted leave nothing out. -/
theorem Lowers.complete {title : QualName} {root : Option Id} {recs : List TypeRec}
    {spec : Option SessionType} (hl : e.Lowers title root recs spec) (h : e.store.decls.Complete)
    {r' : Registry} {decl : TypeDecl} (he : e.store.decls.Enters r' decl recs)
    (htitle : decl.title = title) (hroot : decl.root = root) : r'.Complete := by
  cases hl with
  | name => exact h.enters he (fun _ h => nomatch h : Sealed [] []) nofun (by rw [hroot]; nofun)
  | tree t hlinks =>
    refine h.enters he (t.sealed_lower e.ids) ?_ ?_
    · rw [htitle]
      exact Registry.eq_or_declared_of_checkLinks hlinks
    · rw [hroot]
      rintro _ ⟨⟩
      exact t.root_mem_lower e.ids

theorem complete_after (h : e.store.decls.Complete) (call : Call) :
    (call.after e).store.decls.Complete := by
  have hspares : e.Spares (call.after e) → (call.after e).store.decls.Complete := fun hs => by
    rw [hs.decls]
    exact h
  cases hd : call.definition? with
  | some d =>
    obtain ⟨hdefines, hrequest⟩ := defines_of_definition? hd e
    rw [Call.after, hrequest, resulting_ignore] at hspares ⊢
    rcases hdefines with ⟨hf, hdecls, hi⟩ | ⟨hok, hd, -, hl, -⟩ | ⟨hstored, hok, hd, hl, -⟩
    · rw [hf] at hspares ⊢
      exact hspares ⟨hdecls, hi⟩
    · rw [hok]
      exact hl.complete h (Registry.enters_of_declareType hd) rfl rfl
    · have htitle := h.titles hstored
      rw [hok]
      exact hl.complete h (Registry.enters_of_redefineType hd htitle) rfl rfl
  | none =>
    cases call with
    | incept | createType | modifyType => cases hd
    | createSig spec =>
      have happly := Request.createSig_apply spec e
      dsimp only at happly
      rw [Call.after, Call.request, resulting_ignore, happly]
      split
      · exact h
      next hp =>
      split
      · exact h
      next hr => exact h.declareSig hr (Registry.declared_of_checkParameters hp)
    | createPool title sup => exact hspares ((Request.spares_createPool title sup).ignore e)
    | handOff pool process rev => exact hspares ((Request.spares_handOff pool process rev).ignore e)
    | create c => exact hspares ((Request.spares_createProcess c).ignore e)
    | step spec => exact hspares ((Request.spares_step spec).ignore e)
    | take spec => exact hspares (Request.spares_take spec e)

/-- The registry of an engine is complete whatever was called. -/
theorem complete_final (settings : Settings) (ids : Supply) (calls : List Call) :
    ((start settings ids).final calls).store.decls.Complete := by
  have hrun : ∀ {e : Engine}, e.store.decls.Complete → (e.final calls).store.decls.Complete := by
    induction calls with
    | nil => exact fun h => h
    | cons call rest ih => exact fun h => ih (complete_after h call)
  exact hrun Registry.complete_empty

end Engine

end Rendezvous
