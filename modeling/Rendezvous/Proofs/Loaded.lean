import Rendezvous.Proofs.Equality

/-!
# What is loaded

Loading stops where nothing is left to ask for, so a loaded environment is closed: it has the nodes,
names and signatures that it refers to (`Env.Closed`, `closed_of_load`). In a closed environment

- a type that is loaded resolves to what it stands for in the registry (`stands_iff`), since an
  alias that is met twice stands for nothing;
- types that are loaded compare equal exactly if they are the same in the registry (`eqType_iff`).
  So two environments agree on the types that both have.

Loading itself fails only where something is missing. `Registry.Supplies` says of some types, names
and signatures that all they refer to is on record and among them; what is closed in this way can be
loaded (`exists_load`).
-/

namespace Rendezvous

namespace Env

/-- All that an environment refers to is loaded, up to some type nodes that are asked for. -/
structure ClosedBut (env : Env) (asked : List Id) : Prop where
  children : ∀ {id : Id} {n : TypeNode}, env.types.get? id = some n →
    ∀ c ∈ n.children, c ∈ env.types.keys ∨ c ∈ asked
  link : ∀ {id : Id} {name : QualName}, env.types.get? id = some (.link name) →
    name ∈ env.names.keys
  root : ∀ {name : QualName} {root : Id}, env.names.get? name = some (some root) →
    root ∈ env.types.keys ∨ root ∈ asked
  parameter : ∀ {id : Id} {sig : Signature}, env.sigs.get? id = some sig →
    ∀ p ∈ sig.parameters, p.type ∈ env.names.keys

/-- All that an environment refers to is loaded. -/
def Closed (env : Env) : Prop := env.ClosedBut []

/-- Nothing that was loaded is lost. -/
structure Extends (env env' : Env) : Prop where
  types : ∀ id ∈ env.types.keys, id ∈ env'.types.keys
  names : ∀ name ∈ env.names.keys, name ∈ env'.names.keys
  sigs : ∀ id ∈ env.sigs.keys, id ∈ env'.sigs.keys

variable {env env' env'' : Env} {asked asked' : List Id}

theorem Extends.refl (env : Env) : env.Extends env :=
  ⟨fun _ h => h, fun _ h => h, fun _ h => h⟩

theorem Extends.trans (h : env.Extends env') (h' : env'.Extends env'') : env.Extends env'' :=
  ⟨fun _ hid => h'.types _ (h.types _ hid), fun _ hn => h'.names _ (h.names _ hn),
    fun _ hid => h'.sigs _ (h.sigs _ hid)⟩

theorem closed_empty : (∅ : Env).Closed := ⟨nofun, nofun, nofun, nofun⟩

/-- What is asked for may be loaded already. -/
theorem ClosedBut.imp (h : env.ClosedBut asked)
    (hasked : ∀ id ∈ asked, id ∈ env.types.keys ∨ id ∈ asked') : env.ClosedBut asked' where
  children hn c hc := (h.children hn c hc).elim .inl (hasked c)
  link := h.link
  root hn := (h.root hn).elim .inl (hasked _)
  parameter := h.parameter

/-- A name comes in with its root, if it has one. -/
theorem ClosedBut.insertName {name : QualName} {root : Option Id} (h : env.ClosedBut asked)
    (hroot : ∀ id, root = some id → id ∈ asked) :
    ({ env with names := env.names.insert name root } : Env).ClosedBut asked where
  children := h.children
  link hn := (Table.mem_keys_insert ..).2 (.inr (h.link hn))
  root {name' id} hn := by
    rw [Table.get?_insert] at hn
    split at hn
    · exact .inr (hroot id (Option.some.inj hn))
    · exact h.root hn
  parameter hs p hp := (Table.mem_keys_insert ..).2 (.inr (h.parameter hs p hp))

/-- A signature comes in with the names of its types. -/
theorem ClosedBut.insertSig {id : Id} {sig : Signature} (h : env.ClosedBut asked)
    (hnames : ∀ p ∈ sig.parameters, p.type ∈ env.names.keys) :
    ({ env with sigs := env.sigs.insert id sig } : Env).ClosedBut asked where
  children := h.children
  link := h.link
  root := h.root
  parameter {id' sig'} hs := by
    rw [Table.get?_insert] at hs
    split at hs
    · cases hs
      exact hnames
    · exact h.parameter hs

/-- A node comes in with what it refers to, and is not asked for any more. -/
theorem ClosedBut.insertType {id : Id} {n : TypeNode} (h : env.ClosedBut (id :: asked))
    (hchildren : ∀ c ∈ n.children, c ∈ asked)
    (hlink : ∀ name, n = .link name → name ∈ env.names.keys) :
    ({ env with types := env.types.insert id n } : Env).ClosedBut asked := by
  have hold : ∀ {c : Id}, c ∈ env.types.keys ∨ c ∈ id :: asked →
      c ∈ (env.types.insert id n).keys ∨ c ∈ asked := by
    intro c hc
    rw [Table.mem_keys_insert]
    rcases hc with hc | hc
    · exact .inl (.inr hc)
    · exact (List.mem_cons.1 hc).imp .inl fun hc => hc
  refine ⟨fun {id' n'} hn c hc => ?_, fun {id' name} hn => ?_, fun hn => hold (h.root hn),
    h.parameter⟩
  all_goals
    rw [Table.get?_insert] at hn
    split at hn
  · cases hn
    exact .inr (hchildren c hc)
  · exact hold (h.children hn c hc)
  · exact hlink name (Option.some.inj hn)
  · exact h.link hn

end Env

/-! ## Loading leaves nothing out -/

namespace Loading

/-- All that is referred to is loaded or asked for, up to `more`. -/
def Covers (l : Loading) (more : List Id) : Prop := l.env.ClosedBut (l.pending ++ more)

/-- A step of loading that takes care of `done`: nothing is lost, and nothing is left out. -/
structure Advances (done : List Id) (l l' : Loading) : Prop where
  env : l.env.Extends l'.env
  pending : ∀ id ∈ l.pending, id ∈ l'.pending
  covers : ∀ more, l.Covers (done ++ more) → l'.Covers more

variable {l l' l'' : Loading} {done done' : List Id}

theorem Advances.refl (l : Loading) : l.Advances [] l :=
  ⟨.refl _, fun _ h => h, fun _ h => h⟩

theorem Advances.trans (h : l.Advances done l') (h' : l'.Advances done' l'') :
    l.Advances (done ++ done') l'' :=
  ⟨h.env.trans h'.env, fun id hid => h'.pending id (h.pending id hid),
    fun more hc => h'.covers more (h.covers _ (List.append_assoc .. ▸ hc))⟩

end Loading

namespace Registry

variable {r : Registry} {l l' : Loading}

theorem advances_addName {name : QualName} (h : r.addName name l = .ok l') :
    l.Advances [] l' ∧ name ∈ l'.env.names.keys := by
  unfold addName at h
  split at h
  · next hknown =>
    cases h
    exact ⟨.refl l, (Table.mem_keys_iff _).2 ((Table.contains_eq_true_iff _).1 hknown)⟩
  · split at h
    · cases h
    · next decl hdecl =>
      cases h
      refine ⟨⟨⟨fun _ h => h, fun _ h => ?_, fun _ h => h⟩, fun _ h => ?_, fun more h => ?_⟩, ?_⟩
      · exact (Table.mem_keys_insert ..).2 (.inr h)
      · exact List.mem_append_left _ h
      · refine Env.ClosedBut.insertName (h.imp fun id hid => .inr ?_) fun id hid => ?_
        · simp only [List.nil_append, List.mem_append] at hid ⊢
          exact hid.imp .inl fun h => h
        · simp [hid]
      · exact (Table.mem_keys_insert ..).2 (.inl rfl)

/-- Steps one after the other, each of which makes something known. -/
theorem advances_foldlM {α : Type} {f : Loading → α → Except Error Loading}
    {K : α → Env → Prop} (hkeep : ∀ {a env env'}, env.Extends env' → K a env → K a env')
    (hstep : ∀ {a l l'}, f l a = .ok l' → l.Advances [] l' ∧ K a l'.env) {xs : List α}
    (h : xs.foldlM f l = .ok l') : l.Advances [] l' ∧ ∀ a ∈ xs, K a l'.env := by
  induction xs generalizing l with
  | nil =>
    cases h
    exact ⟨.refl _, nofun⟩
  | cons a rest ih =>
    rw [List.foldlM_cons, except_bind_eq_ok] at h
    obtain ⟨m, hm, h⟩ := h
    obtain ⟨ha, hknown⟩ := hstep hm
    obtain ⟨hrest, hall⟩ := ih h
    exact ⟨ha.trans hrest, List.forall_mem_cons.2 ⟨hkeep hrest.env hknown, hall⟩⟩

theorem advances_addSig {id : Id} (h : r.addSig id l = .ok l') :
    l.Advances [] l' ∧ id ∈ l'.env.sigs.keys := by
  unfold addSig at h
  split at h
  · next hknown =>
    cases h
    exact ⟨.refl l, (Table.mem_keys_iff _).2 ((Table.contains_eq_true_iff _).1 hknown)⟩
  · split at h
    · cases h
    · next sig hsig =>
      rw [except_bind_eq_ok] at h
      obtain ⟨m, hm, h⟩ := h
      cases h
      obtain ⟨ha, hnames⟩ := advances_foldlM (K := fun p env => p.type ∈ env.names.keys)
        (fun he hk => he.names _ hk) advances_addName hm
      refine ⟨⟨⟨ha.env.types, ha.env.names, fun id' h => ?_⟩, ha.pending,
        fun more h => (ha.covers more h).insertSig hnames⟩, (Table.mem_keys_insert ..).2 (.inl rfl)⟩
      exact (Table.mem_keys_insert ..).2 (.inr (ha.env.sigs _ h))

theorem advances_addNode {id : Id} {node : TypeNode} (h : r.addNode id node l = .ok l') :
    l.Advances [id] l' := by
  -- the names of aliases are known before the node is added
  have hinsert : ∀ {m : Loading},
      (⟨l.env, l.pending ++ node.children⟩ : Loading).Advances [] m →
      (∀ name, node = .link name → name ∈ m.env.names.keys) →
      l.Advances [id] { m with env := { m.env with types := m.env.types.insert id node } } := by
    intro m hm hlink
    refine ⟨⟨fun _ h => ?_, hm.env.names, hm.env.sigs⟩, fun _ h => ?_, fun more h => ?_⟩
    · exact (Table.mem_keys_insert ..).2 (.inr (hm.env.types _ h))
    · exact hm.pending _ (List.mem_append_left _ h)
    · have hbefore : (⟨l.env, l.pending ++ node.children⟩ : Loading).Covers (id :: more) :=
        h.imp fun c hc => .inr (by grind)
      refine Env.ClosedBut.insertType ((hm.covers _ hbefore).imp fun c hc => .inr (by grind))
        (fun c hc => ?_) hlink
      exact List.mem_append_left _ (hm.pending c (List.mem_append_right _ hc))
  unfold addNode at h
  cases node with
  | link name =>
    obtain ⟨named, hnamed, h⟩ := except_bind_eq_ok.1 h
    cases h
    obtain ⟨ha, hname⟩ := advances_addName hnamed
    exact hinsert ha fun name' hn => by cases hn; exact hname
  | _ =>
    cases h
    exact hinsert (.refl _) nofun

theorem advances_addAll {nodes : List (Id × TypeNode)} (h : r.addAll nodes l = .ok l') :
    l.Advances (nodes.map Prod.fst) l' := by
  induction nodes generalizing l with
  | nil =>
    cases h
    exact .refl _
  | cons e rest ih =>
    obtain ⟨id, node⟩ := e
    rw [addAll] at h
    split at h
    · cases h
    · next m hm => exact (advances_addNode hm).trans (ih h)

/-- Filling ends with all that is asked for, and all that it reaches. -/
theorem closed_fill {env : Env} (hc : l.Covers []) (h : r.fill l = .ok env) :
    env.Closed ∧ l.env.Extends env ∧ ∀ id ∈ l.pending, id ∈ env.types.keys := by
  have hbatch : ∀ {l : Loading} {id : Id}, id ∈ l.pending →
      id ∈ l.env.types.keys ∨ id ∈ batch l.env l.pending := by
    intro l id hid
    by_cases hk : id ∈ l.env.types.keys
    · exact .inl hk
    · right
      simp only [batch, mem_distinct, List.mem_filter, Table.contains_eq_false_iff,
        Bool.not_eq_true']
      exact ⟨hid, (Table.get?_eq_none_iff _ _).2 hk⟩
  fun_induction fill r l with
  | case1 l hb =>
    cases h
    have hloaded : ∀ id ∈ l.pending, id ∈ l.env.types.keys := fun id hid =>
      (hbatch hid).resolve_right (by rw [hb]; exact List.not_mem_nil)
    refine ⟨hc.imp fun id hid => .inl (hloaded id ?_), .refl _, hloaded⟩
    simpa using hid
  | case2 => cases h
  | case3 => cases h
  | case4 l id ids hb nodes hf l' ha ih =>
    obtain ⟨hkeys, -⟩ := keys_fetch hf
    have hadv := advances_addAll ha
    rw [hkeys, ← hb] at hadv
    obtain ⟨hclosed, hext, -⟩ := ih (hadv.covers _ (hc.imp fun c hc => by
      simpa using hbatch (by simpa using hc))) h
    refine ⟨hclosed, hadv.env.trans hext, fun c hc => hext.types c ?_⟩
    refine (mem_types_addAll ha c).2 ((hbatch hc).imp_right fun hmem => ?_)
    rw [hkeys, ← hb]
    exact hmem

/-- What is loaded for a term is closed, and has the types of all channels and the signatures that
the term refers to. -/
theorem closed_of_load {cfg : Configuration} {term : Term} {env : Env}
    (h : r.load cfg term = .ok env) :
    env.Closed ∧ (∀ ep ∈ cfg.channels.values, ep.type ∈ env.types.keys) ∧
      ∀ id ∈ term.mentions, id ∈ env.sigs.keys := by
  unfold load at h
  rw [except_bind_eq_ok] at h
  obtain ⟨l, hl, h⟩ := h
  obtain ⟨ha, hsigs⟩ := advances_foldlM (K := fun id env => id ∈ env.sigs.keys)
    (fun he hk => he.sigs _ hk) advances_addSig hl
  obtain ⟨hclosed, hext, hpending⟩ := closed_fill
    (ha.covers [] (Env.closed_empty.imp nofun)) h
  refine ⟨hclosed, fun ep hep => hpending _ (ha.pending _ (List.mem_map_of_mem hep)),
    fun id hid => hext.sigs id (hsigs id ?_)⟩
  rwa [Term.sigs, mem_distinct]

/-! ## What can be loaded -/

/-- These types, names and signatures are on record with all that they refer to. -/
structure Supplies (r : Registry) (T : Id → Prop) (N : QualName → Prop) (G : Id → Prop) : Prop where
  node : ∀ {id : Id}, T id → ∃ n, r.nodes.get? id = some n ∧ (∀ c ∈ n.children, T c) ∧
    ∀ name, n = .link name → N name
  name : ∀ {name : QualName}, N name → ∃ decl, r.typeNamed? name = some decl ∧
    ∀ root, decl.root = some root → T root
  sig : ∀ {id : Id}, G id → ∃ sig, r.sigs.get? id = some sig ∧ ∀ p ∈ sig.parameters, N p.type

variable {T T' : Id → Prop} {N N' : QualName → Prop} {G G' : Id → Prop}

/-- Two supplies together are one. -/
theorem Supplies.or (h : r.Supplies T N G) (h' : r.Supplies T' N' G') :
    r.Supplies (fun id => T id ∨ T' id) (fun name => N name ∨ N' name)
      (fun id => G id ∨ G' id) where
  node := by
    rintro id (hid | hid)
    · obtain ⟨n, hn, hc, hl⟩ := h.node hid
      exact ⟨n, hn, fun c hmem => .inl (hc c hmem), fun name hname => .inl (hl name hname)⟩
    · obtain ⟨n, hn, hc, hl⟩ := h'.node hid
      exact ⟨n, hn, fun c hmem => .inr (hc c hmem), fun name hname => .inr (hl name hname)⟩
  name := by
    rintro name (hname | hname)
    · obtain ⟨decl, hd, hroot⟩ := h.name hname
      exact ⟨decl, hd, fun root hr => .inl (hroot root hr)⟩
    · obtain ⟨decl, hd, hroot⟩ := h'.name hname
      exact ⟨decl, hd, fun root hr => .inr (hroot root hr)⟩
  sig := by
    rintro id (hid | hid)
    · obtain ⟨sig, hs, hp⟩ := h.sig hid
      exact ⟨sig, hs, fun p hmem => .inl (hp p hmem)⟩
    · obtain ⟨sig, hs, hp⟩ := h'.sig hid
      exact ⟨sig, hs, fun p hmem => .inr (hp p hmem)⟩

/-- A closed environment is a supply. -/
theorem supplies_of_closed {env : Env} (hc : env.Closed) (hw : env.Within r) :
    r.Supplies (· ∈ env.types.keys) (· ∈ env.names.keys) (· ∈ env.sigs.keys) where
  node {id} hid := by
    obtain ⟨n, hn⟩ := (Table.mem_keys_iff _).1 hid
    refine ⟨n, hw.types hn, fun c hmem => (hc.children hn c hmem).resolve_right nofun, ?_⟩
    rintro name rfl
    exact hc.link hn
  name {name} hname := by
    obtain ⟨o, ho⟩ := (Table.mem_keys_iff _).1 hname
    obtain ⟨decl, hd, rfl⟩ := hw.names ho
    exact ⟨decl, hd, fun root hr => (hc.root (hr ▸ ho)).resolve_right nofun⟩
  sig {id} hid := by
    obtain ⟨sig, hs⟩ := (Table.mem_keys_iff _).1 hid
    exact ⟨sig, hw.sigs hs, hc.parameter hs⟩

/-- Only types of the supply are asked for. -/
def Asks (T : Id → Prop) (l : Loading) : Prop := ∀ id ∈ l.pending, T id

theorem exists_addName (hs : r.Supplies T N G) (ha : Asks T l) {name : QualName} (hn : N name) :
    ∃ l', r.addName name l = .ok l' ∧ Asks T l' := by
  obtain ⟨decl, hd, hroot⟩ := hs.name hn
  unfold addName
  split
  · exact ⟨l, rfl, ha⟩
  · rw [hd]
    refine ⟨_, rfl, fun id hid => ?_⟩
    rcases List.mem_append.1 hid with hid | hid
    · exact ha id hid
    · exact hroot id (by simpa using hid)

/-- Steps one after the other, each of which can be taken. -/
theorem exists_foldlM {α : Type} {f : Loading → α → Except Error Loading} {xs : List α}
    (hstep : ∀ a ∈ xs, ∀ {l}, Asks T l → ∃ l', f l a = .ok l' ∧ Asks T l') (ha : Asks T l) :
    ∃ l', xs.foldlM f l = .ok l' ∧ Asks T l' := by
  induction xs generalizing l with
  | nil => exact ⟨l, rfl, ha⟩
  | cons a rest ih =>
    obtain ⟨m, hm, ham⟩ := hstep a List.mem_cons_self ha
    obtain ⟨l', hl', hal'⟩ := ih (fun b hb => hstep b (List.mem_cons_of_mem _ hb)) ham
    exact ⟨l', by rw [List.foldlM_cons, except_bind_eq_ok]; exact ⟨m, hm, hl'⟩, hal'⟩

theorem exists_addSig (hs : r.Supplies T N G) (ha : Asks T l) {id : Id} (hid : G id) :
    ∃ l', r.addSig id l = .ok l' ∧ Asks T l' := by
  obtain ⟨sig, hsig, hparams⟩ := hs.sig hid
  unfold addSig
  split
  · exact ⟨l, rfl, ha⟩
  · rw [hsig]
    obtain ⟨m, hm, ham⟩ := exists_foldlM (f := fun l p => r.addName p.type l)
      (fun p hp {l} hl => exists_addName hs hl (hparams p hp)) ha
    exact ⟨_, except_bind_eq_ok.2 ⟨m, hm, rfl⟩, ham⟩

theorem exists_addNode (hs : r.Supplies T N G) (ha : Asks T l) (id : Id) {node : TypeNode}
    (hchildren : ∀ c ∈ node.children, T c) (hlink : ∀ name, node = .link name → N name) :
    ∃ l', r.addNode id node l = .ok l' ∧ Asks T l' := by
  have hasked : Asks T ⟨l.env, l.pending ++ node.children⟩ := fun c hc =>
    (List.mem_append.1 hc).elim (ha c) (hchildren c)
  unfold addNode
  cases node with
  | link name =>
    obtain ⟨named, hnamed, han⟩ := exists_addName hs hasked (hlink name rfl)
    exact ⟨_, except_bind_eq_ok.2 ⟨named, hnamed, rfl⟩, han⟩
  | _ => exact ⟨_, rfl, hasked⟩

theorem exists_addAll (hs : r.Supplies T N G) {nodes : List (Id × TypeNode)}
    (hnodes : ∀ e ∈ nodes, T e.1 ∧ r.nodes.get? e.1 = some e.2) (ha : Asks T l) :
    ∃ l', r.addAll nodes l = .ok l' ∧ Asks T l' := by
  induction nodes generalizing l with
  | nil => exact ⟨l, rfl, ha⟩
  | cons e rest ih =>
    obtain ⟨hT, hget⟩ := hnodes e List.mem_cons_self
    obtain ⟨n, hn, hchildren, hlink⟩ := hs.node hT
    cases hget.symm.trans hn
    obtain ⟨m, hm, ham⟩ := exists_addNode hs ha e.1 hchildren hlink
    obtain ⟨l', hl', hal'⟩ := ih (fun e he => hnodes e (List.mem_cons_of_mem _ he)) ham
    exact ⟨l', by rw [addAll, hm]; exact hl', hal'⟩

theorem exists_fetch (hs : r.Supplies T N G) {ids : List Id} (h : ∀ id ∈ ids, T id) :
    ∃ nodes, r.fetch ids = .ok nodes := by
  induction ids with
  | nil => exact ⟨[], rfl⟩
  | cons id rest ih =>
    obtain ⟨n, hn, -⟩ := hs.node (h id List.mem_cons_self)
    obtain ⟨nodes, hnodes⟩ := ih fun id hid => h id (List.mem_cons_of_mem _ hid)
    exact ⟨(id, n) :: nodes, by rw [fetch, hn, hnodes]⟩

theorem exists_fill (hs : r.Supplies T N G) (ha : Asks T l) : ∃ env, r.fill l = .ok env := by
  have hbatch : ∀ {l : Loading} {id : Id}, Asks T l → id ∈ batch l.env l.pending → T id := by
    intro l id ha hid
    rw [batch, mem_distinct] at hid
    exact ha id (List.mem_filter.1 hid).1
  -- what is fetched for a batch can be added
  have hadd : ∀ {l : Loading} {ids : List Id} {nodes : List (Id × TypeNode)}, Asks T l →
      batch l.env l.pending = ids → r.fetch ids = .ok nodes →
      ∃ l', r.addAll nodes ⟨l.env, []⟩ = .ok l' ∧ Asks T l' := by
    intro l ids nodes ha hb hf
    refine exists_addAll hs (fun e he => ⟨hbatch ha ?_, get?_of_mem_fetch hf e he⟩)
      fun _ h => absurd h List.not_mem_nil
    rw [hb, ← (keys_fetch hf).1]
    exact List.mem_map_of_mem he
  fun_induction fill r l with
  | case1 l => exact ⟨l.env, rfl⟩
  | case2 l id ids hb e hf =>
    obtain ⟨nodes, hnodes⟩ := exists_fetch hs fun id hid => hbatch ha (hb ▸ hid)
    cases hnodes.symm.trans hf
  | case3 l id ids hb nodes hf e he =>
    obtain ⟨l', hl', -⟩ := hadd ha hb hf
    cases hl'.symm.trans he
  | case4 l id ids hb nodes hf l' hl' ih =>
    obtain ⟨m, hm, ham⟩ := hadd ha hb hf
    cases hm.symm.trans hl'
    exact ih ham

/-- What is supplied can be loaded. -/
theorem exists_load (hs : r.Supplies T N G) {cfg : Configuration} {term : Term}
    (htypes : ∀ ep ∈ cfg.channels.values, T ep.type) (hsigs : ∀ id ∈ term.mentions, G id) :
    ∃ env, r.load cfg term = .ok env := by
  have hstart : Asks T ⟨∅, cfg.channels.values.map Endpoint.type⟩ := by
    intro id hid
    obtain ⟨ep, hep, rfl⟩ := List.mem_map.1 hid
    exact htypes ep hep
  have hstep : ∀ id ∈ term.sigs, ∀ {l}, Asks T l → ∃ l', r.addSig id l = .ok l' ∧ Asks T l' :=
    fun id hid _ hl => exists_addSig hs hl (hsigs id (by rwa [Term.sigs, mem_distinct] at hid))
  obtain ⟨l, hl, ha⟩ := exists_foldlM (f := fun l id => r.addSig id l) hstep hstart
  obtain ⟨env, henv⟩ := exists_fill hs ha
  exact ⟨env, except_bind_eq_ok.2 ⟨l, hl, henv⟩⟩

/-! ## Aliases come to an end -/

/-- What a type stands for, once `k` aliases are followed. -/
inductive DenotesAfter (r : Registry) : Nat → Id → TypeNode → Prop
  | node {id : Id} {n : TypeNode} (h : r.nodes.get? id = some n) (hn : ∀ name, n ≠ .link name) :
    DenotesAfter r 0 id n
  | link {k : Nat} {id root : Id} {name : QualName} {decl : TypeDecl} {n : TypeNode}
    (h : r.nodes.get? id = some (.link name)) (hd : r.typeNamed? name = some decl)
    (hr : decl.root = some root) (hl : DenotesAfter r k root n) : DenotesAfter r (k + 1) id n

theorem Denotes.exists_after {id : Id} {n : TypeNode} (h : r.Denotes id n) :
    ∃ k, r.DenotesAfter k id n := by
  induction h with
  | node h hn => exact ⟨0, .node h hn⟩
  | link h hd hr _ ih =>
    obtain ⟨k, hk⟩ := ih
    exact ⟨k + 1, .link h hd hr hk⟩

/-- The number of aliases is determined. -/
theorem DenotesAfter.unique {j k : Nat} {id : Id} {m n : TypeNode} (h : r.DenotesAfter j id m)
    (h' : r.DenotesAfter k id n) : j = k := by
  induction h generalizing k with
  | node h hn =>
    cases h' with
    | node => rfl
    | link h' => exact absurd (Option.some.inj (h.symm.trans h')) (hn _)
  | link h hd hr _ ih =>
    cases h' with
    | node h' hn => exact absurd (Option.some.inj (h'.symm.trans h)) (hn _)
    | link h' hd' hr' hl' =>
      cases h.symm.trans h'
      cases hd.symm.trans hd'
      cases hr.symm.trans hr'
      rw [ih hl']

end Registry

namespace Env

variable {env : Env} {r : Registry} {a b : Id} {n : TypeNode}

/-- A loaded type is resolved along the aliases that it is declared by. -/
theorem exists_resolveFrom (hc : env.Closed) (hw : env.Within r) {k : Nat}
    (h : r.DenotesAfter k a n) (ha : a ∈ env.types.keys) {seen : List QualName}
    (hseen : ∀ name ∈ seen, ∀ {decl root j m}, r.typeNamed? name = some decl →
      decl.root = some root → r.DenotesAfter j root m → k ≤ j) :
    ∃ id, env.resolveFrom seen a = .ok (id, n) := by
  -- the roots of the names that were passed are at least as far from the end
  induction h generalizing seen with
  | @node id n h hn =>
    obtain ⟨n', hn'⟩ := (Table.mem_keys_iff _).1 ha
    cases (hw.types hn').symm.trans h
    refine ⟨id, ?_⟩
    unfold resolveFrom
    rw [node_eq_ok.2 hn']
    split
    · next heq => cases heq
    · next heq => exact absurd (Except.ok.inj heq) (hn _)
    · next heq => rw [Except.ok.inj heq]
  | @link k id root name decl n h hd hr hl ih =>
    obtain ⟨n', hn'⟩ := (Table.mem_keys_iff _).1 ha
    cases (hw.types hn').symm.trans h
    obtain ⟨o, ho⟩ := (Table.mem_keys_iff _).1 (hc.link hn')
    obtain ⟨decl', hd', rfl⟩ := hw.names ho
    cases hd.symm.trans hd'
    rw [hr] at ho
    have hnew : name ∉ seen := fun hmem => Nat.not_succ_le_self k (hseen name hmem hd hr hl)
    have hseen' : ∀ other ∈ name :: seen, ∀ {decl root j m}, r.typeNamed? other = some decl →
        decl.root = some root → r.DenotesAfter j root m → k ≤ j := by
      intro other hmem odecl oroot j m hod hor hj
      rcases List.mem_cons.1 hmem with rfl | hmem
      · obtain rfl : decl = odecl := Option.some.inj (hd.symm.trans hod)
        obtain rfl : root = oroot := Option.some.inj (hr.symm.trans hor)
        exact Nat.le_of_eq (hl.unique hj)
      · exact Nat.le_of_succ_le (hseen other hmem hod hor hj)
    obtain ⟨id', hid'⟩ := ih ((hc.root ho).resolve_right List.not_mem_nil) hseen'
    refine ⟨id', ?_⟩
    unfold resolveFrom
    rw [node_eq_ok.2 hn']
    dsimp only
    rw [if_neg hnew]
    split
    · next e he => cases he.symm.trans (rootOf_eq_ok.2 ho)
    · next root' he =>
      cases he.symm.trans (rootOf_eq_ok.2 ho)
      exact hid'

/-- A loaded type stands for what it stands for in the registry. -/
theorem stands_iff (hc : env.Closed) (hw : env.Within r) (ha : a ∈ env.types.keys) :
    env.Stands a n ↔ r.Denotes a n := by
  constructor
  · rintro ⟨id, h⟩
    exact denotes_of_resolve hw h
  · intro h
    obtain ⟨k, hk⟩ := h.exists_after
    exact exists_resolveFrom hc hw hk ha nofun

/-- The children of what a type stands for are loaded. -/
theorem Stands.children (hc : env.Closed) (h : env.Stands a n) :
    ∀ c ∈ n.children, c ∈ env.types.keys := by
  obtain ⟨id, h⟩ := h
  have hn := node_eq_ok.1 (node_of_resolveFrom_eq_ok h)
  exact fun c hmem => (hc.children hn c hmem).resolve_right nofun

/-- Types that compare equal are the same in the registry. -/
theorem same_denotes_of_eqType (hw : env.Within r) (h : env.eqType a b = .ok true) :
    Same r.Denotes a b :=
  (same_of_eqType h).mono fun ⟨_, h⟩ => denotes_of_resolve hw h

/-- Loaded types compare equal exactly if they are the same in the registry. -/
theorem eqType_iff (hc : env.Closed) (hw : env.Within r) (ha : a ∈ env.types.keys)
    (hb : b ∈ env.types.keys) : env.eqType a b = .ok true ↔ Same r.Denotes a b := by
  refine ⟨same_denotes_of_eqType hw, fun h => ?_⟩
  refine eqType_of_bisimulation
    (R := fun a b => Same r.Denotes a b ∧ a ∈ env.types.keys ∧ b ∈ env.types.keys) ?_ ⟨h, ha, hb⟩
  -- among loaded types the largest bisimulation of the registry is one of the environment
  rintro a b ⟨h, ha, hb⟩
  refine (Same.bisimulation _ h).imp_right ?_
  rintro ⟨m, n, hm, hn, halike⟩
  have hm := (stands_iff hc hw ha).2 hm
  have hn := (stands_iff hc hw hb).2 hn
  exact ⟨m, n, hm, hn, halike.imp fun ha hb h => ⟨h, hm.children hc _ ha, hn.children hc _ hb⟩⟩

end Env

end Rendezvous
