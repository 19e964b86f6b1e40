import Rendezvous.Proofs.Loaded
import Rendezvous.Proofs.Runs

/-!
# Trees on record

A type is submitted as a tree, goes on record as nodes and is shown as a tree again.
`SessionType.StoredAt` says of an arena of nodes that it spells out a tree below an id:

- nothing else is spelt out there (`StoredAt.unique`), and nodes that are added take nothing away
  (`StoredAt.transport`);
- lowering a tree whose labels are in order puts it on record (`storedAt_addNodes_lower`);
- the tree comes back from the environment that is loaded for it (`specOf_of_spells`). Loading
  follows aliases, so this takes that all names in the tree are declared, and those in the types
  that these names stand for (`Registry.Spells`, `Registry.Spelt`).

A tree on record is read to a depth that the number of nodes bounds. On the way down the trees get
smaller, so that no node is met twice.
-/

namespace Rendezvous

/-! ## Arenas -/

namespace SessionType

mutual

/-- The nodes below an id spell out the tree. -/
def StoredAt (nodes : Table Id TypeNode) : SessionType → Id → Prop
  | .one, id => nodes.get? id = some .one
  | .link name, id => nodes.get? id = some (.link name)
  | .tensor value cont, id => ∃ v c, nodes.get? id = some (.tensor v c) ∧
    value.StoredAt nodes v ∧ cont.StoredAt nodes c
  | .lolli value cont, id => ∃ v c, nodes.get? id = some (.lolli v c) ∧
    value.StoredAt nodes v ∧ cont.StoredAt nodes c
  | .plus choices, id => ∃ table, nodes.get? id = some (.plus table) ∧
    StoredChoices nodes choices table.entries
  | .with choices, id => ∃ table, nodes.get? id = some (.with table) ∧
    StoredChoices nodes choices table.entries
  | .up cont, id => ∃ c, nodes.get? id = some (.up c) ∧ cont.StoredAt nodes c
  | .down cont, id => ∃ c, nodes.get? id = some (.down c) ∧ cont.StoredAt nodes c

/-- The branches of a choice are spelt out below the ids that its labels lead to. -/
def StoredChoices (nodes : Table Id TypeNode) :
    List (Sym × SessionType) → List (Sym × Id) → Prop
  | [], entries => entries = []
  | (label, typ) :: rest, entries => ∃ id more, entries = (label, id) :: more ∧
    typ.StoredAt nodes id ∧ StoredChoices nodes rest more

end

variable {nodes nodes' : Table Id TypeNode} {t t' : SessionType} {id : Id}

theorem StoredChoices.exists_storedAt {choices : List (Sym × SessionType)}
    {entries : List (Sym × Id)} (h : StoredChoices nodes choices entries) {c : Id}
    (hc : c ∈ entries.map Prod.snd) :
    ∃ t : SessionType, t.StoredAt nodes c ∧ ∀ name ∈ t.links, name ∈ linksOfChoices choices := by
  induction choices generalizing entries with
  | nil =>
    rw [StoredChoices] at h
    simp [h] at hc
  | cons choice rest ih =>
    obtain ⟨id, more, rfl, ht, hrest⟩ := h
    rcases List.mem_cons.1 hc with rfl | hc
    · exact ⟨choice.2, ht, fun name hn => List.mem_append_left _ hn⟩
    · obtain ⟨t, ht, hlinks⟩ := ih hrest hc
      exact ⟨t, ht, fun name hn => List.mem_append_right _ (hlinks name hn)⟩

/-- The node at the root of a tree on record: its children are roots of trees on record too. -/
theorem StoredAt.exists_node (h : t.StoredAt nodes id) :
    ∃ n, nodes.get? id = some n ∧
      (∀ c ∈ n.children, ∃ t' : SessionType, t'.StoredAt nodes c ∧
        ∀ name ∈ t'.links, name ∈ t.links) ∧
      ∀ name, n = .link name → name ∈ t.links := by
  cases t with
  | one => exact ⟨_, h, nofun, nofun⟩
  | link name =>
    refine ⟨_, h, nofun, ?_⟩
    rintro _ ⟨⟩
    exact List.mem_singleton_self name
  | tensor value cont | lolli value cont =>
    obtain ⟨v, c, hn, hv, hc⟩ := h
    refine ⟨_, hn, ?_, nofun⟩
    rintro _ (_ | ⟨_, _ | ⟨_, ⟨⟩⟩⟩)
    · exact ⟨value, hv, fun name hmem => List.mem_append_left _ hmem⟩
    · exact ⟨cont, hc, fun name hmem => List.mem_append_right _ hmem⟩
  | plus choices | «with» choices =>
    obtain ⟨table, hn, hc⟩ := h
    exact ⟨_, hn, fun c hmem => hc.exists_storedAt hmem, nofun⟩
  | up cont | down cont =>
    obtain ⟨c, hn, hc⟩ := h
    refine ⟨_, hn, ?_, nofun⟩
    rintro _ (_ | ⟨_, ⟨⟩⟩)
    exact ⟨cont, hc, fun name hmem => hmem⟩

/-- Nodes that satisfy `K` are kept by `nodes'`, and so are their children. -/
def Keeps (nodes nodes' : Table Id TypeNode) (K : Id → Prop) : Prop :=
  ∀ {id n}, K id → nodes.get? id = some n → nodes'.get? id = some n ∧ ∀ c ∈ n.children, K c

mutual

/-- A tree stays on record where its nodes do. -/
theorem StoredAt.transport {K : Id → Prop} (hK : Keeps nodes nodes' K) :
    ∀ {t : SessionType} {id : Id}, t.StoredAt nodes id → K id → t.StoredAt nodes' id
  | .one, _, h, hid => (hK hid h).1
  | .link _, _, h, hid => (hK hid h).1
  | .tensor _ _, _, ⟨v, c, hn, hv, hc⟩, hid =>
    have ⟨hn', hkept⟩ := hK hid hn
    ⟨v, c, hn', hv.transport hK (hkept v (by simp [TypeNode.children])),
      hc.transport hK (hkept c (by simp [TypeNode.children]))⟩
  | .lolli _ _, _, ⟨v, c, hn, hv, hc⟩, hid =>
    have ⟨hn', hkept⟩ := hK hid hn
    ⟨v, c, hn', hv.transport hK (hkept v (by simp [TypeNode.children])),
      hc.transport hK (hkept c (by simp [TypeNode.children]))⟩
  | .plus _, _, ⟨table, hn, hc⟩, hid =>
    have ⟨hn', hkept⟩ := hK hid hn
    ⟨table, hn', hc.transport hK hkept⟩
  | .with _, _, ⟨table, hn, hc⟩, hid =>
    have ⟨hn', hkept⟩ := hK hid hn
    ⟨table, hn', hc.transport hK hkept⟩
  | .up _, _, ⟨c, hn, hc⟩, hid =>
    have ⟨hn', hkept⟩ := hK hid hn
    ⟨c, hn', hc.transport hK (hkept c (List.mem_singleton_self c))⟩
  | .down _, _, ⟨c, hn, hc⟩, hid =>
    have ⟨hn', hkept⟩ := hK hid hn
    ⟨c, hn', hc.transport hK (hkept c (List.mem_singleton_self c))⟩

theorem StoredChoices.transport {K : Id → Prop} (hK : Keeps nodes nodes' K) :
    ∀ {choices : List (Sym × SessionType)} {entries : List (Sym × Id)},
      StoredChoices nodes choices entries → (∀ c ∈ entries.map Prod.snd, K c) →
      StoredChoices nodes' choices entries
  | [], _, h, _ => h
  | (_, _) :: _, _, ⟨id, more, he, ht, hrest⟩, hids =>
    have hids' : K id ∧ ∀ c ∈ more.map Prod.snd, K c := by
      subst he
      exact List.forall_mem_cons.1 hids
    ⟨id, more, he, ht.transport hK hids'.1, hrest.transport hK hids'.2⟩

end

mutual

/-- At most one tree is spelt out below an id. -/
theorem StoredAt.unique : ∀ {t t' : SessionType} {id : Id}, t.StoredAt nodes id →
    t'.StoredAt nodes id → t = t'
  | .one, t', _, h, h' => by
    rw [StoredAt] at h
    cases t' <;> simp [StoredAt, h] at h'
    rfl
  | .link name, t', _, h, h' => by
    rw [StoredAt] at h
    cases t' <;> simp [StoredAt, h] at h'
    rw [h']
  | .tensor value cont, t', _, ⟨v, c, hn, hv, hc⟩, h' => by
    cases t' <;> simp [StoredAt, hn] at h'
    rw [hv.unique h'.1, hc.unique h'.2]
  | .lolli value cont, t', _, ⟨v, c, hn, hv, hc⟩, h' => by
    cases t' <;> simp [StoredAt, hn] at h'
    rw [hv.unique h'.1, hc.unique h'.2]
  | .plus choices, t', _, ⟨table, hn, hc⟩, h' => by
    cases t' <;> simp [StoredAt, hn] at h'
    rw [hc.unique h']
  | .with choices, t', _, ⟨table, hn, hc⟩, h' => by
    cases t' <;> simp [StoredAt, hn] at h'
    rw [hc.unique h']
  | .up cont, t', _, ⟨c, hn, hc⟩, h' => by
    cases t' <;> simp [StoredAt, hn] at h'
    rw [hc.unique h']
  | .down cont, t', _, ⟨c, hn, hc⟩, h' => by
    cases t' <;> simp [StoredAt, hn] at h'
    rw [hc.unique h']

theorem StoredChoices.unique : ∀ {choices choices' : List (Sym × SessionType)}
    {entries : List (Sym × Id)}, StoredChoices nodes choices entries →
    StoredChoices nodes choices' entries → choices = choices'
  | [], [], _, _, _ => rfl
  | [], (_, _) :: _, _, h, ⟨_, _, he, _⟩ => by
    rw [StoredChoices, he] at h
    cases h
  | (_, _) :: _, [], _, ⟨_, _, he, _⟩, h' => by
    rw [StoredChoices, he] at h'
    cases h'
  | (_, _) :: _, (_, _) :: _, _, ⟨_, _, he, ht, hrest⟩, ⟨_, _, he', ht', hrest'⟩ => by
    cases he.symm.trans he'
    rw [ht.unique ht', hrest.unique hrest']

end

end SessionType

/-! ## Lowering -/

theorem Supply.Covers.nodup_cons {ids ids' : Supply} {recs : List TypeRec} (node : TypeNode)
    (h : ids.rest.Covers ids' recs) (hn : (recs.map TypeRec.id).Nodup) :
    ((⟨ids.id, node⟩ :: recs : List TypeRec).map TypeRec.id).Nodup := by
  refine List.nodup_cons.2 ⟨fun hmem => ?_, hn⟩
  obtain ⟨rec, hrec, hid⟩ := List.mem_map.1 hmem
  have hlt := ids.next_lt_next_rest
  have hrange := (h.2 rec hrec).1
  rw [hid] at hrange
  exact absurd hlt (Nat.not_lt.2 hrange)

theorem Supply.Covers.nodup_append {ids ids' ids'' : Supply} {recs recs' : List TypeRec}
    (h : ids.Covers ids' recs) (h' : ids'.Covers ids'' recs') (hn : (recs.map TypeRec.id).Nodup)
    (hn' : (recs'.map TypeRec.id).Nodup) : ((recs ++ recs').map TypeRec.id).Nodup := by
  rw [List.map_append]
  refine List.nodup_append.2 ⟨hn, hn', ?_⟩
  rintro _ hmem _ hmem' rfl
  obtain ⟨rec, hrec, hid⟩ := List.mem_map.1 hmem
  obtain ⟨rec', hrec', hid'⟩ := List.mem_map.1 hmem'
  have hlt := (h.2 rec hrec).2
  have hle := (h'.2 rec' hrec').1
  rw [hid'] at hle
  rw [hid] at hlt
  omega

namespace SessionType

mutual

/-- Every record of a lowered tree has an id of its own. -/
theorem nodup_lower : ∀ (t : SessionType) (ids : Supply),
    ((t.lower ids).1.recs.map TypeRec.id).Nodup
  | .one, _ => List.nodup_singleton _
  | .link _, _ => List.nodup_singleton _
  | .tensor value cont, ids =>
    have hv := value.covers_lower ids.rest
    have hc := cont.covers_lower (value.lower ids.rest).2
    (hv.append hc).nodup_cons _ (hv.nodup_append hc (value.nodup_lower _) (cont.nodup_lower _))
  | .lolli value cont, ids =>
    have hv := value.covers_lower ids.rest
    have hc := cont.covers_lower (value.lower ids.rest).2
    (hv.append hc).nodup_cons _ (hv.nodup_append hc (value.nodup_lower _) (cont.nodup_lower _))
  | .plus choices, ids =>
    (covers_lowerChoices choices ids.rest).nodup_cons _ (nodup_lowerChoices choices ids.rest)
  | .with choices, ids =>
    (covers_lowerChoices choices ids.rest).nodup_cons _ (nodup_lowerChoices choices ids.rest)
  | .up cont, ids => (cont.covers_lower ids.rest).nodup_cons _ (cont.nodup_lower ids.rest)
  | .down cont, ids => (cont.covers_lower ids.rest).nodup_cons _ (cont.nodup_lower ids.rest)

theorem nodup_lowerChoices : ∀ (choices : List (Sym × SessionType)) (ids : Supply),
    ((lowerChoices choices ids).2.1.map TypeRec.id).Nodup
  | [], _ => List.nodup_nil
  | (_, t) :: rest, ids =>
    (t.covers_lower ids).nodup_append (covers_lowerChoices rest _) (t.nodup_lower ids)
      (nodup_lowerChoices rest _)

end

theorem labels_lowerChoices (choices : List (Sym × SessionType)) (ids : Supply) :
    (lowerChoices choices ids).1.map Prod.fst = choices.map Prod.fst := by
  induction choices generalizing ids with
  | nil => rfl
  | cons choice rest ih => exact congrArg (choice.1 :: ·) (ih _)

/-- The table of a choice lists its branches as the tree does, since the labels are in order. -/
theorem entries_lowerChoices {choices : List (Sym × SessionType)}
    (h : (choices.map Prod.fst).Pairwise (· < ·)) (ids : Supply) :
    (Table.ofList (lowerChoices choices ids).1).entries = (lowerChoices choices ids).1 := by
  refine Table.entries_ofList ?_
  rw [labels_lowerChoices]
  refine h.imp fun hlt heq => ?_
  rw [heq] at hlt
  exact String.lt_irrefl _ hlt

variable {nodes : Table Id TypeNode}

mutual

/-- A tree is on record where its records are. -/
theorem storedAt_lower : ∀ (t : SessionType) (ids : Supply), t.Ordered →
    (∀ rec ∈ (t.lower ids).1.recs, nodes.get? rec.id = some rec.node) →
    t.StoredAt nodes (t.lower ids).1.root
  | .one, _, _, h => h _ List.mem_cons_self
  | .link _, _, _, h => h _ List.mem_cons_self
  | .tensor value cont, _, ho, h =>
    ⟨_, _, h _ List.mem_cons_self,
      value.storedAt_lower _ ho.1 fun rec hrec =>
        h rec (List.mem_cons_of_mem _ (List.mem_append_left _ hrec)),
      cont.storedAt_lower _ ho.2 fun rec hrec =>
        h rec (List.mem_cons_of_mem _ (List.mem_append_right _ hrec))⟩
  | .lolli value cont, _, ho, h =>
    ⟨_, _, h _ List.mem_cons_self,
      value.storedAt_lower _ ho.1 fun rec hrec =>
        h rec (List.mem_cons_of_mem _ (List.mem_append_left _ hrec)),
      cont.storedAt_lower _ ho.2 fun rec hrec =>
        h rec (List.mem_cons_of_mem _ (List.mem_append_right _ hrec))⟩
  | .plus choices, ids, ho, h =>
    have hc := storedChoices_lowerChoices choices ids.rest ho.2 fun rec hrec =>
      h rec (List.mem_cons_of_mem _ hrec)
    ⟨_, h _ List.mem_cons_self, (entries_lowerChoices ho.1 ids.rest).symm ▸ hc⟩
  | .with choices, ids, ho, h =>
    have hc := storedChoices_lowerChoices choices ids.rest ho.2 fun rec hrec =>
      h rec (List.mem_cons_of_mem _ hrec)
    ⟨_, h _ List.mem_cons_self, (entries_lowerChoices ho.1 ids.rest).symm ▸ hc⟩
  | .up cont, ids, ho, h =>
    ⟨_, h _ List.mem_cons_self, cont.storedAt_lower ids.rest ho fun rec hrec =>
      h rec (List.mem_cons_of_mem _ hrec)⟩
  | .down cont, ids, ho, h =>
    ⟨_, h _ List.mem_cons_self, cont.storedAt_lower ids.rest ho fun rec hrec =>
      h rec (List.mem_cons_of_mem _ hrec)⟩

theorem storedChoices_lowerChoices : ∀ (choices : List (Sym × SessionType)) (ids : Supply),
    OrderedChoices choices →
    (∀ rec ∈ (lowerChoices choices ids).2.1, nodes.get? rec.id = some rec.node) →
    StoredChoices nodes choices (lowerChoices choices ids).1
  | [], _, _, _ => rfl
  | (_, t) :: rest, ids, ho, h =>
    ⟨_, _, rfl, t.storedAt_lower ids ho.1 fun rec hrec => h rec (List.mem_append_left _ hrec),
      storedChoices_lowerChoices rest _ ho.2 fun rec hrec => h rec (List.mem_append_right _ hrec)⟩

end

end SessionType

namespace Registry

/-- Records with distinct ids are all on record once they are added. -/
theorem get?_addNodes_of_mem {nodes : Table Id TypeNode} {recs : List TypeRec}
    (hn : (recs.map TypeRec.id).Nodup) {rec : TypeRec} (h : rec ∈ recs) :
    (addNodes nodes recs).get? rec.id = some rec.node := by
  induction recs generalizing nodes with
  | nil => cases h
  | cons first rest ih =>
    obtain ⟨hfirst, hrest⟩ := List.nodup_cons.1 hn
    rcases List.mem_cons.1 h with rfl | h
    · show (addNodes (nodes.insert rec.id rec.node) rest).get? rec.id = some rec.node
      rw [get?_addNodes_of_ne, Table.get?_insert_self]
      intro other hother hid
      exact hfirst (hid ▸ List.mem_map_of_mem hother)
    · exact ih hrest h

/-- Lowering a tree puts it on record. -/
theorem storedAt_addNodes_lower {nodes : Table Id TypeNode} {t : SessionType} (ho : t.Ordered)
    (ids : Supply) :
    t.StoredAt (addNodes nodes (t.lower ids).1.recs) (t.lower ids).1.root :=
  t.storedAt_lower ids ho fun _ hrec => get?_addNodes_of_mem (t.nodup_lower ids) hrec

end Registry

/-! ## Lifting -/

namespace Env

variable {env : Env}

/-- The nodes passed on the way to a tree are roots of trees on record that are larger. -/
def Passed (env : Env) (seen : List Id) (size : Nat) : Prop :=
  ∀ id ∈ seen, ∃ t : SessionType, t.StoredAt env.types id ∧ size < sizeOf t

/-- A node on the way is a new one, so that there is depth left for what is below it. -/
theorem Passed.down {seen : List Id} {t : SessionType} {id : Id} {depth : Nat}
    (hp : env.Passed seen (sizeOf t)) (ht : t.StoredAt env.types id)
    (hd : unseen env.types.keys seen < depth) :
    ∃ d, depth = d + 1 ∧ unseen env.types.keys (id :: seen) < d ∧
      ∀ size, size < sizeOf t → env.Passed (id :: seen) size := by
  obtain ⟨n, hn, -⟩ := ht.exists_node
  have hnew : id ∉ seen := by
    intro hmem
    -- the same node would be the root of a tree larger than itself
    obtain ⟨t', ht', hlt⟩ := hp id hmem
    rw [ht'.unique ht] at hlt
    exact absurd hlt (Nat.lt_irrefl _)
  have hlt := unseen_cons_lt (Table.mem_keys_of_get?_eq_some hn) hnew
  refine ⟨depth - 1, by omega, by omega, fun size hsize => ?_⟩
  refine List.forall_mem_cons.2 ⟨⟨t, ht, hsize⟩, fun s hs => ?_⟩
  obtain ⟨t', ht', hlt'⟩ := hp s hs
  exact ⟨t', ht', by omega⟩

mutual

/-- A tree on record is rebuilt to any depth that leaves room for the nodes not passed yet. The
nodes above it are those in `seen`. -/
theorem liftTo_of_storedAt : ∀ {t : SessionType} {id : Id} {seen : List Id} {depth : Nat},
    t.StoredAt env.types id → env.Passed seen (sizeOf t) →
    unseen env.types.keys seen < depth → env.liftTo depth id = .ok t
  | .one, id, _, _, h, hp, hd => by
    obtain ⟨d, rfl, -⟩ := hp.down h hd
    rw [liftTo, node_eq_ok.2 h]
    rfl
  | .link _, id, _, _, h, hp, hd => by
    obtain ⟨d, rfl, -⟩ := hp.down h hd
    rw [liftTo, node_eq_ok.2 h]
    rfl
  | .tensor value cont, id, _, _, h, hp, hd => by
    obtain ⟨d, rfl, hd', hp'⟩ := hp.down h hd
    obtain ⟨v, c, hn, hv, hc⟩ := h
    rw [liftTo, node_eq_ok.2 hn]
    have hvalue := hp' (sizeOf value) (by rw [SessionType.tensor.sizeOf_spec]; omega)
    have hcont := hp' (sizeOf cont) (by rw [SessionType.tensor.sizeOf_spec]; omega)
    simp only [bind, Except.bind, liftTo_of_storedAt hv hvalue hd', liftTo_of_storedAt hc hcont hd']
    rfl
  | .lolli value cont, id, _, _, h, hp, hd => by
    obtain ⟨d, rfl, hd', hp'⟩ := hp.down h hd
    obtain ⟨v, c, hn, hv, hc⟩ := h
    rw [liftTo, node_eq_ok.2 hn]
    have hvalue := hp' (sizeOf value) (by rw [SessionType.lolli.sizeOf_spec]; omega)
    have hcont := hp' (sizeOf cont) (by rw [SessionType.lolli.sizeOf_spec]; omega)
    simp only [bind, Except.bind, liftTo_of_storedAt hv hvalue hd', liftTo_of_storedAt hc hcont hd']
    rfl
  | .plus choices, id, _, _, h, hp, hd => by
    obtain ⟨d, rfl, hd', hp'⟩ := hp.down h hd
    obtain ⟨table, hn, hc⟩ := h
    rw [liftTo, node_eq_ok.2 hn]
    have hchoices := hp' (sizeOf choices) (by rw [SessionType.plus.sizeOf_spec]; omega)
    have hlift := mapM_liftTo_of_storedChoices hc hchoices hd'
    simp only [bind, Except.bind, pure, Except.pure] at hlift ⊢
    rw [hlift]
  | .with choices, id, _, _, h, hp, hd => by
    obtain ⟨d, rfl, hd', hp'⟩ := hp.down h hd
    obtain ⟨table, hn, hc⟩ := h
    rw [liftTo, node_eq_ok.2 hn]
    have hchoices := hp' (sizeOf choices) (by rw [SessionType.with.sizeOf_spec]; omega)
    have hlift := mapM_liftTo_of_storedChoices hc hchoices hd'
    simp only [bind, Except.bind, pure, Except.pure] at hlift ⊢
    rw [hlift]
  | .up cont, id, _, _, h, hp, hd => by
    obtain ⟨d, rfl, hd', hp'⟩ := hp.down h hd
    obtain ⟨c, hn, hc⟩ := h
    rw [liftTo, node_eq_ok.2 hn]
    have hcont := hp' (sizeOf cont) (by rw [SessionType.up.sizeOf_spec]; omega)
    simp only [bind, Except.bind, liftTo_of_storedAt hc hcont hd']
    rfl
  | .down cont, id, _, _, h, hp, hd => by
    obtain ⟨d, rfl, hd', hp'⟩ := hp.down h hd
    obtain ⟨c, hn, hc⟩ := h
    rw [liftTo, node_eq_ok.2 hn]
    have hcont := hp' (sizeOf cont) (by rw [SessionType.down.sizeOf_spec]; omega)
    simp only [bind, Except.bind, liftTo_of_storedAt hc hcont hd']
    rfl

theorem mapM_liftTo_of_storedChoices : ∀ {choices : List (Sym × SessionType)}
    {entries : List (Sym × Id)} {seen : List Id} {depth : Nat},
    SessionType.StoredChoices env.types choices entries → env.Passed seen (sizeOf choices) →
    unseen env.types.keys seen < depth →
    entries.mapM (fun e => do pure (e.1, ← env.liftTo depth e.2)) = .ok choices
  | [], _, _, _, h, _, _ => by
    rw [SessionType.StoredChoices] at h
    rw [h]
    rfl
  | (label, t) :: rest, _, _, depth, h, hp, hd => by
    obtain ⟨id, more, rfl, ht, hrest⟩ := h
    have hfirst := liftTo_of_storedAt ht (fun s hs => ?_) hd
    have hmore := mapM_liftTo_of_storedChoices hrest (fun s hs => ?_) hd
    · rw [List.mapM_cons]
      simp only [bind, Except.bind, pure, Except.pure] at hmore ⊢
      rw [hfirst, hmore]
    all_goals
      obtain ⟨t', ht', hlt⟩ := hp s hs
      simp only [List.cons.sizeOf_spec, Prod.mk.sizeOf_spec] at hlt
      exact ⟨t', ht', by omega⟩

end

/-- A tree on record is rebuilt from its nodes. -/
theorem lift_of_storedAt {t : SessionType} {id : Id} (h : t.StoredAt env.types id) :
    env.lift id = .ok t := by
  refine liftTo_of_storedAt h (List.forall_mem_nil _) (Nat.lt_succ_of_le ?_)
  exact Nat.le_trans List.countP_le_length (Nat.le_of_eq (List.length_map _))

theorem storedChoices_of_mapM {f : Id → Except Error SessionType}
    (hf : ∀ {id t}, f id = .ok t → t.StoredAt env.types id) {entries : List (Sym × Id)}
    {choices : List (Sym × SessionType)}
    (h : entries.mapM (fun e => do pure (e.1, ← f e.2)) = .ok choices) :
    SessionType.StoredChoices env.types choices entries := by
  induction entries generalizing choices with
  | nil =>
    cases h
    rfl
  | cons e rest ih =>
    rw [List.mapM_cons, except_bind_eq_ok] at h
    obtain ⟨branch, hbranch, h⟩ := h
    obtain ⟨t, ht, hbranch⟩ := except_bind_eq_ok.1 hbranch
    obtain ⟨more, hmore, h⟩ := except_bind_eq_ok.1 h
    cases hbranch
    cases h
    exact ⟨e.2, rest, rfl, hf ht, ih hmore⟩

/-- What is rebuilt is on record. -/
theorem storedAt_of_liftTo {depth : Nat} {t : SessionType} {id : Id}
    (h : env.liftTo depth id = .ok t) : t.StoredAt env.types id := by
  induction depth generalizing t id with
  | zero => cases h
  | succ depth ih =>
    rw [liftTo, except_bind_eq_ok] at h
    obtain ⟨n, hn, h⟩ := h
    have hn := node_eq_ok.1 hn
    cases n with
    | one | link =>
      cases h
      exact hn
    | tensor v c | lolli v c =>
      obtain ⟨value, hv, h⟩ := except_bind_eq_ok.1 h
      obtain ⟨cont, hc, h⟩ := except_bind_eq_ok.1 h
      cases h
      exact ⟨v, c, hn, ih hv, ih hc⟩
    | plus table | «with» table =>
      obtain ⟨choices, hc, h⟩ := except_bind_eq_ok.1 h
      cases h
      exact ⟨table, hn, storedChoices_of_mapM ih hc⟩
    | up c | down c =>
      obtain ⟨cont, hc, h⟩ := except_bind_eq_ok.1 h
      cases h
      exact ⟨c, hn, ih hc⟩

theorem lift_eq_ok_iff {t : SessionType} {id : Id} :
    env.lift id = .ok t ↔ t.StoredAt env.types id :=
  ⟨storedAt_of_liftTo, lift_of_storedAt⟩

end Env

/-! ## From the registry and back -/

namespace Registry

variable {r r' : Registry} {t : SessionType} {id : Id}

/-- The tree is on record below an id, and all its aliases are declared. -/
structure Spells (r : Registry) (id : Id) (t : SessionType) : Prop where
  stored : t.StoredAt r.nodes id
  links : ∀ name ∈ t.links, ∃ decl, r.typeNamed? name = some decl

/-- All trees that declarations refer to are on record, with their aliases. -/
def Spelt (r : Registry) : Prop := ∀ {name : QualName} {decl : TypeDecl} {root : Id},
  r.typeNamed? name = some decl → decl.root = some root → ∃ t, r.Spells root t

/-- No alias dangles: what a tree refers to is on record with all that it refers to. -/
theorem Spelt.supplies (h : r.Spelt) :
    r.Supplies (fun id => ∃ t, r.Spells id t) (fun name => ∃ decl, r.typeNamed? name = some decl)
      fun _ => False where
  node := by
    rintro id ⟨t, ht⟩
    obtain ⟨n, hn, hchildren, hlink⟩ := ht.stored.exists_node
    refine ⟨n, hn, fun c hc => ?_, fun name hname => ht.links name (hlink name hname)⟩
    obtain ⟨t', ht', hsub⟩ := hchildren c hc
    exact ⟨t', ht', fun name hname => ht.links name (hsub name hname)⟩
  name := by
    rintro name ⟨decl, hd⟩
    exact ⟨decl, hd, fun root hroot => h hd hroot⟩
  sig := nofun

/-- A tree on record is shown as it is. -/
theorem specOf_of_spells (h : r.Spelt) (ht : r.Spells id t) :
    r.specOf (some id) = .ok (some t) := by
  obtain ⟨env, henv⟩ := exists_fill (l := ⟨∅, [id]⟩) h.supplies
    (List.forall_mem_singleton.2 ⟨t, ht⟩)
  obtain ⟨hclosed, -, hasked⟩ := closed_fill (l := ⟨∅, [id]⟩) (Env.closed_empty.imp nofun) henv
  have hwithin := within_fill (Env.within_empty r) henv
  -- the nodes below the root are loaded, and no others are looked at
  have hkeeps : SessionType.Keeps r.nodes env.types (· ∈ env.types.keys) := by
    intro id n hid hn
    obtain ⟨n', hn'⟩ := (Table.mem_keys_iff _).1 hid
    cases (hwithin.types hn').symm.trans hn
    exact ⟨hn', fun c hc => (hclosed.children hn' c hc).resolve_right nofun⟩
  have hlift := Env.lift_of_storedAt (ht.stored.transport hkeeps (hasked id List.mem_cons_self))
  simp only [specOf, loadTypes, henv, bind, Except.bind, hlift]
  rfl

end Registry

end Rendezvous
