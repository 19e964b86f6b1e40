import Rendezvous.Loading
import Rendezvous.Proofs.Commit
import Rendezvous.Types.Equality

/-!
# What types stand for

- `Registry.Denotes` is the node a type stands for once aliases are followed, as a relation over
  all declarations; an environment that is loaded from a registry agrees with it
  (`denotes_of_resolve`);
- `TypeNode.SameShape` is what two nodes have to share for a message that goes with one to go with
  the other: connective and labels. Types that compare equal have it (`sameShape_of_eqType`);
- `Registry.Grows` is the order in which registries grow when nothing is redefined. What a type
  stands for, and what is loaded for it, does not change on the way.
-/

namespace Rendezvous

/-! ## Nodes -/

namespace TypeNode

/-- The labels a node offers. -/
def labels : TypeNode → List Sym
  | .plus choices | .with choices => choices.keys
  | _ => []

/-- The same connective over the same labels. -/
def SameShape (m n : TypeNode) : Prop :=
  m.connective = n.connective ∧ ∀ label, label ∈ m.labels ↔ label ∈ n.labels

theorem SameShape.refl (n : TypeNode) : n.SameShape n := ⟨rfl, fun _ => Iff.rfl⟩

theorem SameShape.symm {m n : TypeNode} (h : m.SameShape n) : n.SameShape m :=
  ⟨h.1.symm, fun label => (h.2 label).symm⟩

theorem SameShape.trans {l m n : TypeNode} (h : l.SameShape m) (h' : m.SameShape n) :
    l.SameShape n :=
  ⟨h.1.trans h'.1, fun label => (h.2 label).trans (h'.2 label)⟩

/-- A connective has one direction. -/
theorem SameShape.polarity_eq {m n : TypeNode} (h : m.SameShape n) : m.polarity = n.polarity := by
  have hc := h.1
  cases m <;> cases n <;> first | rfl | cases hc

/-- Tables of the same size, where the keys of one are keys of the other, have the same keys. -/
theorem mem_keys_of_size_eq {left right : Table Sym Id} (hsize : left.size = right.size)
    (hsub : ∀ label ∈ left.keys, label ∈ right.keys) (label : Sym) :
    label ∈ left.keys ↔ label ∈ right.keys := by
  refine ⟨hsub label, fun hr => Decidable.byContradiction fun hl => ?_⟩
  -- one more key than there is room for
  have hn : (label :: left.keys).Nodup := List.nodup_cons.2 ⟨hl, left.keys_nodup⟩
  have hle := hn.length_le_of_subset (List.cons_subset.2 ⟨hr, hsub⟩)
  have hlen : left.keys.length = right.keys.length := by
    simpa [Table.keys, Table.size] using hsize
  rw [List.length_cons] at hle
  omega

theorem sameLabels_of_choiceGoals {left right : Table Sym Id}
    (h : Goal.refuted ∉ choiceGoals left right) (label : Sym) :
    label ∈ left.keys ↔ label ∈ right.keys := by
  unfold choiceGoals at h
  by_cases hsize : left.size = right.size
  · rw [if_pos hsize] at h
    refine mem_keys_of_size_eq hsize (fun l hl => ?_) label
    obtain ⟨e, he, rfl⟩ := List.mem_map.1 hl
    cases hr : right.get? e.1 with
    | some b => exact Table.mem_keys_of_get?_eq_some hr
    | none =>
      refine absurd ?_ h
      refine List.mem_map.2 ⟨e, he, ?_⟩
      rw [hr]
  · rw [if_neg hsize] at h
    exact absurd List.mem_cons_self h

/-- Nodes that open no refuted goal have the same shape. -/
theorem sameShape_of_obligations {m n : TypeNode} (h : Goal.refuted ∉ m.obligations n) :
    m.SameShape n := by
  unfold obligations at h
  split at h
  case h_4 => exact ⟨rfl, sameLabels_of_choiceGoals h⟩
  case h_5 => exact ⟨rfl, sameLabels_of_choiceGoals h⟩
  case h_8 => exact absurd List.mem_cons_self h
  all_goals exact ⟨rfl, fun _ => Iff.rfl⟩

end TypeNode

/-! ## Denotation -/

/-- The node that a type stands for, aliases followed. -/
inductive Registry.Denotes (r : Registry) : Id → TypeNode → Prop
  | node {id : Id} {n : TypeNode} (h : r.nodes.get? id = some n) (hn : ∀ name, n ≠ .link name) :
    Denotes r id n
  | link {id root : Id} {name : QualName} {decl : TypeDecl} {n : TypeNode}
    (h : r.nodes.get? id = some (.link name)) (hd : r.typeNamed? name = some decl)
    (hr : decl.root = some root) (hl : Denotes r root n) : Denotes r id n

/-- A type stands for one node. -/
theorem Registry.Denotes.unique {r : Registry} {id : Id} {m n : TypeNode} (h : r.Denotes id m)
    (h' : r.Denotes id n) : m = n := by
  induction h with
  | node h hn =>
    cases h' with
    | node h' => exact Option.some.inj (h.symm.trans h')
    | link h' => exact absurd (Option.some.inj (h.symm.trans h')) (hn _)
  | link h hd hr _ ih =>
    cases h' with
    | node h' hn => exact absurd (Option.some.inj (h'.symm.trans h)) (hn _)
    | link h' hd' hr' hl' =>
      cases h.symm.trans h'
      cases hd.symm.trans hd'
      cases hr.symm.trans hr'
      exact ih hl'

namespace Env

/-- What an environment holds is as the registry has it. -/
structure Within (env : Env) (r : Registry) : Prop where
  types : ∀ {id : Id} {n : TypeNode}, env.types.get? id = some n → r.nodes.get? id = some n
  names : ∀ {name : QualName} {root : Option Id}, env.names.get? name = some root →
    ∃ decl, r.typeNamed? name = some decl ∧ decl.root = root
  sigs : ∀ {id : Id} {sig : Signature}, env.sigs.get? id = some sig → r.sigs.get? id = some sig

theorem within_empty (r : Registry) : (∅ : Env).Within r :=
  ⟨fun h => (nomatch h), fun h => (nomatch h), fun h => (nomatch h)⟩

variable {env : Env} {r : Registry}

theorem node_eq_ok {id : Id} {n : TypeNode} : env.node id = .ok n ↔ env.types.get? id = some n := by
  unfold node
  cases env.types.get? id <;> simp

theorem rootOf_eq_ok {name : QualName} {root : Id} :
    env.rootOf name = .ok root ↔ env.names.get? name = some (some root) := by
  unfold rootOf
  cases env.names.get? name with
  | none => simp
  | some o => cases o <;> simp

theorem sig_eq_ok {id : Id} {sig : Signature} :
    env.sig id = .ok sig ↔ env.sigs.get? id = some sig := by
  unfold Env.sig
  cases env.sigs.get? id <;> simp

theorem denotes_of_resolveFrom (hw : env.Within r) {seen : List QualName} {id : Id}
    {p : Id × TypeNode} (h : env.resolveFrom seen id = .ok p) : r.Denotes id p.2 := by
  fun_induction resolveFrom env seen id with
  | case1 => cases h
  | case2 => cases h
  | case3 => cases h
  | case4 seen id name hnode _ root hroot ih =>
    obtain ⟨decl, hdecl, hr⟩ := hw.names (rootOf_eq_ok.1 hroot)
    exact .link (hw.types (node_eq_ok.1 hnode)) hdecl hr (ih h)
  | case5 seen id n hn hnode =>
    cases h
    exact .node (hw.types (node_eq_ok.1 hnode)) fun name hl => hn name hl

/-- Resolving a type finds what it stands for. -/
theorem denotes_of_resolve (hw : env.Within r) {id id' : Id} {n : TypeNode}
    (h : env.resolve id = .ok (id', n)) : r.Denotes id n :=
  denotes_of_resolveFrom hw h

/-! ## Equality -/

theorem refuted_notMem_of_meetGoals {seen : List (Id × Id)} {goals : List Goal}
    (h : env.meetGoals seen goals = .ok true) : Goal.refuted ∉ goals := by
  fun_induction meetGoals env seen goals <;> simp_all

/-- Types that compare equal stand for nodes of the same shape. -/
theorem sameShape_of_eqType (hw : env.Within r) {a b : Id} {m : TypeNode}
    (h : env.eqType a b = .ok true) (ha : r.Denotes a m) :
    ∃ n, r.Denotes b n ∧ m.SameShape n := by
  unfold eqType at h
  rw [meetGoals] at h
  by_cases hab : a = b ∨ (a, b) ∈ ([] : List (Id × Id))
  · have hab : a = b := by simpa using hab
    subst hab
    exact ⟨m, ha, .refl m⟩
  · rw [dif_neg hab] at h
    split at h
    · cases h
    · next a' m' ham =>
      split at h
      · cases h
      · next b' n' hbn =>
        refine ⟨n', denotes_of_resolve hw hbn, ?_⟩
        rw [ha.unique (denotes_of_resolve hw ham)]
        by_cases hid : a' = b'
        · have hm := node_of_resolveFrom_eq_ok ham
          have hn := node_of_resolveFrom_eq_ok hbn
          rw [hid] at hm
          rw [show m' = n' from Except.ok.inj (hm.symm.trans hn)]
          exact .refl n'
        · rw [if_neg hid] at h
          have hnot := refuted_notMem_of_meetGoals h
          rw [List.append_nil] at hnot
          exact TypeNode.sameShape_of_obligations hnot

/-- A type that compares equal to one that resolves does so too. -/
theorem resolve_of_eqType {a b : Id} {p : Id × TypeNode} (h : env.eqType a b = .ok true)
    (ha : env.resolve a = .ok p) : ∃ q, env.resolve b = .ok q := by
  unfold eqType at h
  rw [meetGoals] at h
  by_cases hab : a = b ∨ (a, b) ∈ ([] : List (Id × Id))
  · have hab : a = b := by simpa using hab
    subst hab
    exact ⟨p, ha⟩
  · rw [dif_neg hab] at h
    split at h
    · cases h
    · split at h
      · cases h
      · next hbn => exact ⟨_, hbn⟩

end Env

/-! ## Loading -/

namespace Registry

variable {r : Registry} {l l' : Loading}

theorem within_addName {name : QualName} (hw : l.env.Within r) (h : r.addName name l = .ok l') :
    l'.env.Within r := by
  unfold addName at h
  split at h
  · cases h
    exact hw
  · split at h
    · cases h
    · next decl hdecl =>
      cases h
      refine ⟨hw.types, fun {name' root} hn => ?_, hw.sigs⟩
      rw [Table.get?_insert] at hn
      by_cases he : name' = name
      · rw [if_pos he] at hn
        exact ⟨decl, by rw [he, hdecl], Option.some.inj hn⟩
      · rw [if_neg he] at hn
        exact hw.names hn

theorem within_foldlM_addName {parameters : List Parameter} (hw : l.env.Within r)
    (h : parameters.foldlM (fun l parameter => r.addName parameter.type l) l = .ok l') :
    l'.env.Within r := by
  induction parameters generalizing l with
  | nil =>
    cases h
    exact hw
  | cons parameter rest ih =>
    rw [List.foldlM_cons, except_bind_eq_ok] at h
    obtain ⟨m, hm, h⟩ := h
    exact ih (within_addName hw hm) h

theorem within_addSig {id : Id} (hw : l.env.Within r) (h : r.addSig id l = .ok l') :
    l'.env.Within r := by
  unfold addSig at h
  split at h
  · cases h
    exact hw
  · split at h
    · cases h
    · next sig hsig =>
      rw [except_bind_eq_ok] at h
      obtain ⟨m, hm, h⟩ := h
      cases h
      have hw' := within_foldlM_addName hw hm
      refine ⟨hw'.types, hw'.names, fun {id' sig'} hs => ?_⟩
      rw [Table.get?_insert] at hs
      by_cases he : id' = id
      · rw [if_pos he] at hs
        rw [he, hsig, Option.some.inj hs]
      · rw [if_neg he] at hs
        exact hw'.sigs hs

theorem within_foldlM_addSig {ids : List Id} (hw : l.env.Within r)
    (h : ids.foldlM (fun l id => r.addSig id l) l = .ok l') : l'.env.Within r := by
  induction ids generalizing l with
  | nil =>
    cases h
    exact hw
  | cons id rest ih =>
    rw [List.foldlM_cons, except_bind_eq_ok] at h
    obtain ⟨m, hm, h⟩ := h
    exact ih (within_addSig hw hm) h

theorem within_addNode {id : Id} {node : TypeNode} (hw : l.env.Within r)
    (hnode : r.nodes.get? id = some node) (h : r.addNode id node l = .ok l') :
    l'.env.Within r := by
  have hinsert : ∀ {m : Loading}, m.env.Within r →
      ({ m.env with types := m.env.types.insert id node } : Env).Within r := by
    intro m hm
    refine ⟨fun {id' n} ht => ?_, hm.names, hm.sigs⟩
    rw [Table.get?_insert] at ht
    by_cases he : id' = id
    · rw [if_pos he] at ht
      rw [he, hnode, Option.some.inj ht]
    · rw [if_neg he] at ht
      exact hm.types ht
  unfold addNode at h
  cases node with
  | link name =>
    obtain ⟨named, hnamed, h⟩ := except_bind_eq_ok.1 h
    cases h
    exact hinsert (within_addName
      (l := ⟨l.env, l.pending ++ (TypeNode.link name).children⟩) hw hnamed)
  | _ =>
    cases h
    exact hinsert (m := ⟨l.env, _⟩) hw

theorem within_addAll {nodes : List (Id × TypeNode)} (hw : l.env.Within r)
    (hnodes : ∀ e ∈ nodes, r.nodes.get? e.1 = some e.2) (h : r.addAll nodes l = .ok l') :
    l'.env.Within r := by
  induction nodes generalizing l with
  | nil =>
    cases h
    exact hw
  | cons e rest ih =>
    obtain ⟨id, node⟩ := e
    rw [addAll] at h
    split at h
    · cases h
    · next m hm =>
      refine ih (within_addNode hw (hnodes _ List.mem_cons_self) hm)
        (fun e he => hnodes e (List.mem_cons_of_mem _ he)) h

theorem get?_of_mem_fetch {ids : List Id} {nodes : List (Id × TypeNode)}
    (h : r.fetch ids = .ok nodes) : ∀ e ∈ nodes, r.nodes.get? e.1 = some e.2 := by
  induction ids generalizing nodes with
  | nil =>
    cases h
    exact fun e he => (nomatch he)
  | cons id rest ih =>
    rw [fetch] at h
    split at h
    · cases h
    · next node hid =>
      split at h
      · cases h
      · next more hmore =>
        cases h
        rintro e (_ | ⟨_, he⟩)
        · exact hid
        · exact ih hmore e he

/-- What is loaded is as the registry has it. -/
theorem within_fill {env : Env} (hw : l.env.Within r) (h : r.fill l = .ok env) :
    env.Within r := by
  fun_induction fill r l with
  | case1 => cases h; exact hw
  | case2 => cases h
  | case3 => cases h
  | case4 l id ids hb nodes hf l' ha ih =>
    exact ih (within_addAll (l := ⟨l.env, []⟩) hw (get?_of_mem_fetch hf) ha) h

theorem within_load {cfg : Configuration} {term : Term} {env : Env}
    (h : r.load cfg term = .ok env) : env.Within r := by
  unfold load at h
  rw [except_bind_eq_ok] at h
  obtain ⟨l, hl, h⟩ := h
  exact within_fill (within_foldlM_addSig (Env.within_empty r) hl) h

/-! ## Growth -/

/-- A later registry, in which nothing that was declared has another definition. -/
structure Grows (r r' : Registry) : Prop where
  nodes : ∀ {id : Id} {n : TypeNode}, r.nodes.get? id = some n → r'.nodes.get? id = some n
  names : ∀ {name : QualName} {decl : TypeDecl}, r.typeNamed? name = some decl →
    r'.typeNamed? name = some decl
  sigs : ∀ {id : Id} {sig : Signature}, r.sigs.get? id = some sig → r'.sigs.get? id = some sig

theorem Grows.refl (r : Registry) : r.Grows r := ⟨id, id, id⟩

theorem Grows.trans {r r' r'' : Registry} (h : r.Grows r') (h' : r'.Grows r'') : r.Grows r'' :=
  ⟨fun hn => h'.nodes (h.nodes hn), fun hn => h'.names (h.names hn),
    fun hs => h'.sigs (h.sigs hs)⟩

/-- A type stands for what it stood for. -/
theorem Denotes.grows {r r' : Registry} {id : Id} {n : TypeNode} (h : r.Denotes id n)
    (hg : r.Grows r') : r'.Denotes id n := by
  induction h with
  | node h hn => exact .node (hg.nodes h) hn
  | link h hd hr _ ih => exact .link (hg.nodes h) (hg.names hd) hr ih

end Registry

end Rendezvous
