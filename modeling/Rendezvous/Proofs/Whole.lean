import Rendezvous.Proofs.Complete

/-!
# Parts of an environment

What is loaded for a step is a part of all that is declared (`Registry.whole`). A part is closed: it
has whatever its types, names and signatures refer to (`Env.PartOf`). So it answers as the whole does,
as long as it is asked about what it has:

- nodes, roots, signatures and what types resolve to are the same, and two types compare the same
  (`Env.PartOf.eqType_eq`), errors included;
- a type is shown the same (`Env.PartOf.typeText_eq`), since what lies below it is in the part;
- nothing of it is missing: a part does not say of what it has that there is no such type, node or
  signature (`Finds`).
-/

namespace Rendezvous

/-- Whether an error says that there is no such type, type node or signature. -/
def Error.undeclared : Error → Bool
  | .notFound .type _ | .notFound .typeTerm _ | .notFound .sig _ => true
  | _ => false

/-- A computation that misses no declaration. -/
def Finds {α : Type} (x : Except Error α) : Prop := ∀ e, x = .error e → e.undeclared = false

theorem Finds.ok {α : Type} (a : α) : Finds (.ok a) := fun _ h => nomatch h

theorem Finds.error {α : Type} {e : Error} (h : e.undeclared = false) :
    Finds (.error e : Except Error α) :=
  fun _ he => by cases he; exact h

/-- All that is declared, as an environment. -/
def Registry.whole (r : Registry) : Env :=
  ⟨r.nodes, r.typeNames.map fun id => (r.types.get? id).bind TypeDecl.root, r.sigs⟩

/-! ## Goals over some types -/

/-- A goal about types of a kind. -/
def Goal.Over (T : Id → Prop) : Goal → Prop
  | .equal a b => T a ∧ T b
  | .refuted => True

namespace TypeNode

variable {T : Id → Prop}

theorem over_of_choiceGoals {left right : Table Sym Id} (hl : ∀ c ∈ left.values, T c)
    (hr : ∀ c ∈ right.values, T c) : ∀ g ∈ choiceGoals left right, g.Over T := by
  intro g hg
  unfold choiceGoals at hg
  split at hg
  · obtain ⟨e, he, rfl⟩ := List.mem_map.1 hg
    split
    · next b hb => exact ⟨hl _ (List.mem_map_of_mem he), hr _ (Table.mem_values_of_get?_eq_some hb)⟩
    · trivial
  · cases List.mem_singleton.1 hg
    trivial

/-- Nodes open goals about their children. -/
theorem over_of_obligations {m n : TypeNode} (hm : ∀ c ∈ m.children, T c)
    (hn : ∀ c ∈ n.children, T c) : ∀ g ∈ m.obligations n, g.Over T := by
  unfold obligations
  split
  · nofun
  · exact List.forall_mem_cons.2 ⟨⟨hm _ (by simp [children]), hn _ (by simp [children])⟩,
      List.forall_mem_singleton.2 ⟨hm _ (by simp [children]), hn _ (by simp [children])⟩⟩
  · exact List.forall_mem_cons.2 ⟨⟨hm _ (by simp [children]), hn _ (by simp [children])⟩,
      List.forall_mem_singleton.2 ⟨hm _ (by simp [children]), hn _ (by simp [children])⟩⟩
  · exact over_of_choiceGoals hm hn
  · exact over_of_choiceGoals hm hn
  · exact List.forall_mem_singleton.2 ⟨hm _ (by simp [children]), hn _ (by simp [children])⟩
  · exact List.forall_mem_singleton.2 ⟨hm _ (by simp [children]), hn _ (by simp [children])⟩
  · exact List.forall_mem_singleton.2 trivial

end TypeNode

namespace Env

/-! ## Single steps -/

section

variable {env : Env} {seen : List QualName} {id : Id}

theorem resolveFrom_of_mem {name : QualName} (hn : env.node id = .ok (.link name))
    (hold : name ∈ seen) : env.resolveFrom seen id = .error (.linkCycle name) := by
  rw [resolveFrom, hn]
  exact if_pos hold

theorem resolveFrom_of_link {name : QualName} (hn : env.node id = .ok (.link name))
    (hnew : name ∉ seen) :
    env.resolveFrom seen id = env.rootOf name >>= env.resolveFrom (name :: seen) := by
  rw [resolveFrom, hn]
  refine (if_neg hnew).trans ?_
  split
  · next e hr =>
    rw [hr]
    rfl
  · next root hr =>
    rw [hr]
    rfl

theorem resolveFrom_of_node {n : TypeNode} (hn : env.node id = .ok n)
    (hlink : ∀ name, n ≠ .link name) : env.resolveFrom seen id = .ok (id, n) := by
  rw [resolveFrom, hn]
  split
  · next heq => cases heq
  · next heq => exact absurd (Except.ok.inj heq) (hlink _)
  · next heq => rw [Except.ok.inj heq]

variable {passed : List (Id × Id)} {a b : Id}

theorem meetGoals_of_old (h : a = b ∨ (a, b) ∈ passed) (rest : List Goal) :
    env.meetGoals passed (.equal a b :: rest) = env.meetGoals passed rest := by
  rw [meetGoals]
  exact dif_pos h

theorem meetGoals_of_new (h : ¬ (a = b ∨ (a, b) ∈ passed)) (rest : List Goal) :
    env.meetGoals passed (.equal a b :: rest) =
      env.resolve a >>= fun p => env.resolve b >>= fun q =>
        env.meetGoals ((a, b) :: passed)
          (if p.1 = q.1 then rest else p.2.obligations q.2 ++ rest) := by
  rw [meetGoals]
  refine (dif_neg h).trans ?_
  split
  · next e ha => simp only [ha, bind, Except.bind]
  next a' m ha =>
  simp only [ha, bind, Except.bind]
  split
  · next e hb => simp only [hb]
  next b' n hb =>
  simp only [hb]
  split <;> rfl

end

/-! ## Parts -/

/-- A closed environment with nothing but what the whole has. -/
structure PartOf (env whole : Env) : Prop where
  closed : env.Closed
  types : ∀ {id : Id} {n : TypeNode}, env.types.get? id = some n → whole.types.get? id = some n
  names : ∀ {name : QualName} {root : Option Id}, env.names.get? name = some root →
    whole.names.get? name = some root
  sigs : ∀ {id : Id} {sig : Signature}, env.sigs.get? id = some sig →
    whole.sigs.get? id = some sig

theorem get?_names_whole {r : Registry} {name : QualName} {decl : TypeDecl}
    (h : r.typeNamed? name = some decl) : r.whole.names.get? name = some decl.root := by
  obtain ⟨id, hid, hdecl⟩ := Option.bind_eq_some_iff.1 h
  refine (Table.get?_map _ r.typeNames name).trans ?_
  rw [hid, Option.map_some, hdecl, Option.bind_some]

/-- What is loaded is a part of all that is declared. -/
theorem partOf_whole {r : Registry} {env : Env} (hc : env.Closed) (hw : env.Within r) :
    env.PartOf r.whole := by
  refine ⟨hc, hw.types, fun hname => ?_, hw.sigs⟩
  obtain ⟨decl, hdecl, rfl⟩ := hw.names hname
  exact get?_names_whole hdecl

namespace PartOf

variable {env whole : Env} (h : env.PartOf whole)

include h

/-! ## Reading -/

theorem exists_node {id : Id} (hid : id ∈ env.types.keys) :
    ∃ n, env.node id = .ok n ∧ whole.node id = .ok n ∧ ∀ c ∈ n.children, c ∈ env.types.keys := by
  obtain ⟨n, hn⟩ := (Table.mem_keys_iff _).1 hid
  exact ⟨n, node_eq_ok.2 hn, node_eq_ok.2 (h.types hn),
    fun c hc => (h.closed.children hn c hc).resolve_right List.not_mem_nil⟩

theorem rootOf_eq {name : QualName} (hname : name ∈ env.names.keys) :
    env.rootOf name = whole.rootOf name ∧ Finds (env.rootOf name) ∧
      ∀ {root}, env.rootOf name = .ok root → root ∈ env.types.keys := by
  obtain ⟨root, hroot⟩ := (Table.mem_keys_iff _).1 hname
  have hwhole := h.names hroot
  refine ⟨by rw [rootOf, rootOf, hroot, hwhole], ?_, fun hr => ?_⟩
  · rw [rootOf, hroot]
    cases root with
    | none => exact .error rfl
    | some root => exact .ok root
  · exact (h.closed.root (rootOf_eq_ok.1 hr)).resolve_right List.not_mem_nil

theorem exists_sig {id : Id} (hid : id ∈ env.sigs.keys) :
    ∃ sig, env.sig id = .ok sig ∧ whole.sig id = .ok sig ∧
      ∀ p ∈ sig.parameters, p.type ∈ env.names.keys := by
  obtain ⟨sig, hsig⟩ := (Table.mem_keys_iff _).1 hid
  exact ⟨sig, sig_eq_ok.2 hsig, sig_eq_ok.2 (h.sigs hsig), h.closed.parameter hsig⟩

/-! ## Aliases -/

/-- Aliases lead to the same node, over what the part has. -/
theorem resolveFrom_eq {seen : List QualName} {id : Id} (hid : id ∈ env.types.keys) :
    env.resolveFrom seen id = whole.resolveFrom seen id ∧ Finds (env.resolveFrom seen id) := by
  fun_induction resolveFrom env seen id with
  | case1 seen id e hn =>
    obtain ⟨n, hn', -⟩ := h.exists_node hid
    cases hn.symm.trans hn'
  | case2 seen id name hn hold =>
    obtain ⟨n, hn', hwhole, -⟩ := h.exists_node hid
    cases hn.symm.trans hn'
    exact ⟨(resolveFrom_of_mem hwhole hold).symm, .error rfl⟩
  | case3 seen id name hn hnew e hr =>
    obtain ⟨n, hn', hwhole, -⟩ := h.exists_node hid
    cases hn.symm.trans hn'
    obtain ⟨hroot, hfinds, -⟩ := h.rootOf_eq (h.closed.link (node_eq_ok.1 hn))
    refine ⟨?_, .error (hfinds e hr)⟩
    rw [resolveFrom_of_link hwhole hnew, ← hroot, hr]
    rfl
  | case4 seen id name hn hnew root hr ih =>
    obtain ⟨n, hn', hwhole, -⟩ := h.exists_node hid
    cases hn.symm.trans hn'
    obtain ⟨hroot, -, hmem⟩ := h.rootOf_eq (h.closed.link (node_eq_ok.1 hn))
    obtain ⟨heq, hfinds⟩ := ih (hmem hr)
    refine ⟨heq.trans ?_, hfinds⟩
    rw [resolveFrom_of_link hwhole hnew, ← hroot, hr]
    rfl
  | case5 seen id n hlink hn =>
    obtain ⟨n', hn', hwhole, -⟩ := h.exists_node hid
    cases hn.symm.trans hn'
    exact ⟨(resolveFrom_of_node hwhole hlink).symm, .ok _⟩

theorem resolve_eq {id : Id} (hid : id ∈ env.types.keys) :
    env.resolve id = whole.resolve id ∧ Finds (env.resolve id) := h.resolveFrom_eq hid

/-- The children of what a type resolves to are in the part. -/
theorem children_of_resolve {id : Id} {p : Id × TypeNode} (hp : env.resolve id = .ok p) :
    ∀ c ∈ p.2.children, c ∈ env.types.keys :=
  Stands.children h.closed ⟨p.1, hp⟩

/-! ## Comparing -/

/-- Goals about types of the part are met in the part exactly if they are met in the whole. -/
theorem meetGoals_eq {passed : List (Id × Id)} {goals : List Goal}
    (hg : ∀ g ∈ goals, g.Over (· ∈ env.types.keys)) :
    env.meetGoals passed goals = whole.meetGoals passed goals ∧
      Finds (env.meetGoals passed goals) := by
  fun_induction meetGoals env passed goals with
  | case1 passed => exact ⟨by rw [meetGoals], .ok _⟩
  | case2 passed rest => exact ⟨by rw [meetGoals], .ok _⟩
  | case3 passed a b rest hold ih =>
    rw [meetGoals_of_old hold]
    exact ih fun g hmem => hg g (List.mem_cons_of_mem _ hmem)
  | case4 passed a b rest hnew e ha =>
    obtain ⟨⟨hka, hkb⟩, -⟩ := List.forall_mem_cons.1 hg
    obtain ⟨heq, hfinds⟩ := h.resolve_eq hka
    refine ⟨?_, .error (hfinds e ha)⟩
    rw [meetGoals_of_new hnew, ← heq, ha]
    rfl
  | case5 passed a b rest hnew a' m ha e hb =>
    obtain ⟨⟨hka, hkb⟩, -⟩ := List.forall_mem_cons.1 hg
    obtain ⟨heq, hfinds⟩ := h.resolve_eq hkb
    refine ⟨?_, .error (hfinds e hb)⟩
    rw [meetGoals_of_new hnew, ← (h.resolve_eq hka).1, ← heq, ha, hb]
    rfl
  | case6 passed a b rest hnew m c n hb ha ih =>
    obtain ⟨⟨hka, hkb⟩, hrest⟩ := List.forall_mem_cons.1 hg
    obtain ⟨heq, hfinds⟩ := ih hrest
    refine ⟨heq.trans ?_, hfinds⟩
    rw [meetGoals_of_new hnew, ← (h.resolve_eq hka).1, ← (h.resolve_eq hkb).1, ha, hb]
    simp only [bind, Except.bind, if_pos]
  | case7 passed a b rest hnew a' m ha b' n hb hne ih =>
    obtain ⟨⟨hka, hkb⟩, hrest⟩ := List.forall_mem_cons.1 hg
    have hgoals := TypeNode.over_of_obligations (h.children_of_resolve ha) (h.children_of_resolve hb)
    obtain ⟨heq, hfinds⟩ := ih fun g hmem => (List.mem_append.1 hmem).elim (hgoals g) (hrest g)
    refine ⟨heq.trans ?_, hfinds⟩
    rw [meetGoals_of_new hnew, ← (h.resolve_eq hka).1, ← (h.resolve_eq hkb).1, ha, hb]
    simp only [bind, Except.bind, if_neg hne]

theorem eqType_eq {a b : Id} (ha : a ∈ env.types.keys) (hb : b ∈ env.types.keys) :
    env.eqType a b = whole.eqType a b ∧ Finds (env.eqType a b) :=
  h.meetGoals_eq (List.forall_mem_singleton.2 ⟨ha, hb⟩)

/-! ## Showing -/

/-- A tree is rebuilt in the part exactly if it is rebuilt in the whole. -/
theorem lift_eq_ok_iff_whole {id : Id} (hid : id ∈ env.types.keys) {t : SessionType} :
    env.lift id = .ok t ↔ whole.lift id = .ok t := by
  have hkeeps : SessionType.Keeps whole.types env.types (· ∈ env.types.keys) := by
    intro id n hid hn
    obtain ⟨n', hn', hwhole, hchildren⟩ := h.exists_node hid
    cases (node_eq_ok.1 hwhole).symm.trans hn
    exact ⟨node_eq_ok.1 hn', hchildren⟩
  have hkept : SessionType.Keeps env.types whole.types fun _ => True :=
    fun _ hn => ⟨h.types hn, fun _ _ => trivial⟩
  rw [lift_eq_ok_iff, lift_eq_ok_iff]
  exact ⟨fun ht => ht.transport hkept trivial, fun ht => ht.transport hkeeps hid⟩

theorem typeText_eq {id : Id} (hid : id ∈ env.types.keys) :
    env.typeText id = whole.typeText id := by
  unfold typeText
  split
  · next t ht => rw [(h.lift_eq_ok_iff_whole hid).1 ht]
  · next e he =>
    split
    · next t ht => cases he.symm.trans ((h.lift_eq_ok_iff_whole hid).2 ht)
    · rfl

end PartOf

end Env

end Rendezvous
