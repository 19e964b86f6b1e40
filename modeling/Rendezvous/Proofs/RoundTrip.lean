import Mathlib.Data.List.Forall2
import Rendezvous.Proofs.Whole

/-!
# Trees through the arena

A tree that is lowered and lifted again is the tree it was (`SessionType.lower_round_trip`). The
records stand for the subtrees in preorder (`SessionType.subtrees`), each under an id of its own, and
this is so in any environment that holds the records, among whatever else (`Env.Holds`). Lifting goes
as deep as the tree is high.

Trees without aliases that are lowered apart compare equal exactly if they are one tree. On the one
hand, a tree relates its two roots by a bisimulation (`Env.eqType_of_tree`). On the other hand, a
comparison always has an answer where there are no aliases (`Env.exists_eqType`), and roots that
compare equal spell out one tree, since choices list their labels in order (`Env.eq_of_same`).
-/

namespace Rendezvous

/-! ## Parts of a tree -/

namespace SessionType

mutual

/-- The subtrees of a tree in preorder, the tree itself first. -/
def subtrees : SessionType → List SessionType
  | .one => [.one]
  | .link name => [.link name]
  | .tensor value cont => .tensor value cont :: (value.subtrees ++ cont.subtrees)
  | .lolli value cont => .lolli value cont :: (value.subtrees ++ cont.subtrees)
  | .plus choices => .plus choices :: subtreesOfChoices choices
  | .with choices => .with choices :: subtreesOfChoices choices
  | .up cont => .up cont :: cont.subtrees
  | .down cont => .down cont :: cont.subtrees

/-- The subtrees of the branches of a choice. -/
def subtreesOfChoices : List (Sym × SessionType) → List SessionType
  | [] => []
  | (_, typ) :: rest => typ.subtrees ++ subtreesOfChoices rest

end

mutual

/-- The number of nodes on the longest way down. -/
def height : SessionType → Nat
  | .one | .link _ => 1
  | .tensor value cont | .lolli value cont => max value.height cont.height + 1
  | .plus choices | .with choices => heightOfChoices choices + 1
  | .up cont | .down cont => cont.height + 1

/-- The height of the highest branch of a choice. -/
def heightOfChoices : List (Sym × SessionType) → Nat
  | [] => 0
  | (_, typ) :: rest => max typ.height (heightOfChoices rest)

end

variable {nodes : Table Id TypeNode}

/-! ## Lowering -/

/-- The root is the first record. -/
theorem exists_recs_lower (t : SessionType) (ids : Supply) :
    ∃ node rest, (t.lower ids).1 = ⟨ids.id, ⟨ids.id, node⟩ :: rest⟩ := by
  cases t <;> exact ⟨_, _, rfl⟩

mutual

/-- The records of a tree stand for its subtrees in preorder. -/
theorem forall₂_lower : ∀ (t : SessionType) (ids : Supply), t.Ordered →
    (∀ rec ∈ (t.lower ids).1.recs, nodes.get? rec.id = some rec.node) →
    List.Forall₂ (fun rec u => u.StoredAt nodes rec.id) (t.lower ids).1.recs t.subtrees
  | .one, _, _, h => .cons (h _ List.mem_cons_self) .nil
  | .link _, _, _, h => .cons (h _ List.mem_cons_self) .nil
  | .tensor value cont, ids, ho, h =>
    .cons (storedAt_lower (.tensor value cont) ids ho h)
      (List.rel_append
        (value.forall₂_lower _ ho.1 fun rec hrec =>
          h rec (List.mem_cons_of_mem _ (List.mem_append_left _ hrec)))
        (cont.forall₂_lower _ ho.2 fun rec hrec =>
          h rec (List.mem_cons_of_mem _ (List.mem_append_right _ hrec))))
  | .lolli value cont, ids, ho, h =>
    .cons (storedAt_lower (.lolli value cont) ids ho h)
      (List.rel_append
        (value.forall₂_lower _ ho.1 fun rec hrec =>
          h rec (List.mem_cons_of_mem _ (List.mem_append_left _ hrec)))
        (cont.forall₂_lower _ ho.2 fun rec hrec =>
          h rec (List.mem_cons_of_mem _ (List.mem_append_right _ hrec))))
  | .plus choices, ids, ho, h =>
    .cons (storedAt_lower (.plus choices) ids ho h)
      (forall₂_lowerChoices choices _ ho.2 fun rec hrec => h rec (List.mem_cons_of_mem _ hrec))
  | .with choices, ids, ho, h =>
    .cons (storedAt_lower (.with choices) ids ho h)
      (forall₂_lowerChoices choices _ ho.2 fun rec hrec => h rec (List.mem_cons_of_mem _ hrec))
  | .up cont, ids, ho, h =>
    .cons (storedAt_lower (.up cont) ids ho h)
      (cont.forall₂_lower _ ho fun rec hrec => h rec (List.mem_cons_of_mem _ hrec))
  | .down cont, ids, ho, h =>
    .cons (storedAt_lower (.down cont) ids ho h)
      (cont.forall₂_lower _ ho fun rec hrec => h rec (List.mem_cons_of_mem _ hrec))

theorem forall₂_lowerChoices : ∀ (choices : List (Sym × SessionType)) (ids : Supply),
    OrderedChoices choices →
    (∀ rec ∈ (lowerChoices choices ids).2.1, nodes.get? rec.id = some rec.node) →
    List.Forall₂ (fun rec u => u.StoredAt nodes rec.id) (lowerChoices choices ids).2.1
      (subtreesOfChoices choices)
  | [], _, _, _ => .nil
  | (_, t) :: rest, ids, ho, h =>
    List.rel_append (t.forall₂_lower ids ho.1 fun rec hrec => h rec (List.mem_append_left _ hrec))
      (forall₂_lowerChoices rest _ ho.2 fun rec hrec => h rec (List.mem_append_right _ hrec))

end

end SessionType

namespace Env

open SessionType (StoredAt StoredChoices)

variable {env : Env} {s t : SessionType} {a b : Id}

/-! ## Lifting -/

theorem mapM_of_storedChoices {f : Id → Except Error SessionType} {depth : Nat}
    (hf : ∀ {t id}, t.StoredAt env.types id → t.height ≤ depth → f id = .ok t)
    {choices : List (Sym × SessionType)} {entries : List (Sym × Id)}
    (h : StoredChoices env.types choices entries)
    (hd : SessionType.heightOfChoices choices ≤ depth) :
    entries.mapM (fun e => do pure (e.1, ← f e.2)) = .ok choices := by
  induction choices generalizing entries with
  | nil =>
    cases h
    rfl
  | cons choice rest ih =>
    obtain ⟨id, more, rfl, ht, hrest⟩ := h
    rw [SessionType.heightOfChoices] at hd
    have hfirst := hf ht (by omega)
    have hmore := ih hrest (by omega)
    simp only [bind, Except.bind, pure, Except.pure] at hmore
    rw [List.mapM_cons]
    simp only [bind, Except.bind, pure, Except.pure, hfirst, hmore]

/-- A tree on record is rebuilt to any depth that it is not higher than. -/
theorem liftTo_of_height {depth : Nat} (h : t.StoredAt env.types a) (hd : t.height ≤ depth) :
    env.liftTo depth a = .ok t := by
  induction depth generalizing t a with
  | zero => cases t <;> simp [SessionType.height] at hd
  | succ depth ih =>
    cases t with
    | one | link =>
      rw [liftTo, node_eq_ok.2 h]
      rfl
    | tensor value cont | lolli value cont =>
      obtain ⟨v, c, hn, hv, hc⟩ := h
      rw [SessionType.height] at hd
      rw [liftTo, node_eq_ok.2 hn]
      simp only [bind, Except.bind, ih hv (by omega), ih hc (by omega)]
      rfl
    | plus choices | «with» choices =>
      obtain ⟨table, hn, hc⟩ := h
      rw [SessionType.height] at hd
      have hlift := mapM_of_storedChoices ih hc (by omega)
      rw [liftTo, node_eq_ok.2 hn]
      simp only [bind, Except.bind, pure, Except.pure] at hlift ⊢
      rw [hlift]
    | up cont | down cont =>
      obtain ⟨c, hn, hc⟩ := h
      rw [SessionType.height] at hd
      rw [liftTo, node_eq_ok.2 hn]
      simp only [bind, Except.bind, ih hc (by omega)]
      rfl

/-! ## Trees without aliases -/

/-- A tree without aliases is on record below this id. -/
def Unaliased (env : Env) (a : Id) : Prop := ∃ t : SessionType, t.links = [] ∧ t.StoredAt env.types a

/-- Below it there are trees without aliases only. -/
theorem Unaliased.exists_resolve (h : env.Unaliased a) :
    ∃ n, env.resolve a = .ok (a, n) ∧ ∀ c ∈ n.children, env.Unaliased c := by
  obtain ⟨t, hlinks, ht⟩ := h
  obtain ⟨n, hn, hchildren, hlink⟩ := ht.exists_node
  rw [hlinks] at hchildren hlink
  refine ⟨n, resolveFrom_of_node (node_eq_ok.2 hn) fun name hname =>
    List.not_mem_nil (hlink name hname), fun c hc => ?_⟩
  obtain ⟨t', ht', hsub⟩ := hchildren c hc
  exact ⟨t', List.eq_nil_iff_forall_not_mem.2 fun name hname =>
    List.not_mem_nil (hsub name hname), ht'⟩

/-- Without aliases, nothing keeps a comparison from an answer. -/
theorem exists_meetGoals {passed : List (Id × Id)} {goals : List Goal}
    (hg : ∀ g ∈ goals, g.Over env.Unaliased) : ∃ same, env.meetGoals passed goals = .ok same := by
  fun_induction meetGoals env passed goals with
  | case1 => exact ⟨true, rfl⟩
  | case2 => exact ⟨false, rfl⟩
  | case3 passed a b rest hold ih => exact ih fun g hmem => hg g (List.mem_cons_of_mem _ hmem)
  | case4 passed a b rest hnew e ha =>
    obtain ⟨n, hn, -⟩ := (hg _ List.mem_cons_self).1.exists_resolve
    cases ha.symm.trans hn
  | case5 passed a b rest hnew a' m ha e hb =>
    obtain ⟨n, hn, -⟩ := (hg _ List.mem_cons_self).2.exists_resolve
    cases hb.symm.trans hn
  | case6 passed a b rest hnew m c n hb ha ih =>
    exact ih fun g hmem => hg g (List.mem_cons_of_mem _ hmem)
  | case7 passed a b rest hnew a' m ha b' n hb hne ih =>
    obtain ⟨⟨hpa, hpb⟩, hrest⟩ := List.forall_mem_cons.1 hg
    obtain ⟨m', hm', hleft⟩ := hpa.exists_resolve
    obtain ⟨n', hn', hright⟩ := hpb.exists_resolve
    cases ha.symm.trans hm'
    cases hb.symm.trans hn'
    refine ih fun g hmem => (List.mem_append.1 hmem).elim ?_ (hrest g)
    exact TypeNode.over_of_obligations hleft hright g

theorem exists_eqType (ha : env.Unaliased a) (hb : env.Unaliased b) : ∃ same, env.eqType a b = .ok same :=
  exists_meetGoals (List.forall_mem_singleton.2 ⟨ha, hb⟩)

/-- One tree without aliases is on record below both ids. -/
def Shares (env : Env) (a b : Id) : Prop :=
  ∃ t : SessionType, t.links = [] ∧ t.StoredAt env.types a ∧ t.StoredAt env.types b

theorem rel_of_storedChoices {choices : List (Sym × SessionType)} {left right : List (Sym × Id)}
    (hlinks : SessionType.linksOfChoices choices = []) (hl : StoredChoices env.types choices left)
    (hr : StoredChoices env.types choices right) (label : Sym) :
    Option.Rel env.Shares (Table.find? label left) (Table.find? label right) := by
  induction choices generalizing left right with
  | nil =>
    cases hl
    cases hr
    exact .none
  | cons choice rest ih =>
    obtain ⟨htype, hlinks⟩ := List.append_eq_nil_iff.1 hlinks
    obtain ⟨a, left, rfl, ha, hl⟩ := hl
    obtain ⟨b, right, rfl, hb, hr⟩ := hr
    rw [Table.find?, Table.find?]
    split
    · exact .some ⟨choice.2, htype, ha, hb⟩
    · exact ih hlinks hl hr

/-- A tree relates its roots by a bisimulation. -/
theorem bisimulation_shares (env : Env) : Bisimulation env.Stands env.Shares := by
  rintro a b ⟨t, hlinks, ha, hb⟩
  have hua : env.Unaliased a := ⟨t, hlinks, ha⟩
  have hub : env.Unaliased b := ⟨t, hlinks, hb⟩
  obtain ⟨m, hm, -⟩ := hua.exists_resolve
  obtain ⟨n, hn, -⟩ := hub.exists_resolve
  refine .inr ⟨m, n, ⟨a, hm⟩, ⟨b, hn⟩, ?_⟩
  have hm := node_eq_ok.1 (node_of_resolveFrom_eq_ok hm)
  have hn := node_eq_ok.1 (node_of_resolveFrom_eq_ok hn)
  cases t with
  | one =>
    cases hm.symm.trans ha
    cases hn.symm.trans hb
    exact .one
  | link name => cases hlinks
  | tensor value cont | lolli value cont =>
    obtain ⟨hv, hc⟩ := List.append_eq_nil_iff.1 hlinks
    obtain ⟨v, c, ha, hva, hca⟩ := ha
    obtain ⟨v', c', hb, hvb, hcb⟩ := hb
    cases hm.symm.trans ha
    cases hn.symm.trans hb
    constructor
    · exact ⟨value, hv, hva, hvb⟩
    · exact ⟨cont, hc, hca, hcb⟩
  | plus choices | «with» choices =>
    obtain ⟨left, ha, hl⟩ := ha
    obtain ⟨right, hb, hr⟩ := hb
    cases hm.symm.trans ha
    cases hn.symm.trans hb
    constructor
    exact rel_of_storedChoices hlinks hl hr
  | up cont | down cont =>
    obtain ⟨c, ha, hca⟩ := ha
    obtain ⟨c', hb, hcb⟩ := hb
    cases hm.symm.trans ha
    cases hn.symm.trans hb
    constructor
    exact ⟨cont, hlinks, hca, hcb⟩

/-- The roots of one tree compare equal. -/
theorem eqType_of_tree (hlinks : t.links = []) (ha : t.StoredAt env.types a)
    (hb : t.StoredAt env.types b) : env.eqType a b = .ok true :=
  eqType_of_bisimulation env.bisimulation_shares ⟨t, hlinks, ha, hb⟩

/-! ## Trees that compare equal -/

theorem labels_of_storedChoices {choices : List (Sym × SessionType)} {entries : List (Sym × Id)}
    (h : StoredChoices env.types choices entries) :
    entries.map Prod.fst = choices.map Prod.fst := by
  induction choices generalizing entries with
  | nil =>
    cases h
    rfl
  | cons choice rest ih =>
    obtain ⟨id, more, rfl, -, hrest⟩ := h
    exact congrArg (choice.1 :: ·) (ih hrest)

/-- A label that is offered on one side is offered on the other. -/
theorem mem_labels_of_rel {R : Id → Id → Prop} {label : Sym} {a : Id}
    {left right : List (Sym × Id)}
    (h : ∀ label, Option.Rel R (Table.find? label left) (Table.find? label right))
    (ha : Table.find? label left = some a) : label ∈ right.map Prod.fst := by
  obtain ⟨b, hb, -⟩ := rel_some (h label) ha
  exact List.mem_map_of_mem (Table.mem_of_find?_eq_some hb)

/-- Choices in order, over branches that are related label by label, start with one label. -/
theorem label_eq_of_rel {R : Id → Id → Prop} {l l' : Sym} {a b : Id}
    {left right : List (Sym × Id)}
    (h : ∀ label, Option.Rel R (Table.find? label ((l, a) :: left))
      (Table.find? label ((l', b) :: right)))
    (hl : ((l, a) :: left).map Prod.fst |>.Pairwise (· < ·))
    (hr : ((l', b) :: right).map Prod.fst |>.Pairwise (· < ·)) : l = l' := by
  by_contra hne
  -- each label comes after the other one
  have hleft := mem_labels_of_rel h (if_pos rfl)
  have hright := mem_labels_of_rel (fun label => rel_swap (h label)) (if_pos rfl)
  have hlt := (List.pairwise_cons.1 hr).1 l ((List.mem_cons.1 hleft).resolve_left hne)
  have hgt := (List.pairwise_cons.1 hl).1 l' ((List.mem_cons.1 hright).resolve_left (Ne.symm hne))
  exact String.lt_asymm hlt hgt

/-- The branches after the first are related too, since its label comes once. -/
theorem rel_tail {R : Id → Id → Prop} {l : Sym} {a b : Id} {left right : List (Sym × Id)}
    (h : ∀ label, Option.Rel R (Table.find? label ((l, a) :: left))
      (Table.find? label ((l, b) :: right)))
    (hl : l ∉ left.map Prod.fst) (hr : l ∉ right.map Prod.fst) (label : Sym) :
    Option.Rel R (Table.find? label left) (Table.find? label right) := by
  have hlabel := h label
  rw [Table.find?, Table.find?] at hlabel
  by_cases heq : l = label
  · subst heq
    rw [(Table.find?_eq_none_iff _ _).2 hl, (Table.find?_eq_none_iff _ _).2 hr]
    exact .none
  · rwa [if_neg heq, if_neg heq] at hlabel

theorem notMem_of_pairwise {l : Sym} {labels : List Sym} (h : (l :: labels).Pairwise (· < ·)) :
    l ∉ labels :=
  fun hmem => String.lt_irrefl l ((List.pairwise_cons.1 h).1 l hmem)

/-- What a tree without aliases stands for is its node. -/
theorem stands_of_node {n : TypeNode} (hn : env.types.get? a = some n)
    (hlink : ∀ name, n ≠ .link name) : env.Stands a n :=
  ⟨a, resolveFrom_of_node (node_eq_ok.2 hn) hlink⟩

/-- The same type has a node on record that is alike. -/
theorem exists_alike {m : TypeNode} (h : Same env.Stands a b) (ha : env.types.get? a = some m)
    (hm : ∀ name, m ≠ .link name) (hb : env.Unaliased b) :
    ∃ n, env.types.get? b = some n ∧ m.Alike (Same env.Stands) n := by
  obtain ⟨n, hn, halike⟩ := h.unfold env.functional_stands (stands_of_node ha hm)
  obtain ⟨n', hn', -⟩ := hb.exists_resolve
  obtain rfl := env.functional_stands b n n' hn ⟨b, hn'⟩
  exact ⟨n, node_eq_ok.1 (node_of_resolveFrom_eq_ok hn'), halike⟩

mutual

/-- Trees without aliases are one if their roots are the same type. -/
theorem eq_of_same : ∀ {s t : SessionType} {a b : Id}, s.Ordered → t.Ordered → s.links = [] →
    t.links = [] → s.StoredAt env.types a → t.StoredAt env.types b → Same env.Stands a b → s = t
  | .one, t, _, _, _, _, _, ht, ha, hb, h => by
    obtain ⟨n, hn, halike⟩ := exists_alike h ha nofun ⟨t, ht, hb⟩
    cases halike
    cases t <;> simp [StoredAt, hn] at hb
    rfl
  | .link name, _, _, _, _, _, hs, _, _, _, _ => by cases hs
  | .tensor value cont, t, _, _, hos, hot, hs, ht, ha, hb, h => by
    obtain ⟨hsv, hsc⟩ := List.append_eq_nil_iff.1 hs
    obtain ⟨v, c, ha, hva, hca⟩ := ha
    obtain ⟨n, hn, halike⟩ := exists_alike h ha nofun ⟨t, ht, hb⟩
    cases halike with
    | tensor hv hc =>
      cases t <;> simp [StoredAt, hn] at hb
      obtain ⟨htv, htc⟩ := List.append_eq_nil_iff.1 ht
      rw [eq_of_same hos.1 hot.1 hsv htv hva hb.1 hv, eq_of_same hos.2 hot.2 hsc htc hca hb.2 hc]
  | .lolli value cont, t, _, _, hos, hot, hs, ht, ha, hb, h => by
    obtain ⟨hsv, hsc⟩ := List.append_eq_nil_iff.1 hs
    obtain ⟨v, c, ha, hva, hca⟩ := ha
    obtain ⟨n, hn, halike⟩ := exists_alike h ha nofun ⟨t, ht, hb⟩
    cases halike with
    | lolli hv hc =>
      cases t <;> simp [StoredAt, hn] at hb
      obtain ⟨htv, htc⟩ := List.append_eq_nil_iff.1 ht
      rw [eq_of_same hos.1 hot.1 hsv htv hva hb.1 hv, eq_of_same hos.2 hot.2 hsc htc hca hb.2 hc]
  | .plus choices, t, _, _, hos, hot, hs, ht, ha, hb, h => by
    obtain ⟨left, ha, hl⟩ := ha
    obtain ⟨n, hn, halike⟩ := exists_alike h ha nofun ⟨t, ht, hb⟩
    cases halike with
    | plus hrel =>
      cases t <;> simp [StoredAt, hn] at hb
      rw [choices_eq_of_rel hos.1 hot.1 hos.2 hot.2 hs ht hl hb hrel]
  | .with choices, t, _, _, hos, hot, hs, ht, ha, hb, h => by
    obtain ⟨left, ha, hl⟩ := ha
    obtain ⟨n, hn, halike⟩ := exists_alike h ha nofun ⟨t, ht, hb⟩
    cases halike with
    | «with» hrel =>
      cases t <;> simp [StoredAt, hn] at hb
      rw [choices_eq_of_rel hos.1 hot.1 hos.2 hot.2 hs ht hl hb hrel]
  | .up cont, t, _, _, hos, hot, hs, ht, ha, hb, h => by
    obtain ⟨c, ha, hca⟩ := ha
    obtain ⟨n, hn, halike⟩ := exists_alike h ha nofun ⟨t, ht, hb⟩
    cases halike with
    | up hc =>
      cases t <;> simp [StoredAt, hn] at hb
      refine congrArg SessionType.up (eq_of_same ?_ ?_ ?_ ?_ hca hb hc)
      · exact hos
      · exact hot
      · exact hs
      · exact ht
  | .down cont, t, _, _, hos, hot, hs, ht, ha, hb, h => by
    obtain ⟨c, ha, hca⟩ := ha
    obtain ⟨n, hn, halike⟩ := exists_alike h ha nofun ⟨t, ht, hb⟩
    cases halike with
    | down hc =>
      cases t <;> simp [StoredAt, hn] at hb
      refine congrArg SessionType.down (eq_of_same ?_ ?_ ?_ ?_ hca hb hc)
      · exact hos
      · exact hot
      · exact hs
      · exact ht

theorem choices_eq_of_rel : ∀ {choices choices' : List (Sym × SessionType)}
    {left right : List (Sym × Id)}, (choices.map Prod.fst).Pairwise (· < ·) →
    (choices'.map Prod.fst).Pairwise (· < ·) → SessionType.OrderedChoices choices →
    SessionType.OrderedChoices choices' → SessionType.linksOfChoices choices = [] →
    SessionType.linksOfChoices choices' = [] → StoredChoices env.types choices left →
    StoredChoices env.types choices' right →
    (∀ label, Option.Rel (Same env.Stands) (Table.find? label left) (Table.find? label right)) →
    choices = choices'
  | [], [], _, _, _, _, _, _, _, _, _, _, _ => rfl
  | [], (l, _) :: _, _, _, _, _, _, _, _, _, hl, hr, h => by
    cases hl
    obtain ⟨b, more, rfl, -⟩ := hr
    cases mem_labels_of_rel (fun label => rel_swap (h label)) (if_pos (rfl : l = l))
  | (l, _) :: _, [], _, _, _, _, _, _, _, _, hl, hr, h => by
    cases hr
    obtain ⟨a, more, rfl, -⟩ := hl
    cases mem_labels_of_rel h (if_pos (rfl : l = l))
  | (l, s) :: rest, (l', t) :: rest', _, _, hsl, hsr, hol, hor, hll, hlr, hl, hr, h => by
    obtain ⟨htl, hrestl⟩ := List.append_eq_nil_iff.1 hll
    obtain ⟨htr, hrestr⟩ := List.append_eq_nil_iff.1 hlr
    obtain ⟨a, left, rfl, ha, hl⟩ := hl
    obtain ⟨b, right, rfl, hb, hr⟩ := hr
    have hleft := labels_of_storedChoices hl
    have hright := labels_of_storedChoices hr
    obtain rfl : l = l' := by
      refine label_eq_of_rel h ?_ ?_
      · rw [List.map_cons, hleft]
        exact hsl
      · rw [List.map_cons, hright]
        exact hsr
    have hfirst : Same env.Stands a b := by
      obtain ⟨b', hb', hsame⟩ := rel_some (h l) (if_pos rfl)
      cases hb'.symm.trans (if_pos rfl)
      exact hsame
    have hrest := rel_tail h (hleft ▸ notMem_of_pairwise hsl) (hright ▸ notMem_of_pairwise hsr)
    rw [eq_of_same hol.1 hor.1 htl htr ha hb hfirst,
      choices_eq_of_rel hsl.of_cons hsr.of_cons hol.2 hor.2 hrestl hrestr hl hr hrest]

end

/-! ## Environments with the records of a tree -/

variable {recs recs' : List TypeRec}

/-- These records are in the environment. -/
def Holds (env : Env) (recs : List TypeRec) : Prop :=
  ∀ rec ∈ recs, env.types.get? rec.id = some rec.node

/-- The environment with these records. -/
def insertRecs (env : Env) (recs : List TypeRec) : Env :=
  { env with types := Registry.addNodes env.types recs }

theorem holds_insertRecs (env : Env) (hn : (recs.map TypeRec.id).Nodup) :
    (env.insertRecs recs).Holds recs :=
  fun _ hrec => Registry.get?_addNodes_of_mem hn hrec

theorem Holds.insertRecs (h : env.Holds recs)
    (hne : ∀ rec ∈ recs, ∀ rec' ∈ recs', rec'.id ≠ rec.id) : (env.insertRecs recs').Holds recs :=
  fun rec hrec => (Registry.get?_addNodes_of_ne (hne rec hrec)).trans (h rec hrec)

/-- Records of trees that are lowered one after the other do not get in each other's way. -/
theorem holds_insertRecs_lower (env : Env) (s t : SessionType) {ids ids' : Supply}
    (hids : (s.lower ids).2.next ≤ ids'.next) :
    ((env.insertRecs (s.lower ids).1.recs).insertRecs (t.lower ids').1.recs).Holds
      ((s.lower ids).1.recs ++ (t.lower ids').1.recs) := by
  refine List.forall_mem_append.2 ⟨?_, holds_insertRecs _ (t.nodup_lower ids')⟩
  refine (env.holds_insertRecs (s.nodup_lower ids)).insertRecs fun rec hrec rec' hrec' heq => ?_
  have hlt := ((s.covers_lower ids).2 rec hrec).2
  have hle := ((t.covers_lower ids').2 rec' hrec').1
  rw [heq] at hle
  omega

end Env

/-! ## There and back -/

namespace SessionType

/-- Lowering and lifting undo each other. The records of a tree have ids of their own, the root's
first, and stand for its subtrees in preorder, in any environment that holds them. There the root is
lifted to the tree, going as deep as it is high; and the roots of two trees without aliases, lowered
one after the other, compare equal if the trees are one, and different if they are not. -/
theorem lower_round_trip (s t : SessionType) (hs : s.Ordered) (ht : t.Ordered) (ids ids' : Supply)
    (hids : (s.lower ids).2.next ≤ ids'.next) :
    let l := (s.lower ids).1
    let l' := (t.lower ids').1
    (l.recs.map TypeRec.id).Nodup ∧ (l.recs.map TypeRec.id).head? = some l.root ∧
    (∀ env : Env, ((env.insertRecs l.recs).insertRecs l'.recs).Holds (l.recs ++ l'.recs)) ∧
    ∀ env : Env, env.Holds l.recs →
      List.Forall₂ (fun rec u => env.lift rec.id = .ok u) l.recs s.subtrees ∧
      env.lift l.root = .ok s ∧
      (∀ more, env.liftTo (s.height + more) l.root = .ok s) ∧
      (env.Holds l'.recs → s.links = [] → t.links = [] →
        (s = t → env.eqType l.root l'.root = .ok true) ∧
        (s ≠ t → env.eqType l.root l'.root = .ok false)) := by
  obtain ⟨node, rest, hroot⟩ := s.exists_recs_lower ids
  refine ⟨s.nodup_lower ids, by rw [hroot]; rfl, fun env => env.holds_insertRecs_lower s t hids,
    fun env hl => ?_⟩
  have hstored := s.storedAt_lower ids hs hl
  refine ⟨(s.forall₂_lower ids hs hl).imp fun _ _ => Env.lift_of_storedAt,
    Env.lift_of_storedAt hstored, fun more => Env.liftTo_of_height hstored (Nat.le_add_right _ _),
    fun hl' hlinks hlinks' => ?_⟩
  have hstored' := t.storedAt_lower ids' ht hl'
  refine ⟨?_, fun hne => ?_⟩
  · rintro rfl
    exact Env.eqType_of_tree hlinks hstored hstored'
  · obtain ⟨same, hsame⟩ := Env.exists_eqType ⟨s, hlinks, hstored⟩ ⟨t, hlinks', hstored'⟩
    cases same with
    | false => exact hsame
    | true =>
      exact absurd (Env.eq_of_same hs ht hlinks hlinks' hstored hstored' (Env.same_of_eqType hsame))
        hne

/-! Two trees that differ at the end of their first branch. -/

namespace Small

def shared : SessionType := .plus [("l", .tensor .one (.up .one)), ("r", .one)]

def handed : SessionType := .plus [("l", .tensor .one (.down .one)), ("r", .one)]

end Small

open SessionType.Small in
theorem lower_round_trip_shared :
    let l := (shared.lower ⟨0⟩).1
    let l' := (handed.lower (shared.lower ⟨0⟩).2).1
    let env := ((∅ : Env).insertRecs l.recs).insertRecs l'.recs
    l.recs.map TypeRec.node = [.plus (Table.ofList [("l", .nth 1), ("r", .nth 5)]),
      .tensor (.nth 2) (.nth 3), .one, .up (.nth 4), .one, .one] ∧
    env.lift l.root = .ok shared ∧ env.lift l'.root = .ok handed ∧
      env.eqType l.root l'.root = .ok false := by
  have hs : shared.Ordered := ⟨by decide, ⟨trivial, trivial⟩, trivial, trivial⟩
  have ht : handed.Ordered := ⟨by decide, ⟨trivial, trivial⟩, trivial, trivial⟩
  have hne : shared ≠ handed := by simp [shared, handed]
  obtain ⟨-, -, hholds, hround⟩ :=
    lower_round_trip shared handed hs ht ⟨0⟩ (shared.lower ⟨0⟩).2 (Nat.le_refl _)
  obtain ⟨-, -, -, hround'⟩ := lower_round_trip handed handed ht ht (shared.lower ⟨0⟩).2
    (handed.lower (shared.lower ⟨0⟩).2).2 (Nat.le_refl _)
  obtain ⟨hl, hl'⟩ := List.forall_mem_append.1 (hholds ∅)
  obtain ⟨-, hlift, -, heq⟩ := hround _ hl
  obtain ⟨-, hlift', -⟩ := hround' _ hl'
  exact ⟨by decide, hlift, hlift', (heq hl' rfl rfl).2 hne⟩

end SessionType

end Rendezvous
