import Rendezvous.Proofs.Denotes

/-!
# Equality of types

Types are compared by unfolding them in step, and recursive types never come to an end that way. The
equality that this decides is the largest one that unfolding respects:

- `TypeNode.Alike R` relates nodes of one connective whose children are related by `R`;
- `Bisimulation D R` says that related types are the same, or stand for alike nodes, where `D` tells
  what a type stands for;
- `Same D` is the union of all bisimulations. It is an equivalence where types stand for one node
  each (`Same.symm`, `Same.trans`), and related types unfold alike (`Same.unfold`).

`Env.eqType` decides it. A comparison that succeeds has collected a bisimulation in its list of
pairs (`same_of_eqType`); and one that starts from a pair of a bisimulation never meets a difference
(`eqType_of_bisimulation`). So the types that compare equal are an equivalence
(`equivalence_eqType`).
-/

namespace Rendezvous

/-! ## Alike nodes -/

/-- The same connective over children that are related one by one. -/
inductive TypeNode.Alike (R : Id → Id → Prop) : TypeNode → TypeNode → Prop
  | one : Alike R .one .one
  | link {name : QualName} : Alike R (.link name) (.link name)
  | tensor {value value' cont cont' : Id} (hv : R value value') (hc : R cont cont') :
    Alike R (.tensor value cont) (.tensor value' cont')
  | lolli {value value' cont cont' : Id} (hv : R value value') (hc : R cont cont') :
    Alike R (.lolli value cont) (.lolli value' cont')
  | plus {choices choices' : Table Sym Id}
    (h : ∀ label, Option.Rel R (choices.get? label) (choices'.get? label)) :
    Alike R (.plus choices) (.plus choices')
  | with {choices choices' : Table Sym Id}
    (h : ∀ label, Option.Rel R (choices.get? label) (choices'.get? label)) :
    Alike R (.with choices) (.with choices')
  | up {cont cont' : Id} (hc : R cont cont') : Alike R (.up cont) (.up cont')
  | down {cont cont' : Id} (hc : R cont cont') : Alike R (.down cont) (.down cont')

/-- Related where both are there. -/
theorem rel_imp {R S : Id → Id → Prop} {o o' : Option Id} (h : Option.Rel R o o')
    (hRS : ∀ {a b : Id}, o = some a → o' = some b → R a b → S a b) : Option.Rel S o o' := by
  cases h with
  | none => exact .none
  | some h => exact .some (hRS rfl rfl h)

theorem rel_swap {R : Id → Id → Prop} {o o' : Option Id} (h : Option.Rel R o o') :
    Option.Rel (fun a b => R b a) o' o := by
  cases h with
  | none => exact .none
  | some h => exact .some h

theorem rel_comp {R S : Id → Id → Prop} {o o' o'' : Option Id} (h : Option.Rel R o o')
    (h' : Option.Rel S o' o'') : Option.Rel (fun a c => ∃ b, R a b ∧ S b c) o o'' := by
  cases h with
  | none =>
    cases h'
    exact .none
  | some h =>
    cases h' with
    | some h' => exact .some ⟨_, h, h'⟩

theorem rel_refl {R : Id → Id → Prop} {o : Option Id} (h : ∀ a, o = some a → R a a) :
    Option.Rel R o o := by
  cases o with
  | none => exact .none
  | some a => exact .some (h a rfl)

/-- Related where the first is there. -/
theorem rel_some {R : Id → Id → Prop} {o o' : Option Id} {a : Id} (h : Option.Rel R o o')
    (ho : o = some a) : ∃ b, o' = some b ∧ R a b := by
  subst ho
  cases h with
  | some h => exact ⟨_, rfl, h⟩

theorem rel_isSome {R : Id → Id → Prop} {o o' : Option Id} (h : Option.Rel R o o') :
    o.isSome = o'.isSome := by
  cases h <;> rfl

namespace TypeNode

variable {R S : Id → Id → Prop} {l m n : TypeNode}

namespace Alike

/-- Only the children of the two nodes matter. -/
theorem imp (h : Alike R m n)
    (hRS : ∀ {a b : Id}, a ∈ m.children → b ∈ n.children → R a b → S a b) : Alike S m n := by
  have hchoice : ∀ {choices choices' : Table Sym Id},
      (∀ {a b : Id}, a ∈ choices.values → b ∈ choices'.values → R a b → S a b) →
      (∀ label, Option.Rel R (choices.get? label) (choices'.get? label)) →
      ∀ label, Option.Rel S (choices.get? label) (choices'.get? label) := fun hRS h label =>
    rel_imp (h label) fun ha hb =>
      hRS (Table.mem_values_of_get?_eq_some ha) (Table.mem_values_of_get?_eq_some hb)
  cases h with
  | one => exact .one
  | link => exact .link
  | tensor hv hc =>
    exact .tensor (hRS (by simp [children]) (by simp [children]) hv)
      (hRS (by simp [children]) (by simp [children]) hc)
  | lolli hv hc =>
    exact .lolli (hRS (by simp [children]) (by simp [children]) hv)
      (hRS (by simp [children]) (by simp [children]) hc)
  | plus h => exact .plus (hchoice hRS h)
  | «with» h => exact .with (hchoice hRS h)
  | up hc => exact .up (hRS (by simp [children]) (by simp [children]) hc)
  | down hc => exact .down (hRS (by simp [children]) (by simp [children]) hc)

theorem mono (h : Alike R m n) (hRS : ∀ {a b : Id}, R a b → S a b) : Alike S m n :=
  h.imp fun _ _ => hRS

theorem refl (hR : ∀ a, R a a) (n : TypeNode) : Alike R n n := by
  cases n with
  | one => exact .one
  | link name => exact .link
  | tensor value cont => exact .tensor (hR _) (hR _)
  | lolli value cont => exact .lolli (hR _) (hR _)
  | plus choices => exact .plus fun _ => rel_refl fun a _ => hR a
  | «with» choices => exact .with fun _ => rel_refl fun a _ => hR a
  | up cont => exact .up (hR _)
  | down cont => exact .down (hR _)

theorem swap (h : Alike R m n) : Alike (fun a b => R b a) n m := by
  cases h with
  | one => exact .one
  | link => exact .link
  | tensor hv hc => exact .tensor hv hc
  | lolli hv hc => exact .lolli hv hc
  | plus h => exact .plus fun label => rel_swap (h label)
  | «with» h => exact .with fun label => rel_swap (h label)
  | up hc => exact .up hc
  | down hc => exact .down hc

theorem comp (h : Alike R l m) (h' : Alike S m n) : Alike (fun a c => ∃ b, R a b ∧ S b c) l n := by
  cases h with
  | one =>
    cases h'
    exact .one
  | link =>
    cases h'
    exact .link
  | tensor hv hc =>
    cases h' with
    | tensor hv' hc' => exact .tensor ⟨_, hv, hv'⟩ ⟨_, hc, hc'⟩
  | lolli hv hc =>
    cases h' with
    | lolli hv' hc' => exact .lolli ⟨_, hv, hv'⟩ ⟨_, hc, hc'⟩
  | plus h =>
    cases h' with
    | plus h' => exact .plus fun label => rel_comp (h label) (h' label)
  | «with» h =>
    cases h' with
    | «with» h' => exact .with fun label => rel_comp (h label) (h' label)
  | up hc =>
    cases h' with
    | up hc' => exact .up ⟨_, hc, hc'⟩
  | down hc =>
    cases h' with
    | down hc' => exact .down ⟨_, hc, hc'⟩

end Alike

/-! ## Goals -/

/-- Choices whose goals are met are related label by label. -/
theorem rel_of_choiceGoals {left right : Table Sym Id}
    (hrefuted : Goal.refuted ∉ choiceGoals left right)
    (h : ∀ a b, Goal.equal a b ∈ choiceGoals left right → R a b) (label : Sym) :
    Option.Rel R (left.get? label) (right.get? label) := by
  have hkeys := sameLabels_of_choiceGoals hrefuted label
  cases hl : left.get? label with
  | none =>
    have hr : right.get? label = none := by
      rw [Table.get?_eq_none_iff] at hl ⊢
      exact fun hmem => hl (hkeys.2 hmem)
    rw [hr]
    exact .none
  | some a =>
    obtain ⟨b, hr⟩ := (right.mem_keys_iff).1 (hkeys.1 (Table.mem_keys_of_get?_eq_some hl))
    rw [hr]
    refine .some (h a b ?_)
    unfold choiceGoals at hrefuted ⊢
    split at hrefuted
    · next hsize =>
      rw [if_pos hsize]
      refine List.mem_map.2 ⟨(label, a), (left.mem_entries_iff).2 hl, ?_⟩
      simp [hr]
    · exact absurd List.mem_cons_self hrefuted

/-- Nodes whose goals are met are alike. -/
theorem alike_of_obligations (hrefuted : Goal.refuted ∉ m.obligations n)
    (h : ∀ a b, Goal.equal a b ∈ m.obligations n → R a b) : Alike R m n := by
  revert h hrefuted
  unfold obligations
  split <;> intro hrefuted h
  · exact .one
  · exact .tensor (h _ _ (by simp)) (h _ _ (by simp))
  · exact .lolli (h _ _ (by simp)) (h _ _ (by simp))
  · exact .plus (rel_of_choiceGoals hrefuted h)
  · exact .with (rel_of_choiceGoals hrefuted h)
  · exact .up (h _ _ (by simp))
  · exact .down (h _ _ (by simp))
  · exact absurd List.mem_cons_self hrefuted

/-- Choices that are related label by label open goals for related types only. -/
theorem goals_of_rel {left right : Table Sym Id}
    (h : ∀ label, Option.Rel R (left.get? label) (right.get? label)) {g : Goal}
    (hg : g ∈ choiceGoals left right) : ∃ a b, g = .equal a b ∧ R a b := by
  have hkeys : ∀ label, label ∈ left.keys ↔ label ∈ right.keys := by
    intro label
    rw [left.mem_keys_iff, right.mem_keys_iff, ← left.contains_eq_true_iff,
      ← right.contains_eq_true_iff, Table.contains, Table.contains, rel_isSome (h label)]
  have hsize : left.size = right.size := by
    have hperm : left.keys.length = right.keys.length :=
      Nat.le_antisymm (left.keys_nodup.length_le_of_subset fun _ hk => (hkeys _).1 hk)
        (right.keys_nodup.length_le_of_subset fun _ hk => (hkeys _).2 hk)
    simpa [Table.keys, Table.size] using hperm
  rw [choiceGoals, if_pos hsize] at hg
  obtain ⟨e, he, rfl⟩ := List.mem_map.1 hg
  obtain ⟨b, hr, hR⟩ := rel_some (h e.1) ((left.mem_entries_iff).1 he)
  exact ⟨e.2, b, by rw [hr], hR⟩

/-- Alike nodes open goals for related children only, unless they are aliases. -/
theorem goals_of_alike (h : Alike R m n) (hm : ∀ name, m ≠ .link name) {g : Goal}
    (hg : g ∈ m.obligations n) : ∃ a b, g = .equal a b ∧ R a b := by
  cases h with
  | one => cases hg
  | link => exact absurd rfl (hm _)
  | tensor hv hc | lolli hv hc =>
    simp only [obligations, List.mem_cons, List.not_mem_nil, or_false] at hg
    rcases hg with rfl | rfl
    · exact ⟨_, _, rfl, hv⟩
    · exact ⟨_, _, rfl, hc⟩
  | plus h => exact goals_of_rel h hg
  | «with» h => exact goals_of_rel h hg
  | up hc | down hc =>
    simp only [obligations, List.mem_cons, List.not_mem_nil, or_false] at hg
    exact ⟨_, _, hg, hc⟩

end TypeNode

/-! ## The largest bisimulation -/

/-- Related types are the same, or stand for alike nodes. -/
def Bisimulation (D : Id → TypeNode → Prop) (R : Id → Id → Prop) : Prop :=
  ∀ {a b : Id}, R a b → a = b ∨ ∃ m n, D a m ∧ D b n ∧ m.Alike R n

/-- Types that are related by some bisimulation. -/
def Same (D : Id → TypeNode → Prop) (a b : Id) : Prop := ∃ R, Bisimulation D R ∧ R a b

namespace Same

variable {D D' : Id → TypeNode → Prop} {a b c : Id}

theorem refl (D : Id → TypeNode → Prop) (a : Id) : Same D a a := ⟨Eq, .inl, rfl⟩

theorem bisimulation (D : Id → TypeNode → Prop) : Bisimulation D (Same D) := by
  rintro a b ⟨R, hR, hab⟩
  refine (hR hab).imp_right ?_
  rintro ⟨m, n, hm, hn, halike⟩
  exact ⟨m, n, hm, hn, halike.mono fun h => ⟨R, hR, h⟩⟩

theorem symm (h : Same D a b) : Same D b a := by
  refine ⟨fun a b => Same D b a, fun {a b} hba => ?_, h⟩
  rcases bisimulation D hba with rfl | ⟨m, n, hm, hn, halike⟩
  · exact .inl rfl
  · exact .inr ⟨n, m, hn, hm, halike.swap⟩

theorem mono (h : Same D a b) (hD : ∀ {a : Id} {n : TypeNode}, D a n → D' a n) : Same D' a b := by
  refine ⟨Same D, fun {a b} hab => ?_, h⟩
  refine (bisimulation D hab).imp_right ?_
  rintro ⟨m, n, hm, hn, halike⟩
  exact ⟨m, n, hD hm, hD hn, halike⟩

/-- Types that are the same stand for alike nodes. -/
theorem unfold (hD : ∀ a m n, D a m → D a n → m = n) (h : Same D a b)
    {m : TypeNode} (hm : D a m) : ∃ n, D b n ∧ m.Alike (Same D) n := by
  rcases bisimulation D h with rfl | ⟨m', n, hm', hn, halike⟩
  · exact ⟨m, hm, .refl (Same.refl D) m⟩
  · cases hD _ _ _ hm hm'
    exact ⟨n, hn, halike⟩

theorem trans (hD : ∀ a m n, D a m → D a n → m = n) (h : Same D a b)
    (h' : Same D b c) : Same D a c := by
  -- the type in the middle stands for one node, so both halves unfold to the same one
  refine ⟨fun a c => ∃ b, Same D a b ∧ Same D b c, ?_, b, h, h'⟩
  rintro a c ⟨b, hab, hbc⟩
  rcases bisimulation D hab with rfl | ⟨m, n, hm, hn, halike⟩
  · refine (bisimulation D hbc).imp_right ?_
    rintro ⟨m, n, hm, hn, halike⟩
    exact ⟨m, n, hm, hn, halike.mono fun h => ⟨_, .refl D _, h⟩⟩
  · obtain ⟨k, hk, halike'⟩ := hbc.unfold hD hn
    exact .inr ⟨m, k, hm, hk, halike.comp halike'⟩

end Same

/-! ## The comparison -/

namespace Env

variable {env : Env} {a b : Id}

/-- The node that a type resolves to. -/
def Stands (env : Env) (a : Id) (n : TypeNode) : Prop := ∃ id, env.resolve a = .ok (id, n)

theorem ne_link_of_resolveFrom {seen : List QualName} {id : Id} {p : Id × TypeNode}
    (h : env.resolveFrom seen id = .ok p) (name : QualName) : p.2 ≠ .link name := by
  fun_induction resolveFrom env seen id with
  | case1 => cases h
  | case2 => cases h
  | case3 => cases h
  | case4 _ _ _ _ _ _ _ ih => exact ih h
  | case5 _ _ n hn =>
    cases h
    exact hn name

/-- A pair of types that stand for alike nodes, up to the pairs in `F`. -/
def Matched (env : Env) (F : List (Id × Id)) (a b : Id) : Prop :=
  ∃ m n, env.Stands a m ∧ env.Stands b n ∧ m.Alike (fun x y => x = y ∨ (x, y) ∈ F) n

/-- The pairs in `F` meet the goals: each was seen before or is matched by the others. -/
structure Settles (env : Env) (F seen : List (Id × Id)) (goals : List Goal) : Prop where
  old : ∀ p ∈ seen, p ∈ F
  matched : ∀ p ∈ F, p ∈ seen ∨ env.Matched F p.1 p.2
  met : ∀ a b, .equal a b ∈ goals → a = b ∨ (a, b) ∈ F

/-- A pair that is looked at is settled by what its nodes need. -/
theorem Settles.look {F seen : List (Id × Id)} {rest : List Goal} (more : List Goal)
    (h : env.Settles F ((a, b) :: seen) (more ++ rest)) (hab : env.Matched F a b) :
    env.Settles F seen (.equal a b :: rest) := by
  refine ⟨fun p hp => h.old p (List.mem_cons_of_mem _ hp), fun p hp => ?_, fun x y hxy => ?_⟩
  · rcases h.matched p hp with hp | hp
    · rcases List.mem_cons.1 hp with rfl | hp
      · exact .inr hab
      · exact .inl hp
    · exact .inr hp
  · rcases List.mem_cons.1 hxy with heq | hmem
    · cases heq
      exact .inr (h.old _ List.mem_cons_self)
    · exact h.met x y (List.mem_append_right _ hmem)

/-- A comparison that succeeds has collected pairs that meet its goals. -/
theorem exists_settles {seen : List (Id × Id)} {goals : List Goal}
    (h : env.meetGoals seen goals = .ok true) : ∃ F, env.Settles F seen goals := by
  -- the pairs that were seen at the end; each was matched when it was added
  fun_induction meetGoals env seen goals with
  | case1 seen =>
    exact ⟨seen, fun _ hp => hp, fun _ hp => .inl hp, fun _ _ h => absurd h List.not_mem_nil⟩
  | case2 => cases h
  | case3 seen a b rest hold ih =>
    obtain ⟨F, hF⟩ := ih h
    refine ⟨F, hF.old, hF.matched, fun x y hxy => ?_⟩
    rcases List.mem_cons.1 hxy with heq | hmem
    · cases heq
      exact hold.imp_right (hF.old _)
    · exact hF.met x y hmem
  | case4 => cases h
  | case5 => cases h
  | case6 seen a b rest hnew m c n hb ha ih =>
    obtain ⟨F, hF⟩ := ih h
    -- both resolve to the same id
    obtain rfl : m = n := Except.ok.inj
      ((node_of_resolveFrom_eq_ok ha).symm.trans (node_of_resolveFrom_eq_ok hb))
    exact ⟨F, hF.look [] ⟨m, m, ⟨c, ha⟩, ⟨c, hb⟩, .refl (fun _ => .inl rfl) m⟩⟩
  | case7 seen a b rest hnew a' m ha b' n hb hne ih =>
    obtain ⟨F, hF⟩ := ih h
    have hrefuted : Goal.refuted ∉ m.obligations n := fun hmem =>
      refuted_notMem_of_meetGoals h (List.mem_append_left _ hmem)
    refine ⟨F, hF.look _ ⟨m, n, ⟨a', ha⟩, ⟨b', hb⟩, TypeNode.alike_of_obligations hrefuted ?_⟩⟩
    exact fun x y hxy => hF.met x y (List.mem_append_left _ hxy)

/-- Types that compare equal are the same. -/
theorem same_of_eqType (h : env.eqType a b = .ok true) : Same env.Stands a b := by
  obtain ⟨F, hF⟩ := exists_settles h
  refine ⟨fun x y => x = y ∨ (x, y) ∈ F, ?_, hF.met a b List.mem_cons_self⟩
  rintro x y (rfl | hxy)
  · exact .inl rfl
  · exact .inr ((hF.matched _ hxy).resolve_left nofun)

/-- Goals for pairs of a bisimulation are met. -/
theorem meetGoals_of_bisimulation {R : Id → Id → Prop} (hR : Bisimulation env.Stands R)
    {seen : List (Id × Id)} {goals : List Goal}
    (hgoals : ∀ g ∈ goals, ∃ a b, g = .equal a b ∧ R a b) :
    env.meetGoals seen goals = .ok true := by
  -- whatever pair comes next is one of the bisimulation, so both sides resolve, to alike nodes
  have hpair : ∀ {seen : List (Id × Id)} {a b : Id} {rest : List Goal},
      (∀ g ∈ .equal a b :: rest, ∃ a b, g = .equal a b ∧ R a b) → ¬ (a = b ∨ (a, b) ∈ seen) →
      ∃ m n, env.Stands a m ∧ env.Stands b n ∧ m.Alike R n := by
    intro seen a b rest hgoals hnew
    obtain ⟨_, _, heq, hab⟩ := hgoals _ List.mem_cons_self
    cases heq
    exact (hR hab).resolve_left fun heq => hnew (.inl heq)
  fun_induction meetGoals env seen goals with
  | case1 => rfl
  | case2 =>
    obtain ⟨_, _, heq, -⟩ := hgoals _ List.mem_cons_self
    cases heq
  | case3 seen a b rest hold ih => exact ih fun g hg => hgoals g (List.mem_cons_of_mem _ hg)
  | case4 seen a b rest hnew e ha =>
    obtain ⟨m, n, ⟨a', ha'⟩, -⟩ := hpair hgoals hnew
    cases ha'.symm.trans ha
  | case5 seen a b rest hnew a' m ha e hb =>
    obtain ⟨m, n, -, ⟨b', hb'⟩, -⟩ := hpair hgoals hnew
    cases hb'.symm.trans hb
  | case6 seen a b rest hnew m c n hb ha ih =>
    exact ih fun g hg => hgoals g (List.mem_cons_of_mem _ hg)
  | case7 seen a b rest hnew a' m ha b' n hb hne ih =>
    refine ih fun g hg => ?_
    obtain ⟨m', n', ⟨_, ha'⟩, ⟨_, hb'⟩, halike⟩ := hpair hgoals hnew
    cases ha'.symm.trans ha
    cases hb'.symm.trans hb
    rcases List.mem_append.1 hg with hg | hg
    · exact TypeNode.goals_of_alike halike (ne_link_of_resolveFrom ha) hg
    · exact hgoals g (List.mem_cons_of_mem _ hg)

/-- Types that are related by a bisimulation compare equal. -/
theorem eqType_of_bisimulation {R : Id → Id → Prop} (hR : Bisimulation env.Stands R) (hab : R a b) :
    env.eqType a b = .ok true := by
  refine meetGoals_of_bisimulation hR fun g hg => ?_
  rw [List.mem_singleton.1 hg]
  exact ⟨a, b, rfl, hab⟩

/-- Comparing types decides the largest bisimulation. -/
theorem eqType_eq_ok_true_iff : env.eqType a b = .ok true ↔ Same env.Stands a b :=
  ⟨same_of_eqType, eqType_of_bisimulation (Same.bisimulation _)⟩

theorem functional_stands (env : Env) (a : Id) (m n : TypeNode) (hm : env.Stands a m)
    (hn : env.Stands a n) : m = n := by
  obtain ⟨id, hm⟩ := hm
  obtain ⟨id', hn⟩ := hn
  exact congrArg Prod.snd (Except.ok.inj (hm.symm.trans hn))

theorem equivalence_eqType (env : Env) : Equivalence fun a b => env.eqType a b = .ok true where
  refl a := eqType_eq_ok_true_iff.2 (.refl _ a)
  symm h := eqType_eq_ok_true_iff.2 (same_of_eqType h).symm
  trans h h' := eqType_eq_ok_true_iff.2
    ((same_of_eqType h).trans env.functional_stands (same_of_eqType h'))

end Env

end Rendezvous
