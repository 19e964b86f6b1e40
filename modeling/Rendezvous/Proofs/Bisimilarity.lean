import Mathlib.Order.Bounds.Basic
import Rendezvous.Proofs.Equality

/-!
# Comparison and bisimilarity

What comparing two types means, said without the comparison:

- `Env.Unfolds R` is one unfolding: the two types are one, or both resolve, to the same id or to
  nodes of one connective with the same labels and children related by `R`;
- the types that compare equal are the greatest relation that unfolds into itself
  (`Env.eqType_isGreatest`);
- a comparison comes to an end whatever the environment holds: `Env.meetWithin` may follow so many
  aliases and look at so many goals only, and it gives the same answer as soon as it may look at
  each pair of nodes once, with the goals this opens (`Env.meetWithin_eq_some`).
-/

namespace Rendezvous

namespace Env

variable {env : Env} {a b : Id}

/-! ## Unfolding -/

/-- The two are one type, or both resolve, to the same id or to nodes of one connective with the
same labels and related children. -/
def Unfolds (env : Env) (R : Id → Id → Prop) (a b : Id) : Prop :=
  a = b ∨ ∃ p q, env.resolve a = .ok p ∧ env.resolve b = .ok q ∧ (p.1 = q.1 ∨ p.2.Alike R q.2)

/-- A relation that unfolds into itself is a bisimulation, the identity added. -/
theorem bisimulation_of_le_unfolds {R : Id → Id → Prop} (hR : R ≤ env.Unfolds R) :
    Bisimulation env.Stands fun a b => a = b ∨ R a b := by
  rintro a b (hab | hab)
  · exact .inl hab
  rcases hR a b hab with rfl | ⟨⟨a', m⟩, ⟨b', n⟩, ha, hb, heq | halike⟩
  · exact .inl rfl
  · -- one id has one node, which is alike itself
    obtain rfl : a' = b' := heq
    obtain rfl : m = n := Except.ok.inj
      ((node_of_resolveFrom_eq_ok ha).symm.trans (node_of_resolveFrom_eq_ok hb))
    exact .inr ⟨m, m, ⟨a', ha⟩, ⟨a', hb⟩, .refl (fun _ => .inl rfl) m⟩
  · exact .inr ⟨m, n, ⟨a', ha⟩, ⟨b', hb⟩, halike.mono .inr⟩

theorem unfolds_of_eqType (h : env.eqType a b = .ok true) :
    env.Unfolds (fun a b => env.eqType a b = .ok true) a b := by
  refine (Same.bisimulation _ (same_of_eqType h)).imp_right ?_
  rintro ⟨m, n, ⟨a', ha⟩, ⟨b', hb⟩, halike⟩
  exact ⟨_, _, ha, hb, .inr (halike.mono eqType_eq_ok_true_iff.2)⟩

/-- Types compare equal where any relation that unfolds into itself relates them. -/
theorem eqType_isGreatest (env : Env) :
    IsGreatest {R | R ≤ env.Unfolds R} fun a b => env.eqType a b = .ok true := by
  refine ⟨fun a b h => unfolds_of_eqType h, fun R hR a b hab => ?_⟩
  exact eqType_of_bisimulation (bisimulation_of_le_unfolds hR) (.inr hab)

/-! ## Bounded comparison -/

/-- Follows aliases as `resolveFrom` does, coming to at most `hops` nodes; nothing where there are
more on the way. -/
def resolveWithin (env : Env) : Nat → List QualName → Id → Option (Except Error (Id × TypeNode))
  | 0, _, _ => none
  | hops + 1, seen, id =>
    match env.node id with
    | .error e => some (.error e)
    | .ok (.link name) =>
      if name ∈ seen then
        some (.error (.linkCycle name))
      else
        match env.rootOf name with
        | .error e => some (.error e)
        | .ok root => env.resolveWithin hops (name :: seen) root
    | .ok n => some (.ok (id, n))

/-- Works off `goals` as `meetGoals` does, with at most `looks` looks at the list and `hops` nodes
on the way of each alias; nothing where these are not enough. -/
def meetWithin (env : Env) (hops : Nat) :
    Nat → List (Id × Id) → List Goal → Option (Except Error Bool)
  | 0, _, _ => none
  | _ + 1, _, [] => some (.ok true)
  | _ + 1, _, .refuted :: _ => some (.ok false)
  | looks + 1, seen, .equal a b :: rest =>
    if a = b ∨ (a, b) ∈ seen then
      env.meetWithin hops looks seen rest
    else
      match env.resolveWithin hops [] a with
      | none => none
      | some (.error e) => some (.error e)
      | some (.ok (a', m)) =>
        match env.resolveWithin hops [] b with
        | none => none
        | some (.error e) => some (.error e)
        | some (.ok (b', n)) =>
          if a' = b' then
            env.meetWithin hops looks ((a, b) :: seen) rest
          else
            env.meetWithin hops looks ((a, b) :: seen) (m.obligations n ++ rest)

/-- Each alias that is followed uses up a name that was not passed before. -/
theorem resolveWithin_eq_some {hops : Nat} {seen : List QualName} {id : Id}
    (h : unseen env.names.keys seen < hops) :
    env.resolveWithin hops seen id = some (env.resolveFrom seen id) := by
  induction hops generalizing seen id with
  | zero => exact absurd h (Nat.not_lt_zero _)
  | succ hops ih =>
    fun_cases resolveFrom env seen id with
    | case1 e hn => simp only [resolveWithin, hn]
    | case2 name hn hold => simp only [resolveWithin, hn, if_pos hold]
    | case3 name hn hnew e hr => simp only [resolveWithin, hn, if_neg hnew, hr]
    | case4 name hn hnew root hr =>
      simp only [resolveWithin, hn, if_neg hnew, hr]
      have hlt := unseen_cons_lt (mem_names_of_rootOf_eq_ok hr) hnew
      exact ih (by omega)
    | case5 n hlink hn => simp only [resolveWithin, hn]

/-- What is left to look at, at most: for each new pair its goals, and the goals at hand. -/
def looksLeft (env : Env) (seen : List (Id × Id)) (goals : List Goal) : Nat :=
  unseen env.pairs seen * (env.breadth + 2) + goals.length

/-- A new pair pays for as many goals as its nodes open. -/
theorem looksLeft_look {seen : List (Id × Id)} {a' b' : Id} {m n : TypeNode}
    (hnew : ¬ (a = b ∨ (a, b) ∈ seen)) (ha : env.resolve a = .ok (a', m))
    (hb : env.resolve b = .ok (b', n)) {goals rest : List Goal}
    (hgoals : goals.length ≤ (m.obligations n).length + rest.length) :
    env.looksLeft ((a, b) :: seen) goals < env.looksLeft seen (.equal a b :: rest) := by
  have hlt : unseen env.pairs ((a, b) :: seen) + 1 ≤ unseen env.pairs seen :=
    unseen_cons_lt (mem_pairs (mem_types_of_resolveFrom_eq_ok ha)
      (mem_types_of_resolveFrom_eq_ok hb)) (fun h => hnew (.inr h))
  have hmul := Nat.mul_le_mul_right (env.breadth + 2) hlt
  have hlength := TypeNode.length_obligations_le m n
  have hchildren : m.children.length ≤ env.breadth :=
    length_children_le_breadth (node_of_resolveFrom_eq_ok ha)
  simp only [looksLeft, Nat.add_mul, Nat.one_mul, List.length_cons] at hmul ⊢
  omega

/-- With a look for all that is left, the bounded comparison gives the answer. -/
theorem meetWithin_eq_some {hops looks : Nat} {seen : List (Id × Id)} {goals : List Goal}
    (hhops : env.names.size < hops) (hlooks : env.looksLeft seen goals < looks) :
    env.meetWithin hops looks seen goals = some (env.meetGoals seen goals) := by
  have hresolve : ∀ id, env.resolveWithin hops [] id = some (env.resolve id) := by
    intro id
    refine resolveWithin_eq_some (Nat.lt_of_le_of_lt ?_ hhops)
    exact Nat.le_trans (List.countP_le_length) (by simp [Table.keys, Table.size])
  induction looks generalizing seen goals with
  | zero => exact absurd hlooks (Nat.not_lt_zero _)
  | succ looks ih =>
    fun_cases meetGoals env seen goals with
    | case1 => rfl
    | case2 => rfl
    | case3 a b rest hold =>
      refine (if_pos hold).trans (ih ?_)
      simp only [looksLeft, List.length_cons] at hlooks ⊢
      omega
    | case4 a b rest hnew e ha =>
      refine (if_neg hnew).trans ?_
      rw [hresolve, ha]
    | case5 a b rest hnew a' m ha e hb =>
      refine (if_neg hnew).trans ?_
      rw [hresolve, ha, hresolve, hb]
    | case6 a b rest hnew m c n hb ha =>
      have hlt := looksLeft_look hnew ha hb (Nat.le_add_left rest.length _)
      refine (if_neg hnew).trans ?_
      rw [hresolve, ha, hresolve, hb]
      exact (if_pos rfl).trans (ih (by omega))
    | case7 a b rest hnew a' m ha b' n hb hne =>
      have hlength : (m.obligations n ++ rest).length ≤ _ := Nat.le_of_eq List.length_append
      have hlt := looksLeft_look hnew ha hb hlength
      refine (if_neg hnew).trans ?_
      rw [hresolve, ha, hresolve, hb]
      exact (if_neg hne).trans (ih (by omega))

/-- Comparing types decides bisimilarity, in any environment. It comes to an end, within so many
aliases and looks; the types that compare equal are the greatest relation that unfolds into itself,
and this is an equivalence. -/
theorem eqType_decides_bisimilarity (env : Env) :
    (∀ a b more, env.meetWithin (env.names.size + 1 + more)
      (env.pairs.length * (env.breadth + 2) + 2 + more) [] [.equal a b] =
        some (env.eqType a b)) ∧
    IsGreatest {R | R ≤ env.Unfolds R} (fun a b => env.eqType a b = .ok true) ∧
    Equivalence fun a b => env.eqType a b = .ok true := by
  refine ⟨fun a b more => meetWithin_eq_some (by omega) ?_, env.eqType_isGreatest,
    env.equivalence_eqType⟩
  have hall : unseen env.pairs [] = env.pairs.length := by simp [unseen]
  simp only [looksLeft, hall, List.length_singleton]
  omega

end Env

end Rendezvous
