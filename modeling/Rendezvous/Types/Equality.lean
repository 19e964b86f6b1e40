import Rendezvous.Types.Env

/-!
# Type equality

Two types are equal when they can be unfolded in step: aliases are followed, connectives and
labels agree, and children are equal in turn. `Env.eqType` decides this by a work list of goals.
A pair that was a goal before is not looked at again, so recursive types come to an end: there
are finitely many pairs of nodes (`Env.pairs`), and each opens at most as many goals as one node
has children (`TypeNode.length_obligations_le`).
-/

namespace Rendezvous

/-- What is left to show of two types. -/
inductive Goal where
  /-- These two are equal. -/
  | equal (a b : Id)
  /-- A difference was found. -/
  | refuted
deriving DecidableEq

namespace TypeNode

/-- The goals for branches: each label of the first choice has to be in the second. -/
def branchGoals (right : Table Sym Id) (left : List (Sym × Id)) : List Goal :=
  left.map fun e =>
    match right.get? e.1 with
    | some b => .equal e.2 b
    | none => .refuted

/-- The goals for two choices. -/
def choiceGoals (left right : Table Sym Id) : List Goal :=
  if left.size = right.size then branchGoals right left.entries else [.refuted]

/-- What two nodes that are no aliases need to be equal, in the order it is looked at. -/
def obligations : TypeNode → TypeNode → List Goal
  | .one, .one => []
  | .tensor value₁ cont₁, .tensor value₂ cont₂ => [.equal value₁ value₂, .equal cont₁ cont₂]
  | .lolli value₁ cont₁, .lolli value₂ cont₂ => [.equal value₁ value₂, .equal cont₁ cont₂]
  | .plus choices₁, .plus choices₂ => choiceGoals choices₁ choices₂
  | .with choices₁, .with choices₂ => choiceGoals choices₁ choices₂
  | .up cont₁, .up cont₂ => [.equal cont₁ cont₂]
  | .down cont₁, .down cont₂ => [.equal cont₁ cont₂]
  | _, _ => [.refuted]

theorem length_choiceGoals_le (left right : Table Sym Id) :
    (choiceGoals left right).length ≤ left.values.length + 1 := by
  unfold choiceGoals
  split
  · simp [branchGoals, Table.values]
  · simp

/-- Two nodes open at most one goal for each child of the first, or a single refutation. -/
theorem length_obligations_le (a b : TypeNode) :
    (a.obligations b).length ≤ a.children.length + 1 := by
  unfold obligations
  split <;> simp [children, length_choiceGoals_le]

end TypeNode

namespace Env

/-- An upper bound on the children of a node. -/
def breadth (env : Env) : Nat := (env.types.values.flatMap TypeNode.children).length

/-- All pairs of node ids. -/
def pairs (env : Env) : List (Id × Id) :=
  env.types.keys.flatMap fun a => env.types.keys.map fun b => (a, b)

theorem mem_pairs {env : Env} {a b : Id} (ha : a ∈ env.types.keys) (hb : b ∈ env.types.keys) :
    (a, b) ∈ env.pairs := by
  simp only [pairs, List.mem_flatMap, List.mem_map]
  exact ⟨a, ha, b, hb, rfl⟩

theorem length_children_le {n : TypeNode} {nodes : List TypeNode} (h : n ∈ nodes) :
    n.children.length ≤ (nodes.flatMap TypeNode.children).length := by
  induction nodes with
  | nil => cases h
  | cons m rest ih =>
    rw [List.flatMap_cons, List.length_append]
    rcases List.mem_cons.1 h with rfl | hr
    · exact Nat.le_add_right _ _
    · exact Nat.le_trans (ih hr) (Nat.le_add_left _ _)

theorem length_children_le_breadth {env : Env} {id : Id} {n : TypeNode}
    (h : env.node id = .ok n) : n.children.length ≤ env.breadth := by
  unfold node at h
  split at h
  · next m hm =>
    cases h
    have hmem : n ∈ env.types.values := Table.mem_values_of_get?_eq_some hm
    exact length_children_le hmem
  · cases h

theorem mem_types_of_resolveFrom_eq_ok {env : Env} {seen : List QualName} {id : Id}
    {r : Id × TypeNode} (h : env.resolveFrom seen id = .ok r) : id ∈ env.types.keys := by
  unfold resolveFrom at h
  split at h
  · cases h
  · next hn => exact mem_types_of_node_eq_ok hn
  · next hn => exact mem_types_of_node_eq_ok hn

/-- The node an id resolves to is at hand. -/
theorem node_of_resolveFrom_eq_ok {env : Env} {seen : List QualName} {id : Id}
    {r : Id × TypeNode} (h : env.resolveFrom seen id = .ok r) : env.node r.1 = .ok r.2 := by
  fun_induction resolveFrom env seen id with
  | case1 => cases h
  | case2 => cases h
  | case3 => cases h
  | case4 _ _ _ _ _ _ _ ih => exact ih h
  | case5 _ _ _ _ hn => cases h; exact hn

/-- Works off `goals`, taking the pairs in `seen` for equal. -/
def meetGoals (env : Env) (seen : List (Id × Id)) : List Goal → Except Error Bool
  | [] => .ok true
  | .refuted :: _ => .ok false
  | .equal a b :: rest =>
    if _hnew : a = b ∨ (a, b) ∈ seen then
      env.meetGoals seen rest
    else
      match _ha : env.resolve a with
      | .error e => .error e
      | .ok (a', m) =>
        match _hb : env.resolve b with
        | .error e => .error e
        | .ok (b', n) =>
          if a' = b' then
            env.meetGoals ((a, b) :: seen) rest
          else
            env.meetGoals ((a, b) :: seen) (m.obligations n ++ rest)
termination_by goals => unseen env.pairs seen * (env.breadth + 2) + goals.length
decreasing_by
  · simp
  all_goals
    have hlt : unseen env.pairs ((a, b) :: seen) + 1 ≤ unseen env.pairs seen :=
      unseen_cons_lt (mem_pairs (mem_types_of_resolveFrom_eq_ok _ha)
        (mem_types_of_resolveFrom_eq_ok _hb)) (fun h => _hnew (.inr h))
    have hmul := Nat.mul_le_mul_right (env.breadth + 2) hlt
    have hgoals := TypeNode.length_obligations_le m n
    have hchildren := length_children_le_breadth (node_of_resolveFrom_eq_ok _ha)
    simp only [Nat.add_mul, Nat.one_mul, List.length_append, List.length_cons] at hmul hchildren ⊢
    omega

/-- Whether two types are equal. It fails where an alias cannot be followed. -/
def eqType (env : Env) (a b : Id) : Except Error Bool := env.meetGoals [] [.equal a b]

end Env

end Rendezvous
