/-!
# Distinct members

`distinct` keeps the first occurrence of every member of a list and the order of these. It has the
same members (`mem_distinct`).
-/

namespace Rendezvous

universe u

variable {α : Type u} [DecidableEq α]

/-- The members of a list, each once, by first occurrence. -/
def distinct : List α → List α
  | [] => []
  | x :: rest => x :: (distinct rest).filter (· ≠ x)

@[simp] theorem mem_distinct {xs : List α} {a : α} : a ∈ distinct xs ↔ a ∈ xs := by
  induction xs with
  | nil => simp [distinct]
  | cons x rest ih => by_cases h : a = x <;> simp [distinct, ih, h]

end Rendezvous
