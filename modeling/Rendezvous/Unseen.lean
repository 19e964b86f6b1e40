/-!
# Unseen members of a finite list

Searches through finite state (aliases, pairs of types, forwards, a registry) remember what they
have seen. `unseen all seen` counts what is left of `all`; it drops whenever a search sees
something new, which is why the searches end.
-/

namespace Rendezvous

universe u

variable {α : Type u} [DecidableEq α]

/-- How many members of `all` are not in `seen`. -/
def unseen (all seen : List α) : Nat := all.countP fun a => decide (a ∉ seen)

/-- Seeing more never leaves more to see. -/
theorem unseen_le {all seen seen' : List α} (h : ∀ a ∈ seen, a ∈ seen') :
    unseen all seen' ≤ unseen all seen := by
  refine List.countP_mono_left fun a _ ha => ?_
  simp only [decide_eq_true_eq] at ha ⊢
  exact fun hs => ha (h a hs)

/-- Seeing a new member leaves fewer to see. -/
theorem unseen_lt {all seen seen' : List α} {a : α} (h : ∀ b ∈ seen, b ∈ seen')
    (ha : a ∈ all) (hn : a ∉ seen) (hs : a ∈ seen') : unseen all seen' < unseen all seen := by
  induction all with
  | nil => cases ha
  | cons b rest ih =>
    have hle : unseen rest seen' ≤ unseen rest seen := unseen_le h
    simp only [unseen, List.countP_cons, decide_eq_true_eq] at ih hle ⊢
    by_cases hb : b = a
    · subst hb
      simp only [hs, hn, not_true, not_false_iff, if_true, if_false]
      omega
    · have hr : a ∈ rest := by
        rcases List.mem_cons.1 ha with rfl | hr
        · exact absurd rfl hb
        · exact hr
      have hlt := ih hr
      by_cases hb' : b ∈ seen
      · have := h b hb'
        simp only [hb', this, not_true, if_false]
        omega
      · simp only [hb', not_false_iff, if_true]
        split <;> omega

/-- Seeing one more member, new and of the list, leaves fewer to see. -/
theorem unseen_cons_lt {all seen : List α} {a : α} (ha : a ∈ all) (hn : a ∉ seen) :
    unseen all (a :: seen) < unseen all seen :=
  unseen_lt (fun _ h => List.mem_cons_of_mem _ h) ha hn List.mem_cons_self

end Rendezvous
