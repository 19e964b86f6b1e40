import Mathlib.Algebra.Ring.Nat
import Rendezvous.Table

/-!
# More on tables

A table as a set of entries: an entry is in a table exactly if the table maps its key to its value
(`Table.mem_entries_iff`), so that filters and folds over the entries can be read as statements
about the partial function.

`Table.weigh` adds a number for each value up. `weigh_insert` and `weigh_erase` say what the two
operations do to the sum, and `weigh_le_weigh` compares two tables key by key.
-/

namespace Rendezvous

namespace Table

universe u v

variable {κ : Type u} {α : Type v} [DecidableEq κ]

theorem find?_of_mem {entries : List (κ × α)} (hn : (entries.map Prod.fst).Nodup) {k : κ} {v : α}
    (h : (k, v) ∈ entries) : find? k entries = some v := by
  induction entries with
  | nil => cases h
  | cons e rest ih =>
    rw [find?]
    rcases List.mem_cons.1 h with rfl | hr
    · rw [if_pos rfl]
    · have hne : e.1 ≠ k := by
        rintro rfl
        exact (List.nodup_cons.1 hn).1 (List.mem_map.2 ⟨_, hr, rfl⟩)
      rw [if_neg hne]
      exact ih (List.nodup_cons.1 hn).2 hr

/-- The entries of a table are the graph of its view. -/
theorem mem_entries_iff (t : Table κ α) {k : κ} {v : α} :
    (k, v) ∈ t.entries ↔ t.get? k = some v :=
  ⟨find?_of_mem t.nodup, mem_of_find?_eq_some⟩

theorem mem_keys_iff (t : Table κ α) {k : κ} : k ∈ t.keys ↔ ∃ v, t.get? k = some v := by
  constructor
  · intro h
    obtain ⟨e, he, rfl⟩ := List.mem_map.1 h
    exact ⟨e.2, t.mem_entries_iff.1 he⟩
  · rintro ⟨v, hv⟩
    exact mem_keys_of_get?_eq_some hv

theorem mem_values_iff (t : Table κ α) {v : α} : v ∈ t.values ↔ ∃ k, t.get? k = some v := by
  constructor
  · intro h
    obtain ⟨e, he, rfl⟩ := List.mem_map.1 h
    exact ⟨e.1, t.mem_entries_iff.1 he⟩
  · rintro ⟨k, hk⟩
    exact mem_values_of_get?_eq_some hk

theorem contains_eq_true_iff (t : Table κ α) {k : κ} :
    t.contains k = true ↔ ∃ v, t.get? k = some v := by
  rw [contains, Option.isSome_iff_exists]

theorem contains_eq_false_iff (t : Table κ α) {k : κ} : t.contains k = false ↔ t.get? k = none := by
  rw [contains, Option.isSome_eq_false_iff, Option.isNone_iff_eq_none]

theorem isEmpty_iff (t : Table κ α) : t.isEmpty = true ↔ ∀ k, t.get? k = none := by
  rw [isEmpty, List.isEmpty_iff]
  constructor
  · intro h k
    rw [get?, h]
    rfl
  · intro h
    refine List.eq_nil_iff_forall_not_mem.2 fun e he => ?_
    have hget := t.mem_entries_iff.1 he
    rw [h e.1] at hget
    cases hget

theorem erase_comm (t : Table κ α) (k l : κ) : (t.erase k).erase l = (t.erase l).erase k := by
  refine Table.ext ?_
  show (t.entries.filter _).filter _ = (t.entries.filter _).filter _
  rw [List.filter_filter, List.filter_filter]
  exact List.filter_congr fun _ _ => Bool.and_comm ..

/-- Applying `f` to every value changes no key. -/
theorem get?_map {β : Type} (f : α → β) (t : Table κ α) (k : κ) :
    (t.map f).get? k = (t.get? k).map f := by
  obtain ⟨entries, hn⟩ := t
  show find? k (entries.map fun e => (e.1, f e.2)) = (find? k entries).map f
  clear hn
  induction entries with
  | nil => rfl
  | cons e rest ih =>
    rw [List.map_cons, find?, find?, ih]
    split <;> rfl

/-- Insertions at other keys leave a key alone. -/
theorem get?_foldl_insert_of_ne {β : Type} {key : β → κ} {val : β → α} {xs : List β}
    {t : Table κ α} {k : κ} (h : ∀ x ∈ xs, key x ≠ k) :
    (xs.foldl (fun t x => t.insert (key x) (val x)) t).get? k = t.get? k := by
  induction xs generalizing t with
  | nil => rfl
  | cons x rest ih =>
    rw [List.foldl_cons, ih fun y hy => h y (List.mem_cons_of_mem _ hy), get?_insert,
      if_neg fun e => h x List.mem_cons_self e.symm]

/-- What a key has after some insertions was inserted, or was there before. -/
theorem get?_or_mem_of_foldl_insert {β : Type} {key : β → κ} {val : β → α} {xs : List β}
    {t : Table κ α} {k : κ} {v : α}
    (h : (xs.foldl (fun t x => t.insert (key x) (val x)) t).get? k = some v) :
    t.get? k = some v ∨ ∃ x ∈ xs, key x = k ∧ val x = v := by
  induction xs generalizing t with
  | nil => exact .inl h
  | cons x rest ih =>
    rcases ih h with h | ⟨y, hy, hkey⟩
    · rw [get?_insert] at h
      split at h
      · next hk => exact .inr ⟨x, List.mem_cons_self, hk.symm, Option.some.inj h⟩
      · exact .inl h
    · exact .inr ⟨y, List.mem_cons_of_mem _ hy, hkey⟩

/-- Insertions at distinct new keys append their entries in order. -/
theorem entries_foldl_insert {l : List (κ × α)} {t : Table κ α}
    (h : (t.keys ++ l.map Prod.fst).Nodup) :
    (l.foldl (fun t e => t.insert e.1 e.2) t).entries = t.entries ++ l := by
  induction l generalizing t with
  | nil => exact (List.append_nil _).symm
  | cons e rest ih =>
    have hn : e.1 ∉ t.keys := fun hmem =>
      (List.nodup_append.1 h).2.2 _ hmem _ List.mem_cons_self rfl
    have hentries := entries_insert_of_notMem hn e.2
    rw [List.foldl_cons, ih, hentries, List.append_assoc]
    · rfl
    · simpa [keys, hentries] using h

theorem entries_ofList {l : List (κ × α)} (h : (l.map Prod.fst).Nodup) :
    (ofList l).entries = l := entries_foldl_insert h

/-! ## Sums -/

variable {f : α → Nat}

/-- What the values of a table weigh together. -/
def weigh (f : α → Nat) (t : Table κ α) : Nat := (t.entries.map fun e => f e.2).sum

theorem replaced_of_notMem {k : κ} {entries : List (κ × α)} (h : k ∉ entries.map Prod.fst)
    (v : α) : replaced k v entries = entries := by
  refine (List.map_congr_left fun e he => if_neg ?_).trans (List.map_id _)
  rintro rfl
  exact h (List.mem_map_of_mem he)

theorem sum_replaced {entries : List (κ × α)} (hn : (entries.map Prod.fst).Nodup) {k : κ}
    (hk : k ∈ entries.map Prod.fst) (v : α) :
    ((replaced k v entries).map fun e => f e.2).sum + (find? k entries).elim 0 f =
      (entries.map fun e => f e.2).sum + f v := by
  induction entries with
  | nil => cases hk
  | cons e rest ih =>
    obtain ⟨hnot, hn⟩ := List.nodup_cons.1 hn
    by_cases he : e.1 = k
    · subst he
      have hsame := replaced_of_notMem hnot v
      rw [replaced] at hsame ⊢
      rw [List.map_cons, hsame, if_pos rfl, find?, if_pos rfl, List.map_cons, List.map_cons,
        List.sum_cons, List.sum_cons]
      show f v + _ + f e.2 = _
      omega
    · have hk' : k ∈ rest.map Prod.fst := (List.mem_cons.1 hk).resolve_left fun h => he h.symm
      have hrest := ih hn hk'
      rw [replaced] at hrest ⊢
      rw [List.map_cons, if_neg he, find?, if_neg he, List.map_cons, List.map_cons, List.sum_cons,
        List.sum_cons]
      omega

theorem sum_filter_ne {entries : List (κ × α)} (hn : (entries.map Prod.fst).Nodup) (k : κ) :
    ((entries.filter (·.1 ≠ k)).map fun e => f e.2).sum + (find? k entries).elim 0 f =
      (entries.map fun e => f e.2).sum := by
  induction entries with
  | nil => rfl
  | cons e rest ih =>
    obtain ⟨hnot, hn⟩ := List.nodup_cons.1 hn
    by_cases he : e.1 = k
    · subst he
      have hsame : rest.filter (·.1 ≠ e.1) = rest := by
        refine List.filter_eq_self.2 fun e' he' => decide_eq_true ?_
        intro heq
        exact hnot (heq ▸ List.mem_map_of_mem he')
      rw [List.filter_cons_of_neg (by simp), hsame, find?, if_pos rfl, List.map_cons,
        List.sum_cons]
      exact Nat.add_comm _ _
    · have hrest := ih hn
      rw [List.filter_cons_of_pos (by simpa using he), find?, if_neg he, List.map_cons,
        List.map_cons, List.sum_cons, List.sum_cons]
      omega

/-- The new value counts, and the one that it replaces does not. -/
theorem weigh_insert (t : Table κ α) (k : κ) (v : α) :
    (t.insert k v).weigh f + (t.get? k).elim 0 f = t.weigh f + f v := by
  by_cases h : k ∈ t.keys
  · rw [weigh, entries_insert_of_mem h]
    exact sum_replaced t.nodup h v
  · rw [weigh, entries_insert_of_notMem h, (t.get?_eq_none_iff k).2 h, List.map_append,
      List.sum_append]
    rfl

theorem weigh_insert_le (t : Table κ α) (k : κ) (v : α) :
    (t.insert k v).weigh f ≤ t.weigh f + f v :=
  Nat.le.intro (t.weigh_insert k v)

/-- What is taken out counts no more. -/
theorem weigh_erase (t : Table κ α) (k : κ) :
    (t.erase k).weigh f + (t.get? k).elim 0 f = t.weigh f :=
  sum_filter_ne t.nodup k

theorem weigh_erase_le (t : Table κ α) (k : κ) : (t.erase k).weigh f ≤ t.weigh f :=
  Nat.le.intro (t.weigh_erase k)

/-- A table is no heavier than another that has something as heavy at each of its keys. -/
theorem weigh_le_weigh {t t' : Table κ α}
    (h : ∀ k v', t'.get? k = some v' → ∃ v, t.get? k = some v ∧ f v' ≤ f v) :
    t'.weigh f ≤ t.weigh f := by
  have hlist : ∀ (entries : List (κ × α)), (entries.map Prod.fst).Nodup → ∀ t : Table κ α,
      (∀ e ∈ entries, ∃ v, t.get? e.1 = some v ∧ f e.2 ≤ f v) →
      (entries.map fun e => f e.2).sum ≤ t.weigh f := by
    intro entries
    induction entries with
    | nil => exact fun _ _ _ => Nat.zero_le _
    | cons e rest ih =>
      intro hn t ht
      obtain ⟨hnot, hn⟩ := List.nodup_cons.1 hn
      obtain ⟨v, hv, hle⟩ := ht e List.mem_cons_self
      -- the key of the first entry is settled, and the others are elsewhere
      have hrest := ih hn (t.erase e.1) fun e' he' => by
        have hne : e'.1 ≠ e.1 := fun heq => hnot (heq ▸ List.mem_map_of_mem he')
        rw [get?_erase, if_neg hne]
        exact ht e' (List.mem_cons_of_mem _ he')
      have herase := t.weigh_erase (f := f) e.1
      rw [hv] at herase
      rw [List.map_cons, List.sum_cons, ← herase, Nat.add_comm]
      exact Nat.add_le_add hrest hle
  exact hlist t'.entries t'.nodup t fun e he => h e.1 e.2 (t'.mem_entries_iff.1 he)

end Table

end Rendezvous
