/-!
# Tables

A `Table κ α` is a finite map that remembers the order in which its keys arrived. Every ordered
listing the library gives (the channels of a process, the pools of a store, the labels of a
choice) is the order of a table.

- `Table.insert` replaces the value of a known key in place and appends a new key at the end;
- `Table.erase` removes a key and keeps the order of the rest;
- `Table.get?` is the view of a table as a partial function, and `get?_insert`, `get?_erase` say
  what the two operations do to it.

That keys are distinct is part of the type, so a table is determined by its list of entries.
-/

namespace Rendezvous

universe u v w

/-- A finite map from `κ` to `α` in order of insertion. -/
structure Table (κ : Type u) (α : Type v) where
  /-- The entries, oldest key first. -/
  entries : List (κ × α)
  /-- No key has two entries. -/
  nodup : (entries.map Prod.fst).Nodup
deriving DecidableEq

namespace Table

variable {κ : Type u} {α : Type v} {β : Type w}

/-- Tables with the same entries are the same. -/
@[ext] theorem ext {s t : Table κ α} (h : s.entries = t.entries) : s = t := by
  cases s; cases t; cases h; rfl

/-- The table without entries. -/
def empty : Table κ α := ⟨[], List.nodup_nil⟩

instance : EmptyCollection (Table κ α) := ⟨empty⟩

instance : Inhabited (Table κ α) := ⟨empty⟩

/-- The keys, oldest first. -/
def keys (t : Table κ α) : List κ := t.entries.map Prod.fst

/-- The values, in the order of their keys. -/
def values (t : Table κ α) : List α := t.entries.map Prod.snd

/-- The number of keys. -/
def size (t : Table κ α) : Nat := t.entries.length

/-- Whether no key has a value. -/
def isEmpty (t : Table κ α) : Bool := t.entries.isEmpty

/-- Applies `f` to every value; keys and their order stay. -/
def map (f : α → β) (t : Table κ α) : Table κ β :=
  ⟨t.entries.map fun e => (e.1, f e.2), by
    have h := t.nodup
    rwa [List.map_map]⟩

@[simp] theorem entries_empty : (∅ : Table κ α).entries = [] := rfl

@[simp] theorem keys_empty : (∅ : Table κ α).keys = [] := rfl

theorem keys_nodup (t : Table κ α) : t.keys.Nodup := t.nodup

variable [DecidableEq κ]

/-- The value of the first entry with key `k`. -/
def find? (k : κ) : List (κ × α) → Option α
  | [] => none
  | e :: rest => if e.1 = k then some e.2 else find? k rest

/-- The value of `k`, if it has one. -/
def get? (t : Table κ α) (k : κ) : Option α := find? k t.entries

/-- Whether `k` has a value. -/
def contains (t : Table κ α) (k : κ) : Bool := (t.get? k).isSome

/-- The entries with the value of `k` replaced. -/
def replaced (k : κ) (v : α) (entries : List (κ × α)) : List (κ × α) :=
  entries.map fun e => if e.1 = k then (k, v) else e

theorem map_fst_replaced (k : κ) (v : α) (entries : List (κ × α)) :
    (replaced k v entries).map Prod.fst = entries.map Prod.fst := by
  induction entries with
  | nil => rfl
  | cons e rest ih =>
    by_cases h : e.1 = k <;> simp_all [replaced]

/-- Gives `k` the value `v`: in place where `k` is known, at the end where it is new. -/
def insert (t : Table κ α) (k : κ) (v : α) : Table κ α :=
  if h : k ∈ t.keys then
    ⟨replaced k v t.entries, by rw [map_fst_replaced]; exact t.nodup⟩
  else
    ⟨t.entries ++ [(k, v)], by
      rw [List.map_append, List.map_singleton]
      refine List.nodup_append.2 ⟨t.nodup, by simp, ?_⟩
      intro a ha b hb
      rw [List.mem_singleton] at hb
      subst hb
      exact fun e => h (e ▸ ha)⟩

/-- Takes `k` and its value out; the other entries keep their order. -/
def erase (t : Table κ α) (k : κ) : Table κ α :=
  ⟨t.entries.filter (·.1 ≠ k), by
    have h : (t.entries.filter (·.1 ≠ k)).Sublist t.entries := List.filter_sublist
    exact (h.map Prod.fst).nodup t.nodup⟩

/-- The table of a list of entries: a later entry replaces an earlier one with the same key. -/
def ofList (entries : List (κ × α)) : Table κ α :=
  entries.foldl (fun t e => t.insert e.1 e.2) ∅

/-! ## Keys -/

@[simp] theorem mem_keys_insert (t : Table κ α) (k l : κ) (v : α) :
    l ∈ (t.insert k v).keys ↔ l = k ∨ l ∈ t.keys := by
  unfold insert
  split
  · next h =>
    simp only [keys, map_fst_replaced]
    refine ⟨Or.inr, ?_⟩
    rintro (rfl | hl)
    · exact h
    · exact hl
  · simp [keys, or_comm]

@[simp] theorem mem_keys_erase (t : Table κ α) (k l : κ) :
    l ∈ (t.erase k).keys ↔ l ≠ k ∧ l ∈ t.keys := by
  simp only [keys, erase, List.mem_map, List.mem_filter, decide_eq_true_eq]
  constructor
  · rintro ⟨e, ⟨he, hk⟩, rfl⟩
    exact ⟨hk, e, he, rfl⟩
  · rintro ⟨hk, e, he, rfl⟩
    exact ⟨e, ⟨he, hk⟩, rfl⟩

/-- An unknown key goes to the end. -/
theorem entries_insert_of_notMem {t : Table κ α} {k : κ} (h : k ∉ t.keys) (v : α) :
    (t.insert k v).entries = t.entries ++ [(k, v)] := by
  rw [insert, dif_neg h]

/-- A known key keeps its place. -/
theorem entries_insert_of_mem {t : Table κ α} {k : κ} (h : k ∈ t.keys) (v : α) :
    (t.insert k v).entries = replaced k v t.entries := by
  rw [insert, dif_pos h]

/-! ## The view as a partial function -/

theorem find?_eq_none_iff (k : κ) (entries : List (κ × α)) :
    find? k entries = none ↔ k ∉ entries.map Prod.fst := by
  induction entries with
  | nil => simp [find?]
  | cons e rest ih =>
    rw [find?, List.map_cons, List.mem_cons]
    by_cases h : e.1 = k
    · simp [h]
    · rw [if_neg h, ih]
      exact ⟨fun hr => not_or.2 ⟨fun he => h he.symm, hr⟩, fun hr => (not_or.1 hr).2⟩

theorem find?_replaced (k l : κ) (v : α) (entries : List (κ × α)) :
    find? l (replaced k v entries) =
      if l = k ∧ k ∈ entries.map Prod.fst then some v else find? l entries := by
  induction entries with
  | nil => simp [replaced, find?]
  | cons e rest ih =>
    simp only [replaced, List.map_cons, find?, List.mem_cons] at ih ⊢
    by_cases he : e.1 = k
    · subst he
      by_cases hl : e.1 = l
      · simp [hl]
      · have hl' : ¬ l = e.1 := fun h => hl h.symm
        simp [hl, hl'] at ih ⊢
        exact ih
    · have hk : ¬ k = e.1 := fun h => he h.symm
      by_cases hl : e.1 = l
      · subst hl
        simp [he]
      · simp only [he, hk, hl, if_false, false_or]
        exact ih

theorem find?_append_singleton (k l : κ) (v : α) (entries : List (κ × α)) :
    find? l (entries ++ [(k, v)]) =
      (find? l entries).or (if k = l then some v else none) := by
  induction entries with
  | nil => simp [find?]
  | cons e rest ih =>
    by_cases h : e.1 = l
    · simp [find?, h]
    · simp [find?, h, ih]

theorem find?_filter_ne (k l : κ) (entries : List (κ × α)) :
    find? l (entries.filter (·.1 ≠ k)) = if l = k then none else find? l entries := by
  induction entries with
  | nil => simp [find?]
  | cons e rest ih =>
    by_cases he : e.1 = k
    · rw [List.filter_cons_of_neg (by simp [he]), ih]
      by_cases hl : l = k
      · simp [hl]
      · have h' : ¬ e.1 = l := fun h => hl (h ▸ he)
        simp [hl, find?, h']
    · rw [List.filter_cons_of_pos (by simp [he]), find?, ih]
      by_cases hl : e.1 = l
      · subst hl
        simp [he, find?]
      · simp [find?, hl]

@[simp] theorem get?_empty (k : κ) : (∅ : Table κ α).get? k = none := rfl

theorem get?_eq_none_iff (t : Table κ α) (k : κ) : t.get? k = none ↔ k ∉ t.keys :=
  find?_eq_none_iff k t.entries

theorem mem_keys_of_get?_eq_some {t : Table κ α} {k : κ} {v : α} (h : t.get? k = some v) :
    k ∈ t.keys := by
  refine Decidable.byContradiction fun hk => ?_
  rw [(t.get?_eq_none_iff k).2 hk] at h
  cases h

theorem mem_of_find?_eq_some {k : κ} {v : α} {entries : List (κ × α)}
    (h : find? k entries = some v) : (k, v) ∈ entries := by
  induction entries with
  | nil => cases h
  | cons e rest ih =>
    rw [find?] at h
    split at h
    · next he =>
      cases h
      exact List.mem_cons.2 (.inl (by rw [← he]))
    · exact List.mem_cons_of_mem _ (ih h)

theorem mem_values_of_get?_eq_some {t : Table κ α} {k : κ} {v : α} (h : t.get? k = some v) :
    v ∈ t.values :=
  List.mem_map.2 ⟨(k, v), mem_of_find?_eq_some h, rfl⟩

/-- Insertion changes the view at its key only. -/
theorem get?_insert (t : Table κ α) (k l : κ) (v : α) :
    (t.insert k v).get? l = if l = k then some v else t.get? l := by
  by_cases h : k ∈ t.keys
  · rw [get?, entries_insert_of_mem h, find?_replaced]
    by_cases hl : l = k <;> simp_all [get?, keys]
  · rw [get?, entries_insert_of_notMem h, find?_append_singleton]
    by_cases hl : l = k
    · subst hl
      have hn := (t.get?_eq_none_iff l).2 h
      rw [get?] at hn
      simp [hn]
    · have h' : ¬ k = l := fun e => hl e.symm
      simp [hl, h', get?]

@[simp] theorem get?_insert_self (t : Table κ α) (k : κ) (v : α) :
    (t.insert k v).get? k = some v := by
  rw [get?_insert, if_pos rfl]

/-- Erasure changes the view at its key only. -/
theorem get?_erase (t : Table κ α) (k l : κ) :
    (t.erase k).get? l = if l = k then none else t.get? l :=
  find?_filter_ne k l t.entries

@[simp] theorem get?_erase_self (t : Table κ α) (k : κ) : (t.erase k).get? k = none := by
  rw [get?_erase, if_pos rfl]

end Table

end Rendezvous
