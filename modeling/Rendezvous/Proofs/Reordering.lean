import Mathlib.Data.List.Nodup
import Mathlib.Data.List.Perm.Basic
import Mathlib.Data.String.Basic
import Rendezvous.Codec.Name
import Rendezvous.Proofs.Tables

/-!
# Members in another order

The members of an object mean the same in any order. `Json.Reorders` relates two values that differ
in nothing else, at whatever depth, and `Json.Restores` says of a reader that it gets a value back
from all that is so related to what was written.

Readers are put together from readers, and so are proofs that they restore:

- `Json.Restores.list` for arrays, `Json.Restores.entries` for named entries, which are read in any
  order and sorted (`sortEntries_eq_of_perm`), `Json.Restores.variant` for variants;
- `Fields.Gives` for the fields of a record, found by their names: `Gives.required`,
  `Gives.optional`, `Gives.defaulted` and `Gives.entries` read one of them.
-/

namespace Rendezvous

/-! ## Sorted entries -/

section Sorted

variable {α : Type} {name : String} {value : α}

theorem perm_insertSorted {sorted : List (String × α)} (h : name ∉ sorted.map Prod.fst) :
    (insertSorted name value sorted).Perm ((name, value) :: sorted) := by
  induction sorted with
  | nil => exact .refl _
  | cons e rest ih =>
    rw [List.map_cons, List.mem_cons, not_or] at h
    unfold insertSorted
    rw [if_neg h.1]
    split
    · exact .refl _
    · exact ((ih h.2).cons e).trans (.swap ..)

theorem pairwise_insertSorted {sorted : List (String × α)}
    (h : (sorted.map Prod.fst).Pairwise (· < ·)) (hn : name ∉ sorted.map Prod.fst) :
    ((insertSorted name value sorted).map Prod.fst).Pairwise (· < ·) := by
  induction sorted with
  | nil => exact List.pairwise_singleton ..
  | cons e rest ih =>
    obtain ⟨hfirst, hrest⟩ := List.pairwise_cons.1 h
    rw [List.map_cons, List.mem_cons, not_or] at hn
    unfold insertSorted
    rw [if_neg hn.1]
    split
    next hlt =>
      refine List.pairwise_cons.2 ⟨fun x hx => ?_, h⟩
      rcases List.mem_cons.1 hx with rfl | hx
      · exact hlt
      · exact lt_trans hlt (hfirst x hx)
    next hge =>
      refine List.pairwise_cons.2 ⟨fun x hx => ?_, ih hrest hn.2⟩
      rcases List.mem_cons.1 (((perm_insertSorted hn.2).map Prod.fst).mem_iff.1 hx) with rfl | hx
      · exact lt_of_le_of_ne (le_of_not_gt hge) (Ne.symm hn.1)
      · exact hfirst x hx

/-- Entering one after the other keeps the order, and loses none as long as names are distinct. -/
theorem foldl_insertSorted {rest done : List (String × α)}
    (hd : (done.map Prod.fst).Pairwise (· < ·)) (hn : ((done ++ rest).map Prod.fst).Nodup) :
    ((rest.foldl (fun sorted e => insertSorted e.1 e.2 sorted) done).map Prod.fst).Pairwise
        (· < ·) ∧
      (rest.foldl (fun sorted e => insertSorted e.1 e.2 sorted) done).Perm (done ++ rest) := by
  induction rest generalizing done with
  | nil => exact ⟨hd, .of_eq (List.append_nil done).symm⟩
  | cons e rest ih =>
    have hnew : e.1 ∉ done.map Prod.fst := by
      intro hmem
      rw [List.map_append, List.nodup_append] at hn
      exact hn.2.2 _ hmem _ (List.mem_cons_self ..) rfl
    have hmoved : (insertSorted e.1 e.2 done ++ rest).Perm (done ++ e :: rest) :=
      ((perm_insertSorted hnew).append_right rest).trans List.perm_middle.symm
    obtain ⟨hordered, hperm⟩ :=
      ih (pairwise_insertSorted hd hnew) ((hmoved.map Prod.fst).nodup_iff.2 hn)
    exact ⟨hordered, hperm.trans hmoved⟩

/-- Entries with distinct names are sorted into the one list that has them in order. -/
theorem sortEntries_eq_of_perm {entries sorted : List (String × α)}
    (h : (sorted.map Prod.fst).Pairwise (· < ·)) (hp : sorted.Perm entries) :
    sortEntries entries = sorted := by
  have hnodup : (entries.map Prod.fst).Nodup :=
    (hp.map Prod.fst).nodup_iff.1 (h.imp fun hlt => ne_of_lt hlt)
  obtain ⟨hordered, hperm⟩ := foldl_insertSorted .nil (List.nil_append entries ▸ hnodup)
  exact List.Perm.eq_of_pairwise (fun a b _ _ hab hba => (lt_asymm hab hba).elim)
    (List.pairwise_map.1 hordered) (List.pairwise_map.1 h) (hperm.trans hp.symm)

end Sorted

/-- Reading all of a list is reading each of it. -/
theorem mapM_eq_some_iff {α β : Type} {f : β → Option α} {l : List β} {xs : List α} :
    l.mapM f = some xs ↔ List.Forall₂ (fun b a => f b = some a) l xs := by
  induction l generalizing xs with
  | nil => simp [eq_comm]
  | cons b l ih =>
    rw [List.mapM_cons, List.forall₂_cons_left_iff]
    simp only [Option.bind_eq_bind, Option.bind_eq_some_iff, Option.pure_def, Option.some.injEq, ih]
    constructor
    · rintro ⟨a, ha, xs, hxs, rfl⟩
      exact ⟨a, xs, ha, hxs, rfl⟩
    · rintro ⟨a, xs, ha, hxs, rfl⟩
      exact ⟨a, ha, xs, hxs, rfl⟩

namespace Json

/-! ## Members in another order -/

mutual

/-- The second value says what the first one says; its objects may list their members in another
order. -/
inductive Reorders : Json → Json → Prop
  | refl (j : Json) : Reorders j j
  | arr {items items' : List Json} (h : List.Forall₂ Reorders items items') :
    Reorders (.arr items) (.arr items')
  | obj {members mid members' : List (String × Json)}
    (h : List.Forall₂ ReordersMember members mid) (hp : mid.Perm members') :
    Reorders (.obj members) (.obj members')

/-- The second member has the name of the first one and says what it says. -/
inductive ReordersMember : String × Json → String × Json → Prop
  | mk (name : String) {j j' : Json} (h : Reorders j j') : ReordersMember (name, j) (name, j')

end

namespace Reorders

variable {j : Json} {items : List Json} {members mid : List (String × Json)}

theorem eq_str {s : String} (h : (Json.str s).Reorders j) : j = .str s := by
  cases h
  rfl

theorem eq_int {n : Int} (h : (Json.int n).Reorders j) : j = .int n := by
  cases h
  rfl

theorem eq_null (h : Json.null.Reorders j) : j = .null := by
  cases h
  rfl

theorem exists_items (h : (Json.arr items).Reorders j) :
    ∃ items', j = .arr items' ∧ List.Forall₂ Reorders items items' := by
  cases h with
  | refl => exact ⟨items, rfl, List.forall₂_same.2 fun j _ => .refl j⟩
  | arr h => exact ⟨_, rfl, h⟩

theorem exists_pair {left right : Json} (h : (Json.arr [left, right]).Reorders j) :
    ∃ left' right', j = .arr [left', right'] ∧ left.Reorders left' ∧ right.Reorders right' := by
  obtain ⟨items', rfl, hitems⟩ := h.exists_items
  cases hitems with
  | cons hleft hrest =>
    cases hrest with
    | cons hright hnil =>
      cases hnil
      exact ⟨_, _, rfl, hleft, hright⟩

theorem exists_members (h : (Json.obj members).Reorders j) :
    ∃ mid members' : List (String × Json), j = .obj members' ∧
      List.Forall₂ ReordersMember members mid ∧ mid.Perm members' := by
  cases h with
  | refl =>
    exact ⟨members, members, rfl, List.forall₂_same.2 fun m _ => .mk m.1 (.refl m.2), .refl _⟩
  | obj h hp => exact ⟨_, _, rfl, h, hp⟩

theorem map_fst_eq (h : List.Forall₂ ReordersMember members mid) :
    members.map Prod.fst = mid.map Prod.fst := by
  induction h with
  | nil => rfl
  | cons hm _ ih =>
    cases hm
    rw [List.map_cons, List.map_cons, ih]

theorem rel_find? (h : List.Forall₂ ReordersMember members mid) (name : String) :
    Option.Rel Reorders (Table.find? name members) (Table.find? name mid) := by
  induction h with
  | nil => exact .none
  | cons hm _ ih =>
    cases hm with
    | mk first hj =>
      rw [Table.find?, Table.find?]
      split
      · exact .some hj
      · exact ih

theorem find?_perm {entries entries' : List (String × Json)}
    (hn : (entries.map Prod.fst).Nodup) (hp : entries.Perm entries') (name : String) :
    Table.find? name entries = Table.find? name entries' := by
  have hn' := (hp.map Prod.fst).nodup_iff.1 hn
  refine Option.ext fun j => ⟨fun h => ?_, fun h => ?_⟩
  · exact Table.find?_of_mem hn' (hp.mem_iff.1 (Table.mem_of_find?_eq_some h))
  · exact Table.find?_of_mem hn (hp.mem_iff.2 (Table.mem_of_find?_eq_some h))

/-- The members of an object are found by their names in any order. -/
theorem exists_obj (h : (Json.obj members).Reorders j) (hn : (members.map Prod.fst).Nodup) :
    ∃ members' : List (String × Json), j = .obj members' ∧ (members'.map Prod.fst).Nodup ∧
      ∀ name, Option.Rel Reorders (Table.find? name members) (Table.find? name members') := by
  obtain ⟨mid, members', rfl, hmid, hp⟩ := h.exists_members
  rw [map_fst_eq hmid] at hn
  refine ⟨members', rfl, (hp.map Prod.fst).nodup_iff.1 hn, fun name => ?_⟩
  rw [← find?_perm hn hp]
  exact rel_find? hmid name

theorem exists_variant {name : String} {content : Json}
    (h : (Json.obj [(name, content)]).Reorders j) :
    ∃ content', j = .obj [(name, content')] ∧ content.Reorders content' := by
  obtain ⟨mid, members', rfl, hmid, hp⟩ := h.exists_members
  cases hmid with
  | cons hm hrest =>
    cases hrest
    cases hm with
    | mk _ hcontent =>
      rw [← List.singleton_perm.1 hp]
      exact ⟨_, rfl, hcontent⟩

end Reorders

/-! ## Readers -/

/-- A reader gets a value back from what was written for it, whatever the order of the members. -/
def Restores {α : Type} (read : Reader α) (j : Json) (a : α) : Prop :=
  ∀ j', j.Reorders j' → read j' = some a

variable {α : Type} {read : Reader α} {j : Json} {a : α}

theorem restores_string (s : String) : Restores string (.str s) s :=
  fun _ h => h.eq_str ▸ rfl

theorem restores_int64 {n : Int}
    (h : Int64.minValue.toInt ≤ n ∧ n ≤ Int64.maxValue.toInt) : Restores int64 (.int n) n :=
  fun _ hj => hj.eq_int ▸ if_pos h

/-- A variant is restored by a reader that gets its content back. -/
theorem Restores.variant {β : Type} {part : Reader β} {content : Json} {b : β} {name : String}
    (hb : Restores part content b)
    (h : ∀ content', part content' = some b → read (.obj [(name, content')]) = some a) :
    Restores read (.obj [(name, content)]) a := by
  intro j hj
  obtain ⟨content', rfl, hcontent⟩ := hj.exists_variant
  exact h content' (hb content' hcontent)

theorem Restores.list {write : α → Json} {xs : List α}
    (h : ∀ x ∈ xs, Restores read (write x) x) : Restores (list read) (ofList write xs) xs := by
  intro j hj
  obtain ⟨items', rfl, hitems⟩ := hj.exists_items
  have hboth := (List.forall₂_and_left _ _).2 ⟨h, List.forall₂_map_left_iff.1 hitems⟩
  exact mapM_eq_some_iff.2 (hboth.imp fun _ _ hx => hx.1 _ hx.2).flip

/-- Whatever reads the members of an object one by one reads its entries. -/
theorem eq_entries {g : List (String × Json) → Option (List (String × α))} (hnil : g [] = some [])
    (hcons : ∀ m rest, g (m :: rest) = (read m.2).bind fun a => (g rest).map ((m.1, a) :: ·))
    (members : List (String × Json)) : g members = entries read (.obj members) := by
  induction members with
  | nil => exact hnil
  | cons m rest ih =>
    rw [hcons, ih, entries, entries, List.mapM_cons]
    cases read m.2 with
    | none => rfl
    | some a => cases rest.mapM fun m => (read m.2).map fun a => (m.1, a) <;> rfl

/-- Entries that are read in any order are kept by increasing name. -/
theorem Restores.entries {write : α → Json} {xs : List (String × α)}
    (ho : (xs.map Prod.fst).Pairwise (· < ·)) (h : ∀ e ∈ xs, Restores read (write e.2) e.2) :
    Restores (fun j => (entries read j).map sortEntries) (ofEntries write xs) xs := by
  intro j hj
  obtain ⟨mid, members', rfl, hmid, hp⟩ := hj.exists_members
  have hboth := (List.forall₂_and_left _ _).2 ⟨h, List.forall₂_map_left_iff.1 hmid⟩
  have hread : List.Forall₂ (fun m e => ((read m.2).map fun a => (m.1, a)) = some e) mid xs := by
    refine (hboth.imp fun e m hm => ?_).flip
    obtain ⟨he, hm⟩ := hm
    cases hm with
    | mk name hm => exact congrArg (Option.map _) (he _ hm)
  -- read in the order that was found, the entries come out in that order too
  obtain ⟨xs', hxs', hperm⟩ := List.perm_comp_forall₂ hp.symm hread
  change Option.map _ (members'.mapM _) = _
  rw [mapM_eq_some_iff.2 hxs', Option.map_some, sortEntries_eq_of_perm ho hperm.symm]

end Json

namespace Fields

open Json

variable {α : Type} {read : Reader α} {j : Json} {a : α} {f : Fields}
  {members : List (String × Json)}

/-- The fields are those that the members give, as written there or with members reordered. -/
def Gives (f : Fields) (members : List (String × Json)) : Prop :=
  ∀ name, Option.Rel Reorders (Table.find? name members) (f.get? name)

theorem exists_object? (h : (Json.obj members).Reorders j) (hn : (members.map Prod.fst).Nodup) :
    ∃ f, (∀ names, object? names j = some f) ∧ f.Gives members := by
  obtain ⟨members', rfl, hn', hgives⟩ := h.exists_obj hn
  refine ⟨⟨members', false⟩, fun names => if_pos ?_, hgives⟩
  refine List.all_eq_true.2 fun name _ => decide_eq_true ?_
  have hcount : occurrences name members' = (members'.map Prod.fst).count name := by
    rw [occurrences, List.count, List.countP_map]
    rfl
  rw [hcount]
  exact List.nodup_iff_count_le_one.1 hn' name

theorem exists_record? (h : (Json.obj members).Reorders j) (hn : (members.map Prod.fst).Nodup) :
    ∃ f, (∀ names, record? names j = some f) ∧ f.Gives members := by
  obtain ⟨members', rfl, -⟩ := h.exists_obj hn
  exact exists_object? h hn

/-- A record is restored by a reader that takes its fields from the members. -/
theorem restores_record (hn : (members.map Prod.fst).Nodup)
    (h : ∀ j f, (∀ names, record? names j = some f) → f.Gives members → read j = some a) :
    Restores read (.obj members) a := by
  intro j hj
  obtain ⟨f, hf, hgives⟩ := exists_record? hj hn
  exact h j f hf hgives

/-- A variant whose content has fields is restored by a reader that takes them from the members. -/
theorem restores_variant {name : String} (hn : (members.map Prod.fst).Nodup)
    (h : ∀ content f, (∀ names, object? names content = some f) → f.Gives members →
      read (.obj [(name, content)]) = some a) :
    Restores read (.obj [(name, .obj members)]) a := by
  intro j hj
  obtain ⟨content, rfl, hcontent⟩ := hj.exists_variant
  obtain ⟨f, hf, hgives⟩ := exists_object? hcontent hn
  exact h content f hf hgives

theorem Gives.exists_get? (h : f.Gives members) {name : String}
    (hj : Table.find? name members = some j) : ∃ j', f.get? name = some j' ∧ j.Reorders j' := by
  have hrel := h name
  rw [hj] at hrel
  generalize f.get? name = given at hrel
  cases hrel with
  | some hjj' => exact ⟨_, rfl, hjj'⟩

theorem Gives.required (h : f.Gives members) (name : String)
    (hj : Table.find? name members = some j) (ha : Restores read j a) :
    f.required name read = some a := by
  obtain ⟨j', hj', hr⟩ := h.exists_get? hj
  rw [Fields.required, hj']
  exact ha j' hr

theorem Gives.defaulted (h : f.Gives members) (name : String) (default : α)
    (hj : Table.find? name members = some j) (ha : Restores read j a) :
    f.defaulted name default read = some a := by
  obtain ⟨j', hj', hr⟩ := h.exists_get? hj
  rw [Fields.defaulted, hj']
  exact ha j' hr

/-- Entries in any order are read, and come out by increasing name. -/
theorem Gives.entries (h : f.Gives members) (name : String) {write : α → Json}
    {xs : List (String × α)} (hj : Table.find? name members = some (ofEntries write xs))
    (ho : (xs.map Prod.fst).Pairwise (· < ·)) (hx : ∀ e ∈ xs, Restores read (write e.2) e.2) :
    ∃ given, f.required name (entries read) = some given ∧ sortEntries given = xs := by
  obtain ⟨j', hj', hr⟩ := h.exists_get? hj
  rw [Fields.required, hj']
  exact Option.map_eq_some_iff.1 (Restores.entries ho hx j' hr)

/-- A value that is written as a text is not mistaken for a missing one. -/
theorem Gives.optional (h : f.Gives members) (name : String) (write : α → String) {o : Option α}
    (hj : Table.find? name members = some (ofOption (fun a => .str (write a)) o))
    (ho : ∀ a ∈ o, Restores read (.str (write a)) a) : f.optional name read = some o := by
  obtain ⟨j', hj', hr⟩ := h.exists_get? hj
  rw [Fields.optional, hj']
  cases o with
  | none => rw [hr.eq_null]; rfl
  | some a =>
    have ha := ho a rfl _ hr
    rw [hr.eq_str] at ha ⊢
    exact congrArg (Option.map some) ha

end Fields
end Rendezvous
