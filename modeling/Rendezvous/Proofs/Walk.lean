import Rendezvous.Configuration
import Rendezvous.Proofs.Tables

/-!
# Walks along forwards

`Leads` is the path that forwards make from a channel to the one where an action lands. There is
at most one (`Leads.unique`), it passes no channel twice (`Leads.nodup`), and so it is found by a
walk that may pass as many forwards as there are halves: `walk_eq_some_iff` and, for
configurations, `landing?_eq_some_iff`.
-/

namespace Rendezvous

/-- Forwards lead from a channel, past some channels, to one that has no forward. -/
inductive Leads (pending : Id → Option Half) : Id → List Id → Id → Prop
  | stay {c : Id} (h : ∀ f, pending c ≠ some (.forward f)) : Leads pending c [] c
  | hop {c : Id} {f : Forward} {passed : List Id} {z : Id} (h : pending c = some (.forward f))
    (hl : Leads pending f.target passed z) : Leads pending c (c :: passed) z

/-- A channel that forwards lead past, or to. -/
inductive Along (pending : Id → Option Half) : Id → Id → Prop
  | here {c : Id} : Along pending c c
  | hop {c : Id} {f : Forward} {x : Id} (h : pending c = some (.forward f))
    (ha : Along pending f.target x) : Along pending c x

theorem Along.tail {pending : Id → Option Half} {c x : Id} {f : Forward}
    (h : Along pending c x) (hx : pending x = some (.forward f)) : Along pending c f.target := by
  induction h with
  | here => exact .hop hx .here
  | hop hf _ ih => exact .hop hf (ih hx)

namespace Leads

variable {pending pending' : Id → Option Half} {c z : Id} {passed : List Id}

theorem last (h : Leads pending c passed z) : ∀ f, pending z ≠ some (.forward f) := by
  induction h with
  | stay h => exact h
  | hop _ _ ih => exact ih

/-- Every channel that is passed has a forward. -/
theorem forward_of_mem (h : Leads pending c passed z) {x : Id} (hx : x ∈ passed) :
    ∃ f, pending x = some (.forward f) := by
  induction h with
  | stay => cases hx
  | hop hf _ ih =>
    rcases List.mem_cons.1 hx with rfl | hx
    · exact ⟨_, hf⟩
    · exact ih hx

/-- There is one path from a channel. -/
theorem unique {passed' : List Id} {z' : Id} (h : Leads pending c passed z)
    (h' : Leads pending c passed' z') : passed = passed' ∧ z = z' := by
  induction h generalizing passed' with
  | stay hn =>
    cases h' with
    | stay => exact ⟨rfl, rfl⟩
    | hop hf => exact absurd hf (hn _)
  | hop hf _ ih =>
    cases h' with
    | stay hn => exact absurd hf (hn _)
    | hop hf' hl' =>
      cases hf.symm.trans hf'
      obtain ⟨rfl, rfl⟩ := ih hl'
      exact ⟨rfl, rfl⟩

/-- From a channel that is passed, the rest of the path leads to the same end. -/
theorem of_mem (h : Leads pending c passed z) {x : Id} (hx : x ∈ passed) :
    ∃ rest, Leads pending x (x :: rest) z ∧ rest.length < passed.length := by
  induction h with
  | stay => cases hx
  | hop hf hl ih =>
    rcases List.mem_cons.1 hx with rfl | hx
    · exact ⟨_, .hop hf hl, Nat.lt_succ_self _⟩
    · obtain ⟨rest, hrest, hlt⟩ := ih hx
      exact ⟨rest, hrest, Nat.lt_succ_of_lt hlt⟩

theorem nodup (h : Leads pending c passed z) : passed.Nodup := by
  induction h with
  | stay => exact List.nodup_nil
  | hop hf hl ih =>
    refine List.nodup_cons.2 ⟨fun hmem => ?_, ih⟩
    -- a channel passed twice would have two paths of different length
    obtain ⟨rest, hrest, hlt⟩ := hl.of_mem hmem
    have hsame := (Leads.hop hf hl).unique hrest
    rw [(List.cons.inj hsame.1).2] at hlt
    exact Nat.lt_irrefl _ hlt

theorem notMem (h : Leads pending c passed z) : z ∉ passed := by
  intro hz
  obtain ⟨f, hf⟩ := h.forward_of_mem hz
  exact h.last f hf

theorem along_of_mem (h : Leads pending c passed z) {x : Id} (hx : x ∈ passed) :
    Along pending c x := by
  induction h with
  | stay => cases hx
  | hop hf _ ih =>
    rcases List.mem_cons.1 hx with rfl | hx
    · exact .here
    · exact .hop hf (ih hx)

theorem along (h : Leads pending c passed z) : Along pending c z := by
  induction h with
  | stay => exact .here
  | hop hf _ ih => exact .hop hf ih

/-- A path only depends on the forwards along it, and on there being none at its end. -/
theorem congr (h : Leads pending c passed z) (hz : ∀ f, pending' z ≠ some (.forward f))
    (hp : ∀ x ∈ passed, pending' x = pending x) : Leads pending' c passed z := by
  induction h with
  | stay => exact .stay hz
  | hop hf _ ih =>
    refine .hop ?_ (ih hz fun x hx => hp x (List.mem_cons_of_mem _ hx))
    rw [hp _ List.mem_cons_self, hf]

/-- Paths from a channel are a path to somewhere and what goes on from there. -/
theorem append_iff (h : Leads pending c passed z) (hp : ∀ x ∈ passed, pending' x = pending x)
    {all : List Id} {w : Id} :
    Leads pending' c all w ↔ ∃ rest, all = passed ++ rest ∧ Leads pending' z rest w := by
  induction h generalizing all with
  | stay =>
    refine ⟨fun hl => ⟨all, rfl, hl⟩, ?_⟩
    rintro ⟨_, rfl, hl⟩
    exact hl
  | hop hf _ ih =>
    rw [← hp _ List.mem_cons_self] at hf
    have hrest := @ih fun x hx => hp x (List.mem_cons_of_mem _ hx)
    constructor
    · intro hl
      cases hl with
      | stay hn => exact absurd hf (hn _)
      | hop hf' hl =>
        cases hf.symm.trans hf'
        obtain ⟨rest, rfl, hrest⟩ := hrest.1 hl
        exact ⟨rest, rfl, hrest⟩
    · rintro ⟨rest, rfl, hl⟩
      exact .hop hf (hrest.2 ⟨rest, rfl, hl⟩)

/-- A channel that is passed is the first one, or one that is passed before leads there. -/
theorem eq_or_target_of_mem (h : Leads pending c passed z) {x : Id} (hx : x ∈ passed) :
    x = c ∨ ∃ y ∈ passed, ∃ f, pending y = some (.forward f) ∧ f.target = x := by
  induction h with
  | stay => cases hx
  | @hop c f _ _ hf _ ih =>
    rcases List.mem_cons.1 hx with rfl | hx
    · exact .inl rfl
    · rcases ih hx with rfl | ⟨y, hy, hled⟩
      · exact .inr ⟨c, List.mem_cons_self, f, hf, rfl⟩
      · exact .inr ⟨y, List.mem_cons_of_mem _ hy, hled⟩

/-- Where two states agree along the forwards of one, they have the same paths. -/
theorem iff_of_along (h : ∀ x, Along pending c x → pending' x = pending x) :
    Leads pending' c passed z ↔ Leads pending c passed z := by
  constructor
  · intro hl
    induction hl with
    | stay hn => exact .stay fun f hf => hn f (h _ .here ▸ hf)
    | hop hf _ ih =>
      rw [h _ .here] at hf
      exact .hop hf (ih fun x hx => h x (.hop hf hx))
  · intro hl
    refine hl.congr ?_ fun x hx => h x (hl.along_of_mem hx)
    rw [h z hl.along]
    exact hl.last

end Leads

/-- A walk finds the path of fewer than `n` forwards. -/
theorem walk_eq_some_iff {halves : Table Id Half} {n : Nat} {c : Id} {l : Landing} :
    walk halves n c = some l ↔
      Leads halves.get? c l.passed l.channel ∧ l.half = halves.get? l.channel ∧
        l.passed.length < n := by
  induction n generalizing c l with
  | zero => simp [walk]
  | succ n ih =>
    rw [walk]
    split
    · next f hf =>
      rw [Option.map_eq_some_iff]
      constructor
      · rintro ⟨l', hl', rfl⟩
        obtain ⟨hpath, hhalf, hlt⟩ := ih.1 hl'
        exact ⟨.hop hf hpath, hhalf, Nat.succ_lt_succ hlt⟩
      · obtain ⟨passed, channel, half⟩ := l
        rintro ⟨hpath, hhalf, hlt⟩
        cases hpath with
        | stay hn => exact absurd hf (hn f)
        | hop hf' hl =>
          cases hf.symm.trans hf'
          exact ⟨⟨_, channel, half⟩, ih.2 ⟨hl, hhalf, Nat.lt_of_succ_lt_succ hlt⟩, rfl⟩
    · next hn =>
      constructor
      · intro h
        cases h
        exact ⟨.stay hn, rfl, Nat.succ_pos n⟩
      · obtain ⟨passed, channel, half⟩ := l
        rintro ⟨hpath, hhalf, -⟩
        cases hpath with
        | stay => rw [show half = _ from hhalf]
        | hop hf => exact absurd hf (hn _)

/-- An action lands where the forwards that the configuration has lead. -/
theorem Configuration.landing?_eq_some_iff {cfg : Configuration} {c : Id} {l : Landing} :
    cfg.landing? c = some l ↔
      Leads cfg.halves.get? c l.passed l.channel ∧ l.half = cfg.halves.get? l.channel := by
  unfold landing?
  rw [walk_eq_some_iff]
  refine ⟨fun h => ⟨h.1, h.2.1⟩, fun h => ⟨h.1, h.2, ?_⟩⟩
  -- the channels that are passed are different keys of the halves
  have hsub : l.passed ⊆ cfg.halves.keys := by
    intro x hx
    obtain ⟨f, hf⟩ := h.1.forward_of_mem hx
    exact Table.mem_keys_of_get?_eq_some hf
  have hle := h.1.nodup.length_le_of_subset hsub
  rw [Table.keys, List.length_map] at hle
  exact Nat.lt_succ_of_le hle

end Rendezvous
