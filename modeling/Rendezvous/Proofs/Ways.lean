import Mathlib.Data.Fintype.EquivFin
import Rendezvous.Proofs.ClientEnds
import Rendezvous.Proofs.Topology

/-!
# Ways to a channel

Whoever acts on a channel comes to it by a binding of its own, or along a forward. These are the
`Store.ways` to the channel; the binding that a suspended process waits with is none, since its half
is there already. A store is `Store.Unshared` if there is one way at most wherever something is
pending. The store of a well-used engine is (`WellUsed.unshared`): what is pending is at one end of
its channel, and the way leads to the other.

In a store that is unshared

- paths along forwards have an end (`Unshared.exists_leads`), since where one came round in a circle
  there would be two ways;
- and the paths of two processes do not meet where something is pending (`Unshared.apart`).
-/

namespace Rendezvous

/-- Whether a half is the service that a process waits with, under some placeholder. -/
def Half.holdsUp (p : Id) (ph : Sym) : Half → Bool
  | .service svc => svc.process = p && svc.via = ph
  | .message _ | .forward _ => false

/-- Whether a half leads on to a channel. -/
def Half.leadsTo (c : Id) : Half → Bool
  | .forward f => f.target = c
  | .message _ | .service _ => false

namespace Store

/-- The ways to a channel. -/
def ways (s : Store) (c : Id) : List Place :=
  (s.bindings.entries.filter fun b =>
      b.2.channel = c && !s.halves.values.any (Half.holdsUp b.1.1 b.1.2)).map
    (fun b => .bound b.1.1 b.1.2) ++
  (s.halves.entries.filter fun e => e.2.leadsTo c).map fun e => .target e.1

/-- There is one way at most to a channel where something is pending. -/
def Unshared (s : Store) : Prop := ∀ c ∈ s.halves.keys, (s.ways c).length ≤ 1

instance (s : Store) : Decidable s.Unshared := inferInstanceAs (Decidable (∀ c ∈ s.halves.keys, _))

/-- The process does not wait under the placeholder. -/
def Free (s : Store) (p : Id) (ph : Sym) : Prop :=
  ∀ {w : Id} {svc : Service}, s.halves.get? w = some (.service svc) →
    ¬ (svc.process = p ∧ svc.via = ph)

variable {s : Store} {p q c d x : Id} {ph ph' : Sym} {e e' : Endpoint} {half : Half} {P Q : Place}

theorem free_of_idle (h : s.net.Idle p) (ph : Sym) : s.Free p ph :=
  fun hw heq => h (service_net_eq_some.2 hw) heq.1

theorem any_holdsUp_eq_false_iff :
    s.halves.values.any (Half.holdsUp p ph) = false ↔ s.Free p ph := by
  rw [List.any_eq_false]
  constructor
  · intro h w svc hw heq
    refine h _ (Table.mem_values_of_get?_eq_some hw) ?_
    simpa [Half.holdsUp] using heq
  · intro h half hmem
    obtain ⟨w, hw⟩ := (Table.mem_values_iff _).1 hmem
    cases half with
    | service svc => simpa [Half.holdsUp] using h hw
    | message => simp [Half.holdsUp]
    | forward => simp [Half.holdsUp]

theorem mem_ways_iff :
    P ∈ s.ways c ↔
      (∃ p ph e, P = .bound p ph ∧ s.live p ph = some e ∧ e.channel = c ∧ s.Free p ph) ∨
        ∃ y f, P = .target y ∧ s.halves.get? y = some (.forward f) ∧ f.target = c := by
  rw [ways, List.mem_append, List.mem_map, List.mem_map]
  refine or_congr ⟨?_, ?_⟩ ⟨?_, ?_⟩
  · rintro ⟨⟨⟨p, ph⟩, e⟩, hmem, rfl⟩
    obtain ⟨hentry, hcond⟩ := List.mem_filter.1 hmem
    rw [Bool.and_eq_true, decide_eq_true_iff, Bool.not_eq_true', any_holdsUp_eq_false_iff] at hcond
    exact ⟨p, ph, e, rfl, (Table.mem_entries_iff _).1 hentry, hcond⟩
  · rintro ⟨p, ph, e, rfl, hlive, hc, hfree⟩
    refine ⟨((p, ph), e), List.mem_filter.2 ⟨(Table.mem_entries_iff _).2 hlive, ?_⟩, rfl⟩
    rw [Bool.and_eq_true, decide_eq_true_iff, Bool.not_eq_true', any_holdsUp_eq_false_iff]
    exact ⟨hc, hfree⟩
  · rintro ⟨⟨y, half⟩, hmem, rfl⟩
    obtain ⟨hentry, hcond⟩ := List.mem_filter.1 hmem
    cases half with
    | forward f => exact ⟨y, f, rfl, (Table.mem_entries_iff _).1 hentry, of_decide_eq_true hcond⟩
    | message => cases hcond
    | service => cases hcond
  · rintro ⟨y, f, rfl, hy, hf⟩
    exact ⟨(y, .forward f), List.mem_filter.2 ⟨(Table.mem_entries_iff _).2 hy, decide_eq_true hf⟩,
      rfl⟩

theorem mem_ways_of_live (h : s.live p ph = some e) (hfree : s.Free p ph) :
    .bound p ph ∈ s.ways e.channel :=
  mem_ways_iff.2 (.inl ⟨p, ph, e, rfl, h, rfl, hfree⟩)

theorem mem_ways_of_forward {f : Forward} (h : s.halves.get? x = some (.forward f)) :
    .target x ∈ s.ways f.target :=
  mem_ways_iff.2 (.inr ⟨x, f, rfl, h, rfl⟩)

/-- Two ways to a channel where something is pending are the same. -/
theorem Unshared.eq (h : s.Unshared) (hc : s.halves.get? c = some half) (hP : P ∈ s.ways c)
    (hQ : Q ∈ s.ways c) : P = Q := by
  have hle := h c (Table.mem_keys_of_get?_eq_some hc)
  match hways : s.ways c with
  | [] =>
    rw [hways] at hP
    cases hP
  | [_] =>
    rw [hways] at hP hQ
    exact (List.mem_singleton.1 hP).trans (List.mem_singleton.1 hQ).symm
  | _ :: _ :: _ =>
    rw [hways] at hle
    exact absurd hle (by simp)

/-! ## Paths -/

/-- What holds of a channel and is passed on by forwards holds all along. -/
theorem along_induction {pending : Id → Option Half} {C : Id → Prop} (h : Along pending c x)
    (hc : C c) (hstep : ∀ y f, C y → pending y = some (.forward f) → C f.target) : C x := by
  induction h with
  | here => exact hc
  | hop hf _ ih => exact ih (hstep _ _ hc hf)

/-- Where a process is led that holds a channel and does not wait on it, no other is led, if
something is pending there. -/
theorem Unshared.apart (h : s.Unshared) (hne : p ≠ q) (hp : s.live p ph = some e)
    (hpfree : s.Free p ph) (hq : s.live q ph' = some e') (hqfree : s.Free q ph')
    (hx : s.halves.get? x = some half) (ha : Along s.halves.get? e.channel x) :
    ¬ Along s.halves.get? e'.channel x := by
  intro hq'
  -- the last way that the one is led is the last way of the other, and so are those before
  refine along_induction
    (C := fun y => (∃ half, s.halves.get? y = some half) → ¬ Along s.halves.get? e.channel y)
    hq' ?_ ?_ ⟨half, hx⟩ ha
  · rintro ⟨half, hy⟩ hled
    have hway := mem_ways_of_live hq hqfree
    rcases along_right hled with heq | ⟨y, f, -, hf, heq⟩
    · have hway' := mem_ways_of_live hp hpfree
      rw [heq] at hway'
      exact hne (Place.bound.inj (h.eq hy hway' hway)).1
    · have hway' := mem_ways_of_forward hf
      rw [heq] at hway'
      cases h.eq hy hway' hway
  · rintro y f ih hf ⟨half, hy⟩ hled
    have hway := mem_ways_of_forward hf
    rcases along_right hled with heq | ⟨y', f', hled', hf', heq⟩
    · have hway' := mem_ways_of_live hp hpfree
      rw [heq] at hway'
      cases h.eq hy hway' hway
    · have hway' := mem_ways_of_forward hf'
      rw [heq] at hway'
      cases h.eq hy hway' hway
      exact ih ⟨_, hf⟩ hled'

/-- A path that has no end goes on for ever. -/
theorem exists_path_of_not_leads {pending : Id → Option Half}
    (h : ¬ ∃ passed z, Leads pending c passed z) :
    ∃ path : ℕ → Id, path 0 = c ∧
      ∀ n, ∃ f, pending (path n) = some (.forward f) ∧ f.target = path (n + 1) := by
  have hnext : ∀ c : { c : Id // ¬ ∃ passed z, Leads pending c passed z },
      ∃ d : { c : Id // ¬ ∃ passed z, Leads pending c passed z },
        ∃ f, pending c = some (.forward f) ∧ f.target = d := by
    rintro ⟨c, hc⟩
    obtain ⟨f, hf⟩ : ∃ f, pending c = some (.forward f) := by
      by_contra hno
      exact hc ⟨[], c, .stay fun f hf => hno ⟨f, hf⟩⟩
    refine ⟨⟨f.target, ?_⟩, f, hf, rfl⟩
    rintro ⟨passed, z, hl⟩
    exact hc ⟨_, z, .hop hf hl⟩
  choose next hforward using hnext
  refine ⟨fun n => (next^[n] ⟨c, h⟩).1, rfl, fun n => ?_⟩
  obtain ⟨f, hf, htarget⟩ := hforward (next^[n] ⟨c, h⟩)
  exact ⟨f, hf, htarget.trans (congrArg Subtype.val (Function.iterate_succ_apply' next n _)).symm⟩

/-- A path has an end, if it starts where a process holds a channel and does not wait on it. -/
theorem Unshared.exists_leads (h : s.Unshared) (hp : s.live p ph = some e) (hfree : s.Free p ph) :
    ∃ passed z, Leads s.halves.get? e.channel passed z := by
  by_contra hnone
  obtain ⟨path, hstart, hstep⟩ := exists_path_of_not_leads hnone
  have hpending : ∀ n, ∃ half, s.halves.get? (path n) = some half := by
    intro n
    obtain ⟨f, hf, -⟩ := hstep n
    exact ⟨_, hf⟩
  have hway : ∀ n, .target (path n) ∈ s.ways (path (n + 1)) := by
    intro n
    obtain ⟨f, hf, htarget⟩ := hstep n
    exact htarget ▸ mem_ways_of_forward hf
  -- it comes to no channel twice, since the ways there would be two
  have hne : ∀ m n, m < n → path m ≠ path n := by
    intro m
    induction m with
    | zero =>
      rintro (_ | n) hlt heq
      · exact Nat.lt_irrefl _ hlt
      · obtain ⟨half, hhalf⟩ := hpending (n + 1)
        have hfirst := mem_ways_of_live hp hfree
        rw [← hstart, heq] at hfirst
        cases h.eq hhalf hfirst (hway n)
    | succ m ih =>
      rintro (_ | n) hlt heq
      · exact absurd hlt (Nat.not_lt_zero _)
      · obtain ⟨half, hhalf⟩ := hpending (n + 1)
        have hm := hway m
        rw [heq] at hm
        exact ih n (Nat.lt_of_succ_lt_succ hlt) (Place.target.inj (h.eq hhalf hm (hway n)))
  have hinj : Function.Injective fun n => (⟨path n, (hpending n).elim fun _ hn =>
      Table.mem_keys_of_get?_eq_some hn⟩ : { c // c ∈ s.halves.keys }) := by
    intro m n heq
    have heq' : path m = path n := congrArg Subtype.val heq
    rcases Nat.lt_trichotomy m n with hlt | rfl | hlt
    · exact absurd heq' (hne m n hlt)
    · rfl
    · exact absurd heq'.symm (hne n m hlt)
  exact not_injective_infinite_finite _ hinj

/-! ## Well-used engines -/

theorem nodup_ways (s : Store) (c : Id) : (s.ways c).Nodup := by
  refine List.nodup_append.2 ⟨?_, ?_, ?_⟩
  · refine nodup_map_filter _ _ fun a b h => ?_
    exact Prod.ext (Place.bound.inj h).1 (Place.bound.inj h).2
  · exact nodup_map_filter _ _ fun a b h => Place.target.inj h
  · intro P hP Q hQ
    obtain ⟨b, -, rfl⟩ := List.mem_map.1 hP
    obtain ⟨y, -, rfl⟩ := List.mem_map.1 hQ
    exact nofun

/-- What is pending on a channel has one side of it, and is no way to it. -/
theorem exists_ends_of_pending (F : Id → Prop) (hc : s.halves.get? c = some half) :
    ∃ σ P, s.net.Ends F σ P c ∧ P ∉ s.ways c := by
  have hnot : ∀ {P : Place}, (∀ p ph, P = .bound p ph → ¬ s.Free p ph) → (∀ y, P ≠ .target y) →
      P ∉ s.ways c := by
    intro P hbound htarget hmem
    rcases mem_ways_iff.1 hmem with ⟨p, ph, e, rfl, -, -, hfree⟩ | ⟨y, f, rfl, -⟩
    · exact hbound p ph rfl hfree
    · exact htarget y rfl
  cases half with
  | message m =>
    obtain ⟨σ, hσ⟩ := exists_side m.ByProvider
    exact ⟨σ, .front c, .front (message_net_eq_some.2 hc) hσ, hnot (fun _ _ h => nomatch h) nofun⟩
  | service svc =>
    obtain ⟨σ, hσ⟩ := exists_side (svc.endpoint.pool = svc.pool)
    refine ⟨σ, _, .waiting (service_net_eq_some.2 hc) hσ, hnot ?_ nofun⟩
    rintro p ph heq hfree
    obtain ⟨rfl, rfl⟩ := Place.bound.inj heq
    exact hfree hc ⟨rfl, rfl⟩
  | forward f =>
    exact ⟨.client, .source c, .source (forward_net_eq_some.2 ⟨f, hc, rfl⟩),
      hnot (fun _ _ h => nomatch h) nofun⟩

/-- A way has a side of the channel. -/
theorem exists_ends_of_way (F : Id → Prop) (h : P ∈ s.ways c) : ∃ σ, s.net.Ends F σ P c := by
  rcases mem_ways_iff.1 h with ⟨p, ph, e, rfl, hlive, rfl, hfree⟩ | ⟨y, f, rfl, hy, rfl⟩
  · obtain ⟨σ, hσ⟩ := exists_side (s.net.home p = some e.pool)
    exact ⟨σ, .bound hlive (fun hw => hfree (service_net_eq_some.1 hw)) hσ⟩
  · exact ⟨.provider, .target (forward_net_eq_some.2 ⟨f, hy, rfl⟩)⟩

/-- A store with a rooted net is unshared. -/
theorem unshared_of_rooted {F : Id → Prop} {A : Id → Set Id} (hr : s.net.Rooted F A) :
    s.Unshared := by
  intro c hc
  obtain ⟨half, hhalf⟩ := (Table.mem_keys_iff _).1 hc
  obtain ⟨σ, P₀, hend, hnot⟩ := exists_ends_of_pending F hhalf
  -- all ways have the other side
  have hside : ∀ {P : Place}, P ∈ s.ways c → ∃ σ', σ' ≠ σ ∧ s.net.Ends F σ' P c := by
    intro P hP
    obtain ⟨σ', hP'⟩ := exists_ends_of_way F hP
    refine ⟨σ', fun heq => hnot ?_, hP'⟩
    subst heq
    exact hr.forest.unique hend hP' ▸ hP
  have hone : ∀ {P Q : Place}, P ∈ s.ways c → Q ∈ s.ways c → P = Q := by
    intro P Q hP hQ
    obtain ⟨σ₁, hne₁, hP⟩ := hside hP
    obtain ⟨σ₂, hne₂, hQ⟩ := hside hQ
    have heq : σ₁ = σ₂ := by
      cases σ <;> cases σ₁ <;> cases σ₂ <;> first | rfl | exact absurd rfl ‹_›
    subst heq
    exact hr.forest.unique hP hQ
  have hnodup := nodup_ways s c
  match hways : s.ways c with
  | [] => exact Nat.zero_le _
  | [_] => exact Nat.le_refl _
  | P :: Q :: rest =>
    rw [hways] at hnodup hone
    have heq := hone List.mem_cons_self (List.mem_cons_of_mem P List.mem_cons_self)
    exact absurd (heq ▸ List.mem_cons_self) (List.nodup_cons.1 hnodup).1

end Store

/-- The store of a well-used engine is unshared. -/
theorem Engine.WellUsed.unshared {settings : Settings} {ids : Supply} {e : Engine}
    {free : List Id} (h : WellUsed settings ids e free) (hy : e.store.Young) :
    e.store.Unshared := by
  obtain ⟨A, hr⟩ := (h.tree hy).rooted
  exact Store.unshared_of_rooted hr

end Rendezvous
