import Rendezvous.Proofs.Accepted
import Rendezvous.Proofs.Ways

/-!
# Shortcuts

A forward may lead to the channel where forwards end, or to one from where others go on. It makes no
difference to where anybody lands, as long as nobody else comes to the channels that are skipped
(`Shortcut.leads_iff`).

`Store.LandsAs` says that two stores differ by such shortcuts at most: everything but the halves is
the same, and all bindings land where they did and find what they found. This is how a forward that
was put before others came beyond it compares with one that was put after them
(`Unshared.shortcut`, `landsAs_of_shortcut`).
-/

namespace Rendezvous

/-- In `far` a forward on `y` leads to `z`, and from there past `more` to `w`; in `near` it leads to
`w` at once. -/
structure Shortcut (far near : Id → Option Half) (y z w : Id) (more : List Id) : Prop where
  through : ∃ f, far y = some (.forward f) ∧ f.target = z
  past : ∃ f, near y = some (.forward f) ∧ f.target = w
  leads : ∀ {l : List Id} {u : Id},
    Leads far z l u ↔ ∃ rest, l = more ++ rest ∧ Leads far w rest u
  skipped : ∀ x ∈ more, near x = none ∧ ∃ f, far x = some (.forward f)
  rest : ∀ x, x ≠ y → x ∉ more → near x = far x
  last : w ∉ more
  /-- Nothing else leads to what is skipped. -/
  closed : ∀ x f, x ≠ y → x ∉ more → far x = some (.forward f) → f.target ∉ more

namespace Shortcut

variable {far near : Id → Option Half} {y z w c u : Id} {more : List Id}

/-- What is no forward is the same. -/
theorem pending_eq (h : Shortcut far near y z w more) (hu : ∀ f, far u ≠ some (.forward f)) :
    near u = far u := by
  refine h.rest u ?_ fun hmem => ?_
  · rintro rfl
    obtain ⟨f, hf, -⟩ := h.through
    exact hu f hf
  · obtain ⟨-, f, hf⟩ := h.skipped u hmem
    exact hu f hf

/-- Services are the same. -/
theorem service_iff (h : Shortcut far near y z w more) {svc : Service} :
    near u = some (.service svc) ↔ far u = some (.service svc) := by
  constructor
  · intro hu
    rw [← h.rest u, hu]
    · rintro rfl
      obtain ⟨f, hf, -⟩ := h.past
      cases hu.symm.trans hf
    · intro hmem
      cases (h.skipped u hmem).1.symm.trans hu
  · intro hu
    refine (h.pending_eq fun f hf => ?_).trans hu
    cases hu.symm.trans hf

/-- From where nothing is skipped, the ends of paths are the same. -/
theorem leads_iff (h : Shortcut far near y z w more) (hc : c ∉ more) :
    (∃ l, Leads near c l u) ↔ ∃ l, Leads far c l u := by
  obtain ⟨f, hfar, htarget⟩ := h.through
  obtain ⟨f', hnear, htarget'⟩ := h.past
  constructor
  · rintro ⟨l, hl⟩
    induction hl with
    | @stay c hn =>
      refine ⟨[], .stay fun g hg => ?_⟩
      by_cases hcy : c = y
      · exact hn f' (hcy ▸ hnear)
      · exact hn g ((h.rest c hcy hc).trans hg)
    | @hop c g rest u hg _ ih =>
      by_cases hcy : c = y
      · rw [hcy] at hg
        cases hnear.symm.trans hg
        obtain ⟨l, hl⟩ := ih (htarget' ▸ h.last)
        rw [htarget'] at hl
        rw [hcy]
        exact ⟨_, .hop hfar (htarget ▸ h.leads.2 ⟨l, rfl, hl⟩)⟩
      · rw [h.rest c hcy hc] at hg
        obtain ⟨l, hl⟩ := ih (h.closed c g hcy hc hg)
        exact ⟨_, .hop hg hl⟩
  · rintro ⟨l, hl⟩
    -- where the shortcut is taken, what is left of the path is shorter
    induction hn : l.length using Nat.strong_induction_on generalizing c l with
    | _ n ih =>
      subst hn
      cases hl with
      | stay hn =>
        refine ⟨[], .stay fun g hg => ?_⟩
        by_cases hcy : u = y
        · exact hn f (hcy ▸ hfar)
        · exact hn g ((h.rest u hcy hc).symm.trans hg)
      | @hop c g rest _ hg hl =>
        by_cases hcy : c = y
        · rw [hcy] at hg
          cases hfar.symm.trans hg
          rw [htarget] at hl
          obtain ⟨rest', rfl, hl'⟩ := h.leads.1 hl
          have hlt : rest'.length < (c :: (more ++ rest')).length := by
            rw [List.length_cons, List.length_append]
            omega
          obtain ⟨l, hl⟩ := ih rest'.length hlt h.last _ hl' rfl
          rw [hcy]
          exact ⟨_, .hop hnear (htarget' ▸ hl)⟩
        · obtain ⟨l, hl⟩ :=
            ih rest.length (Nat.lt_succ_self _) (h.closed c g hcy hc hg) _ hl rfl
          exact ⟨_, .hop ((h.rest c hcy hc).trans hg) hl⟩

end Shortcut

namespace Store

variable {s t : Store} {p : Id} {y z w : Id} {passed more : List Id}

/-- Two stores where all bindings land on the same channels and find the same there, and which
differ in nothing but halves. -/
structure LandsAs (s t : Store) : Prop where
  rest : s = { t with halves := s.halves }
  lands : ∀ (p : Id) (ph : Sym) (z : Id), s.Lands p ph z ↔ t.Lands p ph z
  pending : ∀ {p : Id} {ph : Sym} {z : Id}, t.Lands p ph z → s.halves.get? z = t.halves.get? z

theorem LandsAs.refl (s : Store) : s.LandsAs s := ⟨rfl, fun _ _ _ => .rfl, fun _ => rfl⟩

/-- Two stores with different halves, where one has a shortcut past channels that no binding is
on. -/
theorem landsAs_of_shortcut (hrest : s = { t with halves := s.halves })
    (h : Shortcut t.halves.get? s.halves.get? y z w more)
    (hfree : ∀ {p ph e}, t.live p ph = some e → t.Free p ph → e.channel ∉ more) : s.LandsAs t := by
  have hlive : s.live = t.live := by
    rw [hrest]
    rfl
  refine ⟨hrest, fun p ph u => ⟨?_, ?_⟩, ?_⟩
  · intro hl
    cases hl with
    | led hbound hidle hl =>
      rw [hlive] at hbound
      have hidle' : t.Free p ph := fun hw => hidle (h.service_iff.2 hw)
      obtain ⟨l, hl⟩ := (h.leads_iff (hfree hbound hidle')).1 ⟨_, hl⟩
      exact .led hbound hidle' hl
    | waiting hbound hs => exact .waiting (hlive ▸ hbound) (h.service_iff.1 hs)
  · intro hl
    cases hl with
    | led hbound hidle hl =>
      obtain ⟨l, hl⟩ := (h.leads_iff (hfree hbound hidle)).2 ⟨_, hl⟩
      exact .led (hlive ▸ hbound) (fun hw => hidle (h.service_iff.1 hw)) hl
    | waiting hbound hs => exact .waiting (hlive ▸ hbound) (h.service_iff.2 hs)
  · intro p ph u hl
    refine h.pending_eq fun f hf => ?_
    cases hl with
    | led _ _ hl => exact hl.last f hf
    | waiting _ hs => cases hs.symm.trans hf

/-- On a way that nobody else goes, a forward that leads to somewhere on it is like one that leads
to its end, once what was passed is taken. -/
theorem Unshared.shortcut (hu : s.Unshared) {via : Sym} {x : Endpoint}
    (hx : s.live p via = some x) (hpfree : s.Free p via) (hy : s.halves.get? y = none)
    (hall : Leads s.halves.get? x.channel (passed ++ more) w)
    (hmore : Leads s.halves.get? z more w) (far near : Forward) (hfar : far.channel = y)
    (hnear : near.channel = y) (hz : far.target = z) (hw : near.target = w) :
    Shortcut (runSlots (passed.map .take ++ [.put (.forward far)]) s.halves.get?)
        (runSlots ((passed ++ more).map .take ++ [.put (.forward near)]) s.halves.get?) y z w more ∧
      ∀ {q : Id} {ph : Sym} {e : Endpoint}, s.live q ph = some e → s.Free q ph →
        e.channel ∈ more → q = p ∧ ph = via := by
  have hget : ∀ u, runSlots (passed.map .take ++ [.put (.forward far)]) s.halves.get? u =
      if u = y then some (.forward far) else if u ∈ passed then none else s.halves.get? u := by
    intro u
    rw [runSlots_put, Half.channel, hfar]
  have hget' : ∀ u,
      runSlots ((passed ++ more).map .take ++ [.put (.forward near)]) s.halves.get? u =
      if u = y then some (.forward near)
      else if u ∈ passed ++ more then none else s.halves.get? u := by
    intro u
    rw [runSlots_put, Half.channel, hnear]
  have hforward : ∀ u ∈ passed ++ more, ∃ f, s.halves.get? u = some (.forward f) := fun u hmem =>
    hall.forward_of_mem hmem
  have hne : ∀ u ∈ passed ++ more, u ≠ y := by
    rintro u hmem rfl
    obtain ⟨f, hf⟩ := hforward u hmem
    cases hy.symm.trans hf
  have hapart : ∀ u ∈ more, u ∉ passed := fun u hmem hmem' =>
    (List.disjoint_of_nodup_append hall.nodup) hmem' hmem
  have hkeep : ∀ u ∈ more,
      runSlots (passed.map .take ++ [.put (.forward far)]) s.halves.get? u = s.halves.get? u := by
    intro u hmem
    rw [hget, if_neg (hne u (List.mem_append_right _ hmem)), if_neg (hapart u hmem)]
  -- there is one way to each channel on the path, and it is on the path
  have hway : ∀ u ∈ passed ++ more, ∀ P ∈ s.ways u,
      P = .bound p via ∨ ∃ v ∈ passed ++ more, P = .target v := by
    intro u hmem P hP
    obtain ⟨f, hf⟩ := hforward u hmem
    rcases hall.eq_or_target_of_mem hmem with rfl | ⟨v, hv, g, hg, rfl⟩
    · exact .inl (hu.eq hf hP (mem_ways_of_live hx hpfree))
    · exact .inr ⟨v, hv, hu.eq hf hP (mem_ways_of_forward hg)⟩
  refine ⟨⟨⟨far, by rw [hget, if_pos rfl], hz⟩, ⟨near, by rw [hget', if_pos rfl], hw⟩,
    hmore.append_iff hkeep, ?_, ?_, hmore.notMem, ?_⟩, ?_⟩
  · intro u hmem
    have hmem' : u ∈ passed ++ more := List.mem_append_right _ hmem
    refine ⟨by rw [hget', if_neg (hne u hmem'), if_pos hmem'], ?_⟩
    rw [hkeep u hmem]
    exact hforward u hmem'
  · intro u huy hmem
    rw [hget, hget', if_neg huy, if_neg huy]
    simp only [List.mem_append, hmem, or_false]
  · intro u f huy hmem hf htarget
    rw [hget, if_neg huy] at hf
    split at hf
    · cases hf
    · next hnot =>
      rcases hway _ (List.mem_append_right _ htarget) _ (mem_ways_of_forward hf) with
        h | ⟨v, hv, h⟩
      · cases h
      · cases h
        exact (List.mem_append.1 hv).elim hnot hmem
  · intro q ph e hlive hfree hmem
    rcases hway _ (List.mem_append_right _ hmem) _ (mem_ways_of_live hlive hfree) with
      h | ⟨v, -, h⟩
    · exact Place.bound.inj h
    · cases h

end Store

end Rendezvous
