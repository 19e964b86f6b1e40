import Mathlib.Combinatorics.SimpleGraph.Acyclic
import Mathlib.Order.Preorder.Finite
import Rendezvous.Proofs.WellUsed

/-!
# The communication graph

Two processes are connected if bindings of theirs land on the same channel (`Store.graph`); the
binding that a suspended process waits with lands where its service is kept (`Store.Lands`).

In a rooted net one of the two bindings is the provider's and the other the client's
(`Store.above_of_lands`). A process provides one channel, so there is one process at most above it,
and the territory of what a process provides grows on the way up (`Store.reach_lt_of_above`). This
makes the graph a forest, with no two connections between the same processes, and no circle of
forwards or of processes that wait for each other: `WellUsed.isForest`.
-/

namespace Rendezvous

open Relation (TransGen)

/-! ## Graphs with parents -/

/-- A graph is acyclic if each edge leads to the parent of one of its ends, and parents are
greater. -/
theorem isAcyclic_of_parent {V α : Type} [Preorder α] {G : SimpleGraph V} (R : V → V → Prop)
    (T : V → α) (hadj : ∀ {p q : V}, G.Adj p q → R p q ∨ R q p)
    (hone : ∀ {p q q' : V}, R p q → R p q' → q = q') (hlt : ∀ {p q : V}, R p q → T p < T q) :
    G.IsAcyclic := by
  classical
  intro u w hw
  -- both neighbours of the least vertex on a cycle would be its parents
  obtain ⟨v, hv⟩ := w.support.finite_toSet.exists_minimalFor T _ ⟨u, w.start_mem_support⟩
  have hup : ∀ x ∈ w.support, G.Adj v x → R v x := by
    intro x hx hvx
    rcases hadj hvx with h | h
    · exact h
    · exact absurd (hv.le_of_le hx (hlt h).le) (hlt h).not_ge
  have hc := hw.rotate hv.prop
  have hmem : ∀ x ∈ (w.rotate v hv.prop).support, x ∈ w.support := fun x =>
    (w.mem_support_rotate_iff v hv.prop).1
  exact hc.snd_ne_penultimate
    (hone (hup _ (hmem _ (SimpleGraph.Walk.getVert_mem_support _ _))
        (SimpleGraph.Walk.adj_snd hc.not_nil))
      (hup _ (hmem _ (SimpleGraph.Walk.getVert_mem_support _ _))
        (SimpleGraph.Walk.adj_penultimate hc.not_nil).symm))

/-- A relation that goes up or down at each step, and never up again once it has gone down, does
not come back. -/
theorem not_transGen_of_downward {V α : Type} [Preorder α] {W : V → V → Prop} (T : V → α)
    (hne : ∀ {p q : V}, W p q → T p < T q ∨ T q < T p)
    (hdown : ∀ {p q r : V}, W p q → T q < T p → W q r → T r < T q) (p : V) :
    ¬ TransGen W p p := by
  -- a way that has not come down has gone up all along
  have hup : ∀ {q : V}, TransGen W p q → T p < T q ∨ ∃ o, W o q ∧ T q < T o := by
    intro q h
    induction h with
    | single h => exact (hne h).imp_right fun hlt => ⟨p, h, hlt⟩
    | tail _ h ih =>
      rcases hne h with hlt | hlt
      · rcases ih with hup | ⟨o, ho, hol⟩
        · exact .inl (hup.trans hlt)
        · exact absurd (hdown ho hol h) hlt.not_gt
      · exact .inr ⟨_, h, hlt⟩
  have hafter : ∀ {o q : V}, W o p → T p < T o → TransGen W p q →
      T q < T p ∧ ∃ o, W o q ∧ T q < T o := by
    intro o q ho hol h
    induction h with
    | single h =>
      have hlt := hdown ho hol h
      exact ⟨hlt, p, h, hlt⟩
    | tail _ h ih =>
      obtain ⟨hq, o', ho', hol'⟩ := ih
      have hlt := hdown ho' hol' h
      exact ⟨hlt.trans hq, _, h, hlt⟩
  intro h
  rcases hup h with hlt | ⟨o, ho, hol⟩
  · exact lt_irrefl _ hlt
  · exact lt_irrefl _ (hafter ho hol h).1

/-! ## Where bindings land -/

namespace Store

/-- A live binding lands on a channel: where forwards lead from its own, or where the service is
kept that the process waits with. -/
inductive Lands (s : Store) : Id → Sym → Id → Prop
  | led {p : Id} {ph : Sym} {e : Endpoint} {passed : List Id} {z : Id}
    (h : s.live p ph = some e)
    (hidle : ∀ {w : Id} {svc : Service}, s.halves.get? w = some (.service svc) →
      ¬ (svc.process = p ∧ svc.via = ph))
    (hl : Leads s.halves.get? e.channel passed z) : Lands s p ph z
  | waiting {svc : Service} {e : Endpoint} {z : Id} (h : s.live svc.process svc.via = some e)
    (hs : s.halves.get? z = some (.service svc)) : Lands s svc.process svc.via z

/-- Processes are connected if bindings of theirs land on one channel. -/
def graph (s : Store) : SimpleGraph Id where
  Adj p q := p ≠ q ∧ ∃ ph ph' z, s.Lands p ph z ∧ s.Lands q ph' z
  symm := ⟨fun _ _ ⟨hne, ph, ph', z, h, h'⟩ => ⟨hne.symm, ph', ph, z, h', h⟩⟩
  loopless := ⟨fun _ h => h.1 rfl⟩

/-- A forward leads from one channel to another. -/
def Forwards (s : Store) (y x : Id) : Prop :=
  ∃ f, s.halves.get? y = some (.forward f) ∧ f.target = x

/-- Process `p` is suspended on a channel whose other end is with process `q`. -/
def WaitsFor (s : Store) (p q : Id) : Prop :=
  ∃ z svc ph, s.halves.get? z = some (.service svc) ∧ svc.process = p ∧ s.Lands q ph z ∧
    ¬ (q = p ∧ ph = svc.via)

/-- Processes and the channels between them make a forest. -/
structure IsForest (s : Store) : Prop where
  acyclic : s.graph.IsAcyclic
  /-- Two processes are connected by one channel at most. -/
  simple : ∀ {p q z w : Id} {ph ph' h h' : Sym}, p ≠ q → s.Lands p ph z → s.Lands q h z →
    s.Lands p ph' w → s.Lands q h' w → ph = ph' ∧ h = h'
  /-- No process is connected with itself. -/
  loopless : ∀ {p z : Id} {ph ph' : Sym}, s.Lands p ph z → s.Lands p ph' z → ph = ph'
  /-- Forwards do not lead round in a circle, -/
  forwards : ∀ c, ¬ TransGen s.Forwards c c
  /-- and so every action lands somewhere. -/
  landing : ∀ {p : Id} {cfg : Configuration} {ph : Sym} {e : Endpoint},
    s.configuration p = .ok cfg → cfg.channels.get? ph = some e →
      ∃ l, cfg.landing? e.channel = some l
  /-- Processes do not wait for each other in a circle. -/
  waits : ∀ p, ¬ TransGen s.WaitsFor p p

variable {s : Store} {F : Id → Prop} {A : Id → Set Id} {p q c d z w : Id} {ph ph' : Sym}
  {σ σ' : Side} {passed passed' : List Id}

/-- A binding of a channel that leads to `z`. -/
def Ranges (s : Store) (F : Id → Prop) (σ : Side) (p : Id) (ph : Sym) (z : Id) : Prop :=
  ∃ c passed, s.net.Ends F σ (.bound p ph) c ∧ Leads s.halves.get? c passed z

theorem exists_side (P : Prop) : ∃ σ : Side, σ = .provider ↔ P := by
  by_cases hP : P
  · exact ⟨.provider, iff_of_true rfl hP⟩
  · exact ⟨.client, iff_of_false nofun hP⟩

/-- A process that waits has its binding where its service is kept. -/
theorem ranges_of_service (F : Id → Prop) {svc : Service}
    (hs : s.halves.get? z = some (.service svc)) :
    ∃ σ, s.Ranges F σ svc.process svc.via z := by
  obtain ⟨σ, hσ⟩ := exists_side (svc.endpoint.pool = svc.pool)
  refine ⟨σ, z, [], .waiting (service_net_eq_some.2 hs) hσ, .stay fun f hf => ?_⟩
  cases hs.symm.trans hf

/-- A binding lands as that of the provider or as that of the client. -/
theorem ranges_of_lands (F : Id → Prop) (h : s.Lands p ph z) : ∃ σ, s.Ranges F σ p ph z := by
  cases h with
  | @led _ _ e passed _ h hidle hl =>
    obtain ⟨σ, hσ⟩ := exists_side (s.net.home p = some e.pool)
    exact ⟨σ, e.channel, passed,
      .bound h (fun hs => hidle (service_net_eq_some.1 hs)) hσ, hl⟩
  | waiting h hs => exact ranges_of_service F hs

/-- Only providers are led past their channels. -/
theorem ends_of_ranges (hr : s.net.Rooted F A) (h : s.Ranges F .client p ph z) :
    s.net.Ends F .client (.bound p ph) z := by
  obtain ⟨c, passed, hend, hl⟩ := h
  rcases end_of_leads hr hend hl with rfl | ⟨hσ, -⟩
  · exact hend
  · cases hσ

theorem along_right {pending : Id → Option Half} (h : Along pending c d) :
    c = d ∨ ∃ x f, Along pending c x ∧ pending x = some (.forward f) ∧ f.target = d := by
  induction h with
  | here => exact .inl rfl
  | @hop c f x h _ ih =>
    rcases ih with rfl | ⟨x', f', ha, hx', rfl⟩
    · exact .inr ⟨c, f, .here, h, rfl⟩
    · exact .inr ⟨x', f', .hop h ha, hx', rfl⟩

/-- Of two channels that lead to one, one leads past the other. -/
theorem along_or_along (hr : s.net.Rooted F A) (h : Leads s.halves.get? c passed z)
    (h' : Leads s.halves.get? d passed' z) :
    Along s.halves.get? d c ∨ Along s.halves.get? c d := by
  induction h with
  | stay => exact .inl h'.along
  | @hop c f rest z hc hl ih =>
    rcases ih h' with ha | ha
    · rcases along_right ha with rfl | ⟨x, f', ha', hx, htarget⟩
      · exact .inr (.hop hc .here)
      · -- forwards to one channel are one forward
        have hplace := hr.forest.unique (.target (forward_net_eq_some.2 ⟨f', hx, htarget⟩))
          (.target (forward_net_eq_some.2 ⟨f, hc, rfl⟩))
        cases hplace
        exact .inl ha'
    · exact .inr (.hop hc ha)

/-- A channel that a process provides is not the target of a forward. -/
theorem eq_of_along (hr : s.net.Rooted F A) (h : Along s.halves.get? c d)
    (hend : s.net.Ends F .provider (.bound p ph) d) : c = d := by
  rcases along_right h with rfl | ⟨x, f, -, hx, htarget⟩
  · rfl
  · cases hr.forest.unique hend (.target (forward_net_eq_some.2 ⟨f, hx, htarget⟩))

/-- On each side, one binding at most lands on a channel. -/
theorem eq_of_ranges (hr : s.net.Rooted F A) (h : s.Ranges F σ p ph z)
    (h' : s.Ranges F σ q ph' z) : p = q ∧ ph = ph' := by
  have hplace : Place.bound p ph = .bound q ph' := by
    cases σ with
    | client => exact hr.forest.unique (ends_of_ranges hr h) (ends_of_ranges hr h')
    | provider =>
      obtain ⟨c, passed, hend, hl⟩ := h
      obtain ⟨d, passed', hend', hl'⟩ := h'
      have hcd : c = d := by
        rcases along_or_along hr hl hl' with ha | ha
        · exact (eq_of_along hr ha hend).symm
        · exact eq_of_along hr ha hend'
      subst hcd
      exact hr.forest.unique hend hend'
  exact Place.bound.inj hplace

/-- A process provides one channel, and that lands in one place. -/
theorem eq_of_provides (hr : s.net.Rooted F A) (h : s.Ranges F .provider p ph z)
    (h' : s.Ranges F .provider p ph' w) : ph = ph' ∧ z = w := by
  obtain ⟨c, passed, hend, hl⟩ := h
  obtain ⟨d, passed', hend', hl'⟩ := h'
  obtain rfl := hr.forest.single (P := .bound p ph) (Q := .bound p ph') rfl hend hend'
  exact ⟨(Place.bound.inj (hr.forest.unique hend hend')).2, (hl.unique hl').2⟩

/-- Process `q` holds the channel that `p` provides. -/
def Above (s : Store) (F : Id → Prop) (p q : Id) : Prop :=
  ∃ ph ph' z, s.Ranges F .provider p ph z ∧ s.Ranges F .client q ph' z

theorem above_unique (hr : s.net.Rooted F A) {r : Id} (h : s.Above F p q)
    (h' : s.Above F p r) : q = r := by
  obtain ⟨ph, h₁, z, hp, hq⟩ := h
  obtain ⟨ph', h₂, w, hp', hq'⟩ := h'
  obtain ⟨-, rfl⟩ := eq_of_provides hr hp hp'
  exact (eq_of_ranges hr hq hq').1

/-- Of two bindings that land on one channel, one is the provider's and one the client's. -/
theorem ranges_or_ranges (hr : s.net.Rooted F A) (h : s.Ranges F σ p ph z)
    (h' : s.Ranges F σ' q ph' z) (hne : ¬ (q = p ∧ ph' = ph)) :
    s.Ranges F .provider p ph z ∧ s.Ranges F .client q ph' z ∨
      s.Ranges F .provider q ph' z ∧ s.Ranges F .client p ph z := by
  cases σ <;> cases σ'
  case provider.client => exact .inl ⟨h, h'⟩
  case client.provider => exact .inr ⟨h', h⟩
  all_goals
    obtain ⟨rfl, rfl⟩ := eq_of_ranges hr h h'
    exact absurd ⟨rfl, rfl⟩ hne

/-- What is behind all that a process provides. -/
def reach (s : Store) (F : Id → Prop) (A : Id → Set Id) (p : Id) : Set Id :=
  {π | ∀ ph c, s.net.Ends F .provider (.bound p ph) c → π ∈ A c}

theorem exists_home (hs : s.Sound) (h : s.net.Ends F σ (.bound p ph) c) :
    ∃ π, s.net.home p = some π := by
  generalize hP : Place.bound p ph = P at h
  cases h with
  | bound h =>
    cases hP
    exact hs.live h
  | waiting h =>
    cases hP
    exact ⟨_, hs.owners (service_net_eq_some.1 h)⟩
  | _ => cases hP

/-- There is more behind a process that is above another. -/
theorem reach_lt_of_above (hs : s.Sound) (hr : s.net.Rooted F A) (h : s.Above F p q) :
    s.reach F A p < s.reach F A q := by
  obtain ⟨ph, ph', z, ⟨c, passed, hend, hl⟩, hq⟩ := h
  have hclient := ends_of_ranges hr hq
  have hsub : s.reach F A p ⊆ A z := fun π hπ => sub_of_leads hr hl (hπ ph c hend)
  obtain ⟨π, hπ⟩ := exists_home hs hclient
  refine lt_of_le_of_ne (fun ρ hρ h d hd => ?_) fun heq => ?_
  · exact hr.forest.nest (P := .bound q ph') (Q := .bound q h) rfl hclient hd (hsub hρ)
  -- the pool of the process above is behind what it provides, and not behind what it holds
  have hown : π ∈ s.reach F A q := fun h d hd => hr.forest.own hd hπ
  exact Set.disjoint_left.1 (hr.forest.clear hclient) hπ (hsub (heq ▸ hown))

/-- What a suspended process waits for is at its other side. -/
theorem ranges_of_waitsFor (hr : s.net.Rooted F A) (h : s.WaitsFor p q) :
    ∃ z svc ph, s.halves.get? z = some (.service svc) ∧ svc.process = p ∧
      ¬ (q = p ∧ ph = svc.via) ∧
      (s.Ranges F .provider p svc.via z ∧ s.Ranges F .client q ph z ∨
        s.Ranges F .provider q ph z ∧ s.Ranges F .client p svc.via z) := by
  obtain ⟨z, svc, ph, hs, rfl, hl, hne⟩ := h
  obtain ⟨σ, hq⟩ := ranges_of_lands F hl
  obtain ⟨σ', hp⟩ := ranges_of_service F hs
  exact ⟨z, svc, ph, hs, rfl, hne, ranges_or_ranges hr hp hq hne⟩

theorem ranges_of_lands_lands (hr : s.net.Rooted F A) (h : s.Lands p ph z) (h' : s.Lands q ph' z)
    (hne : ¬ (q = p ∧ ph' = ph)) :
    s.Ranges F .provider p ph z ∧ s.Ranges F .client q ph' z ∨
      s.Ranges F .provider q ph' z ∧ s.Ranges F .client p ph z := by
  obtain ⟨σ, hp⟩ := ranges_of_lands F h
  obtain ⟨σ', hq⟩ := ranges_of_lands F h'
  exact ranges_or_ranges hr hp hq hne

/-- Two different bindings that land on one channel connect a process with the one above it. -/
theorem above_of_lands (hr : s.net.Rooted F A) (h : s.Lands p ph z) (h' : s.Lands q ph' z)
    (hne : ¬ (q = p ∧ ph' = ph)) : s.Above F p q ∨ s.Above F q p :=
  (ranges_of_lands_lands hr h h' hne).imp (fun h => ⟨ph, ph', z, h⟩) fun h => ⟨ph', ph, z, h⟩

/-- Forwards lead to where there is more behind. -/
theorem lt_of_forwards (hr : s.net.Rooted F A) (h : TransGen s.Forwards c d) : A c < A d := by
  have hone : ∀ {y x : Id}, s.Forwards y x → A y < A x := by
    rintro y x ⟨f, hf, rfl⟩
    obtain ⟨π, hπ, hnot⟩ := hr.strict (forward_net_eq_some.2 ⟨f, hf, rfl⟩)
    exact lt_of_le_of_ne (sub_of_forward hr hf) fun heq => hnot (heq ▸ hπ)
  induction h with
  | single h => exact hone h
  | tail _ h ih => exact ih.trans (hone h)

/-- A store with a rooted net is a forest. -/
theorem isForest_of_rooted (hs : s.Sound) (hr : s.net.Rooted F A) : s.IsForest where
  acyclic := by
    refine isAcyclic_of_parent (s.Above F) (s.reach F A) ?_ (above_unique hr)
      (reach_lt_of_above hs hr)
    rintro p q ⟨hne, ph, ph', z, h, h'⟩
    exact above_of_lands hr h h' fun heq => hne heq.1.symm
  simple := by
    intro p q z w ph ph' h h' hne hp hq hp' hq'
    have hne' : ∀ {h ph : Sym}, ¬ (q = p ∧ h = ph) := fun heq => hne heq.1.symm
    rcases ranges_of_lands_lands hr hp hq hne' with ⟨h₁, h₂⟩ | h₁ <;>
      rcases ranges_of_lands_lands hr hp' hq' hne' with ⟨h₁', h₂'⟩ | h₁'
    · obtain ⟨rfl, rfl⟩ := eq_of_provides hr h₁ h₁'
      exact ⟨rfl, (eq_of_ranges hr h₂ h₂').2⟩
    · exact absurd (reach_lt_of_above hs hr ⟨_, _, z, h₁, h₂⟩)
        (reach_lt_of_above hs hr ⟨_, _, w, h₁'⟩).not_gt
    · exact absurd (reach_lt_of_above hs hr ⟨_, _, w, h₁', h₂'⟩)
        (reach_lt_of_above hs hr ⟨_, _, z, h₁⟩).not_gt
    · obtain ⟨rfl, rfl⟩ := eq_of_provides hr h₁.1 h₁'.1
      exact ⟨(eq_of_ranges hr h₁.2 h₁'.2).2, rfl⟩
  loopless := by
    intro p z ph ph' h h'
    by_contra hne
    rcases above_of_lands hr h h' fun heq => hne heq.2.symm with habove | habove
    · exact lt_irrefl _ (reach_lt_of_above hs hr habove)
    · exact lt_irrefl _ (reach_lt_of_above hs hr habove)
  forwards c h := lt_irrefl _ (lt_of_forwards hr h)
  landing := by
    intro p cfg ph e hcfg he
    have hreads := reads_configuration hs.toKeyed hcfg
    rw [hreads.channels] at he
    obtain ⟨passed, z, hl⟩ := exists_landing hr e.channel
    exact ⟨⟨passed, z, s.halves.get? z⟩, (hreads.landing?_eq_some_iff he).2 ⟨hl, rfl⟩⟩
  waits := by
    refine not_transGen_of_downward (s.reach F A) ?_ ?_
    · intro p q h
      obtain ⟨z, svc, ph, -, -, -, hup | hdown⟩ := ranges_of_waitsFor hr h
      · exact .inl (reach_lt_of_above hs hr ⟨_, _, z, hup⟩)
      · exact .inr (reach_lt_of_above hs hr ⟨_, _, z, hdown⟩)
    · intro p q r h hlt h'
      obtain ⟨z, svc, ph, hz, hp, hne, hup | hdown⟩ := ranges_of_waitsFor hr h
      · exact absurd hlt (reach_lt_of_above hs hr ⟨_, _, z, hup⟩).not_gt
      obtain ⟨w, svc', ph', hw, hq, -, hup' | hdown'⟩ := ranges_of_waitsFor hr h'
      · -- the service of `q` would be on the channel that has the service of `p`
        obtain ⟨rfl, rfl⟩ := eq_of_provides hr hdown.1 hup'.1
        cases hz.symm.trans hw
        exact absurd ⟨hq.symm.trans hp, rfl⟩ hne
      · exact reach_lt_of_above hs hr ⟨_, _, w, hdown'⟩

end Store

namespace Engine

/-- The communication graph of a well-used engine stays a forest. -/
theorem WellUsed.isForest {settings : Settings} {ids : Supply} {e : Engine} {free : List Id}
    (h : WellUsed settings ids e free) (hy : e.store.Young) : e.store.IsForest := by
  have ht := h.tree hy
  obtain ⟨A, hr⟩ := ht.rooted
  exact Store.isForest_of_rooted ht.sound hr

/-- The closer and the one that waits for it are connected, in a forest. -/
theorem isForest_awaited :
    awaited.store.graph.Adj (.nth 7) (.nth 10) ∧ awaited.store.IsForest := by
  refine ⟨⟨by decide, "x", "y", .nth 6, ?_, ?_⟩, wellUsed_awaited.isForest young_awaited⟩
  · have hlive : awaited.store.live (.nth 7) "x" = some ⟨.nth 6, ⟨0⟩, .nth 4⟩ := by
      decide +kernel
    have hidle : ∀ half ∈ awaited.store.halves.values,
        half.service?.all (·.process ≠ .nth 7) = true := by
      decide +kernel
    have hstay : ((awaited.store.halves.get? (.nth 6)).bind Half.forward?).isNone = true := by
      decide +kernel
    refine .led hlive (fun hw hsvc => ?_) (.stay fun f hf => ?_)
    · have hnot := hidle _ (Table.mem_values_of_get?_eq_some hw)
      simp [Half.service?, hsvc.1] at hnot
    · rw [hf] at hstay
      cases hstay
  · have hservice : ((awaited.store.halves.get? (.nth 6)).bind Half.service?).map
        (fun svc => (svc.process, svc.via)) = some (.nth 10, "y") := by
      decide +kernel
    have hlive : (awaited.store.live (.nth 10) "y").isSome = true := by
      decide +kernel
    obtain ⟨svc, hsvc, heq⟩ := Option.map_eq_some_iff.1 hservice
    obtain ⟨half, hhalf, hs⟩ := Option.bind_eq_some_iff.1 hsvc
    obtain ⟨e, he⟩ := Option.isSome_iff_exists.1 hlive
    obtain ⟨hp, hvia⟩ := Prod.mk.inj heq
    rw [Half.service?_eq_some.1 hs] at hhalf
    rw [← hp, ← hvia] at he ⊢
    exact .waiting he hhalf

end Engine

end Rendezvous
