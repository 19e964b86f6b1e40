import Rendezvous.Proofs.Net

/-!
# Typed nets

Both ends of a channel see it at one type. `Net.Typed` says so with a table of types `τ`: live
bindings and whatever messages carry have the type of their channel, a message or a service goes
with the type of the channel it is pending on, and a forward connects types of one shape. The side
that has acted is the one that the polarity of the type asks for, so a message and a service that
are pending on one channel are from its two sides.

`Typed.turn` and `Typed.born` are the step lemmas; `Typed.empty` is where a run starts.
-/

namespace Rendezvous

namespace Net

variable {D : Id → TypeNode → Prop} {τ : Id → Id} {n n' : Net} {c : Id}

/-- Whatever is bound or pending is of the type of its channel. -/
structure Typed (D : Id → TypeNode → Prop) (τ : Id → Id) (n : Net) : Prop where
  live : ∀ {p : Id} {ph : Sym} {e : Endpoint}, n.live p ph = some e → e.type = τ e.channel
  message : ∀ {z : Id} {m : Message}, n.message z = some m →
    ∃ node, D (τ z) node ∧ m.payload.Fits node ∧ (m.ByProvider ↔ node.polarity = .pos)
  value : ∀ {z : Id} {m : Message} {v : Endpoint}, n.message z = some m →
    m.payload.value? = some v → v.type = τ v.channel
  cont : ∀ {z : Id} {m : Message} {k : Endpoint}, n.message z = some m →
    m.payload.cont? = some k → k.type = τ k.channel
  service : ∀ {z : Id} {svc : Service}, n.service z = some svc →
    ∃ node, D (τ z) node ∧ svc.handler.Fits node ∧
      (svc.endpoint.pool = svc.pool ↔ node.polarity = .neg)
  forward : ∀ {y x : Id}, n.forward y = some x →
    ∃ ny nx, D (τ y) ny ∧ D (τ x) nx ∧ ny.SameShape nx
  /-- Who left a message or a service lives in the pool that is on record. -/
  author : ∀ {z : Id} {m : Message}, n.message z = some m → n.home m.process = some m.pool
  waiter : ∀ {z : Id} {svc : Service}, n.service z = some svc →
    n.home svc.process = some svc.pool

/-- A type stands for one node only. -/
def Functional (D : Id → TypeNode → Prop) : Prop :=
  ∀ (t : Id) (m n : TypeNode), D t m → D t n → m = n

theorem Typed.mono {D' : Id → TypeNode → Prop} (h : n.Typed D τ)
    (hD : ∀ {t : Id} {node : TypeNode}, D t node → D' t node) : n.Typed D' τ where
  live := h.live
  message hm := by
    obtain ⟨node, hnode, hrest⟩ := h.message hm
    exact ⟨node, hD hnode, hrest⟩
  value := h.value
  cont := h.cont
  service hs := by
    obtain ⟨node, hnode, hrest⟩ := h.service hs
    exact ⟨node, hD hnode, hrest⟩
  forward hf := by
    obtain ⟨ny, nx, hy, hx, hrest⟩ := h.forward hf
    exact ⟨ny, nx, hD hy, hD hx, hrest⟩
  author := h.author
  waiter := h.waiter

/-- A message that the provider has left meets a service of the client, and the other way
round. -/
theorem Typed.sides (hD : Functional D) (h : n.Typed D τ) {z : Id} {m : Message} {svc : Service}
    (hm : n.message z = some m) (hs : n.service z = some svc) :
    m.ByProvider ↔ svc.endpoint.pool ≠ svc.pool := by
  obtain ⟨node, hnode, hfits, hby⟩ := h.message hm
  obtain ⟨node', hnode', -, hside⟩ := h.service hs
  cases hD _ _ _ hnode hnode'
  rw [hby, ne_eq, hside]
  generalize m.payload = payload at hfits
  cases hfits <;> simp [TypeNode.polarity]

/-- The provider of a channel emits what is of a positive type. -/
theorem byProvider_iff {payload : Payload} {ep : Endpoint} {node : TypeNode} {z p π : Id}
    (hfits : payload.Fits node) (hside : ep.pool = π ↔ node.polarity = .pos)
    (hcont : ∀ {k : Endpoint}, payload.cont? = some k → k.channel = c ∧ k.pool = ep.pool) :
    (⟨z, π, p, payload⟩ : Message).ByProvider ↔ node.polarity = .pos := by
  cases hk : payload.cont? with
  | none =>
    have hclose : payload = .close := by cases payload <;> first | rfl | cases hk
    subst hclose
    cases hfits
    exact ⟨fun _ => rfl, fun _ k hk' => (nomatch hk')⟩
  | some k =>
    rw [← hside, ← (hcont hk).2]
    exact ⟨fun h => h k hk, fun h k' hk' => Option.some.inj (hk.symm.trans hk') ▸ h⟩

theorem Typed.emit (h : n.Typed D τ) {p π : Id} {via : Sym} {ep : Endpoint} {payload : Payload}
    {given : Option Sym} (he : n.Emits D p π via ep payload given c) (hc : n.Unused c) :
    ∃ τ', (∀ d, d ≠ c → τ' d = τ d) ∧
      (n.emitted p π via ep payload given).Typed D τ' := by
  obtain ⟨τ', hτ, hk⟩ : ∃ τ' : Id → Id, (∀ d, d ≠ c → τ' d = τ d) ∧
      ∀ {k : Endpoint}, payload.cont? = some k → k.type = τ' k.channel := by
    cases hcont : payload.cont? with
    | none => exact ⟨τ, fun _ _ => rfl, (nomatch ·)⟩
    | some k =>
      refine ⟨Function.update τ c k.type, fun d hd => Function.update_of_ne hd .., ?_⟩
      rintro k' ⟨⟩
      rw [(he.cont hcont).1, Function.update_self]
  refine ⟨τ', hτ, ?_⟩
  have hep := hc.live he.bound
  -- everything that was there is on other channels than the new one
  refine ⟨?_, ?_, ?_, ?_, ?_, ?_, ?_, ?_⟩
  · intro q ph e hl
    rcases acted_eq_some hl with ⟨-, -, hnext⟩ | ⟨-, hold⟩
    · exact hk hnext
    · rw [hτ _ (hc.live hold)]
      exact h.live hold
  · intro z m hm
    rcases update_eq_some hm with ⟨rfl, hnew⟩ | ⟨-, hold⟩
    · cases hnew
      obtain ⟨node, hnode, hfits, hside⟩ := he.fits
      refine ⟨node, ?_, hfits, byProvider_iff hfits hside he.cont⟩
      rw [hτ _ hep, ← h.live he.bound]
      exact hnode
    · rw [hτ _ (hc.message hold)]
      exact h.message hold
  · intro z m v hm hv
    rcases update_eq_some hm with ⟨rfl, hnew⟩ | ⟨-, hold⟩
    · cases hnew
      obtain ⟨ph, -, -, hl, -⟩ := he.value hv
      rw [hτ _ (hc.live hl)]
      exact h.live hl
    · rw [hτ _ (hc.value hold hv)]
      exact h.value hold hv
  · intro z m k hm hcont
    rcases update_eq_some hm with ⟨rfl, hnew⟩ | ⟨-, hold⟩
    · cases hnew
      exact hk hcont
    · rw [hτ _ (hc.cont hold hcont)]
      exact h.cont hold hcont
  · intro z svc hs
    rw [hτ _ (hc.service hs)]
    exact h.service hs
  · intro y x hf
    rw [hτ _ (hc.source hf), hτ _ (hc.target hf)]
    exact h.forward hf
  · intro z m hm
    rcases update_eq_some hm with ⟨rfl, hnew⟩ | ⟨-, hold⟩
    · cases hnew
      exact he.home
    · exact h.author hold
  · exact h.waiter

theorem Typed.meet (h : n.Typed D τ) {z : Id} {m : Message} (svc : Service)
    (hm : n.message z = some m) : (n.met z m svc).Typed D τ := by
  have hcont : ∀ {k : Endpoint}, m.payload.cont? = some k →
      (Drafting.continued svc k).type = τ (Drafting.continued svc k).channel := by
    intro k hk
    obtain ⟨hch, htype⟩ := continued_channel svc k
    rw [hch, htype]
    exact h.cont hm hk
  have hhome : ∀ {e : Endpoint}, e.type = τ e.channel →
      (svc.homeward m.payload e).type = τ (svc.homeward m.payload e).channel := by
    intro e he
    rcases homeward_cases svc m.payload e with hw | ⟨k, hk, -, hw⟩
    · rw [hw]
      exact he
    · rw [hw]
      exact hcont hk
  refine ⟨?_, ?_, ?_, ?_, ?_, h.forward, ?_, ?_⟩
  · intro q ph e hl
    rcases met_eq_some hl with ⟨k, -, -, hk, rfl⟩ | ⟨v, term, -, -, hv, rfl⟩ | ⟨e₀, -, hold, rfl⟩
    · exact hcont hk
    · exact hhome (h.value hm hv)
    · exact hhome (h.live hold)
  · intro w m' hm'
    obtain ⟨-, hold⟩ := erased_eq_some hm'
    exact h.message hold
  · intro w m' v hm'
    obtain ⟨-, hold⟩ := erased_eq_some hm'
    exact h.value hold
  · intro w m' k hm'
    obtain ⟨-, hold⟩ := erased_eq_some hm'
    exact h.cont hold
  · intro w svc' hs'
    obtain ⟨-, hold⟩ := erased_eq_some hs'
    exact h.service hold
  · intro w m' hm'
    obtain ⟨-, hold⟩ := erased_eq_some hm'
    exact h.author hold
  · intro w svc' hs'
    obtain ⟨-, hold⟩ := erased_eq_some hs'
    exact h.waiter hold

/-- A turn keeps a net typed; only the new channel gets a type. -/
theorem Typed.turn (hD : Functional D) (h : n.Typed D τ) (ht : Turn D c n n') :
    ∃ τ', (∀ d, d ≠ c → τ' d = τ d) ∧ n'.Typed D τ' := by
  cases ht with
  | emit he hc hidle hfree => exact h.emit he hc
  | @await p π via ep handler node hhome hbound hnode hfits hside hidle hfree =>
    refine ⟨τ, fun _ _ => rfl, { h with service := ?_, waiter := ?_ }⟩
    · intro z svc hs
      rcases update_eq_some hs with ⟨rfl, hnew⟩ | ⟨-, hold⟩
      · cases hnew
        rw [← h.live hbound]
        exact ⟨node, hnode, hfits, hside⟩
      · exact h.service hold
    · intro z svc hs
      rcases update_eq_some hs with ⟨rfl, hnew⟩ | ⟨-, hold⟩
      · cases hnew
        exact hhome
      · exact h.waiter hold
  | @relay p π via target x y nx ny hhome hx hxp hy hyp hnx hny hshape hidle hfree =>
    refine ⟨τ, fun _ _ => rfl, { h with live := ?_, forward := ?_ }⟩
    · intro q ph e hl
      rcases acted_eq_some hl with ⟨-, -, hnext⟩ | ⟨-, hold⟩
      · cases hnext
      · exact h.live hold
    · intro w x' hf
      rcases update_eq_some hf with ⟨rfl, hnew⟩ | ⟨-, hold⟩
      · cases hnew
        rw [← h.live hx, ← h.live hy]
        exact ⟨ny, nx, hny, hnx, hshape⟩
      · exact h.forward hold
  | @carry x y m hf hm hfree =>
    refine ⟨τ, fun _ _ => rfl, { h with
      message := ?_, value := ?_, cont := ?_, forward := ?_, author := ?_ }⟩
    · intro z m' hm'
      rcases moved_eq_some hm' with ⟨rfl, rfl⟩ | ⟨-, -, hm'⟩
      · obtain ⟨node, hnode, hfits, hby⟩ := h.message hm
        obtain ⟨ny, nx, hny, hnx, hshape⟩ := h.forward hf
        cases hD _ _ _ hnode hny
        refine ⟨nx, hnx, hfits.congr hshape, ?_⟩
        rw [← hshape.polarity_eq]
        exact hby
      · exact h.message hm'
    · intro z m' v hm' hv
      rcases moved_eq_some hm' with ⟨rfl, rfl⟩ | ⟨-, -, hm'⟩
      · exact h.value hm hv
      · exact h.value hm' hv
    · intro z m' k hm' hk
      rcases moved_eq_some hm' with ⟨rfl, rfl⟩ | ⟨-, -, hm'⟩
      · exact h.cont hm hk
      · exact h.cont hm' hk
    · intro w x' hf'
      obtain ⟨-, hf'⟩ := erased_eq_some hf'
      exact h.forward hf'
    · intro z m' hm'
      rcases moved_eq_some hm' with ⟨rfl, rfl⟩ | ⟨-, -, hm'⟩
      · show n.home m.process = some m.pool
        exact h.author hm
      · exact h.author hm'
  | @usher x y svc hf hs hfree =>
    refine ⟨τ, fun _ _ => rfl, { h with service := ?_, forward := ?_, waiter := ?_ }⟩
    · intro z svc' hs'
      rcases moved_eq_some hs' with ⟨rfl, rfl⟩ | ⟨-, -, hs'⟩
      · obtain ⟨node, hnode, hfits, hside⟩ := h.service hs
        obtain ⟨ny, nx, hny, hnx, hshape⟩ := h.forward hf
        cases hD _ _ _ hnode hny
        refine ⟨nx, hnx, hfits.congr hshape, ?_⟩
        rw [← hshape.polarity_eq]
        exact hside
      · exact h.service hs'
    · intro w x' hf'
      obtain ⟨-, hf'⟩ := erased_eq_some hf'
      exact h.forward hf'
    · intro z svc' hs'
      rcases moved_eq_some hs' with ⟨rfl, rfl⟩ | ⟨-, -, hs'⟩
      · show n.home svc.process = some svc.pool
        exact h.waiter hs
      · exact h.waiter hs'
  | @shorten x y w hf hg hne =>
    refine ⟨τ, fun _ _ => rfl, { h with forward := ?_ }⟩
    intro y' x' hf'
    rcases moved_eq_some hf' with ⟨rfl, rfl⟩ | ⟨-, -, hf'⟩
    · obtain ⟨ny, nx, hny, hnx, hshape⟩ := h.forward hf
      obtain ⟨nx', nw, hnx', hnw, hshape'⟩ := h.forward hg
      cases hD _ _ _ hnx hnx'
      exact ⟨ny, nw, hny, hnw, hshape.trans hshape'⟩
    · exact h.forward hf'
  | @meet z m svc term hm hs hr => exact ⟨τ, fun _ _ => rfl, h.meet svc hm⟩

/-- A new process keeps a net typed if all it is bound to was bound before, or is what it
provides. -/
theorem Typed.born (h : n.Typed D τ) {q pool : Id} {provision : Endpoint}
    (hb : n.Born n' q pool provision)
    (hlive : ∀ {p : Id} {ph : Sym} {e : Endpoint}, n'.live p ph = some e →
      e = provision ∨ ∃ p' ph', n.live p' ph' = some e) :
    n'.Typed D (Function.update τ provision.channel provision.type) := by
  have hτ : ∀ {d : Id}, d ≠ provision.channel →
      Function.update τ provision.channel provision.type d = τ d :=
    fun hd => Function.update_of_ne hd ..
  have hu := hb.unused
  refine ⟨?_, ?_, ?_, ?_, ?_, ?_, ?_, ?_⟩
  · intro p ph e hl
    rcases hlive hl with rfl | ⟨p', ph', hold⟩
    · rw [Function.update_self]
    · rw [hτ (hu.live hold)]
      exact h.live hold
  · intro z m hm
    rw [hb.message] at hm
    rw [hτ (hu.message hm)]
    exact h.message hm
  · intro z m v hm hv
    rw [hb.message] at hm
    rw [hτ (hu.value hm hv)]
    exact h.value hm hv
  · intro z m k hm hk
    rw [hb.message] at hm
    rw [hτ (hu.cont hm hk)]
    exact h.cont hm hk
  · intro z svc hs
    rw [hb.service] at hs
    rw [hτ (hu.service hs)]
    exact h.service hs
  · intro y x hf
    rw [hb.forward] at hf
    rw [hτ (hu.source hf), hτ (hu.target hf)]
    exact h.forward hf
  · intro z m hm
    rw [hb.message] at hm
    exact hb.home_of_home (h.author hm)
  · intro z svc hs
    rw [hb.service] at hs
    exact hb.home_of_home (h.waiter hs)

theorem Founds.live_of_live {p π q pool : Id} {via ph : Sym} {provision : Endpoint}
    {gifts : List Gift} (hf : n.Founds n' p π q pool via ph provision gifts) {r : Id} {h : Sym}
    {e : Endpoint} (hl : n'.live r h = some e) :
    e = provision ∨ ∃ p' ph', n.live p' ph' = some e := by
  by_cases hrq : r = q
  · subst hrq
    rcases hf.live_new hl with ⟨-, rfl⟩ | ⟨g, hg, -, rfl⟩
    · exact .inl rfl
    · exact .inr ⟨p, g.value, (hf.given g hg).1⟩
  · by_cases hrp : r = p
    · subst hrp
      rw [hf.live_giver] at hl
      split at hl
      · cases hl
        exact .inl rfl
      · split at hl
        · cases hl
        · exact .inr ⟨r, h, hl⟩
    · rw [hf.live_other hrp hrq] at hl
      exact .inr ⟨r, h, hl⟩

theorem Creates.live_of_live {q pool : Id} {ph : Sym} {provision : Endpoint}
    {receptions : List (Sym × Endpoint)} (hc : n.Creates n' q pool ph provision receptions)
    {r : Id} {h : Sym} {e : Endpoint} (hl : n'.live r h = some e) :
    e = provision ∨ ∃ p' ph', n.live p' ph' = some e := by
  by_cases hrq : r = q
  · subst hrq
    rcases hc.live_new hl with ⟨-, rfl⟩ | hmem
    · exact .inl rfl
    · obtain ⟨p', ph', hp, -⟩ := hc.provided _ hmem
      exact .inr ⟨p', ph', hp⟩
  · rw [hc.live_other hrq] at hl
    exact .inr ⟨r, h, hl⟩

end Net

theorem Registry.functional_denotes (r : Registry) : Net.Functional r.Denotes :=
  fun _ _ _ h h' => h.unique h'

end Rendezvous
