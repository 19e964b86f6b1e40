import Mathlib.Data.List.Nodup
import Rendezvous.Proofs.Typed

/-!
# Client ends

A channel has one client at most. Its end may be bound, it may be sent over another channel, or it
may be carried along by a message that the provider has left. `ClientEnd` lists these places, and
`Linear` says that no channel has two. Two more facts keep this going: no two messages carry the same
continuation, and while a message of a client is pending, nobody has come to provide the channel that
it goes on with, so that pointing all bindings of that channel at their new home makes no provider a
client.

Turns and instances keep a net linear (`Linear.turn`, `Linear.founds`). Creations do as long as
nothing that the new process is bound to is in flight (`Linear.creates`).
-/

namespace Rendezvous

/-- Where the client end of a channel can be. -/
inductive Holder where
  | bound (process : Id) (ph : Sym)
  /-- In the value of the message on a channel. -/
  | sent (channel : Id)
  /-- In the continuation of the message on a channel. -/
  | carried (channel : Id)

namespace Net

variable {D : Id → TypeNode → Prop} {τ : Id → Id} {n n' : Net} {c : Id}

/-- A client end of channel `c`. -/
inductive ClientEnd (n : Net) : Holder → Id → Prop
  | bound {p : Id} {ph : Sym} {e : Endpoint} (h : n.live p ph = some e)
    (hp : n.home p ≠ some e.pool) : ClientEnd n (.bound p ph) e.channel
  | sent {z : Id} {m : Message} {v : Endpoint} (h : n.message z = some m)
    (hv : m.payload.value? = some v) : ClientEnd n (.sent z) v.channel
  | carried {z : Id} {m : Message} {k : Endpoint} (h : n.message z = some m)
    (hk : m.payload.cont? = some k) (hp : k.pool = m.pool) : ClientEnd n (.carried z) k.channel

/-- The client end of a channel is in a message. -/
def InFlight (n : Net) (c : Id) : Prop := ∃ z, n.ClientEnd (.sent z) c ∨ n.ClientEnd (.carried z) c

/-- What messages go on with is theirs. -/
structure Apart (n : Net) : Prop where
  conts : ∀ {z z' : Id} {m m' : Message} {k k' : Endpoint}, n.message z = some m →
    n.message z' = some m' → m.payload.cont? = some k → m'.payload.cont? = some k' →
    k.channel = k'.channel → z = z'
  /-- Nobody provides yet what a message of a client goes on with. -/
  away : ∀ {z p : Id} {m : Message} {k e : Endpoint} {ph : Sym}, n.message z = some m →
    m.payload.cont? = some k → k.pool ≠ m.pool → n.live p ph = some e → e.channel = k.channel →
    n.home p ≠ some e.pool

/-- No channel has two client ends. -/
structure Linear (n : Net) : Prop extends n.Apart where
  unique : ∀ {h h' : Holder} {c : Id}, n.ClientEnd h c → n.ClientEnd h' c → h = h'

theorem Unused.not_clientEnd (hu : n.Unused c) {h : Holder} : ¬ n.ClientEnd h c := by
  intro he
  generalize hc : c = d at he
  subst hc
  cases he with
  | bound hl => exact hu.live hl rfl
  | sent hm hv => exact hu.value hm hv rfl
  | carried hm hk => exact hu.cont hm hk rfl

/-- Client ends that all come from different ends of the same channel are unique, apart from
channel `d`. -/
theorem unique_of_origins (hn : n.Linear) {d : Id} (R : Holder → Holder → Prop)
    (hfrom : ∀ {h : Holder} {c : Id}, c ≠ d → n'.ClientEnd h c → ∃ h₀, n.ClientEnd h₀ c ∧ R h h₀)
    (hinj : ∀ {h h' h₀ : Holder}, R h h₀ → R h' h₀ → h = h')
    (hd : ∀ {h h' : Holder}, n'.ClientEnd h d → n'.ClientEnd h' d → h = h') {h h' : Holder}
    {c : Id} (he : n'.ClientEnd h c) (he' : n'.ClientEnd h' c) : h = h' := by
  by_cases hc : c = d
  · subst hc
    exact hd he he'
  · obtain ⟨h₀, he₀, hr⟩ := hfrom hc he
    obtain ⟨h₀', he₀', hr'⟩ := hfrom hc he'
    cases hn.unique he₀ he₀'
    exact hinj hr hr'

/-- Where a message on `z` was before one moved from `y` to `x`. -/
def cameFrom (x y z : Id) : Id := if z = x then y else z

theorem cameFrom_injective {x y z z' : Id} (hz : z ≠ x → z ≠ y) (hz' : z' ≠ x → z' ≠ y)
    (h : cameFrom x y z = cameFrom x y z') : z = z' := by
  unfold cameFrom at h
  grind

/-- Bindings may go, and messages may move as long as they do not come together. -/
theorem Apart.of_origins (hn : n.Apart) (σ : Id → Id)
    (hlive : ∀ {p : Id} {ph : Sym} {e : Endpoint}, n'.live p ph = some e → n.live p ph = some e)
    (hmessage : ∀ {z : Id} {m : Message}, n'.message z = some m →
      ∃ m₀, n.message (σ z) = some m₀ ∧ m₀.payload = m.payload ∧ m₀.pool = m.pool)
    (hσ : ∀ {z z' : Id} {m m' : Message}, n'.message z = some m → n'.message z' = some m' →
      σ z = σ z' → z = z') (hhome : n'.home = n.home) : n'.Apart where
  conts hm hm' hk hk' hch := by
    obtain ⟨m₀, hm₀, hpay, -⟩ := hmessage hm
    obtain ⟨m₀', hm₀', hpay', -⟩ := hmessage hm'
    exact hσ hm hm' (hn.conts hm₀ hm₀' (hpay ▸ hk) (hpay' ▸ hk') hch)
  away hm hk hp hl hch := by
    obtain ⟨m₀, hm₀, hpay, hpool⟩ := hmessage hm
    rw [hhome]
    exact hn.away hm₀ (hpay ▸ hk) (hpool ▸ hp) (hlive hl) hch

theorem Apart.mono (hn : n.Apart)
    (hlive : ∀ {p : Id} {ph : Sym} {e : Endpoint}, n'.live p ph = some e → n.live p ph = some e)
    (hmessage : n'.message = n.message) (hhome : n'.home = n.home) : n'.Apart :=
  hn.of_origins id hlive (fun hm => ⟨_, hmessage ▸ hm, rfl, rfl⟩) (fun _ _ h => h) hhome

/-- Fewer bindings make fewer client ends. -/
theorem Linear.mono (hn : n.Linear) (hlive : ∀ {p : Id} {ph : Sym} {e : Endpoint},
    n'.live p ph = some e → n.live p ph = some e) (hmessage : n'.message = n.message)
    (hhome : n'.home = n.home) : n'.Linear := by
  have hend : ∀ {h : Holder} {c : Id}, n'.ClientEnd h c → n.ClientEnd h c := by
    intro h c he
    cases he with
    | bound hl hp => exact .bound (hlive hl) (hhome ▸ hp)
    | sent hm hv => exact .sent (hmessage ▸ hm) hv
    | carried hm hk hp => exact .carried (hmessage ▸ hm) hk hp
  exact ⟨hn.toApart.mono hlive hmessage hhome, fun he he' => hn.unique (hend he) (hend he')⟩

/-! ## Turns -/

theorem Apart.emit (hn : n.Apart) {p π : Id} {via : Sym} {ep : Endpoint} {payload : Payload}
    {given : Option Sym} (he : n.Emits D p π via ep payload given c) (hc : n.Unused c) :
    (n.emitted p π via ep payload given).Apart := by
  refine ⟨?_, ?_⟩
  · intro z z' m m' k k' hm hm' hk hk' hch
    rcases update_eq_some hm with ⟨rfl, hnew⟩ | ⟨-, hold⟩ <;>
      rcases update_eq_some hm' with ⟨rfl, hnew'⟩ | ⟨-, hold'⟩
    · rfl
    · cases hnew
      exact absurd (hch.symm.trans (he.cont hk).1) (hc.cont hold' hk')
    · cases hnew'
      exact absurd (hch.trans (he.cont hk').1) (hc.cont hold hk)
    · exact hn.conts hold hold' hk hk' hch
  · intro z q m k e ph hm hk hpool hl hch
    rcases acted_eq_some hl with ⟨rfl, rfl, hnext⟩ | ⟨-, hold⟩
    · rcases update_eq_some hm with ⟨rfl, hnew⟩ | ⟨-, hold⟩
      · cases hnew
        cases hk.symm.trans hnext
        show n.home q ≠ some k.pool
        rw [he.home]
        exact fun h => hpool (Option.some.inj h).symm
      · exact absurd (hch.symm.trans (he.cont hnext).1) (hc.cont hold hk)
    · rcases update_eq_some hm with ⟨rfl, hnew⟩ | ⟨-, hmold⟩
      · cases hnew
        exact absurd (hch.trans (he.cont hk).1) (hc.live hold)
      · exact hn.away hmold hk hpool hold hch

theorem Linear.emit (hn : n.Linear) {p π : Id} {via : Sym} {ep : Endpoint} {payload : Payload}
    {given : Option Sym} (he : n.Emits D p π via ep payload given c) (hc : n.Unused c) :
    (n.emitted p π via ep payload given).Linear := by
  -- the end that is sent was bound by the sender; all others are where they were
  let R : Holder → Holder → Prop := fun h h₀ =>
    (h = .sent ep.channel ∧ ∃ ph, given = some ph ∧ h₀ = .bound p ph) ∨
      (h₀ = h ∧ ∀ ph, given = some ph → h ≠ .bound p ph)
  have hinj : ∀ {h h' h₀ : Holder}, R h h₀ → R h' h₀ → h = h' := by
    rintro h h' h₀ (⟨rfl, ph, hg, rfl⟩ | ⟨rfl, hne⟩) (⟨rfl, ph', hg', h₀⟩ | ⟨h₀, hne'⟩)
    · rfl
    · exact absurd h₀.symm (hne' ph hg)
    · exact absurd h₀ (hne ph' hg')
    · exact h₀
  have hfrom : ∀ {h : Holder} {d : Id}, d ≠ c →
      (n.emitted p π via ep payload given).ClientEnd h d → ∃ h₀, n.ClientEnd h₀ d ∧ R h h₀ := by
    intro h d hd hend
    cases hend with
    | @bound q ph e hl hp =>
      rcases acted_eq_some hl with ⟨-, -, hnext⟩ | ⟨hkept, hold⟩
      · exact absurd (he.cont hnext).1 hd
      · refine ⟨_, .bound hold hp, .inr ⟨rfl, ?_⟩⟩
        rintro ph' hg ⟨⟩
        exact (hkept rfl).2 hg
    | @sent z m v hm hv =>
      rcases update_eq_some hm with ⟨rfl, hnew⟩ | ⟨-, hold⟩
      · cases hnew
        obtain ⟨ph, hg, -, hl, hpool⟩ := he.value hv
        refine ⟨_, .bound hl ?_, .inl ⟨rfl, ph, hg, rfl⟩⟩
        rw [he.home]
        exact fun h => hpool (Option.some.inj h).symm
      · exact ⟨_, .sent hold hv, .inr ⟨rfl, nofun⟩⟩
    | @carried z m k hm hk hp =>
      rcases update_eq_some hm with ⟨rfl, hnew⟩ | ⟨-, hold⟩
      · cases hnew
        exact absurd (he.cont hk).1 hd
      · exact ⟨_, .carried hold hk hp, .inr ⟨rfl, nofun⟩⟩
  -- the new channel is carried by the message of a provider, or bound by the client that sends
  have hnew : ∀ {h : Holder}, (n.emitted p π via ep payload given).ClientEnd h c →
      h = if ep.pool = π then .carried ep.channel else .bound p via := by
    intro h hend
    generalize hd : c = d at hend
    cases hend with
    | @bound q ph e hl hp =>
      rcases acted_eq_some hl with ⟨rfl, rfl, hnext⟩ | ⟨-, hold⟩
      · rw [if_neg]
        intro hpool
        rw [(he.cont hnext).2, hpool] at hp
        exact hp he.home
      · exact absurd hd.symm (hc.live hold)
    | @sent z m v hm hv =>
      rcases update_eq_some hm with ⟨rfl, hnew⟩ | ⟨-, hold⟩
      · cases hnew
        obtain ⟨ph, -, -, hl, -⟩ := he.value hv
        exact absurd hd.symm (hc.live hl)
      · exact absurd hd.symm (hc.value hold hv)
    | @carried z m k hm hk hp =>
      rcases update_eq_some hm with ⟨rfl, hnew⟩ | ⟨-, hold⟩
      · cases hnew
        rw [if_pos ((he.cont hk).2.symm.trans hp)]
      · exact absurd hd.symm (hc.cont hold hk)
  exact ⟨hn.toApart.emit he hc,
    unique_of_origins hn R hfrom hinj fun h h' => (hnew h).trans (hnew h').symm⟩

theorem Linear.carry (hn : n.Linear) {x y : Id} {m : Message} (hm : n.message y = some m)
    (f : Id → Option Id) :
    ({ n with
      forward := f
      message := Function.update (Function.update n.message y none) x
        (some { m with channel := x }) } : Net).Linear := by
  have horigin : ∀ {z : Id} {m' : Message}, Function.update (Function.update n.message y none) x
      (some { m with channel := x }) z = some m' →
      ∃ m₀, n.message (cameFrom x y z) = some m₀ ∧ m₀.payload = m'.payload ∧
        m₀.pool = m'.pool ∧ (z ≠ x → z ≠ y) := by
    intro z m' hm'
    rcases moved_eq_some hm' with ⟨rfl, rfl⟩ | ⟨hx, hy, hold⟩
    · rw [cameFrom, if_pos rfl]
      exact ⟨m, hm, rfl, rfl, fun h => absurd rfl h⟩
    · rw [cameFrom, if_neg hx]
      exact ⟨m', hold, rfl, rfl, fun _ => hy⟩
  let R : Holder → Holder → Prop := fun h h₀ =>
    (∃ p ph, h = .bound p ph ∧ h₀ = .bound p ph) ∨
      (∃ z, (z ≠ x → z ≠ y) ∧ h = .sent z ∧ h₀ = .sent (cameFrom x y z)) ∨
      ∃ z, (z ≠ x → z ≠ y) ∧ h = .carried z ∧ h₀ = .carried (cameFrom x y z)
  have hinj : ∀ {h h' h₀ : Holder}, R h h₀ → R h' h₀ → h = h' := by
    rintro h h' h₀ (⟨p, ph, rfl, rfl⟩ | ⟨z, hz, rfl, rfl⟩ | ⟨z, hz, rfl, rfl⟩)
      (⟨p', ph', rfl, h₀⟩ | ⟨z', hz', rfl, h₀⟩ | ⟨z', hz', rfl, h₀⟩) <;>
      simp only [Holder.bound.injEq, Holder.sent.injEq, Holder.carried.injEq, reduceCtorEq] at h₀
    · rw [h₀.1, h₀.2]
    · rw [cameFrom_injective hz hz' h₀]
    · rw [cameFrom_injective hz hz' h₀]
  have hfrom : ∀ {h : Holder} {d : Id}, ({ n with
      forward := f
      message := Function.update (Function.update n.message y none) x
        (some { m with channel := x }) } : Net).ClientEnd h d → ∃ h₀, n.ClientEnd h₀ d ∧ R h h₀ := by
    intro h d hend
    cases hend with
    | bound hl hp => exact ⟨_, .bound hl hp, .inl ⟨_, _, rfl, rfl⟩⟩
    | sent hm' hv =>
      obtain ⟨m₀, hm₀, hpay, -, hz⟩ := horigin hm'
      exact ⟨_, .sent hm₀ (hpay ▸ hv), .inr (.inl ⟨_, hz, rfl, rfl⟩)⟩
    | carried hm' hk hp =>
      obtain ⟨m₀, hm₀, hpay, hpool, hz⟩ := horigin hm'
      exact ⟨_, .carried hm₀ (hpay ▸ hk) (hp.trans hpool.symm), .inr (.inr ⟨_, hz, rfl, rfl⟩)⟩
  refine ⟨hn.toApart.of_origins (cameFrom x y) id ?_ ?_ rfl, ?_⟩
  · intro z m' hm'
    obtain ⟨m₀, hm₀, hpay, hpool, -⟩ := horigin hm'
    exact ⟨m₀, hm₀, hpay, hpool⟩
  · intro z z' m₁ m₂ hm₁ hm₂
    obtain ⟨-, -, -, -, hz⟩ := horigin hm₁
    obtain ⟨-, -, -, -, hz'⟩ := horigin hm₂
    exact cameFrom_injective hz hz'
  · intro h h' d he he'
    obtain ⟨h₀, he₀, hr⟩ := hfrom he
    obtain ⟨h₀', he₀', hr'⟩ := hfrom he'
    cases hn.unique he₀ he₀'
    exact hinj hr hr'

theorem Apart.meet (hn : n.Apart) {z : Id} {m : Message} {svc : Service} {term : Term}
    (hhome : n.home svc.process = some svc.pool) (hm : n.message z = some m)
    (hr : svc.reply m.payload = some term) : (n.met z m svc).Apart := by
  refine ⟨?_, ?_⟩
  · intro w w' m₁ m₂ k k' hm₁ hm₂
    obtain ⟨-, hold⟩ := erased_eq_some hm₁
    obtain ⟨-, hold'⟩ := erased_eq_some hm₂
    exact hn.conts hold hold'
  · intro w q m' k' e ph hm' hk' hpool' hl hch
    obtain ⟨hne, hmold⟩ := erased_eq_some hm'
    -- the channel is not the one that has just gone on
    have hother : ∀ {k : Endpoint}, m.payload.cont? = some k → k.channel ≠ k'.channel :=
      fun hk h => hne (hn.conts hmold hm hk' hk h.symm)
    show n.home q ≠ some e.pool
    rcases met_eq_some hl with ⟨k, -, -, hk, rfl⟩ | ⟨v, term, rfl, hh, hv, rfl⟩ |
      ⟨e₀, -, hold, rfl⟩
    · rw [(continued_channel svc k).1] at hch
      exact absurd hch (hother hk)
    · rcases homeward_cases svc m.payload v with hw | ⟨k, hk, hvk, hw⟩
      · rw [hw, hhome]
        exact fun h => Service.pool_ne_of_reply hr hv (Option.some.inj h).symm
      · rw [homeward_channel, hvk] at hch
        exact absurd hch (hother hk)
    · rw [homeward_channel] at hch
      rcases homeward_cases svc m.payload e₀ with hw | ⟨k, hk, hek, -⟩
      · rw [hw]
        exact hn.away hmold hk' hpool' hold hch
      · exact absurd (hek.symm.trans hch) (hother hk)

theorem Linear.meet (hD : Functional D) (hn : n.Linear) (ht : n.Typed D τ) {z : Id} {m : Message}
    {svc : Service} {term : Term} (hm : n.message z = some m) (hs : n.service z = some svc)
    (hr : svc.reply m.payload = some term) : (n.met z m svc).Linear := by
  have hhome : n.home svc.process = some svc.pool := ht.waiter hs
  have hsides := ht.sides hD hm hs
  -- a continuation of the provider goes to the client; one of the client has no provider yet
  have hclient : ∀ {k : Endpoint}, m.payload.cont? = some k → k.pool = m.pool →
      svc.endpoint.pool ≠ svc.pool := by
    intro k hk hp
    refine hsides.1 fun k' hk' => ?_
    cases hk.symm.trans hk'
    exact hp
  have hprovider : ∀ {k : Endpoint}, m.payload.cont? = some k → k.pool ≠ m.pool →
      svc.endpoint.pool = svc.pool := by
    intro k hk hp
    by_contra hne
    exact hp (hsides.2 hne k hk)
  let R : Holder → Holder → Prop := fun h h₀ =>
    (h = .bound svc.process svc.via ∧ h₀ = .carried z) ∨
      (∃ ph term, svc.handler = .recv ph term ∧ h = .bound svc.process ph ∧ h₀ = .sent z) ∨
      (h₀ = h ∧ h ≠ .carried z ∧ h ≠ .sent z)
  have hinj : ∀ {h h' h₀ : Holder}, R h h₀ → R h' h₀ → h = h' := by
    rintro h h' h₀ (⟨rfl, rfl⟩ | ⟨ph, term, hh, rfl, rfl⟩ | ⟨rfl, hc, hs⟩)
      (⟨rfl, h₀⟩ | ⟨ph', term', hh', rfl, h₀⟩ | ⟨h₀, hc', hs'⟩)
    · rfl
    · cases h₀
    · exact absurd h₀.symm hc'
    · cases h₀
    · cases hh.symm.trans hh'
      rfl
    · exact absurd h₀.symm hs'
    · exact absurd h₀ hc
    · exact absurd h₀ hs
    · exact h₀
  have hfrom : ∀ {h : Holder} {d : Id}, (n.met z m svc).ClientEnd h d →
      ∃ h₀, n.ClientEnd h₀ d ∧ R h h₀ := by
    intro h d hend
    cases hend with
    | @bound q ph e hl hp =>
      rcases met_eq_some hl with ⟨k, rfl, rfl, hk, rfl⟩ | ⟨v, term, rfl, hh, hv, rfl⟩ |
        ⟨e₀, -, hold, rfl⟩
      · by_cases hpool : k.pool = m.pool
        · rw [continued_of_client (hclient hk hpool)]
          exact ⟨_, .carried hm hk hpool, .inl ⟨rfl, rfl⟩⟩
        · rw [continued_of_provider (hprovider hk hpool)] at hp
          exact absurd hhome hp
      · rw [homeward_channel]
        exact ⟨_, .sent hm hv, .inr (.inl ⟨ph, term, hh, rfl, rfl⟩)⟩
      · rw [homeward_channel]
        refine ⟨.bound q ph, .bound hold ?_, .inr (.inr ⟨rfl, nofun, nofun⟩)⟩
        rcases homeward_cases svc m.payload e₀ with hw | ⟨k, hk, hch, -⟩
        · rw [hw] at hp
          exact hp
        · by_cases hpool : k.pool = m.pool
          · rw [homeward_of_client (hclient hk hpool)] at hp
            exact hp
          · exact hn.away hm hk hpool hold hch
    | @sent w m' v hm' hv =>
      obtain ⟨hne, hold⟩ := erased_eq_some hm'
      refine ⟨_, .sent hold hv, .inr (.inr ⟨rfl, nofun, ?_⟩)⟩
      rintro ⟨⟩
      exact hne rfl
    | @carried w m' k hm' hk hp =>
      obtain ⟨hne, hold⟩ := erased_eq_some hm'
      refine ⟨_, .carried hold hk hp, .inr (.inr ⟨rfl, ?_, nofun⟩)⟩
      rintro ⟨⟩
      exact hne rfl
  refine ⟨hn.toApart.meet hhome hm hr, ?_⟩
  intro h h' d he he'
  obtain ⟨h₀, he₀, hr⟩ := hfrom he
  obtain ⟨h₀', he₀', hr'⟩ := hfrom he'
  cases hn.unique he₀ he₀'
  exact hinj hr hr'

/-- A turn keeps a net linear. -/
theorem Linear.turn (hD : Functional D) (hn : n.Linear) (ht : n.Typed D τ)
    (hturn : Turn D c n n') : n'.Linear := by
  cases hturn with
  | emit he hc => exact hn.emit he hc
  | await => exact hn.mono id rfl rfl
  | relay =>
    refine hn.mono (fun hl => ?_) rfl rfl
    rcases acted_eq_some hl with ⟨-, -, hnext⟩ | ⟨-, hold⟩
    · cases hnext
    · exact hold
  | carry hf hm => exact hn.carry hm _
  | usher => exact hn.mono id rfl rfl
  | shorten => exact hn.mono id rfl rfl
  | meet hm hs hr => exact hn.meet hD ht hm hs hr

/-! ## New processes -/

/-- A binding after a founding is of what is new, or a gift, or one that has stayed where it was. -/
theorem Founds.live_cases {p π q pool : Id} {via ph : Sym} {provision : Endpoint}
    {gifts : List Gift} (hf : n.Founds n' p π q pool via ph provision gifts) {r : Id} {h : Sym}
    {e : Endpoint} (hl : n'.live r h = some e) :
    e = provision ∧ (r = q ∨ r = p ∧ h = via) ∨
      (∃ g ∈ gifts, r = q ∧ g.parameter.placeholder = h ∧ g.endpoint = e) ∨
      (r ≠ q ∧ n.live r h = some e ∧ (r = p → h ∉ gifts.map Gift.value)) := by
  by_cases hrq : r = q
  · subst hrq
    rcases hf.live_new hl with ⟨-, rfl⟩ | ⟨g, hg, hfacts⟩
    · exact .inl ⟨rfl, .inl rfl⟩
    · exact .inr (.inl ⟨g, hg, rfl, hfacts⟩)
  · by_cases hrp : r = p
    · subst hrp
      rw [hf.live_giver] at hl
      split at hl
      · next hv =>
        cases hl
        exact .inl ⟨rfl, .inr ⟨rfl, hv⟩⟩
      · split at hl
        · cases hl
        · next hg => exact .inr (.inr ⟨hrq, hl, fun _ => hg⟩)
    · rw [hf.live_other hrp hrq] at hl
      exact .inr (.inr ⟨hrq, hl, fun h => absurd h hrp⟩)

theorem Apart.founds (hn : n.Apart) {p π q pool : Id} {via ph : Sym} {provision : Endpoint}
    {gifts : List Gift} (hf : n.Founds n' p π q pool via ph provision gifts) : n'.Apart := by
  refine ⟨?_, ?_⟩
  · intro z z' m m' k k' hm hm'
    exact hn.conts (hf.message ▸ hm) (hf.message ▸ hm')
  · intro z r m k e h hm hk hpool hl hch
    rw [hf.message] at hm
    rcases hf.live_cases hl with ⟨rfl, -⟩ | ⟨g, hg, rfl, rfl, rfl⟩ | ⟨hrq, hold, -⟩
    · exact absurd hch.symm (hf.unused.cont hm hk)
    · rw [hf.home_self]
      exact fun h => (hf.given g hg).2.2 (Option.some.inj h).symm
    · rw [hf.home_of_ne hrq]
      exact hn.away hm hk hpool hold hch

theorem Linear.founds (hn : n.Linear) {p π q pool : Id} {via ph : Sym} {provision : Endpoint}
    {gifts : List Gift} (hf : n.Founds n' p π q pool via ph provision gifts) : n'.Linear := by
  let R : Holder → Holder → Prop := fun h h₀ =>
    (∃ g ∈ gifts, h = .bound q g.parameter.placeholder ∧ h₀ = .bound p g.value) ∨
      (h₀ = h ∧ ∀ value ∈ gifts.map Gift.value, h ≠ .bound p value)
  have hinj : ∀ {h h' h₀ : Holder}, R h h₀ → R h' h₀ → h = h' := by
    rintro h h' h₀ (⟨g, hg, rfl, rfl⟩ | ⟨rfl, hne⟩) (⟨g', hg', rfl, h₀⟩ | ⟨h₀, hne'⟩)
    · have hvalue : g.value = g'.value := by injection h₀
      rw [List.inj_on_of_nodup_map hf.nodup hg hg' hvalue]
    · exact absurd h₀.symm (hne' _ (List.mem_map_of_mem hg))
    · exact absurd h₀ (hne _ (List.mem_map_of_mem hg'))
    · exact h₀
  have hfrom : ∀ {h : Holder} {d : Id}, d ≠ provision.channel → n'.ClientEnd h d →
      ∃ h₀, n.ClientEnd h₀ d ∧ R h h₀ := by
    intro h d hd hend
    cases hend with
    | bound hl hp =>
      rcases hf.live_cases hl with ⟨rfl, -⟩ | ⟨g, hg, rfl, rfl, rfl⟩ | ⟨hrq, hold, hkept⟩
      · exact absurd rfl hd
      · obtain ⟨hgl, hgp, -⟩ := hf.given g hg
        refine ⟨_, .bound hgl ?_, .inl ⟨g, hg, rfl, rfl⟩⟩
        rw [hf.home]
        exact fun h => hgp (Option.some.inj h).symm
      · rw [hf.home_of_ne hrq] at hp
        refine ⟨_, .bound hold hp, .inr ⟨rfl, ?_⟩⟩
        rintro value hvalue ⟨⟩
        exact hkept rfl hvalue
    | sent hm hv => exact ⟨_, .sent (hf.message ▸ hm) hv, .inr ⟨rfl, nofun⟩⟩
    | carried hm hk hp => exact ⟨_, .carried (hf.message ▸ hm) hk hp, .inr ⟨rfl, nofun⟩⟩
  have hnew : ∀ {h : Holder}, n'.ClientEnd h provision.channel → h = .bound p via := by
    intro h hend
    generalize hd : provision.channel = d at hend
    cases hend with
    | bound hl hp =>
      rcases hf.live_cases hl with ⟨rfl, rfl | ⟨rfl, rfl⟩⟩ | ⟨g, hg, rfl, rfl, rfl⟩ | ⟨-, hold, -⟩
      · rw [hf.home_self, hf.pool_eq] at hp
        exact absurd rfl hp
      · rfl
      · exact absurd hd.symm (hf.unused.live (hf.given g hg).1)
      · exact absurd hd.symm (hf.unused.live hold)
    | sent hm hv => exact absurd hd.symm (hf.unused.value (hf.message ▸ hm) hv)
    | carried hm hk hp => exact absurd hd.symm (hf.unused.cont (hf.message ▸ hm) hk)
  exact ⟨hn.toApart.founds hf,
    unique_of_origins hn R hfrom hinj fun h h' => (hnew h).trans (hnew h').symm⟩

theorem Apart.creates (hn : n.Apart) {q pool : Id} {ph : Sym} {provision : Endpoint}
    {receptions : List (Sym × Endpoint)} (hc : n.Creates n' q pool ph provision receptions) :
    n'.Apart := by
  refine ⟨?_, ?_⟩
  · intro z z' m m' k k' hm hm'
    exact hn.conts (hc.message ▸ hm) (hc.message ▸ hm')
  · intro z r m k e h hm hk hpool hl hch
    rw [hc.message] at hm
    by_cases hrq : r = q
    · subst hrq
      rcases hc.live_new hl with ⟨-, rfl⟩ | hmem
      · exact absurd hch.symm (hc.unused.cont hm hk)
      · -- what is received is provided, and nobody provides such a channel
        obtain ⟨p', h', hp, hhome⟩ := hc.provided _ hmem
        exact absurd hhome (hn.away hm hk hpool hp hch)
    · rw [hc.home_of_ne hrq]
      rw [hc.live_other hrq] at hl
      exact hn.away hm hk hpool hl hch

/-- Creating a process keeps a net linear, unless it binds the process to a channel whose client
end is in flight. -/
theorem Linear.creates (hn : n.Linear) {q pool : Id} {ph : Sym} {provision : Endpoint}
    {receptions : List (Sym × Endpoint)} (hc : n.Creates n' q pool ph provision receptions)
    (hfree : ∀ {h : Sym} {e : Endpoint}, n'.live q h = some e → ¬ n.InFlight e.channel) :
    n'.Linear := by
  have hold : ∀ {h : Holder} {d : Id}, n'.ClientEnd h d →
      n.ClientEnd h d ∨ ∃ r ∈ receptions, h = .bound q r.1 ∧ r.2.channel = d ∧
        n'.live q r.1 = some r.2 := by
    intro h d hend
    cases hend with
    | @bound r h e hl hp =>
      by_cases hrq : r = q
      · subst hrq
        rcases hc.live_new hl with ⟨-, rfl⟩ | hmem
        · rw [hc.home_self, hc.pool_eq] at hp
          exact absurd rfl hp
        · exact .inr ⟨_, hmem, rfl, rfl, hl⟩
      · rw [hc.home_of_ne hrq] at hp
        rw [hc.live_other hrq] at hl
        exact .inl (.bound hl hp)
    | sent hm hv => exact .inl (.sent (hc.message ▸ hm) hv)
    | carried hm hk hp => exact .inl (.carried (hc.message ▸ hm) hk hp)
  -- a channel that is received had no client end before
  have hnone : ∀ {h : Holder} {r : Sym × Endpoint}, r ∈ receptions →
      n'.live q r.1 = some r.2 → ¬ n.ClientEnd h r.2.channel := by
    intro h r hmem hl hend
    generalize hd : r.2.channel = d at hend
    cases hend with
    | bound hb hp => exact hp (hc.free r hmem hb hd.symm)
    | @sent z _ _ hm hv =>
      refine hfree hl ⟨z, .inl ?_⟩
      rw [hd]
      exact .sent hm hv
    | @carried z _ _ hm hk hp =>
      refine hfree hl ⟨z, .inr ?_⟩
      rw [hd]
      exact .carried hm hk hp
  refine ⟨hn.toApart.creates hc, ?_⟩
  intro h h' d he he'
  rcases hold he with he | ⟨r, hmem, rfl, rfl, hl⟩ <;>
    rcases hold he' with he' | ⟨r', hmem', rfl, hd, hl'⟩
  · exact hn.unique he he'
  · exact absurd (hd ▸ he) (hnone hmem' hl')
  · exact absurd he' (hnone hmem hl)
  · rw [List.inj_on_of_nodup_map hc.distinct hmem hmem' hd.symm]

end Net

end Rendezvous
