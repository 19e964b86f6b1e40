import Rendezvous.Proofs.ClientEnds

/-!
# Endpoints that agree

A channel is bound in several places, and each of them has its own copy of the channel's type and of
the pool that provides it. Copies are made with the channel, so that they agree at first. What makes
them differ later is a continuation that comes home: the consumer turns out to live in another pool
than the producer has on record, and the live bindings of the channel are moved there, but not the
copies that messages have.

`Net.Agrees` says that all copies of a channel, live or in a message, are the same in what `f` reads
of them, and `Agrees.meet` what a meeting needs to keep it: that `f` does not see the difference, or
that no message is left that sends the channel. So types agree in every engine, and endpoints do as
long as no step brings a channel home that a message sends (`endpoints_agree`).
-/

namespace Rendezvous

namespace Net

variable {D : Id → TypeNode → Prop} {f : Endpoint → Id} {g : Id → Id} {n n' : Net} {c : Id}

/-- Whatever is bound or in a message agrees with a table by channels, in what `f` reads of it. -/
structure Agrees (f : Endpoint → Id) (g : Id → Id) (n : Net) : Prop where
  live : ∀ {p : Id} {ph : Sym} {e : Endpoint}, n.live p ph = some e → f e = g e.channel
  value : ∀ {z : Id} {m : Message} {v : Endpoint}, n.message z = some m →
    m.payload.value? = some v → f v = g v.channel
  cont : ∀ {z : Id} {m : Message} {k : Endpoint}, n.message z = some m →
    m.payload.cont? = some k → f k = g k.channel
  /-- No two messages go on with the same channel. -/
  conts : ∀ {z z' : Id} {m m' : Message} {k k' : Endpoint}, n.message z = some m →
    n.message z' = some m' → m.payload.cont? = some k → m'.payload.cont? = some k' →
    k.channel = k'.channel → z = z'

/-- Bindings may go, and messages may move as long as they stay apart. -/
theorem Agrees.of_origins (hn : n.Agrees f g) (σ : Id → Id)
    (hlive : ∀ {p : Id} {ph : Sym} {e : Endpoint}, n'.live p ph = some e → n.live p ph = some e)
    (hmessage : ∀ {z : Id} {m : Message}, n'.message z = some m →
      ∃ m₀, n.message (σ z) = some m₀ ∧ m₀.payload = m.payload)
    (hσ : ∀ {z z' : Id} {m m' : Message}, n'.message z = some m → n'.message z' = some m' →
      σ z = σ z' → z = z') : n'.Agrees f g where
  live hl := hn.live (hlive hl)
  value hm hv := by
    obtain ⟨m₀, hm₀, hpay⟩ := hmessage hm
    exact hn.value hm₀ (hpay ▸ hv)
  cont hm hk := by
    obtain ⟨m₀, hm₀, hpay⟩ := hmessage hm
    exact hn.cont hm₀ (hpay ▸ hk)
  conts hm hm' hk hk' hch := by
    obtain ⟨m₀, hm₀, hpay⟩ := hmessage hm
    obtain ⟨m₀', hm₀', hpay'⟩ := hmessage hm'
    exact hσ hm hm' (hn.conts hm₀ hm₀' (hpay ▸ hk) (hpay' ▸ hk') hch)

theorem Agrees.mono (hn : n.Agrees f g)
    (hlive : ∀ {p : Id} {ph : Sym} {e : Endpoint}, n'.live p ph = some e → n.live p ph = some e)
    (hmessage : ∀ {z : Id} {m : Message}, n'.message z = some m → n.message z = some m) :
    n'.Agrees f g :=
  hn.of_origins id hlive (fun hm => ⟨_, hmessage hm, rfl⟩) fun _ _ h => h

/-- A half that was on `x` is put on `z`. -/
theorem Agrees.place (hn : n.Agrees f g) {live : Live} {rest : Id → Option Half}
    {home : Id → Option Id} (half : Half) {x z : Id}
    (hlive : ∀ {p : Id} {ph : Sym} {e : Endpoint}, live p ph = some e → n.live p ph = some e)
    (hhalf : ∀ {m : Message}, half.message? = some m → n.message x = some m)
    (hrest : ∀ {w : Id} {m : Message}, rest w = some (.message m) →
      n.message w = some m ∧ (half.message?.isSome → w ≠ x)) :
    ((ofPending live rest home).add (half.movedTo z)).Agrees f g := by
  have hold : ∀ {w : Id} {m : Message}, (ofPending live rest home).message w = some m →
      rest w = some (.message m) := by
    intro w m hm
    obtain ⟨half', hw, hm'⟩ := Option.bind_eq_some_iff.1 hm
    rw [hw, Half.message?_eq_some.1 hm']
  cases half with
  | message m₀ =>
    have hfrom : ∀ {w : Id} {m : Message},
        ((ofPending live rest home).add (Half.movedTo z (.message m₀))).message w = some m →
        (∃ m', n.message (cameFrom z x w) = some m' ∧ m'.payload = m.payload) ∧
          (w ≠ z → w ≠ x) := by
      intro w m hm
      rcases update_eq_some hm with ⟨rfl, hnew⟩ | ⟨hne, hm⟩
      · cases hnew
        rw [cameFrom, if_pos rfl]
        exact ⟨⟨m₀, hhalf rfl, rfl⟩, fun h => absurd rfl h⟩
      · obtain ⟨hm, hx⟩ := hrest (hold hm)
        have hne : w ≠ z := hne
        rw [cameFrom, if_neg hne]
        exact ⟨⟨m, hm, rfl⟩, fun _ => hx rfl⟩
    exact hn.of_origins (cameFrom z x) hlive (fun hm => (hfrom hm).1)
      fun hm hm' h => cameFrom_injective (hfrom hm).2 (hfrom hm').2 h
  | service svc => exact hn.mono hlive fun hm => (hrest (hold hm)).1
  | forward fw => exact hn.mono hlive fun hm => (hrest (hold hm)).1

/-- Both copies of a new channel are made alike. -/
theorem Agrees.emit (hn : n.Agrees f g) {p π : Id} {via : Sym} {ep : Endpoint} {payload : Payload}
    {given : Option Sym} (he : n.Emits D p π via ep payload given c) (hc : n.Unused c) :
    ∃ g', (n.emitted p π via ep payload given).Agrees f g' := by
  obtain ⟨g', hg, hk⟩ : ∃ g' : Id → Id, (∀ d, d ≠ c → g' d = g d) ∧
      ∀ {k : Endpoint}, payload.cont? = some k → f k = g' k.channel := by
    cases hcont : payload.cont? with
    | none => exact ⟨g, fun _ _ => rfl, (nomatch ·)⟩
    | some k =>
      refine ⟨Function.update g c (f k), fun d hd => Function.update_of_ne hd .., ?_⟩
      rintro k' ⟨⟩
      rw [(he.cont hcont).1, Function.update_self]
  refine ⟨g', ?_, ?_, ?_, ?_⟩
  · intro q ph e hl
    rcases acted_eq_some hl with ⟨-, -, hnext⟩ | ⟨-, hold⟩
    · exact hk hnext
    · rw [hg _ (hc.live hold)]
      exact hn.live hold
  · intro z m v hm hv
    rcases update_eq_some hm with ⟨rfl, hnew⟩ | ⟨-, hold⟩
    · cases hnew
      obtain ⟨ph, -, -, hl, -⟩ := he.value hv
      rw [hg _ (hc.live hl)]
      exact hn.live hl
    · rw [hg _ (hc.value hold hv)]
      exact hn.value hold hv
  · intro z m k hm hcont
    rcases update_eq_some hm with ⟨rfl, hnew⟩ | ⟨-, hold⟩
    · cases hnew
      exact hk hcont
    · rw [hg _ (hc.cont hold hcont)]
      exact hn.cont hold hcont
  · intro z z' m m' k k' hm hm' hk hk' hch
    rcases update_eq_some hm with ⟨rfl, hnew⟩ | ⟨-, hold⟩ <;>
      rcases update_eq_some hm' with ⟨rfl, hnew'⟩ | ⟨-, hold'⟩
    · rfl
    · cases hnew
      exact absurd (hch.symm.trans (he.cont hk).1) (hc.cont hold' hk')
    · cases hnew'
      exact absurd (hch.trans (he.cont hk').1) (hc.cont hold hk)
    · exact hn.conts hold hold' hk hk' hch

/-- A continuation that keeps its pool is as it was. -/
theorem continued_eq_self {svc : Service} {k : Endpoint}
    (h : (Drafting.continued svc k).pool = k.pool) : Drafting.continued svc k = k := by
  unfold Drafting.continued at h ⊢
  split at h
  · next hp => rw [if_pos hp, show svc.pool = k.pool from h]
  · next hp => rw [if_neg hp]

/-- What comes home agrees with the continuation in its new place. -/
theorem Agrees.homeward (hn : n.Agrees f g) {z : Id} {m : Message} (svc : Service) {k e : Endpoint}
    (hm : n.message z = some m) (hk : m.payload.cont? = some k) (he : f e = g e.channel) :
    f (svc.homeward m.payload e) =
      Function.update g k.channel (f (Drafting.continued svc k)) e.channel := by
  have hcont := hn.cont hm hk
  unfold Service.homeward
  rw [hk]
  dsimp only
  by_cases hch : e.channel = k.channel
  · rw [hch, Function.update_self]
    by_cases hpool : (Drafting.continued svc k).pool = k.pool
    · rw [if_neg fun h => h.1 hpool, continued_eq_self hpool, he, hcont, hch]
    · rw [if_pos ⟨hpool, rfl⟩]
  · rw [if_neg fun h => hch h.2, Function.update_of_ne hch, he]

/-- A meeting leaves the copies of the continuation alike if `f` does not see where it has come
home to, or if all of them are bound by then. -/
theorem Agrees.meet (hn : n.Agrees f g) {z : Id} {m : Message} (svc : Service)
    (hm : n.message z = some m)
    (hk : ∀ {k : Endpoint}, m.payload.cont? = some k → f (Drafting.continued svc k) = f k ∨
      ∀ {w : Id} {m' : Message} {v : Endpoint}, (n.met z m svc).message w = some m' →
        m'.payload.value? = some v → v.channel ≠ k.channel) :
    ∃ g', (n.met z m svc).Agrees f g' := by
  have hmessage : ∀ {w : Id} {m' : Message}, (n.met z m svc).message w = some m' →
      w ≠ z ∧ n.message w = some m' := by
    intro w m' hm'
    rcases update_eq_some hm' with ⟨-, hnew⟩ | h
    · cases hnew
    · exact h
  cases hcont : m.payload.cont? with
  | none =>
    have hstay : ∀ e, svc.homeward m.payload e = e := by
      intro e
      simp [Service.homeward, hcont]
    refine ⟨g, ?_, fun hm' => hn.value (hmessage hm').2, fun hm' => hn.cont (hmessage hm').2,
      fun hm₁ hm₂ => hn.conts (hmessage hm₁).2 (hmessage hm₂).2⟩
    intro q ph e hl
    rcases met_eq_some hl with ⟨k, -, -, hk, -⟩ | ⟨v, term, -, -, hv, rfl⟩ | ⟨e₀, -, hold, rfl⟩
    · cases hcont.symm.trans hk
    · rw [hstay]
      exact hn.value hm hv
    · rw [hstay]
      exact hn.live hold
  | some k =>
    refine ⟨Function.update g k.channel (f (Drafting.continued svc k)), ?_, ?_, ?_,
      fun hm₁ hm₂ => hn.conts (hmessage hm₁).2 (hmessage hm₂).2⟩
    · intro q ph e hl
      rcases met_eq_some hl with ⟨k', -, -, hk', rfl⟩ | ⟨v, term, -, -, hv, rfl⟩ |
        ⟨e₀, -, hold, rfl⟩
      · cases hcont.symm.trans hk'
        rw [(continued_channel svc k).1, Function.update_self]
      · rw [homeward_channel]
        exact hn.homeward svc hm hcont (hn.value hm hv)
      · rw [homeward_channel]
        exact hn.homeward svc hm hcont (hn.live hold)
    · intro w m' v hm' hv
      have hold := hn.value (hmessage hm').2 hv
      by_cases hch : v.channel = k.channel
      · rcases hk hcont with hsame | hnone
        · rw [hold, hch, Function.update_self, hsame, hn.cont hm hcont]
        · exact absurd hch (hnone hm' hv)
      · rw [Function.update_of_ne hch, hold]
    · -- no other message goes on with this channel
      intro w m' k' hm' hk'
      obtain ⟨hne, hold⟩ := hmessage hm'
      rw [Function.update_of_ne fun h => hne (hn.conts hold hm hk' hcont h)]
      exact hn.cont hold hk'

/-- A new process is bound to what was bound before, or to what it provides. -/
theorem Agrees.born (hn : n.Agrees f g) {q pool : Id} {provision : Endpoint}
    (hb : n.Born n' q pool provision)
    (hlive : ∀ {p : Id} {ph : Sym} {e : Endpoint}, n'.live p ph = some e →
      e = provision ∨ ∃ p' ph', n.live p' ph' = some e) :
    ∃ g', n'.Agrees f g' := by
  have hmessage : ∀ {z : Id} {m : Message}, n'.message z = some m → n.message z = some m := by
    intro z m hm
    rwa [hb.message] at hm
  refine ⟨Function.update g provision.channel (f provision), ?_, ?_, ?_,
    fun hm hm' => hn.conts (hmessage hm) (hmessage hm')⟩
  · intro p ph e hl
    rcases hlive hl with rfl | ⟨p', ph', hold⟩
    · rw [Function.update_self]
    · rw [Function.update_of_ne (hb.unused.live hold)]
      exact hn.live hold
  · intro z m v hm hv
    rw [Function.update_of_ne (hb.unused.value (hmessage hm) hv)]
    exact hn.value (hmessage hm) hv
  · intro z m k hm hk
    rw [Function.update_of_ne (hb.unused.cont (hmessage hm) hk)]
    exact hn.cont (hmessage hm) hk

end Net

/-! ## Steps -/

namespace Store

variable {s s' : Store} {f : Endpoint → Id} {g : Id → Id} {p : Id} {cfg : Configuration} {env : Env}
  {fresh : Fresh} {term : Term} {ctx : Context} {ep : Endpoint} {own : List Mark} {half : Half}
  {l : Landing} {j : Joined}

/-- Whether a message still sends one of the channels that have come home. -/
def strands (s : Store) (homes : List Endpoint) : Bool :=
  homes.any fun home => s.halves.values.any (Half.sends home.channel)

/-- `f` does not see where a channel has come home to, or no message sends such a channel. -/
def Reconciles (f : Endpoint → Id) (s : Store) (homes : List Endpoint) : Prop :=
  (∀ svc k, f (Drafting.continued svc k) = f k) ∨ s.strands homes = false

theorem strands_eq_true {homes : List Endpoint} {home v : Endpoint} {z : Id} {m : Message}
    (hhome : home ∈ homes) (hm : s.net.message z = some m) (hv : m.payload.value? = some v)
    (hch : v.channel = home.channel) : s.strands homes = true := by
  have hz := Table.mem_values_of_get?_eq_some (message_net_eq_some.1 hm)
  refine List.any_eq_true.2 ⟨home, hhome, List.any_eq_true.2 ⟨_, hz, ?_⟩⟩
  show (m.payload.value?).any (fun v => v.channel = home.channel) = true
  rw [hv]
  exact decide_eq_true hch

/-- What has come to its place stays there or meets its dual. -/
theorem agrees_of_joins {live : Live} {pending : Id → Option Half} {z : Id}
    (hj : Joins z half (pending z) j)
    (hn : ((Net.ofPending live pending s.poolOf?).add (half.movedTo z)).Agrees f g)
    (hnet : s'.net = .ofPending (j.homes.foldl Live.rehomed (live.after j.marks))
      (runSlots j.slots pending) s.poolOf?)
    (hf : s'.Reconciles f j.homes) : ∃ g', s'.net.Agrees f g' := by
  rcases Net.eq_or_met_of_joins live s.poolOf? hj rfl hnet with
    heq | ⟨m, svc, term, hm, hs, hr, hmet, hhomes⟩
  · rw [heq]
    exact ⟨g, hn⟩
  · rw [hmet]
    refine hn.meet svc hm fun {k} hk => ?_
    by_cases hsame : f (Drafting.continued svc k) = f k
    · exact .inl hsame
    right
    -- the continuation has come home, so no message sends it any more
    have hpool : (Drafting.continued svc k).pool ≠ k.pool := by
      intro h
      rw [Net.continued_eq_self h] at hsame
      exact hsame rfl
    have hhome : Drafting.continued svc k ∈ j.homes := by
      rw [hhomes, Service.homes, hk]
      dsimp only
      rw [Service.homeOf, if_pos hpool]
      exact List.mem_singleton_self _
    intro w m' v hm' hv hch
    rw [← hmet] at hm'
    rcases hf with hf | hf
    · exact hsame (hf svc k)
    · have hstrands := strands_eq_true hhome hm' hv (hch.trans (Net.continued_channel svc k).1.symm)
      rw [hf] at hstrands
      cases hstrands

theorem agrees_of_offer (hr : s.Reads p cfg) (hw : env.Within s.decls)
    (hcheck : checkStep cfg.pool env cfg term = .ok ctx) (hu : s.net.Unused fresh.channel)
    (ho : Offers env cfg fresh term ep own half) (hl : cfg.landing? ep.channel = some l)
    (hj : Joins l.channel half l.half j)
    (hc : s.Commits s' ⟨j.next, own ++ j.marks, l.takes ++ j.slots, j.homes, [], []⟩)
    (hn : s.net.Agrees f g) (hf : s'.Reconciles f j.homes) : ∃ g', s'.net.Agrees f g' := by
  obtain ⟨hep, hch, hfor⟩ := channel_of_offers ho
  obtain ⟨hleads, hhalf⟩ := leads_of_landing hr hep hl
  rw [hhalf] at hj
  have hend : cleared l.passed s.halves.get? l.channel = s.halves.get? l.channel :=
    if_neg hleads.notMem
  have hrest : ∀ {w : Id} {m : Message}, cleared l.passed s.halves.get? w = some (.message m) →
      s.net.message w = some m ∧ (half.message?.isSome → w ≠ ep.channel) := by
    intro w m hm
    have hthere : s.halves.get? w = some (.message m) := by
      unfold cleared at hm
      split at hm
      · cases hm
      · exact hm
    refine ⟨message_net_eq_some.2 hthere, ?_⟩
    rintro hsome rfl
    have hnone := (free_of_joins hleads hj ep.channel (.inr (.inr rfl))).1 hsome
    rw [hthere] at hnone
    cases hnone
  -- first the half is left where it was offered
  obtain ⟨n, g', hn', hlive, hhere, hold⟩ : ∃ n g', Net.Agrees f g' n ∧ n.live = s.live.after own ∧
      (∀ {m : Message}, half.message? = some m → n.message ep.channel = some m) ∧
      ∀ {w : Id} {m : Message}, s.net.message w = some m →
        (half.message?.isSome → w ≠ ep.channel) → n.message w = some m := by
    cases half with
    | message m =>
      obtain ⟨given, hemits, hlive, hm⟩ := emits_of_offers hr hw hcheck ho
      obtain ⟨g', hg'⟩ := hn.emit hemits hu
      refine ⟨_, g', hg', hlive.symm, ?_, ?_⟩
      · rintro m' ⟨⟩
        rw [Net.emitted, ← hm]
        exact Function.update_self ..
      · intro w m' hw hne
        exact (Function.update_of_ne (hne rfl) ..).trans hw
    | service svc =>
      refine ⟨s.net, g, hn, ?_, ?_, fun hm _ => hm⟩
      · cases ho
        rfl
      · rintro m' ⟨⟩
    | forward fw => cases hfor
  have hplace : ((Net.ofPending (s.live.after own) (cleared l.passed s.halves.get?)
      s.poolOf?).add (half.movedTo l.channel)).Agrees f g' := by
    refine hn'.place half (fun h => hlive ▸ h) hhere fun hm => ?_
    obtain ⟨hm, hne⟩ := hrest hm
    exact ⟨hold hm hne, hne⟩
  refine agrees_of_joins (hend.symm ▸ hj) hplace ?_ hf
  rw [net_of_commits hc rfl, Live.after_append, runSlots_append, runSlots_takes]

/-- A forward that is handed over leaves the bindings of others. -/
theorem live_of_handedOver {via target : Sym} {x y e : Endpoint} {q : Id} {ph : Sym}
    (h : s.live.after (Drafting.handedOver cfg via target x y) q ph = some e) :
    s.live q ph = some e := by
  rcases Live.after_eq_some h with h | ⟨k, hk, hi, -⟩
  · exact h
  · simp only [Drafting.handedOver, List.mem_cons, List.not_mem_nil, or_false] at hk
    rcases hk with rfl | rfl <;> cases hi

variable {via target : Sym} {x y : Endpoint}

theorem agrees_of_relay
    (hc : s.Commits s' ⟨none, Drafting.handedOver cfg via target x y,
      l.takes ++ [.put (.forward ⟨y.channel, cfg.pool, cfg.process, l.channel⟩)], [], [], []⟩)
    (hn : s.net.Agrees f g) : s'.net.Agrees f g := by
  rw [net_of_commits hc rfl]
  refine hn.mono live_of_handedOver fun {z m} hm => ?_
  obtain ⟨half, hhalf, hm⟩ := Option.bind_eq_some_iff.1 hm
  cases Half.message?_eq_some.1 hm
  rcases mem_of_runSlots hhalf with hold | ⟨hput, -⟩
  · exact message_net_eq_some.2 hold
  · simp [Landing.takes] at hput

theorem agrees_of_redirect (hr : s.Reads p cfg) (hx : cfg.channels.get? via = some x)
    (hy : cfg.channels.get? target = some y) (hl : cfg.landing? x.channel = some l) {left : Half}
    (hleft : cfg.halves.get? y.channel = some left) (hj : Joins l.channel left l.half j)
    (hc : s.Commits s' ⟨j.next, Drafting.handedOver cfg via target x y ++ j.marks,
      l.takes ++ (.take y.channel :: j.slots), j.homes, [], []⟩)
    (hn : s.net.Agrees f g) (hf : s'.Reconciles f j.homes) : ∃ g', s'.net.Agrees f g' := by
  have hthere : s.halves.get? y.channel = some left :=
    (hr.get?_halves ((hr.channels _).symm.trans hy)).symm.trans hleft
  obtain ⟨hleads, hhalf⟩ := leads_of_landing hr hx hl
  rw [hhalf] at hj
  -- the half cannot be joined with itself, so the forward leads elsewhere
  have hzy : l.channel ≠ y.channel := by
    intro e
    rw [e, hthere] at hj
    cases hj
  obtain ⟨rest, hrest⟩ : ∃ rest, rest =
      Function.update (cleared l.passed s.halves.get?) y.channel none := ⟨_, rfl⟩
  have hrz : rest l.channel = s.halves.get? l.channel := by
    rw [hrest, Function.update_of_ne hzy, cleared, if_neg hleads.notMem]
  have hplace : ((Net.ofPending (s.live.after (Drafting.handedOver cfg via target x y)) rest
      s.poolOf?).add (left.movedTo l.channel)).Agrees f g := by
    refine hn.place left (fun h => live_of_handedOver h) (x := y.channel) ?_ fun {w m} hm => ?_
    · intro m hm
      rw [Half.message?_eq_some.1 hm] at hthere
      exact message_net_eq_some.2 hthere
    · rw [hrest] at hm
      rcases Net.update_eq_some hm with ⟨-, hnew⟩ | ⟨hne, hm⟩
      · cases hnew
      · unfold cleared at hm
        split at hm
        · cases hm
        · exact ⟨message_net_eq_some.2 hm, fun _ => hne⟩
  refine agrees_of_joins (hrz.symm ▸ hj) hplace ?_ hf
  rw [net_of_commits hc rfl, Live.after_append, runSlots_append, runSlots_takes, hrest]
  rfl

/-- A step keeps copies alike, as long as none is left behind when a channel comes home. -/
theorem Steps.agrees {spec : StepSpec} {next : Option StepSpec} {pl : Plan}
    (hst : s.Steps s' fresh spec next pl) (hu : s.net.Unused fresh.channel)
    (hn : s.net.Agrees f g) (hf : s'.Reconciles f pl.homes) : ∃ g', s'.net.Agrees f g' := by
  rcases hst.net with ⟨hmem, -⟩ | ⟨pool, via, ph, provision, gifts, hfounds, -⟩
  · obtain ⟨cfg, env, hd, -⟩ := hst.derives
    obtain ⟨ctx, hcheck⟩ := hd.checked
    have hc := hst.commits
    have hmoves := hd.moves
    generalize spec.term = term at hmoves hcheck
    cases hmoves with
    | offer ho hl hj => exact agrees_of_offer hd.reads hd.within hcheck hu ho hl hj hc hn hf
    | relay => exact ⟨g, agrees_of_relay hc hn⟩
    | redirect hx hy hl hthere hnode hdir hj =>
      exact agrees_of_redirect hd.reads hx hy hl hthere hj hc hn hf
    | call => cases hmem
    | spawn => cases hmem
  · exact hn.born hfounds.toBorn hfounds.live_of_live

end Store

/-! ## Runs -/

namespace Engine

/-- Whether a step brings a channel home that a message still sends. -/
def strands (e : Engine) (spec : StepSpec) : Bool :=
  match e.store.deriveStep e.ids.fresh spec with
  | .ok (_, m) =>
    match e.store.commit m with
    | .ok s => s.strands m.homes
    | .error _ => false
  | .error _ => false

/-- Everything that calls do keeps copies alike, if the steps leave none behind. -/
theorem keeps_agrees {ok : Engine → StepSpec → Prop} {f : Endpoint → Id}
    (hok : ∀ {e : Engine} {spec : StepSpec} {next : Option StepSpec} {m : Change} {s : Store},
      ok e spec → e.store.deriveStep e.ids.fresh spec = .ok (next, m) →
      e.store.commit m = .ok s → s.Reconciles f m.homes) :
    Keeps ok fun e => e.Valid ∧ ∃ g, e.store.net.Agrees f g where
  created := by
    rintro e e' c ref ⟨hv, g, hg⟩ h hy
    obtain ⟨-, sig, provision, receptions, hcr⟩ := hv.creating h hy
    exact ⟨hv.created h hy, hg.born hcr.net.toBorn hcr.net.live_of_live⟩
  redefines := by
    rintro e e' ⟨hv, hg⟩ h
    refine ⟨hv.redefines h, ?_⟩
    rw [h.net_eq]
    exact hg
  declares := by
    rintro e e' ⟨hv, hg⟩ h
    refine ⟨(hv.declares h).1, ?_⟩
    rw [h.net_eq]
    exact hg
  addLiability := by
    rintro e e' l rev ⟨hv, hg⟩ h hi hy
    obtain ⟨hv', hnet, -⟩ := hv.addLiability h hi hy
    refine ⟨hv', ?_⟩
    rw [hnet]
    exact hg
  step := by
    rintro e e' spec next m ⟨hv, g, hg⟩ hspec h hc hi hy
    obtain ⟨pl, hst⟩ := hv.steps h hc hy
    obtain ⟨m', h', hfills⟩ := hst.fills
    cases h.symm.trans h'
    have hhomes := hok hspec h hc
    rw [hfills.homes] at hhomes
    exact ⟨hv.step h hc hi hy, hst.agrees (hv.new e.fresh_lt.1).unused hg hhomes⟩

theorem agrees_start (settings : Settings) (ids : Supply) (f : Endpoint → Id) :
    (start settings ids).Valid ∧ ∃ g, (start settings ids).store.net.Agrees f g :=
  ⟨(wellTyped_start settings ids).toValid, id, nofun, nofun, nofun, nofun⟩

/-- Along a run from the empty store two live bindings of a channel are of one type. They are the
same endpoint, as long as no step has brought a channel home that a message still sends. -/
theorem endpoints_agree (settings : Settings) (ids : Supply) (calls : List Call)
    (hy : ((start settings ids).final calls).store.Young) {e : Engine}
    (he : e ∈ (start settings ids).states calls) {p q : Id} {ph ph' : Sym} {ep ep' : Endpoint}
    (h : (e.store.channelsOf p).get? ph = some ep) (h' : (e.store.channelsOf q).get? ph' = some ep')
    (hch : ep.channel = ep'.channel) :
    ep.type = ep'.type ∧
      ((∀ a ∈ (start settings ids).attempts calls, a.1.strands a.2 = false) → ep = ep') := by
  rw [Store.channelsOf_get?] at h h'
  have htype : ep.type = ep'.type := by
    have hkeeps : Keeps (fun _ _ => True) fun e =>
        e.Valid ∧ ∃ g, e.store.net.Agrees Endpoint.type g :=
      keeps_agrees fun _ _ _ => .inl fun svc k => (Net.continued_channel svc k).2
    obtain ⟨-, g, hg⟩ := hkeeps.moments calls (agrees_start settings ids _) (fun _ _ => trivial) hy
      e (List.mem_append_left _ he)
    rw [hg.live h, hg.live h', hch]
  refine ⟨htype, fun hnone => ?_⟩
  have hpool : ep.pool = ep'.pool := by
    have hkeeps : Keeps (fun e spec => e.strands spec = false) fun e =>
        e.Valid ∧ ∃ g, e.store.net.Agrees Endpoint.pool g := by
      refine keeps_agrees fun hspec hd hc => .inr ?_
      unfold strands at hspec
      rw [hd] at hspec
      dsimp only at hspec
      rw [hc] at hspec
      exact hspec
    obtain ⟨-, g, hg⟩ := hkeeps.moments calls (agrees_start settings ids _) hnone hy e
      (List.mem_append_left _ he)
    rw [hg.live h, hg.live h', hch]
  cases ep
  cases ep'
  cases hch
  cases htype
  cases hpool
  rfl

/-- A function, a relay of it, and a caller that holds an argument; somebody waits for the caller. -/
def homing (steps : List StepSpec) : List Call :=
  [.createType Small.unit .one,
    .createType Small.function (.lolli (.link Small.unit) (.link Small.unit)),
    .createType Small.pair (.tensor (.link Small.unit) (.link Small.unit)),
    .createSig ⟨Small.closer, ⟨"x", Small.unit⟩, []⟩,
    .createSig ⟨Small.function, ⟨"x", Small.function⟩, []⟩,
    .createSig ⟨Small.relay, ⟨"x", Small.function⟩, [⟨"y", Small.function⟩]⟩,
    .createSig ⟨Small.sender, ⟨"g", Small.pair⟩, [⟨"y", Small.function⟩, ⟨"v", Small.unit⟩]⟩,
    .createSig ⟨Small.waiter, ⟨"self", Small.unit⟩, [⟨"g", Small.pair⟩]⟩,
    .createPool none none, .createPool none none, .createPool none none, .createPool none none,
    .createPool none none,
    .create ⟨.nth 15, .nth 10, ∅⟩, .create ⟨.nth 16, .nth 11, ∅⟩,
    .create ⟨.nth 17, .nth 12, .ofList [("y", .nth 23)]⟩,
    .create ⟨.nth 18, .nth 13, .ofList [("y", .nth 26), ("v", .nth 20)]⟩,
    .create ⟨.nth 19, .nth 14, .ofList [("g", .nth 29)]⟩] ++ steps.map Call.step

/-- The argument is sent to the relay, and the function is there for it when the relay forwards. -/
def homed : List Call :=
  homing [⟨.nth 18, .nth 30, .send "y" "v"⟩,
    ⟨.nth 16, .nth 24, .recv "x" "a" (.wait "a" (.close "x"))⟩, ⟨.nth 17, .nth 27, .fwd "x" "y"⟩]

/-- What a placeholder is bound to after that. -/
def homedEnd (process : Nat) (ph : Sym) : Option Endpoint :=
  (((start {} ⟨0⟩).final homed).store.channelsOf (.nth process)).get? ph

/-- The continuation has come home to the pool of the function, for the caller as well. -/
theorem endpoints_agree_homed :
    ∃ ep, homedEnd 30 "y" = some ep ∧ homedEnd 24 "x" = some ep ∧
      ep.pool = .nth 16 := by
  have hy : ((start {} ⟨0⟩).final homed).store.Young := Store.young_of_values (by decide +kernel)
  have hnone : ∀ a ∈ (start {} ⟨0⟩).attempts homed, a.1.strands a.2 = false := by decide +kernel
  have hsome : (homedEnd 30 "y").isSome = true ∧ (homedEnd 24 "x").isSome = true := by
    decide +kernel
  have hch : (homedEnd 30 "y").map Endpoint.channel = (homedEnd 24 "x").map Endpoint.channel := by
    decide +kernel
  have hpool : (homedEnd 30 "y").map Endpoint.pool = some (.nth 16) := by decide +kernel
  obtain ⟨ep, hep⟩ := Option.isSome_iff_exists.1 hsome.1
  obtain ⟨ep', hep'⟩ := Option.isSome_iff_exists.1 hsome.2
  rw [hep, hep'] at hch
  rw [hep] at hpool
  obtain ⟨-, heq⟩ := endpoints_agree {} ⟨0⟩ homed hy (mem_states_final _ _) hep hep'
    (Option.some.inj hch)
  rw [← heq hnone] at hep'
  exact ⟨ep, hep, hep', Option.some.inj hpool⟩

-- the caller gives its end away before the relay forwards, and it is received with the pool of the
-- relay on record
example :
    let calls := homing [⟨.nth 18, .nth 30, .send "y" "v"⟩, ⟨.nth 18, .nth 30, .send "g" "y"⟩,
      ⟨.nth 16, .nth 24, .recv "x" "a" (.wait "a" (.close "x"))⟩, ⟨.nth 17, .nth 27, .fwd "x" "y"⟩,
      ⟨.nth 19, .nth 33, .recv "g" "w" (.wait "w" (.wait "g" (.close "self")))⟩]
    let s := ((start {} ⟨0⟩).final calls).store
    ((start {} ⟨0⟩).attempts calls).any (fun a => a.1.strands a.2) = true ∧
      ((s.channelsOf (.nth 24)).get? "x").map Endpoint.pool = some (.nth 16) ∧
      ((s.channelsOf (.nth 33)).get? "w").map Endpoint.pool = some (.nth 17) := by
  decide +kernel

end Engine

end Rendezvous
