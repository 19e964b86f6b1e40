import Rendezvous.Proofs.Stations

/-!
# A rendezvous through forwards, in any order

Two stations act on the two ends of a line of channels, and relays in between forward one channel to
the next. Whatever the order in which they take their steps, the rendezvous is the same.

- `Trade` is what a producer and a consumer agree on, read off their terms: what the consumer goes on
  with, whether the channel goes on, and what is handed over;
- `Deal` says that the halves of the outer stations come together in such a trade, whatever channel
  the producer has drawn for the rest, and `Line.outcome` is what everybody is bound to then;
- `At.exists_step` is one step and `At.exists_steps` a run of them, by induction over the order.

`Ready.any_order` is the result: all steps succeed, only the last one has a next step, nothing is left
on the line, and the bindings are the `outcome`, in which nothing depends on the order but the name
of the one new channel.
-/

namespace Rendezvous

/-! ## Trades -/

/-- A producer and a consumer, what the consumer goes on with, whether their channel goes on, and
which placeholder of the producer is handed over as which one of the consumer. -/
inductive Trade : Term → Term → Term → Bool → Option (Sym × Sym) → Prop
  | close {via via' : Sym} {cont : Term} : Trade (.close via) (.wait via' cont) cont false none
  | send {via value via' ph : Sym} {cont : Term} :
    Trade (.send via value) (.recv via' ph cont) cont true (some (value, ph))
  | lab {via label via' : Sym} {conts : List (Sym × Term)} {cont : Term}
    (h : Table.find? label conts = some cont) :
    Trade (.lab via label) (.case via' conts) cont true none
  | acquire {via via' : Sym} {cont : Term} : Trade (.acquire via) (.accept via' cont) cont true none
  | detach {via via' : Sym} {cont : Term} : Trade (.detach via) (.release via' cont) cont true none

theorem Trade.unique {t t' cont cont' : Term} {goesOn goesOn' : Bool}
    {handed handed' : Option (Sym × Sym)} (h : Trade t t' cont goesOn handed)
    (h' : Trade t t' cont' goesOn' handed') :
    cont = cont' ∧ goesOn = goesOn' ∧ handed = handed' := by
  cases h with
  | lab hfind =>
    cases h' with
    | lab hfind' => exact ⟨Option.some.inj (hfind.symm.trans hfind'), rfl, rfl⟩
  | _ =>
    cases h'
    exact ⟨rfl, rfl, rfl⟩

/-- The type that a channel goes on with when a term produces on it. -/
def Term.nextType? : Term → TypeNode → Option Id
  | .send .., .tensor _ type | .send .., .lolli _ type => some type
  | .lab _ label, .plus choices | .lab _ label, .with choices => choices.get? label
  | .acquire _, .up type => some type
  | .detach _, .down type => some type
  | _, _ => none

namespace Live

/-- All bindings point where `f` says. -/
def mapped (v : Live) (f : Endpoint → Endpoint) : Live := fun p ph => (v p ph).map f

/-- The bindings after a process has received something, if it has. -/
def received (v : Live) (p : Id) (ph : Option Sym) (e : Option Endpoint) : Live :=
  match ph with
  | some ph => v.set p ph e
  | none => v

theorem mapped_acted (v : Live) (f : Endpoint → Endpoint) (p : Id) (via : Sym)
    (next : Option Endpoint) (given : Option Sym) :
    (v.acted p via next given).mapped f = (v.mapped f).acted p via (next.map f) given := by
  funext q ph
  unfold mapped acted
  grind

theorem mapped_received (v : Live) (f : Endpoint → Endpoint) (p : Id) (ph : Option Sym)
    (e : Option Endpoint) : (v.received p ph e).mapped f = (v.mapped f).received p ph (e.map f) := by
  cases ph with
  | none => rfl
  | some ph =>
    funext q ph'
    unfold mapped received set
    grind

/-- Nothing moves if `f` leaves alone whatever is bound. -/
theorem mapped_of_fixed {v : Live} {f : Endpoint → Endpoint}
    (h : ∀ p ph e, v p ph = some e → f e = e) : v.mapped f = v := by
  funext p ph
  unfold mapped
  cases hv : v p ph with
  | none => rfl
  | some e => rw [Option.map_some, h p ph e hv]

end Live

/-- The continuation comes home as the consumer sees it. -/
theorem Service.homeward_cont (svc : Service) (payload : Payload) :
    payload.cont?.map (svc.homeward payload) = payload.cont?.map (Drafting.continued svc) ∧
      (payload.cont?.map (Drafting.continued svc)).map (svc.homeward payload) =
        payload.cont?.map (Drafting.continued svc) := by
  cases hn : payload.cont? with
  | none => exact ⟨rfl, rfl⟩
  | some n =>
    have hsame : (Drafting.continued svc n).pool = n.pool → Drafting.continued svc n = n := by
      unfold Drafting.continued
      split
      · exact fun hpool => congrArg (Endpoint.mk n.channel n.type) hpool
      · exact fun _ => rfl
    have hhome : ∀ e : Endpoint, e.channel = n.channel → (e = n ∨ e = Drafting.continued svc n) →
        svc.homeward payload e = Drafting.continued svc n := by
      intro e hch he
      unfold Service.homeward
      rw [hn]
      dsimp only
      by_cases hpool : (Drafting.continued svc n).pool = n.pool
      · rw [if_neg fun hne => hne.1 hpool]
        rcases he with rfl | rfl
        · exact (hsame hpool).symm
        · rfl
      · exact if_pos ⟨hpool, hch⟩
    exact ⟨congrArg some (hhome n rfl (.inl rfl)),
      congrArg some (hhome _ (Net.continued_channel svc n).1 (.inr rfl))⟩

theorem Service.channel_of_home {svc : Service} {payload : Payload} {home : Endpoint}
    (h : home ∈ svc.homes payload) : ∃ n, payload.cont? = some n ∧ home.channel = n.channel := by
  unfold Service.homes at h
  split at h
  next n hn =>
    unfold Service.homeOf at h
    split at h
    · rw [List.mem_singleton.1 h]
      exact ⟨n, hn, (Net.continued_channel svc n).1⟩
    · cases h
  · cases h

section

variable {env : Env} {cfg : Configuration} {fresh : Fresh} {term term' cont : Term} {ep : Endpoint}
  {own : List Mark} {m : Message} {svc : Service}

/-- A message that is taken makes a trade. The bindings of both sides are changed as it says. -/
theorem trade_of_offers (ho : Offers env cfg fresh term ep own (.message m))
    (hh : term'.handler? = some svc.handler) (hr : svc.reply m.payload = some cont) :
    ∃ handed, Trade term term' cont m.payload.cont?.isSome handed ∧
      (∀ value ph, handed = some (value, ph) → cfg.channels.get? value = m.payload.value?) ∧
      (∀ v : Live, v.after own =
        v.acted cfg.process term.via m.payload.cont? (handed.map Prod.fst)) ∧
      ∀ v : Live, v.after (svc.marks m.payload) =
        (v.acted svc.process svc.via (m.payload.cont?.map (Drafting.continued svc)) none).received
          svc.process (handed.map Prod.snd) m.payload.value? := by
  obtain ⟨c, π, p, at', e, handler⟩ := svc
  generalize hhalf : Half.message m = half at ho
  cases ho with
  | close hep =>
    cases hhalf
    cases term' <;> cases hh <;> cases hr
    exact ⟨none, .close, nofun, fun v => v.after_discard .., fun v => v.after_discard ..⟩
  | @send via value ep given id type node hep hnode hc hv =>
    cases hhalf
    cases term' with
    | recv via' ph cont' =>
      cases hh
      obtain rfl : cont' = cont := by
        unfold Service.reply at hr
        dsimp only at hr
        split at hr
        · cases hr
        · exact Option.some.inj hr
      refine ⟨some (value, ph), .send, ?_, fun v => v.after_give .., fun v => ?_⟩
      · rintro _ _ ⟨⟩
        exact hv
      · exact congrArg (·.set p ph (some given)) (v.after_advance ..)
    | _ => cases hh <;> cases hr
  | pass hep hnode hp =>
    cases hhalf
    cases hp with
    | plus h | «with» h =>
      cases term' with
      | case via' conts =>
        cases hh
        exact ⟨none, .lab hr, nofun, fun v => v.after_advance .., fun v => v.after_advance ..⟩
      | _ => cases hh <;> cases hr
    | up =>
      cases term' <;> cases hh <;> cases hr
      exact ⟨none, .acquire, nofun, fun v => v.after_advance .., fun v => v.after_advance ..⟩
    | down =>
      cases term' <;> cases hh <;> cases hr
      exact ⟨none, .detach, nofun, fun v => v.after_advance .., fun v => v.after_advance ..⟩
  | consume => cases hhalf

/-- What a message goes on with is the channel that was drawn, with the type that the connective
gives. -/
theorem next_of_offers (ho : Offers env cfg fresh term ep own (.message m)) {next : Endpoint}
    (hn : m.payload.cont? = some next) :
    next.channel = fresh.channel ∧ next.pool = ep.pool ∧
      ∃ id node, env.resolve ep.type = .ok (id, node) ∧ term.nextType? node = some next.type := by
  generalize hhalf : Half.message m = half at ho
  cases ho with
  | close =>
    cases hhalf
    cases hn
  | send hep hnode hc hv =>
    cases hhalf
    cases hn
    cases hc <;> exact ⟨rfl, rfl, _, _, hnode, rfl⟩
  | pass hep hnode hp =>
    cases hhalf
    cases hp <;> cases hn <;> exact ⟨rfl, rfl, _, _, hnode, by first | assumption | rfl⟩
  | consume => cases hhalf

/-- A message with a channel in it was sent. -/
theorem send_of_offers (ho : Offers env cfg fresh term ep own (.message m)) {value : Endpoint}
    (hv : m.payload.value? = some value) :
    ∃ via ph, term = .send via ph ∧ cfg.channels.get? ph = some value := by
  generalize hhalf : Half.message m = half at ho
  cases ho with
  | close =>
    cases hhalf
    cases hv
  | send hep hnode hc hgiven =>
    cases hhalf
    cases hv
    exact ⟨_, _, rfl, hgiven⟩
  | pass hep hnode hp =>
    cases hhalf
    cases hp <;> cases hv
  | consume => cases hhalf

end

/-! ## The deal -/

namespace Line

variable {l : Line} {s s₀ : Store} {p c : ℕ} {cont : Term} {goesOn : Bool}
  {handed : Option (Sym × Sym)} {type : Id} {drawn : ℕ → Id} {m : Message} {svc : Service}

/-- The bindings once the relays are gone. -/
def settled (l : Line) (v : Live) : Live :=
  fun q ph => if ∃ i < l.relays, q = l.process (i + 1) then none else v q ph

/-- The bindings in the end. The relays are gone, both outer stations go on with `next`, and what is
handed over is the consumer's. -/
def outcome (l : Line) (v : Live) (p c : ℕ) (next : Option Endpoint) (handed : Option (Sym × Sym)) :
    Live :=
  (((l.settled v).acted (l.process p) (l.term p).via next (handed.map Prod.fst)).acted
    (l.process c) (l.term c).via next none).received
      (l.process c) (handed.map Prod.snd) (handed.bind fun pair => v (l.process p) pair.1)

/-- What the channel that station `p` has drawn goes on as. -/
def continuation (l : Line) (goesOn : Bool) (type k : Id) : Option Endpoint :=
  if goesOn then some ⟨k, type, (l.endpoint 0).pool⟩ else none

/-- The halves of the outer stations as they come together, whatever channels have been drawn. -/
structure Deal (o : l.Offering s) (p c : ℕ) (cont : Term) (goesOn : Bool)
    (handed : Option (Sym × Sym)) (type : Id) (drawn : ℕ → Id) (m : Message) (svc : Service) :
    Prop where
  meets : (o.half 0 (drawn 0)).Meets (o.half (l.relays + 1) (drawn (l.relays + 1))) m svc
  reply : svc.reply m.payload = some cont
  pool : svc.pool = l.pool c
  process : svc.process = l.process c
  /-- The continuation is on the channel that the producer has drawn, and the consumer takes it to the
  pool of the first station. -/
  next : m.payload.cont?.map (Drafting.continued svc) = l.continuation goesOn type (drawn p)
  drew : ∀ n, m.payload.cont? = some n → n.channel = drawn p
  value : ∀ v ph, handed = some (v, ph) → s.live (l.process p) v = m.payload.value?
  waits : o.own c (drawn c) = []
  producer : ∀ v : Live, v.after (o.own p (drawn p)) =
    v.acted (l.process p) (l.term p).via m.payload.cont? (handed.map Prod.fst)
  consumer : ∀ v : Live, v.after (svc.marks m.payload) =
    (v.acted (l.process c) (l.term c).via (m.payload.cont?.map (Drafting.continued svc))
      none).received (l.process c) (handed.map Prod.snd) m.payload.value?

/-- Outer stations are at the ends. -/
theorem Ends.outer (h : l.Ends p c) : (p = 0 ∨ p = l.relays + 1) ∧ (c = 0 ∨ c = l.relays + 1) := by
  unfold Ends at h
  omega

/-- The channel that the producer acts on goes on, for the consumer, in the pool of the first
station. -/
theorem continued_eq (hclient : (l.endpoint l.relays).pool ≠ l.far) (hends : l.Ends p c) {channel π q : Id} {via : Sym}
    {handler : Handler} (hπ : π = l.pool c) (k type : Id) :
    Drafting.continued ⟨channel, π, q, via, l.edge c, handler⟩ ⟨k, type, (l.edge p).pool⟩ =
      ⟨k, type, (l.endpoint 0).pool⟩ := by
  subst hπ
  rcases hends with ⟨rfl, rfl⟩ | ⟨rfl, rfl⟩
  · rw [Net.continued_of_client]
    · rfl
    · rw [edge_last, pool_last]
      exact hclient
  · rw [Net.continued_of_provider]
    · rw [pool_of_le (Nat.zero_le _)]
    · rw [edge_zero, pool_of_le (Nat.zero_le _)]

namespace Offering

variable (o : l.Offering s)

/-- Of two halves that come together, one is the producer's and the other the consumer's. -/
theorem exists_ends (drawn : ℕ → Id)
    (hmeets : (o.half 0 (drawn 0)).Meets (o.half (l.relays + 1) (drawn (l.relays + 1))) m svc) :
    ∃ p c, l.Ends p c ∧ o.half p (drawn p) = .message m ∧ o.half c (drawn c) = .service svc := by
  rcases hmeets.halves with ⟨hm, hs⟩ | ⟨hs, hm⟩
  · exact ⟨0, l.relays + 1, .inl ⟨rfl, rfl⟩, hm, hs⟩
  · exact ⟨l.relays + 1, 0, .inr ⟨rfl, rfl⟩, hm, hs⟩

/-- The two halves come together. -/
theorem exists_meets (h : l.Ready s) (hk : s.Keyed) (drawn : ℕ → Id) :
    ∃ m svc cont,
      (o.half 0 (drawn 0)).Meets (o.half (l.relays + 1) (drawn (l.relays + 1))) m svc ∧
      svc.reply m.payload = some cont := by
  obtain ⟨node, hfirst, hlast, -⟩ := o.exists_shape h hk
  refine (hfirst (drawn 0)).meets (hlast (drawn (l.relays + 1))) nofun fun {m svc v} hmeets hv => ?_
  obtain ⟨p, c, hends, hm, hs⟩ := o.exists_ends drawn hmeets
  have hsvc := o.pool_half hends.outer.2 (drawn c)
  have ho := o.offers p hends.outer.1 (drawn p)
  rw [hs] at hsvc
  rw [hm] at ho
  obtain ⟨via, value, hterm, hvalue⟩ := send_of_offers ho hv
  rw [show svc.pool = l.pool c from hsvc]
  refine h.apart hends hterm ?_
  rw [← hvalue]
  have hp : p ≤ l.relays + 1 := by
    have := hends.outer.1
    omega
  exact ((o.reads hk hp).channels value).symm

/-- Which station is the producer does not depend on what is drawn. -/
theorem ends_unique {p' c' : ℕ} {k k' : Id} (hends : l.Ends p c)
    (hm : o.half p k = .message m) (hends' : l.Ends p' c') (hs : o.half c' k' = .service svc) :
    p = p' ∧ c = c' := by
  have ho := service?_of_offers (o.offers p hends.outer.1 k)
  have ho' := service?_of_offers (o.offers c' hends'.outer.2 k')
  rw [hm] at ho
  rw [hs] at ho'
  have hne : p ≠ c' := by
    rintro rfl
    cases ho.trans ho'.symm
  unfold Ends at hends hends'
  omega

/-- The outer stations make a deal, which is the same whatever is drawn. -/
theorem exists_deal (h : l.Ready s) (hk : s.Keyed) :
    ∃ p c cont goesOn handed type, l.Ends p c ∧ Trade (l.term p) (l.term c) cont goesOn handed ∧
      ∀ drawn, ∃ m svc, Deal o p c cont goesOn handed type drawn m svc := by
  obtain ⟨m₀, svc₀, cont, hmeets₀, hreply₀⟩ := o.exists_meets h hk fun _ => default
  obtain ⟨p, c, hends, hm₀, hs₀⟩ := o.exists_ends (fun _ => default) hmeets₀
  obtain ⟨hp, hc⟩ := hends.outer
  have ho₀ := o.offers p hp default
  have hservice₀ := o.offers c hc default
  rw [hm₀] at ho₀
  rw [hs₀] at hservice₀
  obtain ⟨handler, hh, rfl, -⟩ := service_of_offers hservice₀
  obtain ⟨handed, htrade, -⟩ := trade_of_offers ho₀ hh hreply₀
  refine ⟨p, c, cont, _, handed, (m₀.payload.cont?.map Endpoint.type).getD default, hends, htrade,
    fun drawn => ?_⟩
  obtain ⟨m, svc, cont', hmeets, hreply⟩ := o.exists_meets h hk drawn
  obtain ⟨p', c', hends', hm, hs⟩ := o.exists_ends drawn hmeets
  obtain ⟨rfl, rfl⟩ := o.ends_unique hends hm₀ hends' hs
  have ho := o.offers p hp (drawn p)
  have hservice := o.offers c hc (drawn c)
  rw [hm] at ho
  rw [hs] at hservice
  obtain ⟨handler', hh', rfl, hown⟩ := service_of_offers hservice
  cases hh.symm.trans hh'
  obtain ⟨handed', htrade', hvalue, hproducer, hconsumer⟩ := trade_of_offers ho hh hreply
  obtain ⟨rfl, hgo, rfl⟩ := htrade.unique htrade'
  have hpr : p ≤ l.relays + 1 := by omega
  have hcr : c ≤ l.relays + 1 := by omega
  rw [o.cfg_process hk hpr] at hproducer
  refine ⟨m, _, hmeets, hreply, o.cfg_pool hcr, o.cfg_process hk hcr, ?_, fun n hn => ?_,
    fun v ph hv => ?_, hown, hproducer, ?_⟩
  · cases hn : m.payload.cont? with
    | none =>
      rw [hgo, hn]
      rfl
    | some n =>
      rw [hn] at hgo
      obtain ⟨n₀, hn₀⟩ := Option.isSome_iff_exists.1 hgo
      obtain ⟨hchannel, hpool, id, node, hres, htype⟩ := next_of_offers ho hn
      obtain ⟨-, -, id₀, node₀, hres₀, htype₀⟩ := next_of_offers ho₀ hn₀
      cases hres.symm.trans hres₀
      have heq : n = ⟨drawn p, n₀.type, (l.edge p).pool⟩ := by
        obtain ⟨channel, t, pool⟩ := n
        exact congr (congrArg₂ Endpoint.mk hchannel (Option.some.inj (htype.symm.trans htype₀))) hpool
      rw [heq, hn₀, Option.map_some, continued_eq (o.client h hk) hends (o.cfg_pool hcr)]
      rfl
  · exact (next_of_offers ho hn).1
  · rw [← hvalue v ph hv]
    exact ((o.reads hk hpr).channels v).symm
  · rw [← o.cfg_process hk hcr]
    exact hconsumer

/-- A relay has nothing but the two channels that it connects. -/
theorem relay_only (o : l.Offering s) (hk : s.Keyed) {i : ℕ} (hi : i < l.relays) {ph : Sym} {e : Endpoint}
    (he : s.live (l.process (i + 1)) ph = some e) : ph = l.out (i + 1) ∨ ph = l.into i := by
  have hj : i + 1 ≤ l.relays + 1 := by omega
  have hcheck := (o.admits (i + 1) hj).checked
  rw [show (l.spec (i + 1)).term = _ from term_relay hi] at hcheck
  obtain ⟨x, y, id, node, -, -, -, -, honly, -⟩ := joins_of_checkStep.1 hcheck
  exact honly ph e (((o.reads hk hj).channels ph).trans he)

/-- A relay that has acted is bound to nothing. -/
theorem after_relay (hk : s.Keyed) {i : ℕ} (hi : i < l.relays) (drawn : ℕ → Id) (ph : Sym) :
    s.live.after (o.marks drawn (i + 1)) (l.process (i + 1)) ph = none := by
  rw [o.marks_relay hi, Drafting.handedOver, Configuration.mark, Configuration.mark,
    Live.after_handOver, o.cfg_process hk (by omega), Live.acted, if_pos rfl]
  split
  · rfl
  next hout =>
  split
  · rfl
  next hinto =>
  cases he : s.live (l.process (i + 1)) ph with
  | none => rfl
  | some e =>
    rcases o.relay_only hk hi he with rfl | rfl
    · exact absurd rfl hout
    · exact absurd rfl hinto

end Offering

theorem settled_of_outer (h : l.Ready s) {i : ℕ} (hi : i = 0 ∨ i = l.relays + 1) (v : Live)
    (ph : Sym) : l.settled v (l.process i) ph = v (l.process i) ph := by
  refine if_neg ?_
  rintro ⟨j, hj, heq⟩
  have := h.processes (show i ≤ l.relays + 1 by omega) (show j + 1 ≤ l.relays + 1 by omega) heq
  omega

/-- When all stations have made their changes, the relays are gone and the producer has acted. -/
theorem Bound.eq_settled {o : l.Offering s₀} {done : Set ℕ} {v : Live} (h : l.Ready s₀)
    (hk : s₀.Keyed) (hb : Bound o drawn done v) (hall : ∀ i ≤ l.relays + 1, i ∈ done)
    (hends : l.Ends p c) (hwaits : o.own c (drawn c) = []) :
    v = (l.settled s₀.live).after (o.own p (drawn p)) := by
  obtain ⟨hp, hc⟩ := hends.outer
  have hpr : p ≤ l.relays + 1 := by omega
  have hcr : c ≤ l.relays + 1 := by omega
  have hown : ∀ {q}, q ≠ l.process p → ∀ k ∈ o.own p (drawn p), k.process ≠ q := by
    intro q hq k hkm heq
    rw [← o.marks_outer hp] at hkm
    exact hq (heq.symm.trans (o.mem_marks hk hpr hkm).1)
  funext q ph
  by_cases hqp : q = l.process p
  · subst hqp
    rw [hb.acted p hpr (hall p hpr), o.marks_outer hp]
    exact Live.after_congr (fun ph => (settled_of_outer h hp s₀.live ph).symm) ph
  rw [Live.after_of_ne (hown hqp)]
  by_cases hqc : q = l.process c
  · subst hqc
    rw [hb.acted c hcr (hall c hcr), o.marks_outer hc, hwaits, settled_of_outer h hc]
    rfl
  by_cases hrelay : ∃ i < l.relays, q = l.process (i + 1)
  · rw [settled, if_pos hrelay]
    obtain ⟨i, hi, rfl⟩ := hrelay
    rw [hb.acted (i + 1) (by omega) (hall _ (by omega))]
    exact o.after_relay hk hi drawn ph
  · rw [settled, if_neg hrelay]
    refine hb.others q ph fun i hi _ heq => ?_
    have hin : i ≠ 0 ∧ i ≠ l.relays + 1 := by
      constructor <;> rintro rfl <;> rcases hends with ⟨rfl, rfl⟩ | ⟨rfl, rfl⟩ <;> contradiction
    exact hrelay ⟨i - 1, by omega, by rw [heq, Nat.sub_add_cancel (by omega)]⟩

/-- The bindings when the deal is made. -/
theorem Deal.live_eq {o : l.Offering s₀} {done : Set ℕ} {v : Live} (h : l.Ready s₀) (hk : s₀.Keyed)
    (hd : Deal o p c cont goesOn handed type drawn m svc) (hends : l.Ends p c)
    (hb : Bound o drawn done v) (hall : ∀ i ≤ l.relays + 1, i ∈ done)
    (hunused : ∀ q ph e, s₀.live q ph = some e → e.channel ≠ drawn p) :
    (svc.homes m.payload).foldl Live.rehomed (v.after (svc.marks m.payload)) =
      l.outcome s₀.live p c (l.continuation goesOn type (drawn p)) handed := by
  have hfixed : ∀ q ph e, s₀.live q ph = some e → svc.homeward m.payload e = e := by
    intro q ph e he
    rcases Net.homeward_cases svc m.payload e with hw | ⟨n, hn, hch, -⟩
    · exact hw
    · exact absurd (hch.trans (hd.drew n hn)) (hunused q ph e he)
  have hsettled : (l.settled s₀.live).mapped (svc.homeward m.payload) = l.settled s₀.live := by
    refine Live.mapped_of_fixed fun q ph e he => ?_
    unfold settled at he
    split at he
    · cases he
    · exact hfixed q ph e he
  obtain ⟨hcont, hhome⟩ := svc.homeward_cont m.payload
  rw [foldl_rehomed_homes]
  show (v.after (svc.marks m.payload)).mapped (svc.homeward m.payload) = _
  rw [hb.eq_settled h hk hall hends hd.waits, hd.consumer, hd.producer, Live.mapped_received,
    Live.mapped_acted, Live.mapped_acted, hsettled, hcont, hhome, hd.next, outcome]
  cases handed with
  | none => rfl
  | some pair =>
    have hvalue := hd.value pair.1 pair.2 rfl
    rw [Option.bind_some, ← hvalue]
    congr 1
    cases he : s₀.live (l.process p) pair.1 with
    | none => rfl
    | some e => rw [Option.map_some, hfixed _ _ e he]

/-! ## Runs -/

/-- What is left in the end: nothing on the line, no change of what is pending elsewhere, and the
bindings `live`. -/
structure Concluded (l : Line) (s s' : Store) (live : Live) : Prop where
  clear : ∀ i ≤ l.relays, s'.halves.get? (l.channel i) = none
  elsewhere : ∀ x, (∀ i ≤ l.relays, x ≠ l.channel i) → s'.halves.get? x = s.halves.get? x
  live : s'.live = live

/-- The last station acts. -/
theorem At.conclude {o : l.Offering s₀} {done : Set ℕ} {j : ℕ} {s' : Store} {cfg : Configuration}
    {fresh : Fresh} {pl : Plan} {change : Change} (h : l.Ready s₀) (hk : s₀.Keyed)
    (hat : At o drawn done s) (hj : j ≤ l.relays + 1) (hnew : j ∉ done)
    (hgoes : Goes o j s cfg fresh pl)
    (hunites : Unites o drawn done j s.halves.get? pl m.payload svc cont)
    (hdeal : Deal o p c cont goesOn handed type drawn m svc) (hends : l.Ends p c)
    (hunused : ∀ q ph e, s₀.live q ph = some e → e.channel ≠ drawn p)
    (hd : pl.Drafts cfg change) (hc : s.commit change = .ok s') (hy : s'.Young) :
    l.Concluded s₀ s' (l.outcome s₀.live p c (l.continuation goesOn type (drawn p)) handed) := by
  have hcr : c ≤ l.relays + 1 := by
    have := hends.outer.2
    omega
  have hbound := hat.bound.next h hk hj hnew
  have hbumped := hat.bumped_next hgoes.admits.pool hd hgoes.pools hc
  -- what comes home is bound by stations only, and the pools of all of these have moved on
  have hstamped : ∀ q ph e, s.live.after pl.marks q ph = some e →
      (∃ home ∈ pl.homes, e.channel = home.channel) → s'.Stamped q := by
    rintro q ph e he ⟨home, hhome, hch⟩
    rw [hunites.homes] at hhome
    rw [hunites.marks, Live.after_append] at he
    have hstation : ∃ i ≤ l.relays + 1, q = l.process i := by
      by_contra hno
      have hq : ∀ i ≤ l.relays + 1, q ≠ l.process i := fun i hi heq => hno ⟨i, hi, heq⟩
      rw [Live.after_of_ne, hbound.others q ph fun i hi _ => hq i hi] at he
      · obtain ⟨n, hn, hchannel⟩ := svc.channel_of_home hhome
        exact hunused q ph e he (hch.trans (hchannel.trans (hdeal.drew n hn)))
      · intro k hkm heq
        rw [(Net.mem_serviceMarks hkm).1, hdeal.process] at heq
        exact hq c hcr heq.symm
    obtain ⟨i, hi, rfl⟩ := hstation
    obtain ⟨pool, hpool, hpos⟩ := hbumped i hi (hunites.all i hi)
    refine ⟨l.pool i, pool, ?_, hpool, hpos, hy _ pool hpool⟩
    have hmembers : s'.members = s₀.members := by
      obtain ⟨-, -, -, rfl⟩ := Store.commit_eq_ok_iff.1 hc
      rw [Store.members_apply, hd.members, hgoes.members, ← hat.members]
      rfl
    rw [Store.poolOf?, hmembers]
    exact (o.exists_pool hk hi).1
  have hcommits := Store.commits_of_sized hd.toFills hc
    (Store.sized_of_fills hd.toFills hgoes.pools hc hy) (by simp [hgoes.pools]) hstamped
  have hhalves : s'.halves.get? = runSlots pl.slots s.halves.get? := by
    rw [hcommits.halves, get?_foldl_applySlot]
  refine ⟨fun i hi => ?_, fun x hx => ?_, ?_⟩
  · rw [hhalves]
    exact hunites.clear i hi
  · rw [hhalves, hgoes.elsewhere x hx, hat.elsewhere x hx]
  · rw [hcommits.live, hunites.homes, hunites.marks, Live.after_append]
    exact hdeal.live_eq h hk hends hbound hunites.all hunused

theorem Ready.operation_ne (h : l.Ready s) {j : ℕ} (hj : j ≤ l.relays + 1) :
    (l.term j).operation ≠ .spawn := by
  by_cases hout : j = 0 ∨ j = l.relays + 1
  · have hoffers := (h.edge hout).1
    cases hterm : l.term j with
    | spawn =>
      rw [hterm] at hoffers
      cases hoffers
    | _ => nofun
  · obtain ⟨i, rfl⟩ : ∃ i, j = i + 1 := ⟨j - 1, by omega⟩
    rw [term_relay (by omega)]
    nofun

/-- One more station acts: others are still to come, or the deal is made. -/
theorem At.exists_step {o : l.Offering s₀} {done : Set ℕ} {j : ℕ} {fresh : Fresh} (h : l.Ready s₀)
    (hk : s₀.Keyed) (hends : l.Ends p c)
    (hdeal : ∀ drawn, ∃ m svc, Deal o p c cont goesOn handed type drawn m svc)
    (hat : At o drawn done s) (hj : j ≤ l.relays + 1) (hnew : j ∉ done)
    (hdrawn : drawn j = fresh.channel)
    (hunused : ∀ i ∈ insert j done, ∀ q ph e, s₀.live q ph = some e → e.channel ≠ drawn i) :
    ∃ next change s', s.deriveStep fresh (l.spec j) = .ok (next, change) ∧
      s.commit change = .ok s' ∧ (s'.Young →
        (next = none ∧ (∃ i ≤ l.relays + 1, i ∉ insert j done) ∧ At o drawn (insert j done) s') ∨
        (next = some ⟨l.pool c, l.process c, cont⟩ ∧ (∀ i ≤ l.relays + 1, i ∈ insert j done) ∧
          l.Concluded s₀ s'
            (l.outcome s₀.live p c (l.continuation goesOn type (drawn p)) handed))) := by
  obtain ⟨m, svc, hd⟩ := hdeal drawn
  obtain ⟨cfg, pl, hgoes, hpl⟩ := hat.exists_plan h hk hj hnew hdrawn.symm hd.meets hd.reply
  obtain ⟨change, s', hderive, hcommit, hdrafts⟩ := hgoes.admits.exists_take hat.keyed
    (h.operation_ne hj) hgoes.moves hgoes.pools hgoes.known hgoes.fit
  refine ⟨pl.next, change, s', hderive, hcommit, fun hy => ?_⟩
  rcases hpl with hparts | hunites
  · exact .inl ⟨hparts.next, hparts.gap, hat.next h hk hj hnew hgoes.admits.pool hdrafts
      hparts.marks hparts.homes hgoes.members hgoes.pools hcommit hy hparts.stage hgoes.elsewhere⟩
  · refine .inr ⟨?_, hunites.all, hat.conclude h hk hj hnew hgoes hunites hd hends
      (hunused p (hunites.all p ?_)) hdrafts hcommit hy⟩
    · rw [hunites.next, hd.pool, hd.process]
    · have := hends.outer.1
      omega

/-- All stations that have not acted act, in the given order. -/
theorem At.exists_steps {e₀ : Engine} {o : l.Offering e₀.store} (h : l.Ready e₀.store)
    (hk : e₀.store.Keyed) (hends : l.Ends p c)
    (hdeal : ∀ drawn, ∃ m svc, Deal o p c cont goesOn handed type drawn m svc)
    (hbelow : ∀ q ph ep, e₀.store.live q ph = some ep → ep.channel.value < e₀.ids.next)
    {order : List ℕ} {done : Set ℕ} {e : Engine} (hat : At o drawn done e.store)
    (hids : e₀.ids.next ≤ e.ids.next) (hdrew : ∀ i ∈ done, e₀.Drew e (drawn i))
    (hnodup : order.Nodup) (hmem : ∀ i, i ∈ order ↔ i ≤ l.relays + 1 ∧ i ∉ done)
    (hsome : order ≠ []) (hy : (e.final (order.map fun i => .step (l.spec i))).store.Young) :
    ∃ k e', (order.mapM fun i => Request.step .none (l.spec i)) e =
        .ok (List.replicate (order.length - 1) none ++ [some ⟨l.pool c, l.process c, cont⟩]) e' ∧
      e₀.Drew e' k ∧ l.Concluded e₀.store e'.store
        (l.outcome e₀.store.live p c (l.continuation goesOn type k) handed) := by
  -- the last station is the one that finds all others in `done`, so the order is read from the front
  induction order generalizing done drawn e with
  | nil => exact absurd rfl hsome
  | cons j rest ih =>
    obtain ⟨hj, hnew⟩ := (hmem j).1 List.mem_cons_self
    obtain ⟨hjrest, hrest⟩ := List.nodup_cons.1 hnodup
    let drawn' := Function.update drawn j e.ids.fresh.channel
    have hold : ∀ i ∈ done, drawn' i = drawn i := by
      intro i hi
      refine Function.update_of_ne ?_ _ _
      rintro rfl
      exact hnew hi
    have hnext := Supply.next_lt_next_afterFresh e.ids
    have hdrew' : ∀ i ∈ insert j done, e₀.ids.next ≤ (drawn' i).value ∧
        (drawn' i).value < e.ids.afterFresh.next := by
      rintro i (rfl | hi)
      · rw [show drawn' i = e.ids.fresh.channel from Function.update_self ..]
        exact ⟨hids, hnext⟩
      · rw [hold i hi]
        exact ⟨(hdrew i hi).1, (hdrew i hi).2.trans hnext⟩
    have hunused : ∀ i ∈ insert j done, ∀ q ph ep, e₀.store.live q ph = some ep →
        ep.channel ≠ drawn' i := by
      rintro i hi q ph ep hep heq
      have hlt := hbelow q ph ep hep
      rw [heq] at hlt
      exact absurd (hdrew' i hi).1 (Nat.not_le.2 hlt)
    obtain ⟨next, change, s', hderive, hcommit, hcases⟩ := (hat.redraw hold).exists_step h hk hends
      hdeal hj hnew (Function.update_self ..) hunused
    let e₁ : Engine :=
      { e with store := s', ids := e.ids.afterFresh, journal := e.journal ++ [change] }
    have hstep : Request.step .none (l.spec j) e = .ok next e₁ := by
      rw [Request.step_apply, hderive]
      dsimp only
      rw [hcommit]
    have hfinal : e.final ((j :: rest).map fun i => .step (l.spec i)) =
        e₁.final (rest.map fun i => .step (l.spec i)) := by
      show Engine.final ((Call.step (l.spec j)).after e) _ = _
      rw [Call.after, Call.request, resulting_ignore, hstep, resulting_ok]
    rw [hfinal] at hy
    rcases hcases (hy.of_ages (Engine.ages_final _ e₁)) with
      ⟨rfl, ⟨i, hi, hgap⟩, hat'⟩ | ⟨rfl, hall, hdone⟩
    · have hmem' : ∀ i, i ∈ rest ↔ i ≤ l.relays + 1 ∧ i ∉ insert j done := by
        intro i
        have hi := hmem i
        rw [List.mem_cons] at hi
        rw [Set.mem_insert_iff]
        constructor
        · intro hr
          obtain ⟨hir, hnot⟩ := hi.1 (.inr hr)
          refine ⟨hir, ?_⟩
          rintro (rfl | hd)
          · exact hjrest hr
          · exact hnot hd
        · rintro ⟨hir, hnot⟩
          exact (hi.2 ⟨hir, fun hd => hnot (.inr hd)⟩).resolve_left fun heq => hnot (.inl heq)
      have hne : rest ≠ [] := List.ne_nil_of_mem ((hmem' i).2 ⟨hi, hgap⟩)
      obtain ⟨k, e', hrun, hconcluded⟩ := ih hat' (hids.trans hnext.le) hdrew' hrest hmem' hne hy
      refine ⟨k, e', ?_, hconcluded⟩
      rw [List.mapM_cons, Request.bind_apply, hstep]
      dsimp only
      rw [Request.bind_apply, hrun]
      have hlength : rest.length - 1 + 1 = rest.length :=
        Nat.sub_add_cancel (List.length_pos_iff.2 hne)
      rw [List.length_cons, Nat.add_sub_cancel, ← hlength, List.replicate_succ, hlength]
      rfl
    · have hnil : rest = [] := by
        refine List.eq_nil_iff_forall_not_mem.2 fun i hi => ?_
        obtain ⟨hir, hnot⟩ := (hmem i).1 (List.mem_cons_of_mem _ hi)
        rcases hall i hir with rfl | hd
        · exact hjrest hi
        · exact hnot hd
      subst hnil
      have hp : p ≤ l.relays + 1 := by
        have := hends.outer.1
        omega
      refine ⟨drawn' p, e₁, ?_, hdrew' p (hall p hp), hdone⟩
      rw [List.mapM_cons, Request.bind_apply, hstep]
      rfl

/-- The stations of a line act, in any order. Every step succeeds, the last one and no other has a
next step, which is the consumer's, and what is left does not depend on the order. -/
theorem Ready.any_order {e : Engine} (h : l.Ready e.store) (hk : e.store.Keyed)
    (hbelow : ∀ q ph ep, e.store.live q ph = some ep → ep.channel.value < e.ids.next) :
    ∃ p c cont goesOn handed type, l.Ends p c ∧ Trade (l.term p) (l.term c) cont goesOn handed ∧
      ∀ order : List ℕ, order.Perm (List.range (l.relays + 2)) →
        (e.final (order.map fun i => .step (l.spec i))).store.Young →
        ∃ k e', (order.mapM fun i => Request.step .none (l.spec i)) e =
            .ok (List.replicate (l.relays + 1) none ++ [some ⟨l.pool c, l.process c, cont⟩]) e' ∧
          e.Drew e' k ∧ l.Concluded e.store e'.store
            (l.outcome e.store.live p c (l.continuation goesOn type k) handed) := by
  obtain ⟨o⟩ := h.exists_offering hk
  obtain ⟨p, c, cont, goesOn, handed, type, hends, htrade, hdeal⟩ := o.exists_deal h hk
  refine ⟨p, c, cont, goesOn, handed, type, hends, htrade, fun order hperm hy => ?_⟩
  have hmem : ∀ i, i ∈ order ↔ i ≤ l.relays + 1 ∧ i ∉ (∅ : Set ℕ) := by
    intro i
    rw [hperm.mem_iff, List.mem_range, Nat.lt_succ_iff]
    exact ⟨fun hi => ⟨hi, Set.notMem_empty i⟩, And.left⟩
  have hlength : order.length = l.relays + 2 := by rw [hperm.length_eq, List.length_range]
  have hsome : order ≠ [] := List.ne_nil_of_length_pos (by omega)
  have hrun := (At.start h hk o fun _ => default).exists_steps h hk hends hdeal hbelow le_rfl
    (fun i hi => absurd hi (Set.notMem_empty i)) (hperm.nodup_iff.2 List.nodup_range) hmem hsome hy
  rw [hlength] at hrun
  exact hrun

end Line

/-! ## A call through a relay -/

namespace Engine

/-- A function, a relay of it, and a caller that holds an argument. -/
def relayed : Engine :=
  (start {} ⟨0⟩).final
    [.createType Small.unit .one,
      .createType Small.function (.lolli (.link Small.unit) (.link Small.unit)),
      .createSig ⟨Small.closer, ⟨"x", Small.unit⟩, []⟩,
      .createSig ⟨Small.waiter, ⟨"x", Small.function⟩, []⟩,
      .createSig ⟨Small.relay, ⟨"x", Small.function⟩, [⟨"y", Small.function⟩]⟩,
      .createSig ⟨Small.sender, ⟨"self", Small.unit⟩, [⟨"y", Small.function⟩, ⟨"v", Small.unit⟩]⟩,
      .createPool none none, .createPool none none, .createPool none none, .createPool none none,
      .create ⟨.nth 10, .nth 7, ∅⟩, .create ⟨.nth 11, .nth 8, .ofList [("y", .nth 14)]⟩,
      .create ⟨.nth 12, .nth 6, ∅⟩,
      .create ⟨.nth 13, .nth 9, .ofList [("y", .nth 17), ("v", .nth 20)]⟩]

/-- The caller sends its argument down the line, and the function receives it. -/
def callLine : Line where
  relays := 1
  process
    | 0 => .nth 15
    | 1 => .nth 18
    | _ => .nth 24
  endpoint
    | 0 => ⟨.nth 14, .nth 2, .nth 10⟩
    | _ => ⟨.nth 17, .nth 2, .nth 11⟩
  out _ := "x"
  into _ := "y"
  far := .nth 13
  first := .recv "x" "a" (.wait "a" (.close "x"))
  last := .send "y" "v"

theorem ready_callLine : callLine.Ready relayed.store where
  processes := by
    have h : ∀ i ≤ 2, ∀ j ≤ 2, callLine.process i = callLine.process j → i = j := by decide
    exact fun i hi j hj => h i hi j hj
  channels := by
    have h : ∀ i ≤ 1, ∀ j ≤ 1, callLine.channel i = callLine.channel j → i = j := by decide
    exact fun i hi j hj => h i hi j hj
  provided := by decide +kernel
  held := by decide +kernel
  free := by
    have h : ∀ i ≤ 1, (relayed.store.halves.get? (callLine.channel i)).isNone = true := by
      decide +kernel
    exact fun i hi => Option.isNone_iff_eq_none.1 (h i hi)
  first_offers := rfl
  first_via := rfl
  last_offers := rfl
  last_via := rfl
  dual := nofun
  accepted := by
    have hop : ∀ i ≤ 2, (callLine.spec i).term.operation ≠ .spawn := by decide
    have h : ∀ i ≤ 2, (relayed.store.deriveStep relayed.ids.fresh (callLine.spec i)).isOk = true := by
      decide +kernel
    exact fun i hi => Store.accepts_of_derives (hop i hi) (h i hi)
  apart := by
    rintro p c via value ep (⟨rfl, rfl⟩ | ⟨rfl, rfl⟩) hterm hlive
    · cases hterm
    · cases hterm
      have hv : relayed.store.live (.nth 24) "v" = some ⟨.nth 20, ⟨0⟩, .nth 12⟩ := by
        decide +kernel
      cases hlive.symm.trans hv
      decide

theorem keyed_relayed : relayed.store.Keyed := by
  have hpools : ∀ entry ∈ relayed.store.pools.entries, entry.2.id = entry.1 := by decide +kernel
  have hhalves : relayed.store.halves.entries.isEmpty = true := by decide +kernel
  refine ⟨fun hp => hpools _ ((Table.mem_entries_iff _).2 hp), fun hh => ?_⟩
  have hmem := (Table.mem_entries_iff _).2 hh
  rw [List.isEmpty_iff.1 hhalves] at hmem
  cases hmem

/-- The relay goes first and the function last; the function goes on with the argument. -/
theorem any_order_call :
    callLine.Ready relayed.store ∧ ∃ type k e',
      ([1, 2, 0].mapM fun i => Request.step .none (callLine.spec i)) relayed =
        .ok [none, none,
          some ⟨.nth 10, .nth 15, .wait "a" (.close "x")⟩] e' ∧
      relayed.Drew e' k ∧ callLine.Concluded relayed.store e'.store
        (callLine.outcome relayed.store.live 2 0 (some ⟨k, type, .nth 10⟩)
          (some ("v", "a"))) := by
  have hbelow : ∀ ep ∈ relayed.store.bindings.values, ep.channel.value < relayed.ids.next := by
    decide +kernel
  have hyoung : (relayed.final ([1, 2, 0].map fun i => .step (callLine.spec i))).store.Young :=
    Store.young_of_values (by decide +kernel)
  obtain ⟨p, c, cont, goesOn, handed, type, hends, htrade, hrun⟩ :=
    ready_callLine.any_order keyed_relayed
      fun q ph ep hep => hbelow ep (Table.mem_values_of_get?_eq_some hep)
  obtain ⟨k, e', hsteps, hdrew, hconcluded⟩ := hrun [1, 2, 0] (by decide) hyoung
  refine ⟨ready_callLine, type, k, e', ?_⟩
  rcases hends with ⟨rfl, rfl⟩ | ⟨rfl, rfl⟩
  · cases htrade
  · cases htrade
    exact ⟨hsteps, hdrew, hconcluded⟩

end Engine

end Rendezvous
