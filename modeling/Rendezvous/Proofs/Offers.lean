import Rendezvous.Proofs.Join

/-!
# Offers and forwards

A term that acts on one channel offers a half there: a message or a service. `Offers` says which,
and what the acting process changes in its own bindings for it; `act_offer` is the statement that
this is what such a term does. `forward_eq_ok` says the same of a forward, which gives up two
channels and connects what is pending on them.
-/

namespace Rendezvous

/-! ## Offers -/

namespace Configuration

/-- A mark for the acting process. -/
def mark (cfg : Configuration) (isIntro : Bool) (ph : Sym) (ep : Endpoint) : Mark :=
  ⟨cfg.process, cfg.pool, ph, ep, isIntro⟩

/-- A message of the acting process. -/
def message (cfg : Configuration) (channel : Id) (payload : Payload) : Half :=
  .message ⟨channel, cfg.pool, cfg.process, payload⟩

end Configuration

/-- What a consuming term leaves to be done with a payload. -/
def Term.handler? : Term → Option Handler
  | .wait _ cont => some (.wait cont)
  | .recv _ value cont => some (.recv value cont)
  | .case _ conts => some (.case conts)
  | .accept _ cont => some (.accept cont)
  | .release _ cont => some (.release cont)
  | _ => none

/-- A term that passes its channel on: the type its channel goes on with, and the payload that
carries the new channel. -/
inductive Passes : Term → TypeNode → Id → (Endpoint → Payload) → Prop
  | plus {via label : Sym} {choices : Table Sym Id} {type : Id}
    (h : choices.get? label = some type) :
    Passes (.lab via label) (.plus choices) type (.lab label)
  | with {via label : Sym} {choices : Table Sym Id} {type : Id}
    (h : choices.get? label = some type) :
    Passes (.lab via label) (.with choices) type (.lab label)
  | up {via : Sym} {type : Id} : Passes (.acquire via) (.up type) type .acquire
  | down {via : Sym} {type : Id} : Passes (.detach via) (.down type) type .detach

/-- The type a channel goes on with after a channel was sent over it. -/
inductive Carries : TypeNode → Id → Prop
  | tensor {value type : Id} : Carries (.tensor value type) type
  | lolli {value type : Id} : Carries (.lolli value type) type

/-- The endpoint a term acts on, what it changes in the bindings of the acting process, and the
half it has to offer there. -/
inductive Offers (env : Env) (cfg : Configuration) (fresh : Fresh) :
    Term → Endpoint → List Mark → Half → Prop
  | close {via : Sym} {ep : Endpoint} (hep : cfg.channels.get? via = some ep) :
    Offers env cfg fresh (.close via) ep [cfg.mark false via ep] (cfg.message ep.channel .close)
  | send {via value : Sym} {ep given : Endpoint} {id type : Id} {node : TypeNode}
    (hep : cfg.channels.get? via = some ep) (hnode : env.resolve ep.type = .ok (id, node))
    (hc : Carries node type) (hv : cfg.channels.get? value = some given) :
    Offers env cfg fresh (.send via value) ep
      [cfg.mark false value given, cfg.mark false via ep,
        cfg.mark true via ⟨fresh.channel, type, ep.pool⟩]
      (cfg.message ep.channel (.send given ⟨fresh.channel, type, ep.pool⟩))
  | pass {term : Term} {ep : Endpoint} {id type : Id} {node : TypeNode}
    {payload : Endpoint → Payload} (hep : cfg.channels.get? term.via = some ep)
    (hnode : env.resolve ep.type = .ok (id, node)) (hp : Passes term node type payload) :
    Offers env cfg fresh term ep
      [cfg.mark false term.via ep, cfg.mark true term.via ⟨fresh.channel, type, ep.pool⟩]
      (cfg.message ep.channel (payload ⟨fresh.channel, type, ep.pool⟩))
  | consume {term : Term} {ep : Endpoint} {handler : Handler} (hh : term.handler? = some handler)
    (hep : cfg.channels.get? term.via = some ep) :
    Offers env cfg fresh term ep []
      (.service ⟨ep.channel, cfg.pool, cfg.process, term.via, ep, handler⟩)

namespace Drafting

theorem advance_eq_ok {cfg : Configuration} {fresh : Fresh} {via : Sym} {ep next : Endpoint}
    {type : Id} {d d' : Change} :
    advance cfg fresh via ep type d = .ok (next, d') ↔
      next = ⟨fresh.channel, type, ep.pool⟩ ∧
        Adds cfg [cfg.mark false via ep, cfg.mark true via ⟨fresh.channel, type, ep.pool⟩] [] []
          d d' := by
  have h := exists_adds_iff cfg d d' [cfg.mark false via ep]
    [cfg.mark true via ⟨fresh.channel, type, ep.pool⟩] [] [] [] []
  rw [List.singleton_append, List.nil_append, List.nil_append] at h
  unfold advance discard introduce
  simp only [← h, bind_eq_ok, discardFor_eq_ok, introduceFor_eq_ok, pure_eq_ok, adds_marks,
    Prod.mk.injEq]
  constructor
  · rintro ⟨_, e, he, _, f, hf, rfl, rfl⟩
    exact ⟨rfl, e, he, hf⟩
  · rintro ⟨rfl, e, he, hf⟩
    exact ⟨(), e, he, (), d', hf, rfl, rfl⟩

/-- Landing and joining after the acting process has changed its own bindings. -/
theorem adds_land_join (own : List Mark) (half : Half) {cfg : Configuration} {channel : Id}
    {d d' : Change} {next : Option StepSpec} :
    (∃ c, Adds cfg own [] [] d c ∧
      (land cfg channel >>= fun r => join cfg r.1 half r.2) c = .ok (next, d')) ↔
      ∃ l j, cfg.landing? channel = some l ∧ Joins l.channel half l.half j ∧ next = j.next ∧
        Adds cfg (own ++ j.marks) (l.takes ++ j.slots) j.homes d d' := by
  simp only [bind_eq_ok, land_join_eq_ok]
  constructor
  · rintro ⟨c, hc, l, j, hl, hj, rfl, hd⟩
    exact ⟨l, j, hl, hj, rfl,
      (exists_adds_iff cfg d d' own j.marks [] (l.takes ++ j.slots) [] j.homes).1 ⟨c, hc, hd⟩⟩
  · rintro ⟨l, j, hl, hj, rfl, hd⟩
    obtain ⟨c, hc, hd⟩ :=
      (exists_adds_iff cfg d d' own j.marks [] (l.takes ++ j.slots) [] j.homes).2 hd
    exact ⟨c, hc, l, j, hl, hj, rfl, hd⟩

/-- A term that offers a half: it lands somewhere and joins what is pending there. -/
def OfferMoves (env : Env) (cfg : Configuration) (fresh : Fresh) (term : Term)
    (next : Option StepSpec) (d d' : Change) : Prop :=
  ∃ ep own half l j, Offers env cfg fresh term ep own half ∧
    cfg.landing? ep.channel = some l ∧ Joins l.channel half l.half j ∧ next = j.next ∧
    Adds cfg (own ++ j.marks) (l.takes ++ j.slots) j.homes d d'

theorem act_close {env : Env} {cfg : Configuration} {fresh : Fresh} {via : Sym} {d d' : Change}
    {next : Option StepSpec} :
    act env cfg fresh (.close via) d = .ok (next, d') ↔
      OfferMoves env cfg fresh (.close via) next d d' := by
  show (endpoint cfg via >>= fun ep => discard cfg via ep >>= fun _ => produce cfg ep .close) d =
    .ok (next, d') ↔ _
  simp only [bind_eq_ok (x := endpoint cfg via), endpoint_eq_ok, produce_eq, discard]
  constructor
  · rintro ⟨ep, _, ⟨hep, rfl⟩, h⟩
    obtain ⟨_, c, hc, h⟩ := bind_eq_ok.1 h
    obtain ⟨l, j, hl, hj, hn, hd⟩ := (adds_land_join _ _).1 ⟨c, adds_marks.2 (discardFor_eq_ok.1 hc), h⟩
    exact ⟨ep, _, _, l, j, .close hep, hl, hj, hn, hd⟩
  · rintro ⟨ep, own, half, l, j, ho, hl, hj, hn, hd⟩
    cases ho with
    | close hep =>
      obtain ⟨c, hc, h⟩ := (adds_land_join _ _).2 ⟨l, j, hl, hj, hn, hd⟩
      exact ⟨ep, d, ⟨hep, rfl⟩,
        bind_eq_ok.2 ⟨(), c, discardFor_eq_ok.2 (adds_marks.1 hc), h⟩⟩
    | pass _ _ hp => cases hp
    | consume hh => cases hh

theorem act_consume {env : Env} {cfg : Configuration} {fresh : Fresh} {term : Term}
    {handler : Handler} (hh : term.handler? = some handler) {d d' : Change}
    {next : Option StepSpec} :
    act env cfg fresh term d = .ok (next, d') ↔ OfferMoves env cfg fresh term next d d' := by
  have hact : act env cfg fresh term = consume cfg term.via handler := by
    cases term <;> cases hh <;> rfl
  rw [hact, consume_eq]
  simp only [bind_eq_ok (x := endpoint cfg term.via), endpoint_eq_ok]
  have hnil : Adds cfg [] [] [] d d := adds_nil.2 (by simp)
  constructor
  · rintro ⟨ep, _, ⟨hep, rfl⟩, h⟩
    obtain ⟨l, j, hl, hj, hn, hd⟩ := (adds_land_join _ _).1 ⟨_, hnil, h⟩
    exact ⟨ep, [], _, l, j, .consume hh hep, hl, hj, hn, hd⟩
  · rintro ⟨ep, own, half, l, j, ho, hl, hj, hn, hd⟩
    cases ho with
    | consume hh' hep =>
      cases hh.symm.trans hh'
      obtain ⟨c, hc, h⟩ := (adds_land_join _ _).2 ⟨l, j, hl, hj, hn, hd⟩
      have : c = d := by simpa using adds_nil.1 hc
      subst this
      exact ⟨ep, c, ⟨hep, rfl⟩, h⟩
    | close => cases hh
    | send => cases hh
    | pass _ _ hp => cases hp <;> cases hh

/-- Advancing a channel and producing on it what carries the new channel. -/
theorem advance_produce_eq_ok (own : List Mark) {cfg : Configuration} {fresh : Fresh} {via : Sym}
    {ep : Endpoint} {type : Id} {payload : Endpoint → Payload} {d d' : Change}
    {next : Option StepSpec} :
    (∃ c, Adds cfg own [] [] d c ∧
      (advance cfg fresh via ep type >>= fun n => produce cfg ep (payload n)) c =
        .ok (next, d')) ↔
      ∃ l j, cfg.landing? ep.channel = some l ∧
        Joins l.channel (cfg.message ep.channel (payload ⟨fresh.channel, type, ep.pool⟩)) l.half
          j ∧ next = j.next ∧
        Adds cfg (own ++ [cfg.mark false via ep, cfg.mark true via ⟨fresh.channel, type, ep.pool⟩]
          ++ j.marks) (l.takes ++ j.slots) j.homes d d' := by
  refine Iff.trans ?_ (adds_land_join _ (cfg.message ep.channel
    (payload ⟨fresh.channel, type, ep.pool⟩)))
  simp only [bind_eq_ok (x := advance cfg fresh via ep type), advance_eq_ok, produce_eq]
  constructor
  · rintro ⟨c, hc, _, e, ⟨rfl, he⟩, h⟩
    exact ⟨e, (exists_adds_iff cfg d e own _ [] [] [] []).1 ⟨c, hc, he⟩, h⟩
  · rintro ⟨e, he, h⟩
    obtain ⟨c, hc, he⟩ := (exists_adds_iff cfg d e own _ [] [] [] []).2 he
    exact ⟨c, hc, _, e, ⟨rfl, he⟩, h⟩

/-- The node a term meets on its channel. -/
theorem endpoint_nodeOf_eq_ok {env : Env} {cfg : Configuration} {via : Sym}
    {f : Endpoint → TypeNode → Drafting (Option StepSpec)} {d : Change}
    {r : Option StepSpec × Change} :
    (endpoint cfg via >>= fun ep => nodeOf env ep >>= f ep) d = .ok r ↔
      ∃ ep id node, cfg.channels.get? via = some ep ∧ env.resolve ep.type = .ok (id, node) ∧
        f ep node d = .ok r := by
  simp only [bind_eq_ok, endpoint_eq_ok, nodeOf_eq_ok]
  constructor
  · rintro ⟨ep, _, ⟨hep, rfl⟩, node, _, ⟨id, hnode, rfl⟩, h⟩
    exact ⟨ep, id, node, hep, hnode, h⟩
  · rintro ⟨ep, id, node, hep, hnode, h⟩
    exact ⟨ep, d, ⟨hep, rfl⟩, node, d, ⟨id, hnode, rfl⟩, h⟩

/-- What a term that passes its channel on drafts, given the endpoint it acts on. -/
def PassDraft (cfg : Configuration) (fresh : Fresh) (term : Term) (ep : Endpoint)
    (node : TypeNode) (d : Change) (r : Option StepSpec × Change) : Prop :=
  ∃ type payload, Passes term node type payload ∧
    (advance cfg fresh term.via ep type >>= fun n => produce cfg ep (payload n)) d = .ok r

theorem act_lab {env : Env} {cfg : Configuration} {fresh : Fresh} {via label : Sym} {d : Change}
    {r : Option StepSpec × Change} :
    act env cfg fresh (.lab via label) d = .ok r ↔
      ∃ ep id node, cfg.channels.get? via = some ep ∧ env.resolve ep.type = .ok (id, node) ∧
        PassDraft cfg fresh (.lab via label) ep node d r := by
  refine endpoint_nodeOf_eq_ok.trans (exists_congr fun ep => exists_congr fun id =>
    exists_congr fun node => and_congr_right fun _ => and_congr_right fun hnode => ?_)
  clear hnode
  cases node with
  | plus choices =>
    dsimp only
    cases hc : choices.get? label with
    | none =>
      refine ⟨fun h => (nomatch h), ?_⟩
      rintro ⟨_, _, hp, -⟩
      cases hp with
      | plus h => exact nomatch hc.symm.trans h
    | some type =>
      refine ⟨fun h => ⟨type, _, .plus hc, h⟩, ?_⟩
      rintro ⟨_, _, hp, h⟩
      cases hp with
      | plus h' =>
        cases hc.symm.trans h'
        exact h
  | «with» choices =>
    dsimp only
    cases hc : choices.get? label with
    | none =>
      refine ⟨fun h => (nomatch h), ?_⟩
      rintro ⟨_, _, hp, -⟩
      cases hp with
      | «with» h => exact nomatch hc.symm.trans h
    | some type =>
      refine ⟨fun h => ⟨type, _, .with hc, h⟩, ?_⟩
      rintro ⟨_, _, hp, h⟩
      cases hp with
      | «with» h' =>
        cases hc.symm.trans h'
        exact h
  | _ =>
    refine ⟨fun h => (nomatch h), ?_⟩
    rintro ⟨_, _, hp, -⟩
    cases hp

theorem act_acquire {env : Env} {cfg : Configuration} {fresh : Fresh} {via : Sym} {d : Change}
    {r : Option StepSpec × Change} :
    act env cfg fresh (.acquire via) d = .ok r ↔
      ∃ ep id node, cfg.channels.get? via = some ep ∧ env.resolve ep.type = .ok (id, node) ∧
        PassDraft cfg fresh (.acquire via) ep node d r := by
  refine endpoint_nodeOf_eq_ok.trans (exists_congr fun ep => exists_congr fun id =>
    exists_congr fun node => and_congr_right fun _ => and_congr_right fun hnode => ?_)
  clear hnode
  cases node with
  | up type =>
    refine ⟨fun h => ⟨type, _, .up, h⟩, ?_⟩
    rintro ⟨_, _, hp, h⟩
    cases hp
    exact h
  | _ =>
    refine ⟨fun h => (nomatch h), ?_⟩
    rintro ⟨_, _, hp, -⟩
    cases hp

theorem act_detach {env : Env} {cfg : Configuration} {fresh : Fresh} {via : Sym} {d : Change}
    {r : Option StepSpec × Change} :
    act env cfg fresh (.detach via) d = .ok r ↔
      ∃ ep id node, cfg.channels.get? via = some ep ∧ env.resolve ep.type = .ok (id, node) ∧
        PassDraft cfg fresh (.detach via) ep node d r := by
  refine endpoint_nodeOf_eq_ok.trans (exists_congr fun ep => exists_congr fun id =>
    exists_congr fun node => and_congr_right fun _ => and_congr_right fun hnode => ?_)
  clear hnode
  cases node with
  | down type =>
    refine ⟨fun h => ⟨type, _, .down, h⟩, ?_⟩
    rintro ⟨_, _, hp, h⟩
    cases hp
    exact h
  | _ =>
    refine ⟨fun h => (nomatch h), ?_⟩
    rintro ⟨_, _, hp, -⟩
    cases hp

/-- A term that passes its channel on offers what carries the new channel. -/
theorem offerMoves_of_passDraft {env : Env} {cfg : Configuration} {fresh : Fresh} (term : Term)
    {d d' : Change} {next : Option StepSpec}
    (hterm : ∀ ep own half, Offers env cfg fresh term ep own half →
      ∃ id node type payload, cfg.channels.get? term.via = some ep ∧
        env.resolve ep.type = .ok (id, node) ∧ Passes term node type payload ∧
        own = [cfg.mark false term.via ep,
          cfg.mark true term.via ⟨fresh.channel, type, ep.pool⟩] ∧
        half = cfg.message ep.channel (payload ⟨fresh.channel, type, ep.pool⟩)) :
    (∃ ep id node, cfg.channels.get? term.via = some ep ∧ env.resolve ep.type = .ok (id, node) ∧
      PassDraft cfg fresh term ep node d (next, d')) ↔ OfferMoves env cfg fresh term next d d' := by
  have hnil : Adds cfg [] [] [] d d := adds_nil.2 (by simp)
  constructor
  · rintro ⟨ep, id, node, hep, hnode, type, payload, hp, h⟩
    obtain ⟨l, j, hl, hj, hn, hd⟩ := (advance_produce_eq_ok []).1 ⟨d, hnil, h⟩
    exact ⟨ep, _, _, l, j, .pass hep hnode hp, hl, hj, hn, hd⟩
  · rintro ⟨ep, own, half, l, j, ho, hl, hj, hn, hd⟩
    obtain ⟨id, node, type, payload, hep, hnode, hp, rfl, rfl⟩ := hterm ep own half ho
    obtain ⟨c, hc, h⟩ := (advance_produce_eq_ok []).2 ⟨l, j, hl, hj, hn, hd⟩
    have : c = d := by simpa using adds_nil.1 hc
    subst this
    exact ⟨ep, id, node, hep, hnode, type, payload, hp, h⟩

/-- Giving a channel away, and going on. -/
theorem endpoint_discard_eq_ok {cfg : Configuration} {value : Sym}
    {f : Endpoint → Drafting (Option StepSpec)} {d : Change} {r : Option StepSpec × Change} :
    (endpoint cfg value >>= fun given => discard cfg value given >>= fun _ => f given) d = .ok r ↔
      ∃ given, cfg.channels.get? value = some given ∧
        ∃ c, Adds cfg [cfg.mark false value given] [] [] d c ∧ f given c = .ok r := by
  simp only [bind_eq_ok (x := endpoint cfg value), endpoint_eq_ok, discard]
  constructor
  · rintro ⟨given, _, ⟨hv, rfl⟩, h⟩
    obtain ⟨_, c, hc, h⟩ := bind_eq_ok.1 h
    exact ⟨given, hv, c, adds_marks.2 (discardFor_eq_ok.1 hc), h⟩
  · rintro ⟨given, hv, c, hc, h⟩
    exact ⟨given, d, ⟨hv, rfl⟩, bind_eq_ok.2 ⟨(), c, discardFor_eq_ok.2 (adds_marks.1 hc), h⟩⟩

/-- What a term that sends a channel drafts, given the endpoint it acts on. -/
def SendDraft (cfg : Configuration) (fresh : Fresh) (via value : Sym) (ep : Endpoint)
    (node : TypeNode) (d : Change) (r : Option StepSpec × Change) : Prop :=
  ∃ type given, Carries node type ∧ cfg.channels.get? value = some given ∧
    ∃ c, Adds cfg [cfg.mark false value given] [] [] d c ∧
      (advance cfg fresh via ep type >>= fun n => produce cfg ep (.send given n)) c = .ok r

theorem act_send {env : Env} {cfg : Configuration} {fresh : Fresh} {via value : Sym} {d : Change}
    {r : Option StepSpec × Change} :
    act env cfg fresh (.send via value) d = .ok r ↔
      ∃ ep id node, cfg.channels.get? via = some ep ∧ env.resolve ep.type = .ok (id, node) ∧
        SendDraft cfg fresh via value ep node d r := by
  refine endpoint_nodeOf_eq_ok.trans (exists_congr fun ep => exists_congr fun id =>
    exists_congr fun node => and_congr_right fun _ => and_congr_right fun hnode => ?_)
  clear hnode
  cases node with
  | tensor v type =>
    simp only [pure_bind]
    refine endpoint_discard_eq_ok.trans ⟨?_, ?_⟩
    · rintro ⟨given, h⟩
      exact ⟨type, given, .tensor, h⟩
    · rintro ⟨_, given, hc, h⟩
      cases hc
      exact ⟨given, h⟩
  | lolli v type =>
    simp only [pure_bind]
    refine endpoint_discard_eq_ok.trans ⟨?_, ?_⟩
    · rintro ⟨given, h⟩
      exact ⟨type, given, .lolli, h⟩
    · rintro ⟨_, given, hc, h⟩
      cases hc
      exact ⟨given, h⟩
  | _ =>
    refine ⟨fun h => (nomatch h), ?_⟩
    rintro ⟨_, _, hc, -⟩
    cases hc

theorem offerMoves_of_sendDraft {env : Env} {cfg : Configuration} {fresh : Fresh}
    {via value : Sym} {d d' : Change} {next : Option StepSpec} :
    (∃ ep id node, cfg.channels.get? via = some ep ∧ env.resolve ep.type = .ok (id, node) ∧
      SendDraft cfg fresh via value ep node d (next, d')) ↔
      OfferMoves env cfg fresh (.send via value) next d d' := by
  constructor
  · rintro ⟨ep, id, node, hep, hnode, type, given, hc, hv, h⟩
    obtain ⟨l, j, hl, hj, hn, hd⟩ := (advance_produce_eq_ok _).1 h
    exact ⟨ep, _, _, l, j, .send hep hnode hc hv, hl, hj, hn, hd⟩
  · rintro ⟨ep, own, half, l, j, ho, hl, hj, hn, hd⟩
    cases ho with
    | send hep hnode hc hv =>
      have h := (advance_produce_eq_ok [_]).2 ⟨l, j, hl, hj, hn, hd⟩
      exact ⟨ep, _, _, hep, hnode, _, _, hc, hv, h⟩
    | pass _ _ hp => cases hp
    | consume hh => cases hh

/-- Terms that act on one channel are those that offer a half. -/
theorem act_offer {env : Env} {cfg : Configuration} {fresh : Fresh} {term : Term}
    (hterm : ∀ via target, term ≠ .fwd via target) (hcall : ∀ v s vs c, term ≠ .call v s vs c)
    (hspawn : ∀ v s vs p c, term ≠ .spawn v s vs p c) {d d' : Change} {next : Option StepSpec} :
    act env cfg fresh term d = .ok (next, d') ↔ OfferMoves env cfg fresh term next d d' := by
  cases term with
  | close via => exact act_close
  | send via value => exact act_send.trans offerMoves_of_sendDraft
  | lab via label =>
    refine act_lab.trans (offerMoves_of_passDraft (.lab via label) fun ep own half ho => ?_)
    cases ho with
    | pass hep hnode hp => exact ⟨_, _, _, _, hep, hnode, hp, rfl, rfl⟩
    | consume hh => nomatch hh
  | acquire via =>
    refine act_acquire.trans (offerMoves_of_passDraft (.acquire via) fun ep own half ho => ?_)
    cases ho with
    | pass hep hnode hp => exact ⟨_, _, _, _, hep, hnode, hp, rfl, rfl⟩
    | consume hh => nomatch hh
  | detach via =>
    refine act_detach.trans (offerMoves_of_passDraft (.detach via) fun ep own half ho => ?_)
    cases ho with
    | pass hep hnode hp => exact ⟨_, _, _, _, hep, hnode, hp, rfl, rfl⟩
    | consume hh => nomatch hh
  | fwd via target => exact absurd rfl (hterm via target)
  | call v s vs c => exact absurd rfl (hcall v s vs c)
  | spawn v s vs p c => exact absurd rfl (hspawn v s vs p c)
  | wait via cont => exact act_consume rfl
  | recv via value cont => exact act_consume rfl
  | case via conts => exact act_consume rfl
  | accept via cont => exact act_consume rfl
  | release via cont => exact act_consume rfl

/-! ## Forwards -/

/-- A forward gives both of its channels up. -/
def handedOver (cfg : Configuration) (via target : Sym) (x y : Endpoint) : List Mark :=
  [cfg.mark false via x, cfg.mark false target y]

/-- What a forward to `z` does with the half on the channel it gives away. -/
def redirect (env : Env) (cfg : Configuration) (y : Endpoint) (z : Id) (pending : Option Half) :
    Drafting (Option StepSpec) := do
  match cfg.halves.get? y.channel with
  | none =>
    slot (.put (.forward ⟨y.channel, cfg.pool, cfg.process, z⟩))
    pure none
  | some left =>
    let node ← nodeOf env y
    if ownDirection node.polarity left then
      slot (.take y.channel)
      join cfg z left pending
    else
      throw (.unexpectedVariant (directionKind node.polarity) left.kind)

/-- Forwarding is giving up two channels, landing and redirecting. -/
theorem forward_eq (env : Env) (cfg : Configuration) (via target : Sym) :
    forward env cfg via target = (endpoint cfg via >>= fun x => endpoint cfg target >>= fun y =>
      discard cfg via x >>= fun _ => discard cfg target y >>= fun _ =>
        land cfg x.channel >>= fun r => redirect env cfg y r.1 r.2) := by
  unfold forward redirect
  refine bind_congr fun x => bind_congr fun y => bind_congr fun _ => bind_congr fun _ =>
    bind_congr fun r => ?_
  obtain ⟨z, pending⟩ := r
  cases cfg.halves.get? y.channel with
  | none => rfl
  | some left =>
    refine bind_congr fun node => ?_
    dsimp only
    cases ownDirection node.polarity left <;> rfl

theorem redirect_eq_ok {env : Env} {cfg : Configuration} {y : Endpoint} {z : Id}
    {pending : Option Half} {d d' : Change} {next : Option StepSpec} :
    redirect env cfg y z pending d = .ok (next, d') ↔
      (cfg.halves.get? y.channel = none ∧ next = none ∧
        Adds cfg [] [.put (.forward ⟨y.channel, cfg.pool, cfg.process, z⟩)] [] d d') ∨
      ∃ left id node j, cfg.halves.get? y.channel = some left ∧
        env.resolve y.type = .ok (id, node) ∧ ownDirection node.polarity left = true ∧
        Joins z left pending j ∧ next = j.next ∧
        Adds cfg j.marks (.take y.channel :: j.slots) j.homes d d' := by
  unfold redirect
  cases cfg.halves.get? y.channel with
  | none =>
    simp only [bind_eq_ok, slot_adds cfg, pure_eq_ok, Prod.mk.injEq]
    constructor
    · rintro ⟨_, e, he, rfl, rfl⟩
      exact .inl ⟨trivial, rfl, he⟩
    · rintro (⟨-, rfl, hd⟩ | ⟨_, _, _, _, h, -⟩)
      · exact ⟨(), d', hd, rfl, rfl⟩
      · cases h
  | some left =>
    have taken : (slot (.take y.channel) >>= fun _ => join cfg z left pending) d = .ok (next, d') ↔
        ∃ j, Joins z left pending j ∧ next = j.next ∧
          Adds cfg j.marks (.take y.channel :: j.slots) j.homes d d' := by
      simp only [bind_eq_ok, slot_adds cfg, join_eq_ok]
      constructor
      · rintro ⟨_, e, he, j, hj, rfl, hd⟩
        exact ⟨j, hj, rfl,
          (exists_adds_iff cfg d d' [] j.marks [.take y.channel] j.slots [] j.homes).1 ⟨e, he, hd⟩⟩
      · rintro ⟨j, hj, rfl, hd⟩
        obtain ⟨e, he, hd⟩ :=
          (exists_adds_iff cfg d d' [] j.marks [.take y.channel] j.slots [] j.homes).2 hd
        exact ⟨(), e, he, j, hj, rfl, hd⟩
    simp only [bind_eq_ok (x := nodeOf env y), nodeOf_eq_ok]
    constructor
    · rintro ⟨node, _, ⟨id, hnode, rfl⟩, h⟩
      by_cases hown : ownDirection node.polarity left = true
      · rw [if_pos hown] at h
        obtain ⟨j, hj, hn, hd⟩ := taken.1 h
        exact .inr ⟨left, id, node, j, rfl, hnode, hown, hj, hn, hd⟩
      · rw [if_neg hown] at h
        exact (throw_ne_ok.1 h).elim
    · rintro (⟨h, -⟩ | ⟨_, id, node, j, h, hnode, hown, hj, hn, hd⟩)
      · cases h
      · cases h
        refine ⟨node, d, ⟨id, hnode, rfl⟩, ?_⟩
        rw [if_pos hown]
        exact taken.2 ⟨j, hj, hn, hd⟩

/-- A forward gives up its two channels and lands; then it stays for the provider of its target,
or joins the half that the provider has left. -/
theorem forward_eq_ok {env : Env} {cfg : Configuration} {via target : Sym} {d d' : Change}
    {next : Option StepSpec} :
    forward env cfg via target d = .ok (next, d') ↔
      ∃ x y l, cfg.channels.get? via = some x ∧ cfg.channels.get? target = some y ∧
        cfg.landing? x.channel = some l ∧
        ((cfg.halves.get? y.channel = none ∧ next = none ∧
          Adds cfg (handedOver cfg via target x y)
            (l.takes ++ [.put (.forward ⟨y.channel, cfg.pool, cfg.process, l.channel⟩)]) []
            d d') ∨
        ∃ left id node j, cfg.halves.get? y.channel = some left ∧
          env.resolve y.type = .ok (id, node) ∧ ownDirection node.polarity left = true ∧
          Joins l.channel left l.half j ∧ next = j.next ∧
          Adds cfg (handedOver cfg via target x y ++ j.marks)
            (l.takes ++ (.take y.channel :: j.slots)) j.homes d d') := by
  -- giving up the two channels and landing, as one addition
  have start : ∀ (x y : Endpoint) (l : Landing) (e : Change),
      (∃ a, inscribe? cfg [cfg.mark false via x] d = some a ∧
        ∃ b, inscribe? cfg [cfg.mark false target y] a = some b ∧ Adds cfg [] l.takes [] b e) ↔
        Adds cfg (handedOver cfg via target x y) l.takes [] d e := by
    intro x y l e
    simp only [← adds_marks]
    have h₁ := fun a => exists_adds_iff cfg a e [cfg.mark false target y] [] [] l.takes [] []
    have h₂ := exists_adds_iff cfg d e [cfg.mark false via x] [cfg.mark false target y]
      [] l.takes [] []
    simp only [List.nil_append, List.append_nil] at h₁ h₂
    simp only [h₁]
    exact h₂
  rw [forward_eq]
  unfold discard
  simp only [bind_eq_ok, endpoint_eq_ok, discardFor_eq_ok, land_eq_ok, redirect_eq_ok]
  constructor
  · rintro ⟨x, _, ⟨hx, rfl⟩, y, _, ⟨hy, rfl⟩, _, a, ha, _, b, hb, _, e, ⟨l, hl, rfl, he⟩, h⟩
    have hstart := (start x y l e).1 ⟨a, ha, b, hb, he⟩
    refine ⟨x, y, l, hx, hy, hl, ?_⟩
    rcases h with ⟨hnone, hn, hd⟩ | ⟨left, id, node, j, hleft, hnode, hown, hj, hn, hd⟩
    · have hall := (exists_adds_iff cfg _ d' _ [] _ _ [] []).1 ⟨e, hstart, hd⟩
      exact .inl ⟨hnone, hn, by simpa using hall⟩
    · have hall := (exists_adds_iff cfg _ d' _ j.marks _ _ [] j.homes).1 ⟨e, hstart, hd⟩
      exact .inr ⟨left, id, node, j, hleft, hnode, hown, hj, hn, hall⟩
  · rintro ⟨x, y, l, hx, hy, hl, h⟩
    rcases h with ⟨hnone, hn, hd⟩ | ⟨left, id, node, j, hleft, hnode, hown, hj, hn, hd⟩
    · obtain ⟨e, he, hd⟩ := (exists_adds_iff cfg d d' (handedOver cfg via target x y) [] l.takes
        [.put (.forward ⟨y.channel, cfg.pool, cfg.process, l.channel⟩)] [] []).2 (by simpa using hd)
      obtain ⟨a, ha, b, hb, he⟩ := (start x y l e).2 he
      exact ⟨x, d, ⟨hx, rfl⟩, y, d, ⟨hy, rfl⟩, (), a, ha, (), b, hb, _, e, ⟨l, hl, rfl, he⟩,
        .inl ⟨hnone, hn, hd⟩⟩
    · obtain ⟨e, he, hd⟩ := (exists_adds_iff cfg d d' (handedOver cfg via target x y) j.marks
        l.takes (.take y.channel :: j.slots) [] j.homes).2 hd
      obtain ⟨a, ha, b, hb, he⟩ := (start x y l e).2 he
      exact ⟨x, d, ⟨hx, rfl⟩, y, d, ⟨hy, rfl⟩, (), a, ha, (), b, hb, _, e, ⟨l, hl, rfl, he⟩,
        .inr ⟨left, id, node, j, hleft, hnode, hown, hj, hn, hd⟩⟩

end Drafting

end Rendezvous
