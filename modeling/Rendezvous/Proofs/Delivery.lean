import Rendezvous.Proofs.Replay
import Rendezvous.Proofs.Simulation

/-!
# What is handed over

A payload brings the types that its producer had in mind, while the consumer was accepted for the
types that it has on record for the channel. Both kinds are the same (`Same`), and this module says
what that is worth on each side:

- `Payload.Bears` says that a payload goes with a node, up to `Same`. What a producer offers goes
  with what its channel stands for (`delivers_of_offers`), and so it goes with what the channel
  stands for on the other side (`Payload.Delivers.across`);
- a consumer that is handed such a payload goes on in a context that is related to the one in which
  its continuation was accepted (`related_of_reply`).
-/

namespace Rendezvous

open Context (Sends Selects)

variable {D : Id → TypeNode → Prop} {r : Registry} {env : Env} {cfg : Configuration} {fresh : Fresh}
  {term : Term}

/-! ## Payloads and types -/

/-- What is handed over is of the types that the node says. -/
inductive Payload.Bears (D : Id → TypeNode → Prop) : TypeNode → Payload → Prop
  | close : Bears D .one .close
  | send {σ : Side} {node : TypeNode} {want next : Id} {value cont : Endpoint}
    (hs : Sends σ node want next) (hv : Same D want value.type) (hc : Same D next cont.type) :
    Bears D node (.send value cont)
  | lab {σ : Side} {node : TypeNode} {choices : Table Sym Id} {label : Sym} {next : Id}
    {cont : Endpoint} (hs : Selects σ node choices) (hl : choices.get? label = some next)
    (hc : Same D next cont.type) : Bears D node (.lab label cont)
  | acquire {next : Id} {cont : Endpoint} (hc : Same D next cont.type) :
    Bears D (.up next) (.acquire cont)
  | detach {next : Id} {cont : Endpoint} (hc : Same D next cont.type) :
    Bears D (.down next) (.detach cont)

/-- A payload that goes with a node goes with every node that is alike. -/
theorem Payload.Bears.alike {m n : TypeNode} {payload : Payload}
    (hD : ∀ a m n, D a m → D a n → m = n) (h : payload.Bears D m) (ha : m.Alike (Same D) n) :
    payload.Bears D n := by
  cases h with
  | close =>
    cases ha
    exact .close
  | send hs hv hc =>
    obtain ⟨want', next', hs', hwant, hnext⟩ := hs.alike ha
    exact .send hs' (hwant.symm.trans hD hv) (hnext.symm.trans hD hc)
  | lab hs hl hc =>
    obtain ⟨choices', hs', hchoices⟩ := hs.alike ha
    obtain ⟨next', hl', hnext⟩ := rel_some (hchoices _) hl
    exact .lab hs' hl' (hnext.symm.trans hD hc)
  | acquire hc =>
    cases ha with
    | up hnext => exact .acquire (hnext.symm.trans hD hc)
  | detach hc =>
    cases ha with
    | down hnext => exact .detach (hnext.symm.trans hD hc)

/-- A connective that sends takes a channel. -/
theorem Payload.Bears.of_sends {σ : Side} {node : TypeNode} {want next : Id} {payload : Payload}
    (h : payload.Bears D node) (hs : Sends σ node want next) :
    ∃ value cont, payload = .send value cont ∧ Same D want value.type ∧ Same D next cont.type := by
  cases h with
  | send hs' hv hc => cases hs <;> cases hs' <;> exact ⟨_, _, rfl, hv, hc⟩
  | lab hs' => cases hs <;> cases hs'
  | _ => cases hs

/-- A connective that selects takes one of its labels. -/
theorem Payload.Bears.of_selects {σ : Side} {node : TypeNode} {choices : Table Sym Id}
    {payload : Payload} (h : payload.Bears D node) (hs : Selects σ node choices) :
    ∃ label cont next, payload = .lab label cont ∧ choices.get? label = some next ∧
      Same D next cont.type := by
  cases h with
  | send hs' => cases hs <;> cases hs'
  | lab hs' hl hc => cases hs <;> cases hs' <;> exact ⟨_, _, _, rfl, hl, hc⟩
  | _ => cases hs

theorem Payload.Bears.of_one {payload : Payload} (h : payload.Bears D .one) : payload = .close := by
  cases h with
  | close => rfl
  | send hs => cases hs
  | lab hs => cases hs

theorem Payload.Bears.of_up {next : Id} {payload : Payload} (h : payload.Bears D (.up next)) :
    ∃ cont, payload = .acquire cont ∧ Same D next cont.type := by
  cases h with
  | acquire hc => exact ⟨_, rfl, hc⟩
  | send hs => cases hs
  | lab hs => cases hs

theorem Payload.Bears.of_down {next : Id} {payload : Payload} (h : payload.Bears D (.down next)) :
    ∃ cont, payload = .detach cont ∧ Same D next cont.type := by
  cases h with
  | detach hc => exact ⟨_, rfl, hc⟩
  | send hs => cases hs
  | lab hs => cases hs

/-- A payload for the channel `ep`: it goes with what the channel stands for, the channel goes on in
the same pool, and all types that are handed over are in `T`. -/
structure Payload.Delivers (r : Registry) (T : Id → Prop) (ep : Endpoint) (payload : Payload) :
    Prop where
  bears : ∃ n, r.Denotes ep.type n ∧ payload.Bears r.Denotes n
  pool : ∀ e, payload.cont? = some e → e.pool = ep.pool
  types : ∀ e, payload.cont? = some e ∨ payload.value? = some e → T e.type

/-- What is handed over on one end of a channel is handed over on the other. -/
theorem Payload.Delivers.across {T : Id → Prop} {x y : Endpoint} {payload : Payload}
    (h : payload.Delivers r T x) (htype : Same r.Denotes x.type y.type) (hpool : x.pool = y.pool) :
    payload.Delivers r T y := by
  obtain ⟨m, hm, hbears⟩ := h.bears
  obtain ⟨n, hn, halike⟩ := htype.unfold r.functional_denotes hm
  exact ⟨⟨n, hn, hbears.alike r.functional_denotes halike⟩,
    fun e he => (h.pool e he).trans hpool, h.types⟩

theorem Context.Sends.mem_children {σ : Side} {node : TypeNode} {want next : Id}
    (h : Sends σ node want next) : next ∈ node.children := by
  cases h <;> simp [TypeNode.children]

/-- A term that passes its channel on hands over nothing else. -/
theorem Passes.bears {node : TypeNode} {payload : Endpoint → Payload} {e : Endpoint}
    (h : Passes term node e.type payload) :
    (payload e).Bears D node ∧ e.type ∈ node.children ∧ (payload e).cont? = some e ∧
      (payload e).value? = none := by
  generalize htype : e.type = type at h
  cases h with
  | plus h =>
    exact ⟨.lab .plus h (htype ▸ .refl _ _), Table.mem_values_of_get?_eq_some h, rfl, rfl⟩
  | «with» h =>
    exact ⟨.lab .with h (htype ▸ .refl _ _), Table.mem_values_of_get?_eq_some h, rfl, rfl⟩
  | up => exact ⟨.acquire (htype ▸ .refl _ _), List.mem_cons_self, rfl, rfl⟩
  | down => exact ⟨.detach (htype ▸ .refl _ _), List.mem_cons_self, rfl, rfl⟩

/-- A term that handles nothing offers a message. -/
theorem message_of_offers {ep : Endpoint} {own : List Mark} {half : Half}
    (hh : term.handler? = none) (h : Offers env cfg fresh term ep own half) :
    ∃ msg, half = .message msg := by
  cases h with
  | consume hh' => cases hh.symm.trans hh'
  | _ => exact ⟨_, rfl⟩

/-- A term that handles something offers a service, and binds nothing. -/
theorem service_of_handler {ep : Endpoint} {own : List Mark} {half : Half} {handler : Handler}
    (hh : term.handler? = some handler) (h : Offers env cfg fresh term ep own half) :
    own = [] ∧ half = .service ⟨ep.channel, cfg.pool, cfg.process, term.via, ep, handler⟩ := by
  cases h with
  | consume hh' =>
    cases hh.symm.trans hh'
    exact ⟨rfl, rfl⟩
  | pass _ _ hp => cases hp <;> cases hh
  | _ => cases hh

/-- What a term offers is of the types that its channel says. -/
theorem delivers_of_offers {Δ : Context} {ep : Endpoint} {own : List Mark} {msg : Message}
    (hw : env.Within r) (hclosed : env.Closed)
    (htypes : ∀ e ∈ cfg.channels.values, e.type ∈ env.types.keys)
    (ho : Offers env cfg fresh term ep own (.message msg))
    (hc : Checks env (.ofChannels cfg.pool cfg.channels) term Δ) :
    msg.payload.Delivers r (· ∈ env.types.keys) ep := by
  generalize hhalf : Half.message msg = half at ho
  cases ho with
  | close hep =>
    cases hhalf
    cases hc with
    | close he =>
      obtain ⟨ep', hep', -, -, id, hnode⟩ := he.channel
      cases hep.symm.trans hep'
      refine ⟨⟨.one, Env.denotes_of_resolve hw hnode, .close⟩, nofun, ?_⟩
      rintro e (he | he) <;> cases he
  | @send via value ep given id type node hep hnode hcarries hv =>
    cases hhalf
    cases hc with
    | @send _ _ _ σ node' _ want got next he hs hgot heq hfree =>
      obtain ⟨ep', hep', rfl, -, id', hnode'⟩ := he.channel
      cases hep.symm.trans hep'
      cases hnode.symm.trans hnode'
      obtain rfl : type = next := hcarries.eq_next hs
      -- the channel that the checker has found for the value is the one that is handed over
      rw [← Context.ofChannels_erase hep] at hgot
      obtain ⟨given', hgiven, -, rfl⟩ := channel_of_asset hgot
      obtain rfl : given = given' := by
        rw [Table.get?_erase] at hgiven
        split at hgiven
        · cases hgiven
        · exact Option.some.inj (hv.symm.trans hgiven)
      refine ⟨⟨node, Env.denotes_of_resolve hw hnode,
        .send hs (Env.same_denotes_of_eqType hw heq) (.refl _ _)⟩, fun e he => ?_, ?_⟩
      · cases he
        rfl
      · rintro e (he | he)
        · cases he
          exact Env.Stands.children hclosed ⟨id, hnode⟩ type hs.mem_children
        · cases he
          exact htypes _ (Table.mem_values_of_get?_eq_some hv)
  | @pass _ _ id type node payload hep hnode hp =>
    cases hhalf
    obtain ⟨hbears, hmem, hcont, hvalue⟩ :=
      Passes.bears (D := r.Denotes) (e := ⟨fresh.channel, type, ep.pool⟩) hp
    refine ⟨⟨node, Env.denotes_of_resolve hw hnode, hbears⟩, fun e he => ?_, ?_⟩
    · cases hcont.symm.trans he
      rfl
    · rintro e (he | he)
      · cases hcont.symm.trans he
        exact Env.Stands.children hclosed ⟨id, hnode⟩ type hmem
      · cases hvalue.symm.trans he
  | consume => cases hhalf

/-! ## Going on -/

/-- A consumer that has the pool of the continuation on record binds it as it comes. -/
theorem Drafting.continued_eq {svc : Service} {next : Endpoint}
    (h : next.pool = svc.endpoint.pool) : Drafting.continued svc next = next := by
  unfold Drafting.continued
  split
  · next hown => rw [← hown, ← h]
  · rfl

theorem Service.homes_eq_nil {svc : Service} {payload : Payload}
    (h : ∀ e, payload.cont? = some e → e.pool = svc.endpoint.pool) : svc.homes payload = [] := by
  unfold Service.homes
  split
  · next e he => rw [Service.homeOf, Drafting.continued_eq (h e he), if_neg (fun hne => hne rfl)]
  · rfl

/-- A consumer that is served is bound to what it is handed. -/
theorem Service.mem_marks {svc : Service} {payload : Payload} {k : Mark}
    (hpool : ∀ e, payload.cont? = some e → e.pool = svc.endpoint.pool) (hk : k ∈ svc.marks payload)
    (hintro : k.isIntro = true) :
    payload.cont? = some k.endpoint ∨ payload.value? = some k.endpoint := by
  unfold Service.marks at hk
  rcases List.mem_cons.1 hk with rfl | hk
  · cases hintro
  rcases List.mem_append.1 hk with hk | hk
  · obtain ⟨next, hnext, rfl⟩ := Option.map_eq_some_iff.1 (Option.mem_toList.1 hk)
    exact .inl (hnext.trans (congrArg some (Drafting.continued_eq (hpool next hnext)).symm))
  · unfold Service.received at hk
    split at hk
    · rw [List.mem_singleton.1 hk]
      exact .inr rfl
    · cases hk

theorem Context.Related.refl {R : Id → Id → Prop} (hR : ∀ a, R a a) (Γ : Context) : Γ.Related R Γ :=
  fun _ _ => rel_refl fun a _ => hR a

section

variable {t : Table Sym Endpoint} {svc : Service} {payload : Payload} {cont : Term} {Γ Δ : Context}

/-- A consumer that is served binds the continuation, and then what it receives. -/
theorem Service.enter_marks {next : Endpoint} (hnext : payload.cont? = some next)
    (hpool : next.pool = svc.endpoint.pool) :
    (svc.marks payload).foldl Mark.enter t =
      (svc.received payload).foldl Mark.enter ((t.erase svc.via).insert svc.via next) := by
  rw [Service.marks, hnext, Option.map_some, Drafting.continued_eq hpool]
  rfl

/-- A consumer's channel goes on with a type that is the same as the one it was accepted for. -/
theorem Context.Advances.related_channel {pool : Id} {y : Endpoint} {via : Sym} {σ : Side}
    {node : TypeNode} {want : Id} {next : Endpoint} (hy : t.get? via = some y)
    (h : (Context.ofChannels pool t).Advances env via σ node want Γ) (hpool : next.pool = y.pool)
    (htype : Same D want next.type) :
    Γ.Related (Same D) (.ofChannels pool ((t.erase via).insert via next)) := by
  obtain ⟨he, hfree⟩ := h
  obtain ⟨y', hy', rfl, -⟩ := he.channel
  cases hy.symm.trans hy'
  have hside : Context.sideFrom pool next = Context.sideFrom pool y := by
    unfold Context.sideFrom
    rw [hpool]
  rw [Context.ofChannels_insert (Table.get?_erase_self ..), Context.ofChannels_erase hy, hside]
  exact (Context.Related.refl (Same.refl D) _).adding htype _ via

/-- A consumer that receives nothing but the continuation. -/
theorem Context.Advances.related_served {via : Sym} {σ : Side} {node : TypeNode} {want : Id}
    {next : Endpoint} (hvia : svc.via = via) (hy : t.get? via = some svc.endpoint)
    (hnext : payload.cont? = some next) (hreceived : svc.received payload = [])
    (hpool : next.pool = svc.endpoint.pool) (htype : Same D want next.type)
    (h : (Context.ofChannels svc.pool t).Advances env via σ node want Γ) :
    Γ.Related (Same D) (.ofChannels svc.pool ((svc.marks payload).foldl Mark.enter t)) := by
  rw [Service.enter_marks hnext hpool, hreceived, hvia]
  exact h.related_channel hy hpool htype

/-- A received channel is held, under a placeholder that was free. -/
theorem Context.Related.insert_client {pool : Id} {ph : Sym} {want : Id} {value : Endpoint}
    (h : Γ.Related (Same D) (.ofChannels pool t)) (hfree : Γ.sideOf? ph = none)
    (hvalue : value.pool ≠ pool) (htype : Same D want value.type) :
    (Γ.adding .client ph want).Related (Same D) (.ofChannels pool (t.insert ph value)) := by
  have hnone : t.get? ph = none := by
    have hside := (h.sideOf?_eq ph).trans hfree
    rwa [Context.sideOf?_ofChannels, Option.map_eq_none_iff] at hside
  rw [Context.ofChannels_insert hnone, sideFrom_eq_client.2 hvalue]
  exact h.adding htype .client ph

/-- A consumer that is handed a payload goes on in a context that is related to one in which its
continuation was accepted. -/
theorem related_of_reply (hw : env.Within r) (hhandler : term.handler? = some svc.handler)
    (hvia : svc.via = term.via) (hy : t.get? term.via = some svc.endpoint)
    (hc : Checks env (.ofChannels svc.pool t) term Δ) {T : Id → Prop}
    (hdel : payload.Delivers r T svc.endpoint) (hreply : svc.reply payload = some cont) :
    ∃ Γ₁ Δ₁, Checks env Γ₁ cont Δ₁ ∧ (∀ id ∈ cont.mentions, id ∈ term.mentions) ∧
      Γ₁.Related (Same r.Denotes)
        (.ofChannels svc.pool ((svc.marks payload).foldl Mark.enter t)) := by
  obtain ⟨n, hn, hbears⟩ := hdel.bears
  -- what the channel stands for is what the checker has found
  have hnode : ∀ {via : Sym} {σ : Side} {type : Id} {node : TypeNode},
      t.get? via = some svc.endpoint →
      (Context.ofChannels svc.pool t).Enters env via σ type node →
      n = node ∧ Context.sideFrom svc.pool svc.endpoint = σ := by
    intro via σ type node hy he
    obtain ⟨y', hy', hside, -, id, hres⟩ := he.channel
    cases hy.symm.trans hy'
    exact ⟨hn.unique (Env.denotes_of_resolve hw hres), hside⟩
  have hadvanced : ∀ {via : Sym} {σ : Side} {node : TypeNode} {want : Id} {Γ : Context},
      t.get? via = some svc.endpoint →
      (Context.ofChannels svc.pool t).Advances env via σ node want Γ → n = node := by
    intro via σ node want Γ hy ha
    obtain ⟨type, he, -⟩ := Context.advances_iff.1 ha
    exact (hnode hy he).1
  cases hc with
  | @wait _ _ via body _ he hc =>
    obtain ⟨rfl, hside⟩ := hnode hy he
    have hh : svc.handler = .wait body := (Option.some.inj hhandler).symm
    obtain rfl := hbears.of_one
    obtain rfl : body = cont := by simpa [Service.reply, hh] using hreply
    refine ⟨_, _, hc, fun _ h => h, ?_⟩
    have hmarks : (svc.marks .close).foldl Mark.enter t = t.erase svc.via := rfl
    rw [hmarks, hvia, Context.ofChannels_erase hy, hside]
    exact .refl (Same.refl _) _
  | @recv _ Γ₁ _ via ph body σ node got want hs ha hfree hc =>
    obtain rfl := hadvanced hy ha
    have hh : svc.handler = .recv ph body := (Option.some.inj hhandler).symm
    obtain ⟨value, next, rfl, hv, hnext⟩ := hbears.of_sends hs
    obtain ⟨hvalue, rfl⟩ : value.pool ≠ svc.pool ∧ body = cont := by
      simpa [Service.reply, hh] using hreply
    refine ⟨_, _, hc, fun _ h => h, ?_⟩
    have hreceived : svc.received (.send value next) = [svc.mark true ph value] := by
      simp [Service.received, hh]
    rw [Service.enter_marks rfl (hdel.pool next rfl), hvia, hreceived]
    exact (ha.related_channel hy (hdel.pool next rfl) hnext).insert_client hfree hvalue hv
  | @case _ via conts σ node _ choices want Γ₁ Δ₁ he hs hlabels hlabel ha hc =>
    obtain ⟨rfl, -⟩ := hnode hy he
    have hh : svc.handler = .case conts := (Option.some.inj hhandler).symm
    obtain ⟨label, next, type, rfl, hl, hnext⟩ := hbears.of_selects hs
    have hfind : Table.find? label conts = some cont := by simpa [Service.reply, hh] using hreply
    have hmem := Table.mem_of_find?_eq_some hfind
    obtain rfl : want (label, cont) = type := Option.some.inj ((hlabel _ hmem).symm.trans hl)
    refine ⟨_, _, hc _ hmem, fun id hid => Term.mem_mentions_of_branch hmem hid, ?_⟩
    exact (ha _ hmem).related_served hvia hy rfl (by simp [Service.received])
      (hdel.pool next rfl) hnext
  | @accept _ Γ₁ _ via body want ha hc =>
    obtain rfl := hadvanced hy ha
    have hh : svc.handler = .accept body := (Option.some.inj hhandler).symm
    obtain ⟨next, rfl, hnext⟩ := hbears.of_up
    obtain rfl : body = cont := by simpa [Service.reply, hh] using hreply
    refine ⟨_, _, hc, fun _ h => h, ?_⟩
    exact ha.related_served hvia hy rfl (by simp [Service.received]) (hdel.pool next rfl) hnext
  | @release _ Γ₁ _ via body want ha hc =>
    obtain rfl := hadvanced hy ha
    have hh : svc.handler = .release body := (Option.some.inj hhandler).symm
    obtain ⟨next, rfl, hnext⟩ := hbears.of_down
    obtain rfl : body = cont := by simpa [Service.reply, hh] using hreply
    refine ⟨_, _, hc, fun _ h => h, ?_⟩
    exact ha.related_served hvia hy rfl (by simp [Service.received]) (hdel.pool next rfl) hnext
  | _ => cases hhandler

end

end Rendezvous
