import Rendezvous.Proofs.Denotes
import Rendezvous.Proofs.Rules

/-!
# What the checker has seen

A term that is accepted as the next action of a process suits the channel it acts on. `Suits` is
the table of which term goes with which connective on which side. `suits_of_checkStep` reads it
off an accepted term that acts on one channel; `joins_of_checkStep` and `gives_of_checkStep` are
the same for forwards and for instances. Only the head of a term matters: what follows is checked
again when its turn comes.
-/

namespace Rendezvous

open Context (Enters)

/-! ## Contexts of channels -/

namespace Context

variable {env : Env} {Γ Δ : Context}

theorem bound?_without (Γ : Context) (σ side : Side) (via ph : Sym) :
    (Γ.without σ via).bound? side ph =
      if side = σ ∧ ph = via then none else Γ.bound? side ph := by
  cases σ <;> cases side <;> simp [without, bound?, Table.get?_erase]

/-- The side of a channel as seen from `pool`. -/
def sideFrom (pool : Id) (e : Endpoint) : Side := if e.pool = pool then .provider else .client

/-- A context holds each channel on the side it is on, and nothing else. -/
theorem bound?_ofChannels (pool : Id) (channels : Table Sym Endpoint) (side : Side) (ph : Sym) :
    (ofChannels pool channels).bound? side ph =
      ((channels.get? ph).filter fun e => sideFrom pool e = side).map Endpoint.type := by
  -- the entries not looked at yet are the last part of the table, so no key comes twice
  suffices h : ∀ (entries : List (Sym × Endpoint)) (ctx : Context),
      (entries.map Prod.fst).Nodup → (∀ e ∈ entries, ∀ side, ctx.bound? side e.1 = none) →
      (entries.foldl
        (fun ctx e =>
          if e.2.pool = pool then
            { ctx with liabilities := ctx.liabilities.insert e.1 e.2.type }
          else
            { ctx with assets := ctx.assets.insert e.1 e.2.type })
        ctx).bound? side ph =
        (ctx.bound? side ph).or
          (((Table.find? ph entries).filter fun e => sideFrom pool e = side).map
            Endpoint.type) by
    have hall := h channels.entries ∅ channels.nodup fun e _ side => by cases side <;> rfl
    have hempty : (∅ : Context).bound? side ph = none := by cases side <;> rfl
    rw [hempty, Option.none_or] at hall
    exact hall
  intro entries
  induction entries with
  | nil => intro ctx _ _; simp [Table.find?]
  | cons e rest ih =>
    intro ctx hn hfree
    obtain ⟨hnot, hn⟩ := List.nodup_cons.1 hn
    have hne : ∀ e' ∈ rest, e'.1 ≠ e.1 := fun e' he' hk => hnot (List.mem_map.2 ⟨e', he', hk⟩)
    have hctx : ∀ side ph, (if e.2.pool = pool then
          { ctx with liabilities := ctx.liabilities.insert e.1 e.2.type }
        else
          { ctx with assets := ctx.assets.insert e.1 e.2.type } : Context).bound? side ph =
        if ph = e.1 ∧ sideFrom pool e.2 = side then some e.2.type else ctx.bound? side ph := by
      intro side ph
      unfold sideFrom
      by_cases hp : e.2.pool = pool <;> cases side <;>
        simp [hp, bound?, Table.get?_insert]
    rw [List.foldl_cons, ih _ hn, hctx, Table.find?]
    · by_cases hk : e.1 = ph
      · subst hk
        have hrest : Table.find? e.1 rest = none := (Table.find?_eq_none_iff _ _).2 hnot
        rw [hrest, if_pos rfl, hfree e List.mem_cons_self side]
        by_cases hs : sideFrom pool e.2 = side <;> simp [hs, Option.filter]
      · rw [if_neg hk, if_neg fun hc => hk hc.1.symm]
    · intro e' he' side'
      rw [hctx, if_neg fun hc => hne e' he' hc.1]
      exact hfree e' (List.mem_cons_of_mem _ he') side'

end Context

section

variable {pool : Id} {env : Env} {cfg : Configuration} {ctx : Context}

theorem channel_of_bound? {channels : Table Sym Endpoint} {side : Side} {ph : Sym} {type : Id}
    (h : (Context.ofChannels pool channels).bound? side ph = some type) :
    ∃ e, channels.get? ph = some e ∧ Context.sideFrom pool e = side ∧ e.type = type := by
  rw [Context.bound?_ofChannels, Option.map_eq_some_iff] at h
  obtain ⟨e, he, ht⟩ := h
  rw [Option.filter_eq_some_iff] at he
  exact ⟨e, he.1, by simpa using he.2, ht⟩

theorem bound?_of_channel (pool : Id) {channels : Table Sym Endpoint} {ph : Sym} {e : Endpoint}
    (h : channels.get? ph = some e) (side : Side) :
    (Context.ofChannels pool channels).bound? side ph =
      if Context.sideFrom pool e = side then some e.type else none := by
  rw [Context.bound?_ofChannels, h]
  by_cases hs : Context.sideFrom pool e = side <;> simp [Option.filter, hs]

theorem sideFrom_eq_client {e : Endpoint} :
    Context.sideFrom pool e = .client ↔ e.pool ≠ pool := by
  unfold Context.sideFrom
  by_cases h : e.pool = pool <;> simp [h]

theorem sideFrom_eq_provider {e : Endpoint} :
    Context.sideFrom pool e = .provider ↔ e.pool = pool := by
  unfold Context.sideFrom
  by_cases h : e.pool = pool <;> simp [h]

/-- A channel that is held is somebody else's. -/
theorem channel_of_asset {channels : Table Sym Endpoint} {ph : Sym} {type : Id}
    (h : (Context.ofChannels pool channels).assets.get? ph = some type) :
    ∃ e, channels.get? ph = some e ∧ e.pool ≠ pool ∧ e.type = type := by
  obtain ⟨e, he, hs, ht⟩ := channel_of_bound? (show Context.bound? _ .client ph = some type from h)
  exact ⟨e, he, sideFrom_eq_client.1 hs, ht⟩

/-- A context made of channels has nothing on a side without one of them, if it is the only one
there. -/
theorem bound?_without_eq_none_iff {channels : Table Sym Endpoint} (σ : Side) {via : Sym} :
    (∀ ph, ((Context.ofChannels pool channels).without σ via).bound? σ ph = none) ↔
      ∀ ph e, channels.get? ph = some e → Context.sideFrom pool e = σ → ph = via := by
  constructor
  · intro h ph e he hside
    by_contra hne
    have hnone := h ph
    rw [Context.bound?_without, if_neg fun hh => hne hh.2, bound?_of_channel pool he,
      if_pos hside] at hnone
    cases hnone
  · intro h ph
    rw [Context.bound?_without]
    split
    · rfl
    · next hne =>
      cases hb : (Context.ofChannels pool channels).bound? σ ph with
      | none => rfl
      | some type =>
        obtain ⟨e, he, hside, -⟩ := channel_of_bound? hb
        exact absurd ⟨rfl, h ph e he hside⟩ hne

theorem liabilities_without_isEmpty_iff {channels : Table Sym Endpoint} {via : Sym} :
    ((Context.ofChannels pool channels).without .provider via).liabilities.isEmpty = true ↔
      ∀ ph e, channels.get? ph = some e → e.pool = pool → ph = via := by
  rw [Table.isEmpty_iff]
  simp only [← sideFrom_eq_provider]
  exact bound?_without_eq_none_iff .provider

theorem assets_without_isEmpty_iff {channels : Table Sym Endpoint} {via : Sym} :
    ((Context.ofChannels pool channels).without .client via).assets.isEmpty = true ↔
      ∀ ph e, channels.get? ph = some e → e.pool ≠ pool → ph = via := by
  rw [Table.isEmpty_iff]
  simp only [← sideFrom_eq_client]
  exact bound?_without_eq_none_iff .client

end

/-! ## Terms and connectives -/

/-- Whether a term acts on one channel, and so offers a half there. -/
def Term.offers : Term → Bool
  | .fwd .. | .call .. | .spawn .. => false
  | _ => true

/-- The term goes with the connective on this side of the channel. -/
inductive Suits : Term → Side → TypeNode → Prop
  | close {via : Sym} : Suits (.close via) .provider .one
  | wait {via : Sym} {cont : Term} : Suits (.wait via cont) .client .one
  | send {via value : Sym} {got next : Id} : Suits (.send via value) .provider (.tensor got next)
  | supply {via value : Sym} {got next : Id} : Suits (.send via value) .client (.lolli got next)
  | recv {via value : Sym} {cont : Term} {got next : Id} :
    Suits (.recv via value cont) .client (.tensor got next)
  | demand {via value : Sym} {cont : Term} {got next : Id} :
    Suits (.recv via value cont) .provider (.lolli got next)
  | pick {via label : Sym} {choices : Table Sym Id} {next : Id}
    (h : choices.get? label = some next) : Suits (.lab via label) .provider (.plus choices)
  | ask {via label : Sym} {choices : Table Sym Id} {next : Id}
    (h : choices.get? label = some next) : Suits (.lab via label) .client (.with choices)
  | case {via : Sym} {conts : List (Sym × Term)} {choices : Table Sym Id}
    (h : ∀ label, label ∈ choices.keys ↔ label ∈ conts.map Prod.fst) :
    Suits (.case via conts) .client (.plus choices)
  | answer {via : Sym} {conts : List (Sym × Term)} {choices : Table Sym Id}
    (h : ∀ label, label ∈ choices.keys ↔ label ∈ conts.map Prod.fst) :
    Suits (.case via conts) .provider (.with choices)
  | acquire {via : Sym} {next : Id} : Suits (.acquire via) .client (.up next)
  | accept {via : Sym} {cont : Term} {next : Id} : Suits (.accept via cont) .provider (.up next)
  | detach {via : Sym} {next : Id} : Suits (.detach via) .provider (.down next)
  | release {via : Sym} {cont : Term} {next : Id} : Suits (.release via cont) .client (.down next)

/-- An accepted term suits the channel that it acts on; a channel that it sends is held beside
it. -/
theorem suits_of_checks {env : Env} {Γ Δ : Context} {term : Term} (ht : term.offers = true)
    (h : Checks env Γ term Δ) :
    ∃ side type node, Γ.Enters env term.via side type node ∧ Suits term side node ∧
      ∀ via value, term = .send via value →
        ∃ got, (Γ.without side via).assets.get? value = some got := by
  cases h with
  | close he => exact ⟨_, _, _, he, .close, nofun⟩
  | wait he => exact ⟨_, _, _, he, .wait, nofun⟩
  | send he hs hgot =>
    refine ⟨_, _, _, he, ?_, ?_⟩
    · cases hs with
      | tensor => exact .send
      | lolli => exact .supply
    · rintro _ _ ⟨⟩
      exact ⟨_, hgot⟩
  | @recv _ _ _ _ _ _ σ _ _ _ hs ha =>
    obtain ⟨he, -⟩ := ha
    refine ⟨_, _, _, he, ?_, nofun⟩
    cases σ with
    | provider =>
      cases hs
      exact .demand
    | client =>
      cases hs
      exact .recv
  | lab hs hlabel ha =>
    obtain ⟨he, -⟩ := ha
    refine ⟨_, _, _, he, ?_, nofun⟩
    cases hs with
    | plus => exact .pick hlabel
    | «with» => exact .ask hlabel
  | @case _ _ _ σ _ _ _ _ _ _ he hs hlabels =>
    refine ⟨_, _, _, he, ?_, nofun⟩
    cases σ with
    | provider =>
      cases hs
      exact .answer hlabels
    | client =>
      cases hs
      exact .case hlabels
  | acquire ha =>
    obtain ⟨he, -⟩ := ha
    exact ⟨_, _, _, he, .acquire, nofun⟩
  | accept ha =>
    obtain ⟨he, -⟩ := ha
    exact ⟨_, _, _, he, .accept, nofun⟩
  | detach ha =>
    obtain ⟨he, -⟩ := ha
    exact ⟨_, _, _, he, .detach, nofun⟩
  | release ha =>
    obtain ⟨he, -⟩ := ha
    exact ⟨_, _, _, he, .release, nofun⟩
  | fwd => cases ht
  | call => cases ht
  | spawn => cases ht

/-! ## Instances -/

namespace Context

variable {env : Env} {Γ Δ : Context}

/-- What an instance is given is held, one channel for each parameter. -/
theorem Gives.held {pairs : List (Sym × Parameter)} (h : Γ.Gives env pairs Δ) :
    (pairs.map Prod.fst).Nodup ∧ ∀ p ∈ pairs, ∃ got, Γ.assets.get? p.1 = some got := by
  induction h with
  | nil => exact ⟨List.nodup_nil, fun _ hp => (nomatch hp)⟩
  | @cons Γ Δ value parameter rest want got _ hgot _ _ ih =>
    obtain ⟨hn, hheld⟩ := ih
    -- a value given before is not held any more
    have hother : ∀ p ∈ rest, p.1 ≠ value ∧ ∃ got, Γ.assets.get? p.1 = some got := by
      intro p hp
      obtain ⟨got', hgot'⟩ := hheld p hp
      rw [without, Table.get?_erase] at hgot'
      by_cases he : p.1 = value
      · rw [if_pos he] at hgot'
        cases hgot'
      · rw [if_neg he] at hgot'
        exact ⟨he, got', hgot'⟩
    refine ⟨List.nodup_cons.2 ⟨fun hmem => ?_, hn⟩, ?_⟩
    · obtain ⟨p, hp, he⟩ := List.mem_map.1 hmem
      exact (hother p hp).1 he
    · rintro p (_ | ⟨_, hp⟩)
      · exact ⟨got, hgot⟩
      · exact (hother p hp).2

theorem Endows.held {via : Sym} {sigId : Id} {values : List Sym}
    (h : Γ.Endows env via sigId values Δ) :
    (∃ sig type, env.sig sigId = .ok sig ∧ values.length = sig.receptions.length ∧
        env.rootOf sig.provision.type = .ok type) ∧
      values.Nodup ∧ ∀ value ∈ values, ∃ got, Γ.assets.get? value = some got := by
  cases h with
  | @mk sig type _ hsig harity hgives htype _ =>
    obtain ⟨hn, hheld⟩ := hgives.held
    have hfst : (values.zip sig.receptions).map Prod.fst = values :=
      List.map_fst_zip (Nat.le_of_eq harity)
    rw [hfst] at hn
    refine ⟨⟨sig, type, hsig, harity, htype⟩, hn, fun value hv => ?_⟩
    rw [← hfst] at hv
    obtain ⟨p, hp, rfl⟩ := List.mem_map.1 hv
    exact hheld p hp

end Context

/-! ## Steps -/

section

variable {pool : Id} {env : Env} {cfg : Configuration} {ctx : Context}

/-- An accepted term that acts on one channel suits it. -/
theorem suits_of_checkStep {term : Term} (ht : term.offers = true)
    (h : checkStep pool env cfg term = .ok ctx) :
    ∃ ep id node, cfg.channels.get? term.via = some ep ∧ env.resolve ep.type = .ok (id, node) ∧
      Suits term (Context.sideFrom pool ep) node ∧
      ∀ via value, term = .send via value →
        value ≠ via ∧ ∃ given, cfg.channels.get? value = some given ∧ given.pool ≠ pool := by
  obtain ⟨side, type, node, he, hsuits, hvalue⟩ := suits_of_checks ht (checkStep_eq_ok_iff.1 h)
  obtain ⟨id, hr⟩ := he.node_eq
  obtain ⟨ep, hep, rfl, rfl⟩ := channel_of_bound? he.type_eq
  refine ⟨ep, id, node, hep, hr, hsuits, ?_⟩
  rintro via value rfl
  obtain ⟨got, hgot⟩ := hvalue via value rfl
  have hbound := Context.bound?_without (.ofChannels pool cfg.channels) (Context.sideFrom pool ep)
    .client via value
  rw [show Context.bound? _ .client value = some got from hgot] at hbound
  split at hbound
  · cases hbound
  · next hnot =>
    obtain ⟨given, hgiven, hne, -⟩ := channel_of_asset hbound.symm
    refine ⟨?_, given, hgiven, hne⟩
    -- the channel that is acted on has been taken out before
    rintro rfl
    cases hgiven.symm.trans hep
    exact hnot ⟨(sideFrom_eq_client.2 hne).symm, rfl⟩

/-- A forward is accepted exactly if it connects the only channel that is owed with the only one
that is held, and their types are equal. -/
theorem joins_of_checkStep {via target : Sym} :
    (∃ ctx, checkStep pool env cfg (.fwd via target) = .ok ctx) ↔
      ∃ x y id node, cfg.channels.get? via = some x ∧ x.pool = pool ∧
        cfg.channels.get? target = some y ∧ y.pool ≠ pool ∧
        (∀ ph e, cfg.channels.get? ph = some e → ph = via ∨ ph = target) ∧
        env.resolve x.type = .ok (id, node) ∧ env.eqType x.type y.type = .ok true := by
  simp only [checkStep_eq_ok_iff]
  constructor
  · rintro ⟨_, h⟩
    cases h with
    | fwd he howed hgot heq hdone =>
      obtain ⟨id, hr⟩ := he.node_eq
      obtain ⟨x, hx, hsx, rfl⟩ := channel_of_bound? he.type_eq
      obtain ⟨y, hy, hne, rfl⟩ := channel_of_asset hgot
      refine ⟨x, y, id, _, hx, sideFrom_eq_provider.1 hsx, hy, hne, fun ph e hph => ?_, hr, heq⟩
      by_cases hp : e.pool = pool
      · -- nothing else is owed
        exact .inl (liabilities_without_isEmpty_iff.1 howed ph e hph hp)
      · -- and nothing else is held
        exact .inr (assets_without_isEmpty_iff.1 (Bool.and_eq_true_iff.1 hdone).1 ph e hph hp)
  · rintro ⟨x, y, id, node, hx, hpx, hy, hpy, honly, hr, heq⟩
    have hbx := (bound?_of_channel pool hx .provider).trans (if_pos (sideFrom_eq_provider.2 hpx))
    have hby := (bound?_of_channel pool hy .client).trans (if_pos (sideFrom_eq_client.2 hpy))
    have howed : ∀ ph e, cfg.channels.get? ph = some e → e.pool = pool → ph = via := by
      intro ph e he hp
      rcases honly ph e he with rfl | rfl
      · rfl
      · cases he.symm.trans hy
        exact absurd hp hpy
    have hheld : ∀ ph e, cfg.channels.get? ph = some e → e.pool ≠ pool → ph = target := by
      intro ph e he hp
      rcases honly ph e he with rfl | rfl
      · cases he.symm.trans hx
        exact absurd hpx hp
      · rfl
    have hside : (Context.ofChannels pool cfg.channels).sideOf? via = some .provider := by
      unfold Context.sideOf?
      rw [if_pos]
      exact (Table.contains_eq_true_iff _).2 ⟨x.type, hbx⟩
    have hliab := liabilities_without_isEmpty_iff.2 howed
    exact ⟨_, .fwd ⟨hside, hbx, id, hr⟩ hliab hby heq
      (Bool.and_eq_true_iff.2 ⟨assets_without_isEmpty_iff.2 hheld, hliab⟩)⟩

/-- The signature of an instance is known, and it is given channels that its creator holds, each
once. -/
theorem gives_of_checkStep {via : Sym} {sigId : Id} {values : List Sym} {cont : Term} {term : Term}
    (ht : term = .call via sigId values cont ∨ ∃ pool, term = .spawn via sigId values pool cont)
    (h : checkStep pool env cfg term = .ok ctx) :
    (∃ sig type, env.sig sigId = .ok sig ∧ values.length = sig.receptions.length ∧
        env.rootOf sig.provision.type = .ok type) ∧
      values.Nodup ∧ ∀ value ∈ values, ∃ e, cfg.channels.get? value = some e ∧ e.pool ≠ pool := by
  have hendows : ∃ Γ, (Context.ofChannels pool cfg.channels).Endows env via sigId values Γ := by
    have hc := checkStep_eq_ok_iff.1 h
    rcases ht with rfl | ⟨_, rfl⟩
    · cases hc with
      | call hi => exact ⟨_, hi⟩
    · cases hc with
      | spawn hi => exact ⟨_, hi⟩
  obtain ⟨_, hi⟩ := hendows
  obtain ⟨hsig, hn, hheld⟩ := hi.held
  refine ⟨hsig, hn, fun value hv => ?_⟩
  obtain ⟨got, hgot⟩ := hheld value hv
  obtain ⟨e, he, hne, -⟩ := channel_of_asset hgot
  exact ⟨e, he, hne⟩

end

end Rendezvous
