import Rendezvous.Proofs.Accepted
import Rendezvous.Proofs.Copies
import Rendezvous.Proofs.Rules

/-!
# Checking and acting agree

The checker and the transitions are two accounts of what a term does to the process that acts. The
checker takes placeholders out of a context and puts others in; a transition writes entries for the
binding log, and what they come to is found by replaying them.

A context is the view of some channels from a pool (`Context.ofChannels`), and the operations of the
two accounts correspond: consuming a placeholder is taking it out (`ofChannels_erase`), introducing one
is putting it in (`ofChannels_insert`). From this follows that both accounts end in the same context,
for a term that offers something (`ofChannels_of_offers`), for a forward (`ofChannels_of_fwd`), and for
the creator of an instance (`ofChannels_of_instance`). `checkStep_agrees` puts them together.
-/

namespace Rendezvous

namespace Context

variable {Γ Δ : Context} {pool : Id} {t : Table Sym Endpoint} {ph : Sym} {e : Endpoint}

/-! ## Contexts of channels -/

/-- What is bound on one side. -/
def on (Γ : Context) : Side → Table Sym Id
  | .provider => Γ.liabilities
  | .client => Γ.assets

theorem ext_on (h : ∀ side, Γ.on side = Δ.on side) : Γ = Δ := by
  obtain ⟨assets, liabilities⟩ := Γ
  obtain ⟨assets', liabilities'⟩ := Δ
  obtain rfl : assets = assets' := h .client
  obtain rfl : liabilities = liabilities' := h .provider
  rfl

theorem on_without (Γ : Context) (side σ : Side) (ph : Sym) :
    (Γ.without σ ph).on side = if side = σ then (Γ.on side).erase ph else Γ.on side := by
  cases side <;> cases σ <;> rfl

theorem on_adding (Γ : Context) (side σ : Side) (ph : Sym) (type : Id) :
    (Γ.adding σ ph type).on side =
      if side = σ then (Γ.on side).insert ph type else Γ.on side := by
  cases side <;> cases σ <;> rfl

/-- The channels on one side, in their order. -/
theorem entries_on_ofChannels (pool : Id) (t : Table Sym Endpoint) (side : Side) :
    ((ofChannels pool t).on side).entries =
      (t.entries.filter fun e => sideFrom pool e.2 = side).map fun e => (e.1, e.2.type) := by
  -- the entries not looked at yet are the last part of the table, so no key comes twice
  suffices h : ∀ (entries : List (Sym × Endpoint)) (Γ : Context),
      (entries.map Prod.fst).Nodup → (∀ e ∈ entries, ∀ side, e.1 ∉ (Γ.on side).keys) →
      ((entries.foldl
        (fun ctx e =>
          if e.2.pool = pool then
            { ctx with liabilities := ctx.liabilities.insert e.1 e.2.type }
          else
            { ctx with assets := ctx.assets.insert e.1 e.2.type })
        Γ).on side).entries = (Γ.on side).entries ++
          (entries.filter fun e => sideFrom pool e.2 = side).map fun e => (e.1, e.2.type) by
    have hall := h t.entries ∅ t.nodup fun e _ side => by
      cases side <;> exact List.not_mem_nil
    have hempty : ((∅ : Context).on side).entries = [] := by cases side <;> rfl
    rwa [hempty, List.nil_append] at hall
  intro entries
  induction entries with
  | nil => intro Γ _ _; simp
  | cons e rest ih =>
    intro Γ hn hfree
    obtain ⟨hnot, hn⟩ := List.nodup_cons.1 hn
    have hstep : (if e.2.pool = pool then
          { Γ with liabilities := Γ.liabilities.insert e.1 e.2.type }
        else
          { Γ with assets := Γ.assets.insert e.1 e.2.type } : Context) =
        Γ.adding (sideFrom pool e.2) e.1 e.2.type := by
      unfold sideFrom
      split <;> rfl
    have hfree' : ∀ e' ∈ rest, ∀ side,
        e'.1 ∉ ((Γ.adding (sideFrom pool e.2) e.1 e.2.type).on side).keys := by
      intro e' he' side
      have hne : e'.1 ≠ e.1 := fun hk => hnot (List.mem_map.2 ⟨e', he', hk⟩)
      have hold := hfree e' (List.mem_cons_of_mem _ he') side
      rw [on_adding]
      split
      · simp [hne, hold]
      · exact hold
    rw [List.foldl_cons, hstep, ih _ hn hfree', on_adding]
    by_cases hs : side = sideFrom pool e.2
    · rw [if_pos hs, Table.entries_insert_of_notMem (hfree e List.mem_cons_self side),
        List.filter_cons_of_pos (by simp [hs])]
      simp
    · rw [if_neg hs, List.filter_cons_of_neg (by simpa using fun h => hs h.symm)]

/-- A placeholder is on the side that its channel is on. -/
theorem sideOf?_ofChannels (pool : Id) (t : Table Sym Endpoint) (ph : Sym) :
    (ofChannels pool t).sideOf? ph = (t.get? ph).map (sideFrom pool) := by
  have hon : ∀ side, ((ofChannels pool t).on side).get? ph =
      ((t.get? ph).filter fun e => sideFrom pool e = side).map Endpoint.type := by
    intro side
    rw [← bound?_ofChannels]
    cases side <;> rfl
  have hprovider := hon .provider
  have hclient := hon .client
  unfold sideOf? Table.contains
  rw [show (ofChannels pool t).liabilities = (ofChannels pool t).on .provider from rfl,
    show (ofChannels pool t).assets = (ofChannels pool t).on .client from rfl, hprovider, hclient]
  cases t.get? ph with
  | none => rfl
  | some e => cases hs : sideFrom pool e <;> simp [Option.filter, hs]

/-- Consuming a placeholder takes it out of the context. -/
theorem ofChannels_erase (h : t.get? ph = some e) :
    ofChannels pool (t.erase ph) = (ofChannels pool t).without (sideFrom pool e) ph := by
  refine ext_on fun side => Table.ext ?_
  rw [on_without, entries_on_ofChannels]
  show ((t.entries.filter fun e => e.1 ≠ ph).filter _).map _ = _
  by_cases hs : side = sideFrom pool e
  · rw [if_pos hs]
    show _ = ((ofChannels pool t).on side).entries.filter fun e => e.1 ≠ ph
    rw [entries_on_ofChannels, List.filter_map, List.filter_comm]
    rfl
  · rw [if_neg hs, entries_on_ofChannels, List.filter_comm]
    congr 1
    refine List.filter_eq_self.2 fun e' he' => decide_eq_true ?_
    -- the only entry of this placeholder is on the other side
    rintro rfl
    obtain ⟨hmem, hside⟩ := List.mem_filter.1 he'
    cases ((t.mem_entries_iff).1 hmem).symm.trans h
    exact hs (of_decide_eq_true hside).symm

/-- Introducing a new placeholder puts it into the context. -/
theorem ofChannels_insert (h : t.get? ph = none) :
    ofChannels pool (t.insert ph e) = (ofChannels pool t).adding (sideFrom pool e) ph e.type := by
  have hnew : ph ∉ t.keys := (t.get?_eq_none_iff ph).1 h
  refine ext_on fun side => Table.ext ?_
  rw [on_adding, entries_on_ofChannels, Table.entries_insert_of_notMem hnew, List.filter_append,
    List.map_append, ← entries_on_ofChannels]
  by_cases hs : side = sideFrom pool e
  · have hfree : ph ∉ ((ofChannels pool t).on side).keys := by
      rw [← Table.get?_eq_none_iff]
      have hnone := bound?_ofChannels pool t side ph
      rw [h] at hnone
      cases side <;> exact hnone
    rw [if_pos hs, Table.entries_insert_of_notMem hfree, List.filter_cons_of_pos (by simp [hs])]
    rfl
  · rw [if_neg hs, List.filter_cons_of_neg (by simpa using fun h => hs h.symm)]
    simp

/-- The channel that a term acts on, in the context of some channels. -/
theorem Enters.channel {env : Env} {via : Sym} {side : Side} {type : Id} {node : TypeNode}
    (h : (ofChannels pool t).Enters env via side type node) :
    ∃ ep, t.get? via = some ep ∧ sideFrom pool ep = side ∧ ep.type = type ∧
      ∃ id, env.resolve ep.type = .ok (id, node) := by
  obtain ⟨ep, hep, hside, rfl⟩ := channel_of_bound? h.type_eq
  exact ⟨ep, hep, hside, rfl, h.node_eq⟩

end Context

/-! ## Replaying -/

/-- What a mark does to the channels of its process. -/
def Mark.enter (t : Table Sym Endpoint) (k : Mark) : Table Sym Endpoint :=
  if k.isIntro then t.insert k.placeholder k.endpoint else t.erase k.placeholder

/-- A stamped entry is replayed as its mark says. -/
theorem Mark.replayOwn_stamped {rev : Rev} (h : rev.Sized) (t : Table Sym Endpoint) (k : Mark) :
    Store.replayOwn t (k.stamped rev) = k.enter t := by
  unfold Store.replayOwn Mark.enter Mark.stamped Binding.isIntro
  have hpos := Rev.introStamp_pos h
  have hneg := Rev.consumeStamp_neg h
  cases k.isIntro <;> simp [hpos, hneg]

/-- Stamped entries, one after the other, are replayed as their marks say. -/
theorem Mark.foldl_replayOwn {rev : Mark → Rev} {marks : List Mark} {t : Table Sym Endpoint}
    (h : ∀ k ∈ marks, (rev k).Sized) :
    (marks.map fun k => k.stamped (rev k)).foldl Store.replayOwn t = marks.foldl Mark.enter t := by
  induction marks generalizing t with
  | nil => rfl
  | cons k rest ih =>
    rw [List.map_cons, List.foldl_cons, List.foldl_cons,
      Mark.replayOwn_stamped (h k List.mem_cons_self)]
    exact ih fun k hk => h k (List.mem_cons_of_mem _ hk)

/-- What is bound after some marks was bound before, or is introduced by one of them. -/
theorem Mark.mem_enter {marks : List Mark} {t : Table Sym Endpoint} {ph : Sym} {e : Endpoint}
    (h : (marks.foldl Mark.enter t).get? ph = some e) :
    t.get? ph = some e ∨ ∃ k ∈ marks, k.isIntro = true ∧ k.endpoint = e := by
  induction marks generalizing t with
  | nil => exact .inl h
  | cons k rest ih =>
    rcases ih h with h | ⟨k', hk', h⟩
    · unfold Mark.enter at h
      split at h
      · next hintro =>
        rw [Table.get?_insert] at h
        split at h
        · exact .inr ⟨k, List.mem_cons_self, hintro, Option.some.inj h⟩
        · exact .inl h
      · rw [Table.get?_erase] at h
        split at h
        · cases h
        · exact .inl h
    · exact .inr ⟨k', List.mem_cons_of_mem _ hk', h⟩

/-- What the entries of a change make of the channels of the acting process. -/
def Configuration.replayed (cfg : Configuration) (m : Change) : Table Sym Endpoint :=
  (m.bindings.filter fun b => b.process = cfg.process).foldl Store.replayOwn cfg.channels

/-- A draft stamps the entries of the acting process with the revision that its pool moves on to. -/
theorem Plan.Drafts.stamp?_own {pl : Plan} {cfg : Configuration} {m : Change} (h : pl.Drafts cfg m) :
    m.stamp? cfg.pool = some cfg.rev.next := by
  unfold Change.stamp?
  cases hf : m.locks.find? (·.pool = cfg.pool) with
  | none =>
    have hno := List.find?_eq_none.1 hf _ h.own
    simp at hno
  | some lock =>
    obtain hpool : lock.pool = cfg.pool := by simpa using List.find?_some hf
    have hrev := h.locks lock (List.mem_of_find?_eq_some hf)
    rw [hpool, Configuration.revOf?, if_pos rfl] at hrev
    rw [Option.some.inj hrev]

/-- Only the marks of the acting process count for it. -/
theorem Configuration.replayed_eq {pl : Plan} {cfg : Configuration} {m : Change}
    (hd : pl.Drafts cfg m) (hrev : cfg.rev.value < 2 ^ 63 - 1) {own : List Mark}
    (hown : (pl.marks.filter fun k => k.process = cfg.process) = own)
    (hpool : ∀ k ∈ own, k.pool = cfg.pool) :
    cfg.replayed m = own.foldl Mark.enter cfg.channels := by
  have hsized : cfg.rev.next.Sized := by
    show 0 < cfg.rev.value + 1 ∧ cfg.rev.value + 1 < 2 ^ 63
    omega
  have hbindings : (m.bindings.filter fun b => b.process = cfg.process) =
      own.map fun k => k.stamped cfg.rev.next := by
    rw [hd.bindings, List.filter_map, ← hown]
    refine List.map_congr_left fun k hk => ?_
    rw [hpool k (hown ▸ hk), hd.stamp?_own, Option.getD_some]
  rw [Configuration.replayed, hbindings]
  exact Mark.foldl_replayOwn fun _ _ => hsized

section

variable {env : Env} {cfg : Configuration} {fresh : Fresh} {term : Term} {Δ : Context}

/-- A process that does not wait is not the consumer of any half that it sees. -/
theorem Configuration.process_ne_of_service (hidle : cfg.waiting? = none) {z : Id} {svc : Service}
    (h : cfg.halves.get? z = some (.service svc)) : svc.process ≠ cfg.process :=
  Store.serviceOf?_eq_none_iff.1 hidle svc (Table.mem_values_of_get?_eq_some h)

/-- Where no consumer is the acting process, joining binds others only. -/
theorem filter_marks_of_joins {z : Id} {half : Half} {pending : Option Half} {j : Joined}
    (hj : Joins z half pending j) {p : Id}
    (h : ∀ svc, half = .service svc ∨ pending = some (.service svc) → svc.process ≠ p) :
    (j.marks.filter fun k => k.process = p) = [] := by
  refine List.filter_eq_nil_iff.2 fun k hk => ?_
  obtain ⟨svc, hsvc, hprocess, -⟩ := Store.mem_marks_of_joins hj hk
  simpa [hprocess] using h svc hsvc

/-- The channel goes on with the type that the connective says. -/
theorem Carries.eq_next {node : TypeNode} {type want next : Id} {side : Side} (h : Carries node type)
    (hs : Context.Sends side node want next) : type = next := by
  cases hs <;> cases h <;> rfl

/-- What a term offers and what it is accepted for leave the same context. -/
theorem ofChannels_of_offers {ep : Endpoint} {own : List Mark} {half : Half}
    (ho : Offers env cfg fresh term ep own half) (hhandler : term.handler? = none)
    (hc : Checks env (.ofChannels cfg.pool cfg.channels) term Δ) :
    Context.ofChannels cfg.pool (own.foldl Mark.enter cfg.channels) = Δ := by
  -- a channel that goes on is consumed and introduced again, on the side where it was
  have hadvance : ∀ {via : Sym} {ep : Endpoint} {side : Side} {id type next : Id}
      {node node' : TypeNode} {Δ : Context}, cfg.channels.get? via = some ep →
      env.resolve ep.type = .ok (id, node) →
      (Context.ofChannels cfg.pool cfg.channels).Advances env via side node' next Δ →
      (node = node' → type = next) →
      Context.ofChannels cfg.pool ((cfg.channels.erase via).insert via
        ⟨fresh.channel, type, ep.pool⟩) = Δ := by
    intro via ep side id type next node node' Δ hep hnode ha htype
    obtain ⟨type', he, hput⟩ := Context.advances_iff.1 ha
    obtain ⟨-, rfl⟩ := Context.put_eq_ok.1 hput
    obtain ⟨ep', hep', rfl, -, id', hnode'⟩ := he.channel
    cases hep.symm.trans hep'
    cases hnode.symm.trans hnode'
    rw [Context.ofChannels_insert (Table.get?_erase_self ..), Context.ofChannels_erase hep, htype rfl]
    rfl
  cases ho with
  | @close via ep hep =>
    cases hc with
    | close he =>
      obtain ⟨ep', hep', hside, -⟩ := he.channel
      cases hep.symm.trans hep'
      show Context.ofChannels cfg.pool (cfg.channels.erase via) = _
      rw [Context.ofChannels_erase hep, hside]
  | @send via value ep given id type node hep hnode hcarries hv =>
    cases hc with
    | send he hs hgot heq hfree =>
      obtain ⟨ep', hep', rfl, -, id', hnode'⟩ := he.channel
      cases hep.symm.trans hep'
      cases hnode.symm.trans hnode'
      have htype : type = _ := hcarries.eq_next hs
      -- the draft gives up the value first, and the checker the channel
      rw [← Context.ofChannels_erase hep] at hgot ⊢
      obtain ⟨given', hgiven, hheld, -⟩ := channel_of_asset hgot
      have hclient : Context.sideFrom cfg.pool given' = .client := sideFrom_eq_client.2 hheld
      rw [← hclient, ← Context.ofChannels_erase hgiven, ← htype]
      show Context.ofChannels cfg.pool (((cfg.channels.erase value).erase via).insert via _) = _
      rw [Table.erase_comm, Context.ofChannels_insert]
      · rfl
      · rw [Table.erase_comm]
        exact Table.get?_erase_self ..
  | @pass term ep id type node payload hep hnode hp =>
    cases hp with
    | plus h =>
      cases hc with
      | lab hs hlabel ha =>
        refine hadvance hep hnode ha ?_
        rintro rfl
        cases hs
        exact Option.some.inj (h.symm.trans hlabel)
    | «with» h =>
      cases hc with
      | lab hs hlabel ha =>
        refine hadvance hep hnode ha ?_
        rintro rfl
        cases hs
        exact Option.some.inj (h.symm.trans hlabel)
    | up =>
      cases hc with
      | acquire ha => exact hadvance hep hnode ha fun h => (TypeNode.up.inj h)
    | down =>
      cases hc with
      | detach ha => exact hadvance hep hnode ha fun h => (TypeNode.down.inj h)
  | consume hh => cases hhandler.symm.trans hh

/-- A forward gives up its two channels in both accounts. -/
theorem ofChannels_of_fwd {via target : Sym} {x y : Endpoint}
    (hx : cfg.channels.get? via = some x) (hy : cfg.channels.get? target = some y)
    (hc : Checks env (.ofChannels cfg.pool cfg.channels) (.fwd via target) Δ) :
    Context.ofChannels cfg.pool
      ((Drafting.handedOver cfg via target x y).foldl Mark.enter cfg.channels) = Δ := by
  cases hc with
  | fwd he howed hgot heq hdone =>
    obtain ⟨x', hx', hside, -⟩ := he.channel
    obtain ⟨y', hy', hheld, -⟩ := channel_of_asset hgot
    cases hx.symm.trans hx'
    cases hy.symm.trans hy'
    have hne : target ≠ via := by
      rintro rfl
      cases hx.symm.trans hy
      exact hheld (sideFrom_eq_provider.1 hside)
    have hleft : (cfg.channels.erase via).get? target = some y := by
      rw [Table.get?_erase, if_neg hne, hy]
    show Context.ofChannels cfg.pool ((cfg.channels.erase via).erase target) = _
    rw [Context.ofChannels_erase hleft, Context.ofChannels_erase hx, hside, sideFrom_eq_client.2 hheld]

/-- What is given away is consumed, one channel after the other. -/
theorem ofChannels_of_gives {t : Table Sym Endpoint} {pairs : List (Sym × Parameter)}
    (h : (Context.ofChannels cfg.pool t).Gives env pairs Δ) :
    Context.ofChannels cfg.pool (pairs.foldl (fun t pair => t.erase pair.1) t) = Δ := by
  generalize hΓ : Context.ofChannels cfg.pool t = Γ at h
  induction h generalizing t with
  | nil => exact hΓ
  | cons hwant hgot heq hrest ih =>
    subst hΓ
    obtain ⟨e, he, hheld, -⟩ := channel_of_asset hgot
    refine ih ?_
    rw [Context.ofChannels_erase he, sideFrom_eq_client.2 hheld]

/-- The marks of an instance that are for its creator. -/
theorem filter_marks_of_instance {i : Instance} {via : Sym} {p : Id} (hp : p ≠ cfg.process) :
    ((i.marks cfg p via).filter fun k => k.process = cfg.process) =
      i.gifts.map (fun g => cfg.mark false g.value g.endpoint) ++
        [cfg.mark true via i.provision] := by
  have hgifts : (i.gifts.flatMap (Gift.marks cfg p i.provision.pool)).filter
      (fun k => k.process = cfg.process) =
        i.gifts.map fun g => cfg.mark false g.value g.endpoint := by
    induction i.gifts with
    | nil => rfl
    | cons g rest ih => simp [Gift.marks, Configuration.mark, hp, ih]
  rw [Instance.marks, List.filter_cons_of_neg (by simpa using hp), List.filter_append, hgifts]
  simp [Configuration.mark]

/-- An instance takes from its creator what the checker takes out, and the creator holds the channel
that the instance provides. -/
theorem ofChannels_of_instance {i : Instance} {sigId pool : Id} {values : List Sym} {via : Sym}
    (hi : Instantiates env cfg fresh sigId values pool i)
    (he : (Context.ofChannels cfg.pool cfg.channels).Endows env via sigId values Δ) :
    Context.ofChannels cfg.pool
      ((i.gifts.map (fun g => cfg.mark false g.value g.endpoint) ++
        [cfg.mark true via i.provision]).foldl Mark.enter cfg.channels) = Δ := by
  obtain ⟨hsig, harity, hgives, htype, hfree⟩ := he
  cases hi.sig.symm.trans hsig
  cases hi.type.symm.trans htype
  have hgiven : (i.gifts.map fun g => cfg.mark false g.value g.endpoint).foldl Mark.enter
      cfg.channels = (values.zip i.sig.receptions).foldl (fun t pair => t.erase pair.1)
        cfg.channels := by
    rw [← hi.gifts, List.foldl_map, List.foldl_map]
    rfl
  have hΓ' := ofChannels_of_gives hgives
  rw [List.foldl_append, hgiven]
  generalize (values.zip i.sig.receptions).foldl (fun t pair => t.erase pair.1) cfg.channels = t
    at hΓ' ⊢
  subst hΓ'
  have hnew : t.get? via = none := by
    rw [Context.sideOf?_ofChannels] at hfree
    exact Option.map_eq_none_iff.1 hfree
  have helse : Context.sideFrom cfg.pool i.provision = .client := by
    rw [sideFrom_eq_client, hi.pool_eq]
    exact hi.elsewhere
  show Context.ofChannels cfg.pool (t.insert via i.provision) = _
  rw [Context.ofChannels_insert hnew, helse]

/-! ## Both accounts -/

variable {pl : Plan} {m : Change}

/-- A term that goes on with nothing of its own leaves the same context in both accounts. -/
theorem ofChannels_replayed_of_moves (hrev : cfg.rev.value < 2 ^ 63 - 1) (hidle : cfg.waiting? = none)
    (hop : term.operation ∈ [.close, .send, .lab, .acquire, .detach, .fwd])
    (hmoves : Moves env cfg fresh term pl) (hd : pl.Drafts cfg m)
    (hc : Checks env (.ofChannels cfg.pool cfg.channels) term Δ) :
    Context.ofChannels cfg.pool (cfg.replayed m) = Δ := by
  -- own marks are all kept, and those of a consumer that is met are another process's
  have hself : ∀ {own : List Mark}, (∀ k ∈ own, k.process = cfg.process ∧ k.pool = cfg.pool) →
      (own.filter fun k => k.process = cfg.process) = own :=
    fun h => List.filter_eq_self.2 fun k hk => decide_eq_true (h k hk).1
  have hpending : ∀ {c : Id} {l : Landing} {svc : Service}, cfg.landing? c = some l →
      l.half = some (.service svc) → svc.process ≠ cfg.process := by
    intro c l svc hl hsvc
    rw [(Configuration.landing?_eq_some_iff.1 hl).2] at hsvc
    exact Configuration.process_ne_of_service hidle hsvc
  cases hmoves with
  | @offer _ ep own half l j ho hl hj =>
    have hhandler : term.handler? = none := by
      cases term <;> first | rfl | simp [Term.operation] at hop
    have hother := filter_marks_of_joins hj (p := cfg.process) fun svc hsvc => by
      rcases hsvc with rfl | hsvc
      · obtain ⟨handler, hh, -⟩ := service_of_offers ho
        cases hhandler.symm.trans hh
      · exact hpending hl hsvc
    have hmem : ∀ k ∈ own, k.process = cfg.process ∧ k.pool = cfg.pool :=
      fun k hk => Store.mem_own_of_offers ho hk
    have hown : ((own ++ j.marks).filter fun k => k.process = cfg.process) = own := by
      rw [List.filter_append, hother, hself hmem, List.append_nil]
    rw [Configuration.replayed_eq hd hrev hown fun k hk => (hmem k hk).2]
    exact ofChannels_of_offers ho hhandler hc
  | @relay via target x y l hx hy hl hnone =>
    rw [Configuration.replayed_eq hd hrev (hself fun k hk => Store.mem_handedOver hk)
      fun k hk => (Store.mem_handedOver hk).2]
    exact ofChannels_of_fwd hx hy hc
  | @redirect via target x y l left id node j hx hy hl hleft hnode hown hj =>
    have hother := filter_marks_of_joins hj (p := cfg.process) fun svc hsvc => by
      rcases hsvc with rfl | hsvc
      · exact Configuration.process_ne_of_service hidle hleft
      · exact hpending hl hsvc
    have hgiven : ((Drafting.handedOver cfg via target x y ++ j.marks).filter
        fun k => k.process = cfg.process) = Drafting.handedOver cfg via target x y := by
      rw [List.filter_append, hother, hself fun k hk => Store.mem_handedOver hk, List.append_nil]
    rw [Configuration.replayed_eq hd hrev hgiven fun k hk => (Store.mem_handedOver hk).2]
    exact ofChannels_of_fwd hx hy hc
  | call => simp [Term.operation] at hop
  | spawn => simp [Term.operation] at hop

/-- What the creator of an instance has in the end. -/
theorem Configuration.replayed_of_instance (hrev : cfg.rev.value < 2 ^ 63 - 1)
    (hfresh : fresh.process ≠ cfg.process) {via : Sym} {i : Instance}
    (hmarks : pl.marks = i.marks cfg fresh.process via) (hd : pl.Drafts cfg m) :
    cfg.replayed m = (i.gifts.map (fun g => cfg.mark false g.value g.endpoint) ++
      [cfg.mark true via i.provision]).foldl Mark.enter cfg.channels := by
  refine Configuration.replayed_eq hd hrev (hmarks ▸ filter_marks_of_instance hfresh) fun k hk => ?_
  rcases List.mem_append.1 hk with hk | hk
  · obtain ⟨g, -, rfl⟩ := List.mem_map.1 hk
    rfl
  · rw [List.mem_singleton.1 hk]
    rfl

/-- The creator of an instance has what the checker goes on with. -/
theorem ofChannels_replayed_of_instance (hrev : cfg.rev.value < 2 ^ 63 - 1)
    (hfresh : fresh.process ≠ cfg.process) {via : Sym} {sigId pool : Id} {values : List Sym}
    {i : Instance} (hi : Instantiates env cfg fresh sigId values pool i)
    (hmarks : pl.marks = i.marks cfg fresh.process via) (hd : pl.Drafts cfg m)
    (he : (Context.ofChannels cfg.pool cfg.channels).Endows env via sigId values Δ) :
    Context.ofChannels cfg.pool (cfg.replayed m) = Δ := by
  rw [Configuration.replayed_of_instance hrev hfresh hmarks hd]
  exact ofChannels_of_instance hi he

/-- The checker and the transitions move the acting process in the same way. The entries that a
transition writes for it, replayed over its channels, give the context that the checker has left of a
term without a continuation, and the context in which it checks the continuation of a call or a
spawn. -/
theorem checkStep_agrees {ctx : Context} {next : Option StepSpec}
    (hrev : cfg.rev.value < 2 ^ 63 - 1) (hidle : cfg.waiting? = none)
    (hfresh : fresh.process ≠ cfg.process) (hcheck : checkStep cfg.pool env cfg term = .ok ctx)
    (htrans : transition env cfg fresh term = .ok (next, m)) :
    (term.operation ∈ [.close, .send, .lab, .acquire, .detach, .fwd] →
      Context.ofChannels cfg.pool (cfg.replayed m) = ctx) ∧
    ∀ via sig values cont,
      (term = .call via sig values cont ∨ ∃ pool, term = .spawn via sig values pool cont) →
      ∃ Γ, Context.instantiate env via sig values (.ofChannels cfg.pool cfg.channels) = .ok () Γ ∧
        Context.check env cont Γ = .ok () ctx ∧
        Context.ofChannels cfg.pool (cfg.replayed m) = Γ := by
  obtain ⟨pl, hmoves, -, hdraft⟩ := transition_eq_ok_iff.1 htrans
  have hd := Plan.drafts_of_draft? hdraft
  have hc := checkStep_eq_ok_iff.1 hcheck
  refine ⟨fun hop => ofChannels_replayed_of_moves hrev hidle hop hmoves hd hc, ?_⟩
  rintro via sig values cont (rfl | ⟨pool, rfl⟩)
  · cases hc with
    | @call _ Γ _ _ _ _ _ he hcont =>
      refine ⟨Γ, Context.instantiate_eq_ok_iff.2 he, (Context.checkAs_eq_ok_iff cont).2 hcont, ?_⟩
      cases hmoves with
      | offer ho => nomatch ho
      | call hi => exact ofChannels_replayed_of_instance hrev hfresh hi rfl hd he
  · cases hc with
    | @spawn _ Γ _ _ _ _ _ _ he hcont =>
      refine ⟨Γ, Context.instantiate_eq_ok_iff.2 he, (Context.checkAs_eq_ok_iff cont).2 hcont, ?_⟩
      cases hmoves with
      | offer ho => nomatch ho
      | spawn hi => exact ofChannels_replayed_of_instance hrev hfresh hi rfl hd he

end

namespace Engine

/-- The sender gives its channel to another sender and forwards to it, under the same placeholder. -/
def reuseTerm : Term := .call "v" (.nth 7) ["v"] (.fwd "x" "v")

/-- A placeholder that a call consumes and binds again is what the checker goes on with. -/
theorem checkStep_agrees_reuse :
    ∃ cfg env ctx next m,
      ((start {} ⟨0⟩).final beforeSend).store.configuration (.nth 14) = .ok cfg ∧
      checkStep cfg.pool env cfg reuseTerm = .ok ctx ∧
      transition env cfg ((start {} ⟨0⟩).final beforeSend).ids.fresh reuseTerm = .ok (next, m) ∧
      Context.check env (.fwd "x" "v") (.ofChannels cfg.pool (cfg.replayed m)) = .ok () ctx := by
  have hok : (((start {} ⟨0⟩).final beforeSend).store.deriveStep
      ((start {} ⟨0⟩).final beforeSend).ids.fresh ⟨.nth 9, .nth 14, reuseTerm⟩).isOk = true := by
    decide +kernel
  have hfacts : ((((start {} ⟨0⟩).final beforeSend).store.configuration
      (.nth 14)).map fun cfg => decide (cfg.rev.value < 2 ^ 63 - 1 ∧
        ((start {} ⟨0⟩).final beforeSend).ids.fresh.process ≠ cfg.process)).toOption = some true := by
    decide +kernel
  generalize (start {} ⟨0⟩).final beforeSend = e at hok hfacts ⊢
  cases hd : e.store.deriveStep e.ids.fresh ⟨.nth 9, .nth 14, reuseTerm⟩ with
  | error err =>
    rw [hd] at hok
    cases hok
  | ok r =>
    obtain ⟨read, cfg, env, ctx, hcfg, hpool, hidle, haim, -, hcheck, htrans⟩ :=
      Store.deriveStep_eq_ok_iff.1 hd
    cases haim
    rw [hcfg] at hfacts
    obtain ⟨hrev, hfresh⟩ := of_decide_eq_true (Option.some.inj hfacts)
    rw [← hpool] at hcheck
    obtain ⟨Γ, -, hcont, rfl⟩ :=
      (checkStep_agrees hrev hidle hfresh hcheck htrans).2 _ _ _ _ (.inl rfl)
    exact ⟨read, env, ctx, r.1, r.2, hcfg, hcheck, htrans, hcont⟩

end Engine

end Rendezvous
