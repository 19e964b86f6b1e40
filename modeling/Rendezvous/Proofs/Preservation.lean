import Rendezvous.Proofs.Agreement
import Rendezvous.Proofs.Built
import Rendezvous.Proofs.Delivery

/-!
# Continuations are accepted

When a producer and a consumer have met, the consumer's next step is its continuation, in the
configuration that the commit leaves it with. `Built.accepts_continuation` says that this step is
accepted again: the declarations that it needs can be loaded, and it passes the checker. The same
goes for the continuation of a process that creates an instance.

What has to be shown of a store is the same in all cases (`accepts_of_related`): the types of the
process's channels and the signatures of its continuation are supplied, and its context is related
to one in which the continuation was accepted before. For a rendezvous, the types come from the two
environments that were loaded for the producer and for the consumer; for a creator there is one
environment, and the two contexts are the same.
-/

namespace Rendezvous

namespace Store

variable {s s' : Store} {p q : Id} {spec : StepSpec} {cfg : Configuration} {env : Env}
  {fresh : Fresh} {pl : Plan} {m : Change} {next : Option StepSpec}

/-! ## What a commit leaves of a process -/

/-- A process lives in a pool that is there. -/
def Housed (s : Store) (p q : Id) : Prop :=
  s.poolOf? p = some q ∧ ∃ pool, s.pools.get? q = some pool

theorem Housed.exists_configuration (h : s.Housed p q) :
    ∃ cfg, s.configuration p = .ok cfg ∧ cfg.pool = q ∧ cfg.channels = s.channelsOf p := by
  obtain ⟨hmember, pool, hpool⟩ := h
  obtain ⟨member, hm, rfl⟩ := Option.map_eq_some_iff.1 hmember
  unfold configuration
  rw [hm]
  dsimp only
  rw [hpool]
  exact ⟨_, rfl, rfl, rfl⟩

theorem Housed.commit (h : s.Housed p q) (hm : ∀ member ∈ m.members, member.id ≠ p)
    (hc : s.commit m = .ok s') : s'.Housed p q := by
  obtain ⟨hlocks, hnew, -, rfl⟩ := commit_eq_ok_iff.1 hc
  obtain ⟨hmember, pool, hpool⟩ := h
  refine ⟨(poolOf?_apply_of_ne hm).trans hmember, ?_⟩
  rw [get?_pools_apply hlocks, hpool]
  · exact ⟨_, rfl⟩
  · rintro new hmem rfl
    cases (hnew new hmem).symm.trans hpool

/-- A commit does not touch declarations. -/
theorem decls_commit (hc : s.commit m = .ok s') : s'.decls = s.decls := by
  obtain ⟨-, -, -, rfl⟩ := commit_eq_ok_iff.1 hc
  exact decls_apply s m

/-- The halves after a commit are those before, with the operations of its plan. -/
theorem halves_commit (hd : pl.Fills m) (hc : s.commit m = .ok s') :
    s'.halves.get? = runSlots pl.slots s.halves.get? := by
  obtain ⟨-, -, -, rfl⟩ := commit_eq_ok_iff.1 hc
  rw [halves_apply, get?_foldl_applySlot, hd.slots]

/-- The channels of a process after a commit, if nothing comes home: its marks are entered. -/
theorem channelsOf_entered (hd : pl.Fills m) (hc : s.commit m = .ok s') (hhomes : pl.homes = [])
    {own : List Mark} (hown : (pl.marks.filter fun k => k.process = p) = own)
    (hsized : ∀ k ∈ own, ((m.stamp? k.pool).getD .initial).Sized) :
    s'.channelsOf p = own.foldl Mark.enter (s.channelsOf p) := by
  have hbindings : (m.bindings.filter fun b => b.process = p) =
      own.map fun k => k.stamped ((m.stamp? k.pool).getD .initial) := by
    rw [hd.bindings, List.filter_map, ← hown]
    rfl
  rw [channelsOf, channelsOf, channelsIn, channelsIn, log_commit hd hc hhomes, List.filter_append,
    List.foldl_append, hbindings, Mark.foldl_replayOwn hsized]

/-- The acting process has what its entries come to, if nothing comes home. -/
theorem channelsOf_replayed (hd : pl.Fills m) (hc : s.commit m = .ok s') (hhomes : pl.homes = [])
    (hchannels : cfg.channels = s.channelsOf cfg.process) :
    s'.channelsOf cfg.process = cfg.replayed m := by
  rw [Configuration.replayed, hchannels, channelsOf, channelsOf, channelsIn, channelsIn,
    log_commit hd hc hhomes, List.filter_append, List.foldl_append]

/-- The revision that a pool acts at is not the last one, if the commit leaves it in range. -/
theorem rev_lt_of_young (hd : pl.Drafts cfg m) (hone : pl.pools.length ≤ 1)
    (hc : s.commit m = .ok s') (hyoung : s'.Young) : cfg.rev.value < 2 ^ 63 - 1 := by
  obtain ⟨hlocks, hnew, -, rfl⟩ := commit_eq_ok_iff.1 hc
  obtain ⟨pool, hpool, hrev⟩ := rev_apply_of_stamp? hlocks hnew (hd.pools ▸ hone) hd.stamp?_own
  have hlt := hyoung _ pool hpool
  rw [hrev] at hlt
  exact Nat.lt_sub_of_add_lt hlt

/-! ## What is known of a step -/

/-- A step is accepted where its process lives and does not wait, what it needs is supplied, and it
was accepted in a related context. -/
theorem accepts_of_related (hk : s.Keyed) (hhoused : s.Housed spec.process spec.pool)
    (hidle : ∀ z svc, s.halves.get? z = some (.service svc) → svc.process ≠ spec.process)
    {T : Id → Prop} {N : QualName → Prop} {G : Id → Prop} (hs : s.decls.Supplies T N G)
    (htypes : ∀ {ph e}, (s.channelsOf spec.process).get? ph = some e → T e.type)
    (hsigs : ∀ id ∈ spec.term.mentions, G id) (hw : env.Within s.decls) {Γ Δ : Context}
    (hc : Checks env Γ spec.term Δ)
    (hrel : Γ.Related (Same s.decls.Denotes) (.ofChannels spec.pool (s.channelsOf spec.process))) :
    s.Accepts spec := by
  obtain ⟨cfg, hcfg, hpool, hchannels⟩ := hhoused.exists_configuration
  have hsupplied : ∀ e ∈ cfg.channels.values, T e.type := by
    intro e he
    obtain ⟨ph, hph⟩ := (Table.mem_values_iff _).1 he
    exact htypes (hchannels ▸ hph)
  obtain ⟨env', hload⟩ := Registry.exists_load hs hsupplied hsigs
  obtain ⟨hclosed, hloaded, hknown⟩ := Registry.closed_of_load hload
  rw [← hchannels] at hrel
  -- what is related is loaded, since it is the type of a channel
  have hrel' : Γ.Related (fun a b => Same s.decls.Denotes a b ∧ b ∈ env'.types.keys)
      (.ofChannels spec.pool cfg.channels) := by
    refine fun side ph => rel_imp (hrel side ph) fun _ hb hab => ?_
    obtain ⟨e, he, -, rfl⟩ := channel_of_bound? hb
    exact ⟨hab, hloaded e (Table.mem_values_of_get?_eq_some he)⟩
  obtain ⟨Δ', hΔ', -⟩ :=
    hc.related (Env.follows hw (Registry.within_load hload) hclosed) hrel' hknown
  exact ⟨cfg, env', hcfg, hpool, (reads_configuration hk hcfg).idle.2 hidle, hload, Δ',
    checkStep_eq_ok_iff.2 hΔ'⟩

/-- What is known of a step that was derived, with all channels of its process and what was loaded
for them. -/
structure Loads (s : Store) (fresh : Fresh) (spec : StepSpec) (cfg : Configuration) (env : Env)
    (pl : Plan) : Prop extends s.Derives fresh spec cfg env pl where
  channels : cfg.channels = s.channelsOf spec.process
  load : s.decls.load cfg spec.term = .ok env

theorem channels_configuration (h : s.configuration p = .ok cfg) :
    cfg.channels = s.channelsOf p := by
  unfold configuration at h
  split at h
  · cases h
  split at h
  · cases h
  cases h
  rfl

theorem channels_aim {read : Configuration} {term : Term} (h : s.aim read term = .ok cfg) :
    cfg.channels = read.channels := by
  unfold aim at h
  split at h
  · split at h
    · cases h
      rfl
    · cases h
  · cases h
    rfl

theorem exists_loads (hk : s.Keyed) (hd : s.deriveStep fresh spec = .ok (next, m)) :
    ∃ cfg env pl, s.Loads fresh spec cfg env pl ∧ pl.next = next ∧ pl.Drafts cfg m := by
  obtain ⟨read, cfg, env, ctx, hread, hpool, hwait, haim, hload, hcheck, htrans⟩ :=
    deriveStep_eq_ok_iff.1 hd
  obtain ⟨pl, hmoves, hnext, hdraft⟩ := transition_eq_ok_iff.1 htrans
  obtain ⟨hp, hw⟩ := pool_aim haim
  have hcheck' : checkStep cfg.pool env cfg spec.term = .ok ctx := by rwa [hp, hpool]
  have hchannels : cfg.channels = s.channelsOf spec.process :=
    (channels_aim haim).trans (channels_configuration hread)
  exact ⟨cfg, env, pl, ⟨⟨(reads_configuration hk hread).aim hk haim, hp.trans hpool, hw.trans hwait,
    Registry.within_load hload, ⟨ctx, hcheck'⟩, hmoves⟩, hchannels, hload⟩, hnext,
    Plan.drafts_of_draft? hdraft⟩

namespace Loads

theorem housed (h : s.Loads fresh spec cfg env pl) : s.Housed spec.process spec.pool := by
  obtain ⟨pool, hpool, -⟩ := h.reads.rev
  rw [← h.pool]
  exact ⟨h.reads.member, pool, hpool⟩

theorem checks (h : s.Loads fresh spec cfg env pl) :
    ∃ Δ, Checks env (.ofChannels cfg.pool cfg.channels) spec.term Δ := by
  obtain ⟨ctx, hcheck⟩ := h.checked
  exact ⟨ctx, checkStep_eq_ok_iff.1 hcheck⟩

/-- What was loaded for a step is a supply. -/
theorem supplies (h : s.Loads fresh spec cfg env pl) :
    s.decls.Supplies (· ∈ env.types.keys) (· ∈ env.names.keys) (· ∈ env.sigs.keys) :=
  Registry.supplies_of_closed (Registry.closed_of_load h.load).1 h.within

/-- A producer offers a message, which delivers what the checker has seen. -/
theorem delivers (h : s.Loads fresh spec cfg env pl) (hgives : spec.term.handler? = none)
    {x : Endpoint} {own : List Mark} {half : Half}
    (ho : Offers env cfg fresh spec.term x own half) :
    ∃ msg, half = .message msg ∧ msg.payload.Delivers s.decls (· ∈ env.types.keys) x := by
  obtain ⟨msg, rfl⟩ := message_of_offers hgives ho
  obtain ⟨hclosed, hloaded, -⟩ := Registry.closed_of_load h.load
  obtain ⟨Δ, hc⟩ := h.checks
  exact ⟨msg, rfl, delivers_of_offers h.within hclosed hloaded ho hc⟩

end Loads

/-! ## Meeting -/

/-- What a half that was offered comes to where nothing is forwarded, with the marks of the process
that has offered it. -/
def planOf (own : List Mark) (j : Joined) : Plan :=
  ⟨j.next, own ++ j.marks, j.slots, j.homes, [], []⟩

/-- What a step offers, on a channel without a forward, joins what is pending there. -/
theorem exists_offer (hk : s.Keyed) (hoffers : spec.term.offers = true) {x : Endpoint}
    (hx : (s.channelsOf spec.process).get? spec.term.via = some x)
    (hplain : ∀ f, s.halves.get? x.channel ≠ some (.forward f))
    (hd : s.deriveStep fresh spec = .ok (next, m)) :
    ∃ cfg env own half j, s.Loads fresh spec cfg env (planOf own j) ∧
      Offers env cfg fresh spec.term x own half ∧
      Joins x.channel half (s.halves.get? x.channel) j ∧ j.next = next ∧
      (planOf own j).Fills m := by
  obtain ⟨cfg, env, pl, hloads, hnext, hdrafts⟩ := exists_loads hk hd
  have hmoves := hloads.moves
  generalize hterm : spec.term = term at hmoves hoffers hx
  cases hmoves with
  | @offer _ ep own half l j ho hl hj =>
    obtain ⟨hep, -⟩ := channel_of_offers ho
    obtain ⟨hleads, hhalf⟩ := leads_of_landing hloads.reads hep hl
    rw [hloads.channels, hx] at hep
    cases hep
    obtain ⟨passed, z, pending⟩ := l
    cases hleads with
    | stay =>
      rw [hhalf] at hj
      exact ⟨cfg, env, own, half, j, hloads, ho, hj, hnext, hdrafts.toFills⟩
    | hop h => exact absurd h (hplain _)
  | relay => cases hoffers
  | redirect => cases hoffers
  | call => cases hoffers
  | spawn => cases hoffers

/-- What a commit without new processes keeps, whatever it writes. -/
structure Carries (s s' : Store) : Prop where
  keyed : s'.Keyed
  decls : s'.decls = s.decls
  housed : ∀ {p q : Id}, s.Housed p q → s'.Housed p q

theorem Carries.refl (hk : s.Keyed) : s.Carries s := ⟨hk, rfl, fun h => h⟩

theorem carries_commit (hk : s.Keyed) (hd : pl.Fills m) (hmembers : pl.members = [])
    (hc : s.commit m = .ok s') : s.Carries s' where
  keyed := hk.commit hc
  decls := decls_commit hc
  housed h := h.commit (fun member hm => by rw [hd.members, hmembers] at hm; cases hm) hc

/-- The first of two steps that meet leaves its half on the channel. -/
theorem exists_left (hk : s.Keyed) (hoffers : spec.term.offers = true) {x : Endpoint}
    (hx : (s.channelsOf spec.process).get? spec.term.via = some x)
    (hfree : s.halves.get? x.channel = none) (hd : s.deriveStep fresh spec = .ok (next, m))
    (hc : s.commit m = .ok s') :
    ∃ cfg env pl own half, s.Loads fresh spec cfg env pl ∧
      Offers env cfg fresh spec.term x own half ∧ s.Carries s' ∧
      (∀ p, (∀ k ∈ own, k.process ≠ p) → s'.channelsOf p = s.channelsOf p) ∧
      ∀ z, s'.halves.get? z =
        if z = x.channel then some (half.movedTo x.channel) else s.halves.get? z := by
  obtain ⟨cfg, env, own, half, j, hloads, ho, hj, -, hfills⟩ :=
    exists_offer hk hoffers hx (fun f hf => by cases hfree.symm.trans hf) hd
  rw [hfree] at hj
  cases hj with
  | wait =>
    refine ⟨cfg, env, _, own, half, hloads, ho, carries_commit hk hfills rfl hc, fun p hp => ?_,
      fun z => ?_⟩
    · exact channelsOf_commit hfills hc rfl (by rwa [planOf, List.append_nil])
    · rw [halves_commit hfills hc]
      exact (runSlots_put [] _ _ z).trans (by rw [Half.channel_movedTo]; rfl)

/-- The second of two steps that meet serves the consumer. -/
theorem served_of_fills {own : List Mark} {svc : Service} {payload : Payload} {z : Id} {cont : Term}
    (hfills : (planOf own (svc.served z payload cont)).Fills m) (hc : s.commit m = .ok s')
    (hyoung : s'.Young) (hpool : ∀ e, payload.cont? = some e → e.pool = svc.endpoint.pool)
    (hown : ∀ k ∈ own, k.process ≠ svc.process) :
    s'.channelsOf svc.process = (svc.marks payload).foldl Mark.enter (s.channelsOf svc.process) ∧
      ∀ c, s'.halves.get? c = if c = z then none else s.halves.get? c := by
  refine ⟨?_, fun c => ?_⟩
  · refine channelsOf_entered hfills hc (Service.homes_eq_nil hpool) ?_ fun k hk => ?_
    · rw [planOf, List.filter_append,
        List.filter_eq_nil_iff.2 fun k hk => by simpa using hown k hk]
      exact List.filter_eq_self.2 fun k hk => by simpa using (Net.mem_serviceMarks hk).1
    · exact sized_of_fills hfills rfl hc hyoung k (List.mem_append_right _ hk)
  · rw [halves_commit hfills hc]
    exact runSlots_take [] _ z c

/-! ## The continuation of a consumer -/

section

variable {giver taker : StepSpec} {s₁ s₂ : Store} {fresh₁ fresh₂ : Fresh}
  {next₁ : Option StepSpec} {m₁ m₂ : Change} {next : StepSpec}

/-- A consumer that was accepted, and is served after a commit that has kept what it sees, is
accepted with its continuation. -/
theorem Loads.accepts_served (h : s.Loads fresh taker cfg env pl) (hcarries : s.Carries s₁)
    (hchannels : s₁.channelsOf taker.process = s.channelsOf taker.process) {y : Endpoint}
    (hhalves : ∀ z, z ≠ y.channel → s₁.halves.get? z = s.halves.get? z)
    {T : Id → Prop} {N : QualName → Prop} {G : Id → Prop} (hs : s.decls.Supplies T N G)
    {payload : Payload} (hdel : payload.Delivers s.decls T y) {handler : Handler}
    (hhandler : taker.term.handler? = some handler)
    (hy : (s.channelsOf taker.process).get? taker.term.via = some y) {svc : Service}
    (hsvc : svc = ⟨svc.channel, taker.pool, taker.process, taker.term.via, y, handler⟩)
    {own : List Mark} (hown : ∀ k ∈ own, k.process ≠ taker.process) {cont : Term}
    (hreply : svc.reply payload = some cont)
    (hfills : (planOf own (svc.served y.channel payload cont)).Fills m₂)
    (hc₂ : s₁.commit m₂ = .ok s₂) (hyoung : s₂.Young) :
    s₂.Accepts ⟨svc.pool, svc.process, cont⟩ := by
  generalize svc.channel = z at hsvc
  subst hsvc
  obtain ⟨hafter, hhalves₂⟩ := served_of_fills hfills hc₂ hyoung hdel.pool hown
  dsimp only at hafter
  rw [hchannels] at hafter
  have hcarries₂ := carries_commit hcarries.keyed hfills rfl hc₂
  have hdecls : s₂.decls = s.decls := hcarries₂.decls.trans hcarries.decls
  obtain ⟨-, hloaded, hknown⟩ := Registry.closed_of_load h.load
  obtain ⟨Δ, hc⟩ := h.checks
  rw [h.pool, h.channels] at hc
  obtain ⟨Γ₁, Δ₁, hcont, hmentions, hrel⟩ :=
    related_of_reply (t := s.channelsOf taker.process) h.within hhandler rfl hy hc hdel hreply
  -- the consumer did not wait when it was accepted, and its one service is taken by the commit
  refine accepts_of_related hcarries₂.keyed (hcarries₂.housed (hcarries.housed h.housed))
    (fun c svc' hsvc => ?_) (hdecls ▸ h.supplies.or hs) (fun {ph e} he => ?_)
    (fun id hid => .inl (hknown id (hmentions id hid))) (hdecls ▸ h.within) hcont ?_
  · rw [hhalves₂] at hsvc
    split at hsvc
    · cases hsvc
    · next hne => exact h.reads.idle.1 h.idle c svc' (hhalves c hne ▸ hsvc)
  · rw [hafter] at he
    -- a channel that it had was loaded for the consumer, one that it is handed for the producer
    rcases Mark.mem_enter he with he | ⟨k, hkm, hintro, rfl⟩
    · rw [← h.channels] at he
      exact .inl (hloaded e (Table.mem_values_of_get?_eq_some he))
    · exact .inr (hdel.types _ (Service.mem_marks hdel.pool hkm hintro))
  · rw [hdecls, hafter]
    exact hrel

end

/-! ## A producer and a consumer that meet -/

/-- A producer and a consumer in different pools, at the two ends of a channel on which nothing is
pending. The ends are of equal types, and have the same pool on record for the provider. -/
structure Opposed (s : Store) (giver taker : StepSpec) : Prop where
  gives : giver.term.operation ∈ [.close, .send, .lab, .acquire, .detach]
  takes : taker.term.operation ∈ [.wait, .recv, .case, .accept, .release]
  apart : giver.pool ≠ taker.pool
  ends : ∃ x y, (s.channelsOf giver.process).get? giver.term.via = some x ∧
    (s.channelsOf taker.process).get? taker.term.via = some y ∧ x.channel = y.channel ∧
    s.halves.get? x.channel = none ∧ x.pool = y.pool ∧
    ∃ env : Env, env.Within s.decls ∧ env.eqType x.type y.type = .ok true

theorem offers_of_gives {term : Term}
    (h : term.operation ∈ [.close, .send, .lab, .acquire, .detach]) :
    term.offers = true ∧ term.handler? = none := by
  cases term <;> first | exact ⟨rfl, rfl⟩ | simp [Term.operation] at h

theorem offers_of_takes {term : Term}
    (h : term.operation ∈ [.wait, .recv, .case, .accept, .release]) :
    term.offers = true ∧ ∃ handler, term.handler? = some handler := by
  cases term <;> first | exact ⟨rfl, _, rfl⟩ | simp [Term.operation] at h

section

variable {giver taker : StepSpec} {s₁ s₂ : Store} {fresh₁ fresh₂ : Fresh}
  {next₁ : Option StepSpec} {m₁ m₂ : Change} {next : StepSpec}

/-- The two processes are not the same, since they live in different pools. -/
theorem Opposed.process_ne (ho : s.Opposed giver taker) (hg : s₁.Housed giver.process giver.pool)
    (ht : s₁.Housed taker.process taker.pool) : giver.process ≠ taker.process := fun hsame =>
  ho.apart (Option.some.inj (hg.1.symm.trans (hsame ▸ ht.1)))

/-- The producer steps first, and the consumer takes its message. -/
theorem Opposed.accepts_fetch (ho : s.Opposed giver taker) (hk : s.Keyed)
    (hd₁ : s.deriveStep fresh₁ giver = .ok (next₁, m₁)) (hc₁ : s.commit m₁ = .ok s₁)
    (hd₂ : s₁.deriveStep fresh₂ taker = .ok (some next, m₂)) (hc₂ : s₁.commit m₂ = .ok s₂)
    (hyoung : s₂.Young) :
    next.pool = taker.pool ∧ next.process = taker.process ∧ s₂.Accepts next := by
  obtain ⟨x, y, hx, hy, hchannel, hfree, hpool, denv, hwithin, heq⟩ := ho.ends
  obtain ⟨hoffers₁, hgives⟩ := offers_of_gives ho.gives
  obtain ⟨hoffers₂, handler, hhandler⟩ := offers_of_takes ho.takes
  obtain ⟨cfg₁, env₁, pl₁, own₁, half₁, hloads₁, hoffer₁, hcarries₁, hchannels₁, hhalves₁⟩ :=
    exists_left hk hoffers₁ hx hfree hd₁ hc₁
  obtain ⟨msg, rfl, hdel⟩ := hloads₁.delivers hgives hoffer₁
  have hpending : s₁.halves.get? y.channel = some ((Half.message msg).movedTo x.channel) := by
    rw [hhalves₁, if_pos hchannel.symm]
  have hne : giver.process ≠ taker.process := by
    obtain ⟨_, _, _, hloads, -⟩ := exists_loads hcarries₁.keyed hd₂
    exact ho.process_ne (hcarries₁.housed hloads₁.housed) hloads.housed
  -- the consumer is another process, so it has the same channels after the first step
  have hsame : s₁.channelsOf taker.process = s.channelsOf taker.process := by
    refine hchannels₁ _ fun k hk' => ?_
    rw [(mem_own_of_offers hoffer₁ hk').1, hloads₁.reads.process]
    exact hne
  rw [← hsame] at hy
  obtain ⟨cfg₂, env₂, own₂, half₂, j, hloads₂, hoffer₂, hj, hnext, hfills⟩ :=
    exists_offer hcarries₁.keyed hoffers₂ hy (fun f hf => by cases hpending.symm.trans hf) hd₂
  obtain ⟨rfl, rfl⟩ := service_of_handler hhandler hoffer₂
  rw [hpending] at hj
  cases hj with
  | @fetch _ svc cont hreply =>
    cases hnext
    refine ⟨hloads₂.pool, hloads₂.reads.process, ?_⟩
    refine hloads₂.accepts_served (.refl hcarries₁.keyed) rfl (fun _ _ => rfl)
      (hcarries₁.decls ▸ hloads₁.supplies) ?_ hhandler hy ?_
      (fun k hk' => absurd hk' List.not_mem_nil) hreply hfills hc₂ hyoung
    · rw [hcarries₁.decls]
      exact hdel.across (Env.same_denotes_of_eqType hwithin heq) hpool
    · rw [← hloads₂.pool, ← hloads₂.reads.process]

/-- The consumer steps first, and the producer serves it. -/
theorem Opposed.accepts_serve (ho : s.Opposed giver taker) (hk : s.Keyed)
    (hd₁ : s.deriveStep fresh₁ taker = .ok (next₁, m₁)) (hc₁ : s.commit m₁ = .ok s₁)
    (hd₂ : s₁.deriveStep fresh₂ giver = .ok (some next, m₂)) (hc₂ : s₁.commit m₂ = .ok s₂)
    (hyoung : s₂.Young) :
    next.pool = taker.pool ∧ next.process = taker.process ∧ s₂.Accepts next := by
  obtain ⟨x, y, hx, hy, hchannel, hfree, hpool, denv, hwithin, heq⟩ := ho.ends
  obtain ⟨hoffers₁, hgives⟩ := offers_of_gives ho.gives
  obtain ⟨hoffers₂, handler, hhandler⟩ := offers_of_takes ho.takes
  rw [hchannel] at hfree
  obtain ⟨cfg₁, env₁, pl₁, own₁, half₁, hloads₁, hoffer₁, hcarries₁, hchannels₁, hhalves₁⟩ :=
    exists_left hk hoffers₂ hy hfree hd₁ hc₁
  obtain ⟨rfl, rfl⟩ := service_of_handler hhandler hoffer₁
  have hpending : s₁.halves.get? x.channel = some ((Half.service ⟨y.channel, cfg₁.pool,
      cfg₁.process, taker.term.via, y, handler⟩).movedTo y.channel) := by
    rw [hhalves₁, if_pos hchannel]
  -- a consumer that waits has changed nothing else
  have hsame : ∀ p, s₁.channelsOf p = s.channelsOf p := fun p =>
    hchannels₁ p fun k hk' => absurd hk' List.not_mem_nil
  rw [← hsame] at hx
  obtain ⟨cfg₂, env₂, own₂, half₂, j, hloads₂, hoffer₂, hj, hnext, hfills⟩ :=
    exists_offer hcarries₁.keyed hoffers₁ hx (fun f hf => by cases hpending.symm.trans hf) hd₂
  obtain ⟨msg, rfl, hdel⟩ := hloads₂.delivers hgives hoffer₂
  have hne := ho.process_ne hloads₂.housed (hcarries₁.housed hloads₁.housed)
  rw [hpending] at hj
  cases hj with
  | @serve _ svc cont hreply =>
    cases hnext
    refine ⟨hloads₁.pool, hloads₁.reads.process, ?_⟩
    refine hloads₁.accepts_served hcarries₁ (hsame _) (fun z hz => by rw [hhalves₁, if_neg hz])
      (hcarries₁.decls ▸ hloads₂.supplies) ?_ hhandler hy ?_ ?_ hreply (hchannel ▸ hfills) hc₂
      hyoung
    · rw [← hcarries₁.decls] at hwithin ⊢
      exact hdel.across (Env.same_denotes_of_eqType hwithin heq) hpool
    · rw [← hloads₁.pool, ← hloads₁.reads.process]
    · intro k hk'
      rw [(mem_own_of_offers hoffer₂ hk').1, hloads₂.reads.process]
      exact hne

end

/-! ## The continuation of a creator -/

/-- A plan that makes an instance, as seen by the process that has asked for it. -/
structure Founds (env : Env) (cfg : Configuration) (fresh : Fresh) (via : Sym) (sigId : Id)
    (values : List Sym) (cont : Term) (pl : Plan) (i : Instance) : Prop where
  instantiates : ∃ pool, Instantiates env cfg fresh sigId values pool i
  next : pl.next = some ⟨cfg.pool, cfg.process, cont⟩
  marks : pl.marks = i.marks cfg fresh.process via
  homes : pl.homes = []
  slots : pl.slots = []
  pools : pl.pools.length ≤ 1
  members : ∀ member ∈ pl.members, member.id = fresh.process

/-- What the creation of an instance does to its creator, in both accounts. -/
theorem exists_founds {term : Term} (hop : term.operation ∈ [.call, .spawn]) {Γ Δ : Context}
    (hc : Checks env Γ term Δ) (hmoves : Moves env cfg fresh term pl) :
    ∃ via sigId values cont i Γ₁, Γ.Endows env via sigId values Γ₁ ∧ Checks env Γ₁ cont Δ ∧
      (∀ id ∈ cont.mentions, id ∈ term.mentions) ∧
      Founds env cfg fresh via sigId values cont pl i := by
  cases hc with
  | @call _ Γ₁ _ via sigId values cont he hcont =>
    cases hmoves with
    | offer ho => nomatch ho
    | call hi =>
      exact ⟨via, sigId, values, cont, _, Γ₁, he, hcont, fun _ h => List.mem_cons_of_mem _ h,
        ⟨_, hi⟩, rfl, rfl, rfl, rfl, le_rfl, by simp⟩
  | @spawn _ Γ₁ _ via sigId values pool cont he hcont =>
    cases hmoves with
    | offer ho => nomatch ho
    | spawn hi =>
      exact ⟨via, sigId, values, cont, _, Γ₁, he, hcont, fun _ h => List.mem_cons_of_mem _ h,
        ⟨_, hi⟩, rfl, rfl, rfl, rfl, Nat.zero_le _, by simp⟩
  | _ => simp [Term.operation] at hop

/-- What the creator of an instance has in the end is loaded. -/
theorem types_of_instance (hclosed : env.Closed)
    (hloaded : ∀ e ∈ cfg.channels.values, e.type ∈ env.types.keys) {via : Sym} {sigId : Id}
    {values : List Sym} {i : Instance} (hi : Instantiates env cfg fresh sigId values p i) {ph : Sym}
    {e : Endpoint} (he : ((i.gifts.map (fun g => cfg.mark false g.value g.endpoint) ++
      [cfg.mark true via i.provision]).foldl Mark.enter cfg.channels).get? ph = some e) :
    e.type ∈ env.types.keys := by
  rcases Mark.mem_enter he with he | ⟨k, hk, hintro, rfl⟩
  · exact hloaded e (Table.mem_values_of_get?_eq_some he)
  · rcases List.mem_append.1 hk with hk | hk
    · obtain ⟨g, -, rfl⟩ := List.mem_map.1 hk
      cases hintro
    · rw [List.mem_singleton.1 hk]
      exact (hclosed.root (Env.rootOf_eq_ok.1 hi.type)).resolve_right nofun

/-- A creator is accepted with its continuation. -/
theorem accepts_created (hk : s.Keyed) (hop : spec.term.operation ∈ [.call, .spawn])
    (hfresh : s.members.get? fresh.process = none) {next : StepSpec}
    (hd : s.deriveStep fresh spec = .ok (some next, m)) (hc : s.commit m = .ok s')
    (hyoung : s'.Young) :
    next.pool = spec.pool ∧ next.process = spec.process ∧ s'.Accepts next := by
  obtain ⟨cfg, env, pl, hloads, hnext, hdrafts⟩ := exists_loads hk hd
  obtain ⟨hclosed, hloaded, hknown⟩ := Registry.closed_of_load hloads.load
  obtain ⟨Δ, hcheck⟩ := hloads.checks
  obtain ⟨via, sigId, values, cont, i, Γ, he, hcont, hmentions, hfounds⟩ :=
    exists_founds hop hcheck hloads.moves
  obtain ⟨pool, hi⟩ := hfounds.instantiates
  cases hnext.symm.trans hfounds.next
  have hprocess : cfg.process = spec.process := hloads.reads.process
  -- the instance is another process, so its marks are not the creator's
  have hne : fresh.process ≠ cfg.process := by
    intro heq
    have hhome := hloads.housed.1
    rw [poolOf?, ← hprocess, ← heq, hfresh] at hhome
    cases hhome
  have hrev := rev_lt_of_young hdrafts hfounds.pools hc hyoung
  have hreplayed : s'.channelsOf cfg.process = cfg.replayed m :=
    channelsOf_replayed hdrafts.toFills hc hfounds.homes (hprocess ▸ hloads.channels)
  have hhoused : s'.Housed cfg.process cfg.pool := by
    rw [hprocess, hloads.pool]
    refine hloads.housed.commit (fun member hm hid => ?_) hc
    rw [hdrafts.members] at hm
    exact hne ((hfounds.members member hm).symm.trans (hid.trans hprocess.symm))
  have hdecls : s'.decls = s.decls := decls_commit hc
  refine ⟨hloads.pool, hprocess, accepts_of_related (hk.commit hc) hhoused (fun z svc hz => ?_)
    (hdecls ▸ hloads.supplies) (fun {ph e} he' => ?_) (fun id hid => hknown id (hmentions id hid))
    (hdecls ▸ hloads.within) hcont ?_⟩
  · rw [halves_commit hdrafts.toFills hc, hfounds.slots] at hz
    exact hprocess ▸ hloads.reads.idle.1 hloads.idle z svc hz
  · rw [hreplayed, Configuration.replayed_of_instance hrev hne hfounds.marks hdrafts] at he'
    exact types_of_instance hclosed hloaded hi he'
  · rw [hreplayed, ofChannels_replayed_of_instance hrev hne hi hfounds.marks hdrafts he]
    exact .refl (Same.refl _) _

/-! ## Preservation -/

/-- The step that comes next is accepted where it is to be taken. When a producer and a consumer at
the two ends of a free channel step one after the other, in either order, and the second step hands
the consumer its continuation, then the continuation is loaded and accepted in the configuration
that the consumer has after the commit. So is the continuation that a call or a spawn gives back. A
commit does not touch declarations, and a step is derived only for a term that is accepted in its
configuration. -/
theorem Built.accepts_continuation (h : s.Built) :
    (∀ {giver taker first second : StepSpec} {fresh₁ fresh₂ : Fresh} {next₁ : Option StepSpec}
        {next : StepSpec} {m₁ m₂ : Change} {s₁ s₂ : Store}, s.Opposed giver taker →
        (first = giver ∧ second = taker ∨ first = taker ∧ second = giver) →
        s.deriveStep fresh₁ first = .ok (next₁, m₁) → s.commit m₁ = .ok s₁ →
        s₁.deriveStep fresh₂ second = .ok (some next, m₂) → s₁.commit m₂ = .ok s₂ → s₂.Young →
        next.pool = taker.pool ∧ next.process = taker.process ∧ s₂.Accepts next) ∧
      ∀ {spec next : StepSpec} {fresh : Fresh} {m : Change} {s' : Store},
        spec.term.operation ∈ [.call, .spawn] → s.members.get? fresh.process = none →
        s.deriveStep fresh spec = .ok (some next, m) → s.commit m = .ok s' → s'.Young →
        next.pool = spec.pool ∧ next.process = spec.process ∧ s'.Accepts next := by
  refine ⟨?_, fun hop hfresh hd hc hyoung => accepts_created h.keyed hop hfresh hd hc hyoung⟩
  rintro giver taker first second fresh₁ fresh₂ next₁ next m₁ m₂ s₁ s₂ ho (⟨rfl, rfl⟩ | ⟨rfl, rfl⟩)
    hd₁ hc₁ hd₂ hc₂ hyoung
  · exact ho.accepts_fetch h.keyed hd₁ hc₁ hd₂ hc₂ hyoung
  · exact ho.accepts_serve h.keyed hd₁ hc₁ hd₂ hc₂ hyoung

end Store

namespace Engine

/-- The caller hands its argument to the process that waits for it. -/
def argument : StepSpec := ⟨.nth 18, .nth 30, .send "g" "v"⟩

/-- The process that waits for the caller takes what it is handed. -/
def reception : StepSpec :=
  ⟨.nth 19, .nth 33,
    .recv "g" "w" (.wait "w" (.wait "g" (.close "self")))⟩

/-- The caller has a new argument made, and hands over that one. -/
def errand : StepSpec :=
  ⟨.nth 18, .nth 30, .call "z" (.nth 10) [] (.send "g" "z")⟩

/-- What is received is of a declared type, and the receiver was accepted for an alias of it. -/
theorem accepts_continuation_homing :
    (∃ next₁ next e₁ e₂,
      Request.step .none argument ((start {} ⟨0⟩).final (homing [])) = .ok next₁ e₁ ∧
      Request.step .none reception e₁ = .ok (some next) e₂ ∧ e₂.store.Accepts next) ∧
    ∃ next e', Request.step .none errand ((start {} ⟨0⟩).final (homing [])) = .ok (some next) e' ∧
      e'.store.Accepts next := by
  have hbuilt : ((start {} ⟨0⟩).final (homing [])).store.Built := built_final .empty _
  have hends : let s := ((start {} ⟨0⟩).final (homing [])).store
      let o := (s.channelsOf argument.process).get? "g"
      o = (s.channelsOf reception.process).get? "g" ∧ o.isSome = true ∧
        (o.all fun ep => !s.halves.contains ep.channel) = true := by
    decide +kernel
  have hnew : (((start {} ⟨0⟩).final (homing [])).store.members.get?
      ((start {} ⟨0⟩).final (homing [])).ids.fresh.process) = none := by
    decide +kernel
  have hfirst : (returned? (Request.step .none argument
      ((start {} ⟨0⟩).final (homing [])))).isSome = true := by
    decide +kernel
  have hsecond : ((returned? (Request.step .none reception (resulting (Request.step .none argument
      ((start {} ⟨0⟩).final (homing [])))))).bind id).isSome = true := by
    decide +kernel
  have hcreated : ((returned? (Request.step .none errand
      ((start {} ⟨0⟩).final (homing [])))).bind id).isSome = true := by
    decide +kernel
  have hyoung : (resulting (Request.step .none reception (resulting (Request.step .none argument
      ((start {} ⟨0⟩).final (homing [])))))).store.Young ∧
      (resulting (Request.step .none errand ((start {} ⟨0⟩).final (homing [])))).store.Young :=
    ⟨Store.young_of_values (by decide +kernel), Store.young_of_values (by decide +kernel)⟩
  generalize (start {} ⟨0⟩).final (homing []) = e at *
  obtain ⟨hsame, hsome, hfree⟩ := hends
  obtain ⟨ep, hep⟩ := Option.isSome_iff_exists.1 hsome
  rw [hep] at hsame hfree
  have hnone : e.store.halves.get? ep.channel = none :=
    (Table.contains_eq_false_iff _).1 (by simpa using hfree)
  have hopposed : e.store.Opposed argument reception :=
    ⟨by decide, by decide, by decide, ep, ep, hep, hsame.symm, rfl, hnone, rfl, ∅,
      Env.within_empty _, Env.eqType_eq_ok_true_iff.2 (.refl _ _)⟩
  constructor
  · obtain ⟨next₁, h₁⟩ := exists_of_returned? hfirst
    obtain ⟨next, hnext⟩ := Option.isSome_iff_exists.1 hsecond
    obtain ⟨_, hreturned, rfl⟩ := Option.bind_eq_some_iff.1 hnext
    have h₂ := eq_ok_of_returned? hreturned
    obtain ⟨m₁, hd₁, hc₁, -⟩ := step_eq_ok h₁
    obtain ⟨m₂, hd₂, hc₂, -⟩ := step_eq_ok h₂
    exact ⟨next₁, next, _, _, h₁, h₂,
      (hbuilt.accepts_continuation.1 hopposed (.inl ⟨rfl, rfl⟩) hd₁ hc₁ hd₂ hc₂ hyoung.1).2.2⟩
  · obtain ⟨next, hnext⟩ := Option.isSome_iff_exists.1 hcreated
    obtain ⟨_, hreturned, rfl⟩ := Option.bind_eq_some_iff.1 hnext
    have h := eq_ok_of_returned? hreturned
    obtain ⟨m, hd, hc, -⟩ := step_eq_ok h
    exact ⟨next, _, h,
      (hbuilt.accepts_continuation.2 (by decide) hnew hd hc hyoung.2).2.2⟩

end Engine

end Rendezvous
