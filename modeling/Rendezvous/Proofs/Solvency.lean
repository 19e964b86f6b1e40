import Rendezvous.Proofs.Debts
import Rendezvous.Proofs.Paths

/-!
# One debt each

In which runs every process has nothing left, or owes what its signature provides and nothing else.

- `Store.debt?` is the placeholder that a process owes, and `Store.OwesOnce` says that it owes that
  one and no other, or has nothing left;
- `Store.Solvent` is what engines keep: every process owes once, and serving what is pending does
  not take away what is owed. The check of a term is what keeps it where a process acts alone
  (`owes_of_offers`, `owes_of_handedOver`, `held_of_endows`);
- `Engine.strays` are the steps that do not keep it: they turn what is held into what is owed or the
  other way round, or they make an instance for a process that has nothing left.

The main statement is `Engine.owesOnce_iff`: all along a run every process owes once exactly if no
step strays.
-/

namespace Rendezvous

/-! ## Stores -/

namespace Store

/-- The placeholder that a process owes: that of the provision of its signature. -/
def debt? (s : Store) (p : Id) : Option Sym :=
  (s.members.get? p).bind fun member =>
    (s.decls.sigs.get? member.sig).map fun sig => sig.provision.placeholder

/-- A process has nothing left, or there is exactly one of its placeholders that is bound to a
channel of the pool that it lives in, and that is the one that its signature provides. -/
def OwesOnce (s : Store) (p : Id) : Prop :=
  (∀ ph, (s.channelsOf p).get? ph = none) ∨
    ∃ member sig, s.members.get? p = some member ∧ s.decls.sigs.get? member.sig = some sig ∧
      ∀ ph, (∃ ep, (s.channelsOf p).get? ph = some ep ∧ ep.pool = member.pool) ↔
        ph = sig.provision.placeholder

/-- Every process owes what its signature provides, and serving what is pending keeps that. -/
structure Solvent (s : Store) : Prop where
  live : s.live.Owes s.poolOf? s.debt?
  halves : ∀ {z : Id} {half : Half}, s.halves.get? z = some half → half.Solvent s.debt?

variable {s s' : Store} {p : Id}

theorem debt?_eq_some {ph : Sym} : s.debt? p = some ph ↔
    ∃ member sig, s.members.get? p = some member ∧ s.decls.sigs.get? member.sig = some sig ∧
      sig.provision.placeholder = ph := by
  unfold debt?
  simp only [Option.bind_eq_some_iff, Option.map_eq_some_iff]
  constructor
  · rintro ⟨member, hmember, sig, hsig, hph⟩
    exact ⟨member, sig, hmember, hsig, hph⟩
  · rintro ⟨member, sig, hmember, hsig, hph⟩
    exact ⟨member, hmember, sig, hsig, hph⟩

theorem owesOnce_of_owes (h : s.live.Owes s.poolOf? s.debt?) (p : Id) : s.OwesOnce p := by
  unfold OwesOnce
  simp only [channelsOf_get?]
  by_cases hsome : ∃ ph e, s.live p ph = some e
  · obtain ⟨ph, e, hl⟩ := hsome
    obtain ⟨ph₀, e₀, ho, hl₀⟩ := h.owed hl
    obtain ⟨member, sig, hmember, hsig, rfl⟩ := debt?_eq_some.1 ho
    have hhome : s.poolOf? p = some member.pool := congrArg (Option.map Member.pool) hmember
    refine .inr ⟨member, sig, hmember, hsig, fun ph => ⟨?_, ?_⟩⟩
    · rintro ⟨ep, hep, hpool⟩
      have hph := (h.side hep).1 (hpool ▸ hhome)
      exact Option.some.inj (hph.symm.trans ho)
    · rintro rfl
      exact ⟨e₀, hl₀, Option.some.inj (((h.side hl₀).2 ho).symm.trans hhome)⟩
  · refine .inl fun ph => ?_
    cases hl : s.live p ph with
    | none => rfl
    | some e => exact absurd ⟨ph, e, hl⟩ hsome

theorem owes_of_owesOnce (h : ∀ p, s.OwesOnce p) : s.live.Owes s.poolOf? s.debt? := by
  -- whoever has a channel has a signature, and owes the one that it says
  have hone : ∀ {p : Id} {ph : Sym} {e : Endpoint}, s.live p ph = some e → ∃ π ph₀,
      s.poolOf? p = some π ∧ s.debt? p = some ph₀ ∧
        ∀ ph, (∃ ep, s.live p ph = some ep ∧ ep.pool = π) ↔ ph = ph₀ := by
    intro p ph e hl
    rcases h p with hnone | ⟨member, sig, hmember, hsig, hiff⟩
    · cases hl.symm.trans ((channelsOf_get? ..).symm.trans (hnone ph))
    · simp only [channelsOf_get?] at hiff
      exact ⟨member.pool, _, congrArg (Option.map Member.pool) hmember,
        debt?_eq_some.2 ⟨member, sig, hmember, hsig, rfl⟩, hiff⟩
  refine ⟨fun {p ph e} hl => ?_, fun {p ph e} hl => ?_⟩
  · obtain ⟨π, ph₀, hhome, ho, hiff⟩ := hone hl
    rw [hhome, ho, Option.some_inj, Option.some_inj]
    constructor
    · rintro rfl
      exact ((hiff ph).1 ⟨e, hl, rfl⟩).symm
    · rintro rfl
      obtain ⟨ep, hep, hpool⟩ := (hiff ph₀).2 rfl
      cases hep.symm.trans hl
      exact hpool.symm
  · obtain ⟨π, ph₀, -, ho, hiff⟩ := hone hl
    obtain ⟨ep, hep, -⟩ := (hiff ph₀).2 rfl
    exact ⟨ph₀, ep, ho, hep⟩

/-! ## Accepted terms -/

variable {cfg : Configuration} {env : Env} {fresh : Fresh} {term : Term} {ctx : Context}
  {o : Id → Option Sym}

/-- A context made of channels has nothing on either side if it is empty without one of them. -/
theorem eq_of_isEmpty_without {pool : Id} {channels : Table Sym Endpoint} {σ : Side} {via ph : Sym}
    {e : Endpoint} (h : ((Context.ofChannels pool channels).without σ via).isEmpty = true)
    (he : channels.get? ph = some e) : ph = via := by
  obtain ⟨hassets, howed⟩ := Bool.and_eq_true_iff.1 h
  have hnone : ∀ side,
      ((Context.ofChannels pool channels).without σ via).bound? side ph = none := by
    intro side
    cases side with
    | provider => exact (Table.isEmpty_iff _).1 howed ph
    | client => exact (Table.isEmpty_iff _).1 hassets ph
  by_contra hne
  have hbound := hnone (Context.sideFrom pool e)
  rw [Context.bound?_without, if_neg fun hh => hne hh.2, bound?_of_channel pool he,
    if_pos rfl] at hbound
  cases hbound

/-- A process that ends its channel has no other. -/
theorem only_of_offers {ep : Endpoint} {own : List Mark} {m : Message}
    (hcheck : checkStep cfg.pool env cfg term = .ok ctx)
    (ho : Offers env cfg fresh term ep own (.message m)) (hk : m.payload.cont? = none) {ph : Sym}
    {e : Endpoint} (he : cfg.channels.get? ph = some e) : ph = term.via := by
  generalize hhalf : Half.message m = half at ho
  cases ho with
  | close =>
    cases checkStep_eq_ok_iff.1 hcheck with
    | close _ hdone => exact eq_of_isEmpty_without hdone he
  | send =>
    cases hhalf
    cases hk
  | pass _ _ hp =>
    cases hhalf
    cases hp <;> cases hk
  | consume => cases hhalf

/-- The channel of an instance gets a placeholder that its creator owes nothing under. -/
theorem held_of_endows {pool sig : Id} {channels : Table Sym Endpoint} {via : Sym}
    {values : List Sym} {Γ : Context}
    (h : (Context.ofChannels pool channels).Endows env via sig values Γ) {e : Endpoint}
    (he : channels.get? via = some e) : e.pool ≠ pool := by
  intro hpool
  have hone := Context.oneSided_ofChannels pool channels
  have hside := hone.sideOf?_eq_some ((bound?_of_channel pool he .provider).trans
    (if_pos (sideFrom_eq_provider.2 hpool)))
  obtain ⟨-, -, hgives, -, hfree⟩ := h
  obtain ⟨-, hheld, -, hsides⟩ := Term.gives_sides hgives hone
  rw [hsides] at hfree
  split at hfree
  · next hmem =>
    cases hside.symm.trans (hheld _ hmem)
  · cases hside.symm.trans hfree

/-! ## Steps -/

/-- What a process offers is solvent, and leaves it what it owes; no new placeholder is bound. -/
theorem owes_of_offers (hr : s.Reads p cfg) (hw : env.Within s.decls)
    (hcheck : checkStep cfg.pool env cfg term = .ok ctx) (hu : s.net.Unused fresh.channel)
    {ep : Endpoint} {own : List Mark} {half : Half} (ho : Offers env cfg fresh term ep own half)
    (hs : s.live.Owes s.poolOf? o) :
    (s.live.after own).Owes s.poolOf? o ∧ half.Solvent o ∧
      ∀ {q : Id} {ph : Sym} {e : Endpoint}, s.live.after own q ph = some e →
        ∃ e', s.live q ph = some e' := by
  cases half with
  | message m =>
    obtain ⟨given, he, hlive, -⟩ := emits_of_offers hr hw hcheck ho
    rw [hlive]
    refine ⟨hs.acted he.home he.bound (fun k hk => (he.cont hk).2) ?_ ?_, ?_, ?_⟩
    · rintro ph rfl
      cases hv : m.payload.value? with
      | none => cases he.keep hv
      | some v =>
        obtain ⟨ph', hph, -, hl, hne⟩ := he.value hv
        cases hph
        exact ⟨v, hl, hne⟩
    · exact fun hk ph e hl => .inl (only_of_offers hcheck ho hk ((hr.channels ph).trans hl))
    · intro v k hv hk
      obtain ⟨ph, -, -, hl, -⟩ := he.value hv
      rw [(he.cont hk).1]
      exact hu.live hl
    · intro q ph e hl
      rcases Net.acted_eq_some hl with ⟨rfl, rfl, -⟩ | ⟨-, hold⟩
      · exact ⟨ep, he.bound⟩
      · exact ⟨e, hold⟩
  | service svc =>
    cases ho with
    | @consume _ ep handler hh hep =>
      have ht : term.offers = true := by cases term <;> first | rfl | cases hh
      obtain ⟨id, node, -, hlive, -, hsuits, -⟩ := suits_of_reads hr hw hcheck ht hep
      refine ⟨hs, ?_, fun hl => ⟨_, hl⟩⟩
      rintro cont rfl
      -- the end of a channel is waited for by its client
      have hne : ep.pool ≠ cfg.pool := by
        have hside := provides_iff_of_suits hsuits
        cases fits_of_suits hsuits hh
        rw [if_neg (by rw [hh]; exact Option.some_ne_none _)] at hside
        exact fun hpool => nomatch hside.1 hpool
      show o cfg.process ≠ some term.via
      rw [hr.process]
      exact hs.ne_of_pool_ne hr.member hlive hne
  | forward f => cases (channel_of_offers ho).2.2

/-- A forward leaves its process nothing. -/
theorem owes_of_handedOver {via target : Sym} {x y : Endpoint} (hr : s.Reads p cfg)
    (hcheck : checkStep cfg.pool env cfg (.fwd via target) = .ok ctx)
    (hx : cfg.channels.get? via = some x) (hy : cfg.channels.get? target = some y)
    (hs : s.live.Owes s.poolOf? o) :
    (s.live.after (Drafting.handedOver cfg via target x y)).Owes s.poolOf? o := by
  obtain ⟨x', y', id, node, hx', -, hy', hyp, honly, -⟩ := joins_of_checkStep.1 ⟨ctx, hcheck⟩
  cases hy.symm.trans hy'
  obtain rfl := hr.process
  rw [show s.live.after (Drafting.handedOver cfg via target x y) =
    s.live.acted cfg.process via none (some target) from Live.after_handOver ..]
  refine hs.acted hr.member ((hr.channels _).symm.trans hx) nofun ?_ ?_
  · rintro ph ⟨⟩
    exact ⟨y, (hr.channels _).symm.trans hy, hyp⟩
  · intro _ ph e hl
    exact (honly ph e ((hr.channels _).trans hl)).imp_right fun h => congrArg some h.symm

/-- A half that stays is the one that came. -/
theorem eq_of_put_joins {z : Id} {half put : Half} {pending : Option Half} {j : Joined}
    (hj : Joins z half pending j) (h : .put put ∈ j.slots) : put = half.movedTo z := by
  cases hj with
  | wait =>
    cases List.mem_singleton.1 h
    rfl
  | serve => cases List.mem_singleton.1 h
  | fetch => cases List.mem_singleton.1 h

/-- Where a half joins what is pending, debts are kept if the placeholders stay on their sides. -/
theorem owes_of_joins {home : Id → Option Id} {v : Live} {z : Id} {half : Half}
    {pending : Option Half} {j : Joined} (hj : Joins z half pending j) (hv : v.Owes home o)
    (hhalf : half.Solvent o) (hpending : ∀ other, pending = some other → other.Solvent o)
    (hservice : ∀ svc, half = .service svc ∨ pending = some (.service svc) →
      home svc.process = some svc.pool ∧ ∃ e, v svc.process svc.via = some e)
    (hsides : ∀ {q : Id} {ph : Sym} {e e' : Endpoint}, v q ph = some e →
      j.homes.foldl Live.rehomed (v.after j.marks) q ph = some e' →
      (home q = some e.pool ↔ home q = some e'.pool)) :
    (j.homes.foldl Live.rehomed (v.after j.marks)).Owes home o := by
  have hmeet : ∀ {m : Message} {svc : Service} {cont : Term}, (Half.message m).Solvent o →
      (Half.service svc).Solvent o → home svc.process = some svc.pool →
      (∃ e, v svc.process svc.via = some e) → svc.reply m.payload = some cont →
      (∀ {q : Id} {ph : Sym} {e e' : Endpoint}, v q ph = some e →
        (svc.homes m.payload).foldl Live.rehomed (v.after (svc.marks m.payload)) q ph = some e' →
        (home q = some e.pool ↔ home q = some e'.pool)) →
      ((svc.homes m.payload).foldl Live.rehomed (v.after (svc.marks m.payload))).Owes home o := by
    intro m svc cont hm hsvc hhome hbound hr hsides
    obtain ⟨e, he⟩ := hbound
    rw [foldl_rehomed_homes] at hsides ⊢
    exact Net.owes_met (n := ⟨v, fun _ => none, fun _ => none, fun _ => none, home⟩) (z := z) hv
      hhome he hr hsvc hm hsides
  cases hj with
  | wait => exact hv
  | serve hr =>
    obtain ⟨hhome, hbound⟩ := hservice _ (.inr rfl)
    exact hmeet hhalf (hpending _ rfl) hhome hbound hr hsides
  | fetch hr =>
    obtain ⟨hhome, hbound⟩ := hservice _ (.inl rfl)
    exact hmeet (hpending _ rfl) hhalf hhome hbound hr hsides

/-! ## Steps that bind no new process -/

/-- What is bound before and after stays on its side. -/
def KeepsSides (s s' : Store) : Prop :=
  ∀ {p : Id} {ph : Sym} {e e' : Endpoint}, s.live p ph = some e → s'.live p ph = some e' →
    (s.poolOf? p = some e.pool ↔ s'.poolOf? p = some e'.pool)

/-- Whoever waits is not the one that acts, and keeps the channel that it waits on. -/
theorem bound_of_service (hsound : s.Sound) (hw : s.net.Waits) (hidle : s.net.Idle p)
    {own : List Mark} (hown : ∀ k ∈ own, k.process = p) {z : Id} {svc : Service}
    (hz : s.halves.get? z = some (.service svc)) :
    s.poolOf? svc.process = some svc.pool ∧
      ∃ e, s.live.after own svc.process svc.via = some e := by
  have hthere := service_net_eq_some.2 hz
  obtain ⟨e, he, -⟩ := hw.bound hthere
  refine ⟨hsound.owners hz, e, (Live.after_of_ne fun k hk => ?_).trans he⟩
  rw [hown k hk]
  exact Ne.symm (hidle hthere)

/-- A process that starts to wait has the channel that it waits on. -/
theorem bound_of_offers (hr : s.Reads p cfg) {ep : Endpoint} {own : List Mark} {svc : Service}
    (ho : Offers env cfg fresh term ep own (.service svc)) :
    s.poolOf? svc.process = some svc.pool ∧
      ∃ e, s.live.after own svc.process svc.via = some e := by
  obtain rfl := hr.process
  cases ho with
  | consume _ hep => exact ⟨hr.member, ep, (hr.channels _).symm.trans hep⟩

/-- A process that acts changes its own bindings, and then its half joins what is pending. -/
theorem owes_of_act (hs : s.Solvent) (hsound : s.Sound) (hw : s.net.Waits) (hidle : s.net.Idle p)
    {own : List Mark} (hown : ∀ k ∈ own, k.process = p)
    (hv : (s.live.after own).Owes s.poolOf? s.debt?)
    (hsub : ∀ {q : Id} {ph : Sym} {e : Endpoint}, s.live.after own q ph = some e →
      ∃ e', s.live q ph = some e') {z : Id} {half : Half} {j : Joined}
    (hj : Joins z half (s.halves.get? z) j) (hhalf : half.Solvent s.debt?)
    (hservice : ∀ svc, half = .service svc →
      s.poolOf? svc.process = some svc.pool ∧ ∃ e, s.live.after own svc.process svc.via = some e)
    (hlive : s'.live = j.homes.foldl Live.rehomed (s.live.after (own ++ j.marks)))
    (hhome : s'.poolOf? = s.poolOf?) (hsides : s.KeepsSides s') :
    s'.live.Owes s.poolOf? s.debt? := by
  rw [Live.after_append] at hlive
  rw [hlive]
  refine owes_of_joins hj hv hhalf (fun other hother => hs.halves hother) ?_ ?_
  · rintro svc (hsvc | hsvc)
    · exact hservice svc hsvc
    · exact bound_of_service hsound hw hidle hown hsvc
  · intro q ph e e' hl hl'
    obtain ⟨e₀, hl₀⟩ := hsub hl
    have hkept := hsides hl₀ (hlive ▸ hl')
    rw [hhome] at hkept
    exact (hv.side hl).trans ((hs.live.side hl₀).symm.trans hkept)

theorem solvent_of_quiet {pl : Plan} (hs : s.Solvent) (hc : s.Commits s' pl)
    (hmem : pl.members = []) (hlive : s'.live.Owes s.poolOf? s.debt?)
    (hputs : ∀ half, .put half ∈ pl.slots → half.Solvent s.debt?) : s'.Solvent := by
  have hmembers : s'.members = s.members := by rw [hc.members, hmem, List.foldl_nil]
  have hhome : s'.poolOf? = s.poolOf? := funext fun q => by rw [poolOf?, poolOf?, hmembers]
  have hdebt : s'.debt? = s.debt? := funext fun q => by rw [debt?, debt?, hmembers, hc.decls]
  refine ⟨hhome ▸ hdebt ▸ hlive, fun {z half} hz => ?_⟩
  rw [hc.halves, get?_foldl_applySlot] at hz
  rw [hdebt]
  rcases mem_of_runSlots hz with hold | ⟨hput, -⟩
  · exact hs.halves hold
  · exact hputs half hput

/-! ## New processes -/

/-- What a process binds first stays, if nothing else is bound to that placeholder. -/
theorem after_of_head {v : Live} {k : Mark} {rest : List Mark} (hk : k.isIntro = true)
    (h : ∀ k' ∈ rest, ¬ (k.process = k'.process ∧ k.placeholder = k'.placeholder)) :
    v.after (k :: rest) k.process k.placeholder = some k.endpoint :=
  (Live.after_of_unmarked h).trans ((Live.set_self ..).trans (if_pos hk))

theorem solvent_of_birth (hs : s.Solvent) (hsound : s.Sound) {q pool sigId : Id} {sig : Signature}
    (hnew : s.poolOf? q = none) (hmembers : s'.members = s.members.insert q ⟨q, pool, sigId⟩)
    (hdecls : s'.decls = s.decls) (hhalves : s'.halves = s.halves)
    (hsig : s.decls.sigs.get? sigId = some sig)
    (hlive : s'.live.Owes s'.poolOf?
      (Function.update s.debt? q (some sig.provision.placeholder))) : s'.Solvent := by
  have hdebt : s'.debt? = Function.update s.debt? q (some sig.provision.placeholder) := by
    funext r
    rw [debt?, hmembers, hdecls, Table.get?_insert, Function.update_apply]
    split
    · exact congrArg (Option.map _) hsig
    · rfl
  refine ⟨hdebt ▸ hlive, fun {z half} hz => ?_⟩
  rw [hhalves] at hz
  refine (hs.halves hz).congr ?_
  rw [hdebt, Function.update_of_ne]
  intro hq
  have howner := hsound.owners hz
  rw [hq, hnew] at howner
  cases howner

end Store

/-- Signatures are on record under their own ids, and have placeholders that differ. -/
def Registry.Lawful (r : Registry) : Prop :=
  ∀ {id : Id} {sig : Signature}, r.sigs.get? id = some sig →
    sig.id = id ∧ (sig.parameters.map Parameter.placeholder).Nodup

theorem Registry.Lawful.declareSig {r r' : Registry} {sig : Signature} (hr : r.Lawful)
    (h : r.declareSig sig = .ok r') (hparams : (sig.parameters.map Parameter.placeholder).Nodup) :
    r'.Lawful := by
  unfold Registry.declareSig at h
  split at h
  · cases h
  cases h
  intro id found hfound
  rw [Table.get?_insert] at hfound
  split at hfound
  · next hid =>
    cases hfound
    exact ⟨hid.symm, hparams⟩
  · exact hr hfound

/-- The placeholder that is provided is none of those that are received. -/
theorem Signature.provision_notMem {sig : Signature}
    (h : (sig.parameters.map Parameter.placeholder).Nodup) :
    sig.provision.placeholder ∉ sig.receptions.map Parameter.placeholder :=
  (List.nodup_cons.1 h).1

namespace Store

variable {s s' : Store} {p : Id} {cfg : Configuration} {env : Env} {fresh : Fresh} {term : Term}
  {ctx : Context}

/-- An instance that is founded owes what it provides, and its creator what it owed before. -/
theorem solvent_of_instance (hs : s.Solvent) (hsound : s.Sound) (hlawful : s.decls.Lawful)
    {spec : StepSpec} {next : Option StepSpec} {pl : Plan} (hd : s.Derives fresh spec cfg env pl)
    (hu : s.net.Unused fresh.channel) (hfresh : s.poolOf? fresh.process = none) {via : Sym}
    {sig pool : Id} {values : List Sym} {i : Instance}
    (hi : Instantiates env cfg fresh sig values pool i) (hnodup : values.Nodup)
    (hgives : ∀ value ∈ values, ∃ e, cfg.channels.get? value = some e ∧ e.pool ≠ cfg.pool)
    (hfree : ∀ e, cfg.channels.get? via = some e → e.pool ≠ cfg.pool) {pools : List Pool}
    (hc : s.Commits s' ⟨next, i.marks cfg fresh.process via, [], [],
      [⟨fresh.process, pool, sig⟩], pools⟩) {ph : Sym} {e : Endpoint}
    (hsome : s.live spec.process ph = some e) : s'.Solvent := by
  have hr := hd.reads
  have hf := founds_of_instance hsound hr hd.idle hu hfresh hi hnodup hgives hc
  have hsig : s.decls.sigs.get? sig = some i.sig := hd.within.sigs (Env.sig_eq_ok.1 hi.sig)
  have hprovided := Signature.provision_notMem (hlawful hsig).2
  have hplaced : ∀ g ∈ i.gifts, g.parameter.placeholder ≠ i.sig.provision.placeholder := by
    intro g hg heq
    have hpair : (g.value, g.parameter) ∈ values.zip i.sig.receptions :=
      hi.gifts ▸ List.mem_map_of_mem hg
    exact hprovided (heq ▸ List.mem_map_of_mem (List.of_mem_zip hpair).2)
  have hself : s'.live fresh.process i.sig.provision.placeholder = some i.provision := by
    rw [hc.live, List.foldl_nil, Instance.marks]
    refine after_of_head rfl fun k hk => ?_
    rintro ⟨hprocess, hplaceholder⟩
    have hne : fresh.process ≠ cfg.process := by
      rw [hr.process]
      intro heq
      cases hfresh.symm.trans (heq ▸ hr.member)
    rcases List.mem_append.1 hk with hk | hk
    · obtain ⟨g, hg, hk⟩ := List.mem_flatMap.1 hk
      simp only [Gift.marks, List.mem_cons, List.not_mem_nil, or_false] at hk
      rcases hk with rfl | rfl
      · exact hne hprocess
      · exact hplaced g hg hplaceholder.symm
    · rw [List.mem_singleton.1 hk] at hprocess
      exact hne hprocess
  exact solvent_of_birth hs hsound hfresh hc.members hc.decls hc.halves hsig
    (hf.owes hs.live hself hplaced hsome fun e he => hfree e ((hr.channels via).trans he))

/-- A process that is created owes what it provides. -/
theorem Creating.solvent {c : Creation} {sig : Signature} {provision : Endpoint}
    {receptions : List (Sym × Endpoint)}
    (hcr : s.Creating s' fresh c sig provision receptions) (hs : s.Solvent) (hsound : s.Sound)
    (hlawful : s.decls.Lawful) : s'.Solvent := by
  obtain ⟨hid, hnodup⟩ := hlawful hcr.declared
  have hplaced : sig.provision.placeholder ∉ receptions.map Prod.fst := by
    rw [hcr.placed]
    exact Signature.provision_notMem hnodup
  have hc := hcr.commits
  have hself : s'.live fresh.process sig.provision.placeholder = some provision := by
    rw [hc.live]
    refine after_of_head rfl fun k hk => ?_
    obtain ⟨r, hmem, rfl⟩ := List.mem_map.1 hk
    rintro ⟨-, hplaceholder⟩
    exact hplaced (List.mem_map.2 ⟨r, hmem, hplaceholder.symm⟩)
  exact solvent_of_birth hs hsound hcr.net.new hc.members hc.decls hc.halves
    (hid ▸ hcr.declared) (hcr.net.owes hs.live hself hplaced)

/-! ## Steps -/

/-- A step of a process that has something left keeps debts, if what is bound before and after stays
on its side. -/
theorem Steps.solvent {spec : StepSpec} {next : Option StepSpec} {pl : Plan}
    (hst : s.Steps s' fresh spec next pl) (hs : s.Solvent) (hsound : s.Sound) (hw : s.net.Waits)
    (hlawful : s.decls.Lawful) (hu : s.net.Unused fresh.channel)
    (hfresh : s.poolOf? fresh.process = none) (hsides : s.KeepsSides s') {ph : Sym} {e : Endpoint}
    (hsome : s.live spec.process ph = some e) : s'.Solvent := by
  obtain ⟨cfg, env, hd, -⟩ := hst.derives
  obtain ⟨ctx, hcheck⟩ := hd.checked
  have hr := hd.reads
  have hidle : s.net.Idle cfg.process := hr.process ▸ idle_of_waiting hr hd.idle
  have hc := hst.commits
  have hhome : pl.members = [] → s'.poolOf? = s.poolOf? := fun hmem => funext fun q => by
    rw [poolOf?, poolOf?, hc.members, hmem, List.foldl_nil]
  have htakes : ∀ {l : Landing} {half : Half}, .put half ∉ l.takes := by
    intro l half hput
    obtain ⟨_, -, h⟩ := List.mem_map.1 hput
    cases h
  have hmoves := hd.moves
  generalize spec.term = term at hmoves hcheck
  cases hmoves with
  | @offer _ ep own half l j ho hl hj =>
    obtain ⟨hv, hhalf, hsub⟩ := owes_of_offers hr hd.within hcheck hu ho hs.live
    obtain ⟨-, hpending⟩ := leads_of_landing hr (channel_of_offers ho).1 hl
    rw [hpending] at hj
    refine solvent_of_quiet hs hc rfl ?_ fun put hput => ?_
    · refine owes_of_act hs hsound hw hidle (fun k hk => (mem_own_of_offers ho hk).1) hv hsub hj
        hhalf ?_ hc.live (hhome rfl) hsides
      rintro svc rfl
      exact bound_of_offers hr ho
    · rw [eq_of_put_joins hj ((List.mem_append.1 hput).resolve_left htakes)]
      exact hhalf.movedTo l.channel
  | @relay via target x y l hx hy hl hnone =>
    refine solvent_of_quiet hs hc rfl ?_ fun put hput => ?_
    · rw [hc.live]
      exact owes_of_handedOver hr hcheck hx hy hs.live
    · cases List.mem_singleton.1 ((List.mem_append.1 hput).resolve_left htakes)
      trivial
  | @redirect via target x y l left id node j hx hy hl hleft hnode hdir hj =>
    have hv := owes_of_handedOver hr hcheck hx hy hs.live
    obtain ⟨-, hpending⟩ := leads_of_landing hr hx hl
    rw [hpending] at hj
    have hthere := hr.sub hleft
    have hown : ∀ k ∈ Drafting.handedOver cfg via target x y, k.process = cfg.process :=
      fun k hk => (mem_handedOver hk).1
    refine solvent_of_quiet hs hc rfl ?_ fun put hput => ?_
    · refine owes_of_act hs hsound hw hidle hown hv (fun hl => ⟨_, live_of_handedOver hl⟩) hj
        (hs.halves hthere) ?_ hc.live (hhome rfl) hsides
      rintro svc rfl
      exact bound_of_service hsound hw hidle hown hthere
    · rcases List.mem_cons.1 ((List.mem_append.1 hput).resolve_left htakes) with h | hput
      · cases h
      · rw [eq_of_put_joins hj hput]
        exact (hs.halves hthere).movedTo l.channel
  | call hi =>
    obtain ⟨-, hnodup, hgives⟩ := gives_of_checkStep (.inl rfl) hcheck
    cases checkStep_eq_ok_iff.1 hcheck with
    | call hendows =>
      exact solvent_of_instance hs hsound hlawful hd hu hfresh hi hnodup hgives
        (fun e he => held_of_endows hendows he) hc hsome
  | spawn hi =>
    obtain ⟨-, hnodup, hgives⟩ := gives_of_checkStep (.inr ⟨_, rfl⟩) hcheck
    cases checkStep_eq_ok_iff.1 hcheck with
    | spawn hendows =>
      exact solvent_of_instance hs hsound hlawful hd hu hfresh hi hnodup hgives
        (fun e he => held_of_endows hendows he) hc hsome

/-- Where every process owes once before and after a step, the step was taken by a process that had
something left, and has kept everything on its side. -/
theorem Steps.keepsSides {spec : StepSpec} {next : Option StepSpec} {pl : Plan}
    (hst : s.Steps s' fresh spec next pl) (hsound : s.Sound)
    (hfresh : s.poolOf? fresh.process = none) (h : s.live.Owes s.poolOf? s.debt?)
    (h' : s'.live.Owes s'.poolOf? s'.debt?) :
    s.KeepsSides s' ∧ ∃ ph e, s.live spec.process ph = some e := by
  obtain ⟨cfg, env, hd, -⟩ := hst.derives
  have hr := hd.reads
  have hc := hst.commits
  constructor
  · intro q ph e e' hl hl'
    have hmember : s'.members.get? q = s.members.get? q := by
      rw [hc.members, Table.get?_foldl_insert_of_ne]
      rintro m hm rfl
      obtain ⟨π, hhome⟩ := hsound.live hl
      rcases (homes_of_derives hsound hd).members with hnone | ⟨pool, sig, hsingle, -⟩
      · rw [hnone] at hm
        cases hm
      · rw [hsingle, List.mem_singleton] at hm
        subst hm
        cases hfresh.symm.trans hhome
    have hdebt : s'.debt? q = s.debt? q := by rw [debt?, debt?, hmember, hc.decls]
    exact (h.side hl).trans (hdebt ▸ (h'.side hl').symm)
  · -- a term acts on a channel of its process, or it makes an instance, which is no use to a
    -- process that owes nothing
    have hbound : ∀ {ph : Sym} {e : Endpoint}, cfg.channels.get? ph = some e →
        ∃ ph e, s.live spec.process ph = some e :=
      fun he => ⟨_, _, (hr.channels _).symm.trans he⟩
    rcases hst.net with ⟨hmem, -⟩ | ⟨pool, via, ph, provision, gifts, hf, -⟩
    · have hmoves := hd.moves
      generalize spec.term = term at hmoves
      cases hmoves with
      | offer ho => exact hbound (channel_of_offers ho).1
      | relay hx => exact hbound hx
      | redirect hx => exact hbound hx
      | call => cases hmem
      | spawn => cases hmem
    · by_contra hnone
      have hgiver := hf.live_giver
      have hvia : s'.live spec.process via = some provision := (hgiver via).trans (if_pos rfl)
      obtain ⟨ph₀, e₀, ho, hl₀⟩ := h'.owed hvia
      have hold : s'.live spec.process ph₀ = _ := hgiver ph₀
      rw [hl₀] at hold
      split at hold
      · next hph =>
        subst hph
        have hhome := (h'.side hvia).2 ho
        have hne : spec.process ≠ fresh.process := by
          intro heq
          cases hfresh.symm.trans (heq ▸ hr.member)
        have hstay : s'.poolOf? spec.process = some spec.pool :=
          (hf.home_of_ne hne).trans hf.home
        exact hf.elsewhere (hf.pool_eq.symm.trans (Option.some.inj (hhome.symm.trans hstay)))
      · split at hold
        · cases hold
        · exact hnone ⟨ph₀, e₀, hold.symm⟩

/-! ## Declarations -/

/-- Whatever leaves processes alone keeps debts, as long as no signature is lost. -/
theorem Solvent.leaves (hs : s.Solvent) (hw : s.net.Waits) (hl : s.Leaves s')
    (hsigs : ∀ {id : Id} {sig : Signature}, s.decls.sigs.get? id = some sig →
      s'.decls.sigs.get? id = some sig) : s'.Solvent := by
  have hkept : ∀ {q : Id} {ph : Sym} {e : Endpoint}, s.live q ph = some e →
      s'.debt? q = s.debt? q := by
    intro q ph e he
    obtain ⟨ph₀, -, ho, -⟩ := hs.live.owed he
    obtain ⟨member, sig, hmember, hsig, rfl⟩ := debt?_eq_some.1 ho
    rw [ho]
    exact debt?_eq_some.2 ⟨member, sig, hl.members ▸ hmember, hsigs hsig, rfl⟩
  refine ⟨⟨fun {q ph e} he => ?_, fun {q ph e} he => ?_⟩, fun {z half} hz => ?_⟩
  · rw [hl.live] at he
    rw [hl.poolOf?, hkept he]
    exact hs.live.side he
  · rw [hl.live] at he ⊢
    rw [hkept he]
    exact hs.live.owed he
  · rw [hl.halves] at hz
    cases half with
    | message m => exact hs.halves hz
    | service svc =>
      -- whoever waits has a channel, so that there is something that it owes
      obtain ⟨e, he, -⟩ := hw.bound (service_net_eq_some.2 hz)
      exact (hs.halves hz).congr (hkept he)
    | forward f => trivial

/-- Whether a placeholder that is bound before and after changes sides. -/
def switches (s s' : Store) : Bool :=
  s.bindings.entries.any fun b =>
    (s'.bindings.get? b.1).any fun e => s.provides b.1.1 b.2 != s'.provides b.1.1 e

theorem switches_eq_false_iff : s.switches s' = false ↔ s.KeepsSides s' := by
  have hsame : ∀ {p : Id} {e e' : Endpoint}, (s.provides p e != s'.provides p e') = false ↔
      (s.poolOf? p = some e.pool ↔ s'.poolOf? p = some e'.pool) := by
    intro p e e'
    rw [bne_eq_false_iff_eq, provides, provides, decide_eq_decide]
  unfold switches
  rw [List.any_eq_false]
  constructor
  · intro h p ph e e' hl hl'
    have hkept := h ((p, ph), e) (s.bindings.mem_entries_iff.2 hl)
    rw [show s'.bindings.get? (p, ph) = some e' from hl', Option.any_some] at hkept
    exact hsame.1 (Bool.eq_false_of_not_eq_true hkept)
  · rintro h ⟨⟨p, ph⟩, e⟩ hmem
    cases hl' : s'.bindings.get? (p, ph) with
    | none => exact Bool.false_ne_true
    | some e' =>
      have hkept := hsame.2 (h (s.bindings.mem_entries_iff.1 hmem) hl')
      rw [Option.any_some]
      exact ne_true_of_eq_false hkept

end Store

/-! ## Runs -/

namespace Engine

/-- Whether a step goes through by which a placeholder changes sides, or that is taken for a process
that has nothing left. -/
def strays (e : Engine) (spec : StepSpec) : Bool :=
  match e.store.deriveStep e.ids.fresh spec with
  | .ok (_, m) =>
    match e.store.commit m with
    | .ok s => e.store.switches s || (e.store.channelsOf spec.process).isEmpty
    | .error _ => false
  | .error _ => false

theorem strays_eq_false_iff {e : Engine} {spec : StepSpec} : e.strays spec = false ↔
    ∀ next m s, e.store.deriveStep e.ids.fresh spec = .ok (next, m) → e.store.commit m = .ok s →
      e.store.KeepsSides s ∧ ∃ ph ep, e.store.live spec.process ph = some ep := by
  have hleft : (e.store.channelsOf spec.process).isEmpty = false ↔
      ∃ ph ep, e.store.live spec.process ph = some ep := by
    rw [← Bool.not_eq_true, Table.isEmpty_iff]
    simp only [Store.channelsOf_get?, not_forall, Option.ne_none_iff_exists']
  unfold strays
  cases hd : e.store.deriveStep e.ids.fresh spec with
  | error err => exact iff_of_true rfl nofun
  | ok r =>
    obtain ⟨next, m⟩ := r
    dsimp only
    cases hc : e.store.commit m with
    | error err =>
      refine iff_of_true rfl ?_
      rintro _ _ s ⟨⟩ hc'
      cases hc.symm.trans hc'
    | ok s =>
      dsimp only
      rw [Bool.or_eq_false_iff, Store.switches_eq_false_iff, hleft]
      constructor
      · rintro h _ _ s' ⟨⟩ hc'
        cases hc.symm.trans hc'
        exact h
      · exact fun h => h next m s rfl hc

/-- What engines keep as long as no step strays. -/
structure Solvent (e : Engine) : Prop where
  valid : (e.Valid ∧ ∃ g, e.store.net.Agrees Endpoint.type g) ∧ e.store.net.Waits
  lawful : e.store.decls.Lawful
  solvent : e.store.Solvent

theorem Declares.lawful {e e' : Engine} (h : e.Declares e') (hl : e.store.decls.Lawful) :
    e'.store.decls.Lawful := by
  cases h with
  | nothing hs =>
    rw [hs]
    exact hl
  | type h hs =>
    rw [hs]
    unfold Registry.declareType at h
    split at h
    · cases h
    cases h
    exact hl
  | sig h hs _ _ hparams =>
    rw [hs]
    exact hl.declareSig h hparams
  | pool h =>
    unfold Store.addPool at h
    split at h
    · cases h
    rw [← Except.ok.inj h]
    exact hl

theorem Redefines.sigs_eq {e e' : Engine} (h : e.Redefines e') :
    e'.store.decls.sigs = e.store.decls.sigs := by
  cases h with
  | nothing hs => rw [hs]
  | type h hs =>
    rw [hs]
    unfold Registry.redefineType at h
    split at h
    · cases h
    split at h
    · cases h
    cases h
    rfl

/-- Everything that calls do keeps debts, as long as no step strays. -/
theorem keeps_solvent : Keeps (fun e spec => e.strays spec = false) Solvent := by
  refine ⟨?_, ?_, ?_, ?_, ?_⟩
  · intro e e' c ref hI h hy
    obtain ⟨-, sig, provision, receptions, hcr⟩ := hI.valid.1.1.creating h hy
    refine ⟨keeps_waits.created hI.valid h hy, ?_,
      hcr.solvent hI.solvent hI.valid.1.1.sound hI.lawful⟩
    rw [hcr.commits.decls]
    exact hI.lawful
  · intro e e' hI h
    refine ⟨keeps_waits.redefines hI.valid h, ?_, hI.solvent.leaves hI.valid.2 h.leaves ?_⟩
    · unfold Registry.Lawful
      rw [h.sigs_eq]
      exact hI.lawful
    · rw [h.sigs_eq]
      exact id
  · intro e e' hI h
    exact ⟨keeps_waits.declares hI.valid h, h.lawful hI.lawful,
      hI.solvent.leaves hI.valid.2 h.leaves (hI.valid.1.1.declares h).2.sigs⟩
  · intro e e' l rev hI h hi hy
    obtain ⟨-, -, hdecls⟩ := hI.valid.1.1.addLiability h hi hy
    refine ⟨keeps_waits.addLiability hI.valid h hi hy, ?_,
      hI.solvent.leaves hI.valid.2 (Store.leaves_of_addLiability h) ?_⟩
    · rw [hdecls]
      exact hI.lawful
    · rw [hdecls]
      exact id
  · intro e e' spec next m hI hok h hc hi hy
    have hv := hI.valid.1.1
    obtain ⟨hch, hpr, -⟩ := e.fresh_lt
    obtain ⟨hsides, ph, ep, hsome⟩ := strays_eq_false_iff.1 hok next m e'.store h hc
    obtain ⟨pl, hst⟩ := hv.steps h hc hy
    refine ⟨keeps_waits.step hI.valid trivial h hc hi hy, ?_,
      hst.solvent hI.solvent hv.sound hI.valid.2 hI.lawful (hv.new hch).unused (hv.new hpr).home
        hsides hsome⟩
    rw [hst.commits.decls]
    exact hI.lawful

/-- **A process owes one channel.** All along a run from the empty store, every process has nothing
left or has exactly one channel of the pool that it lives in, under the placeholder that its
signature provides, if and only if no step strays: none that goes through turns a channel that a
process keeps from one that it holds into one that it owes or the other way round, and none is taken
for a process that has nothing left. -/
theorem owesOnce_iff (settings : Settings) (ids : Supply) (calls : List Call)
    (hy : ((start settings ids).final calls).store.Young) :
    (∀ e ∈ (start settings ids).moments calls, ∀ p, e.store.OwesOnce p) ↔
      ∀ a ∈ (start settings ids).attempts calls, a.1.strays a.2 = false := by
  have hwaits : ((start settings ids).Valid ∧
      ∃ g, (start settings ids).store.net.Agrees Endpoint.type g) ∧
        (start settings ids).store.net.Waits :=
    ⟨agrees_start settings ids _, nofun, nofun, nofun⟩
  constructor
  · intro hall a ha
    refine strays_eq_false_iff.2 fun next m s hd hc => ?_
    -- both the engine that the step is tried on and the one that it leaves are met along the run
    have hbefore : a.1 ∈ (start settings ids).moments calls :=
      List.mem_append_right _ (List.mem_map_of_mem ha)
    have hafter := resulting_mem_moments ha
    have hstore : (resulting (Request.step .none a.2 a.1)).store = s := by
      rw [Request.step_apply, hd]
      dsimp only
      rw [hc]
      rfl
    have hyoung := keeps_young.moments calls (e := start settings ids) nofun (fun _ _ => trivial) hy
      _ hafter
    rw [hstore] at hyoung
    obtain ⟨⟨hv, -⟩, -⟩ := keeps_waits.moments calls hwaits (fun _ _ => trivial) hy _ hbefore
    obtain ⟨hch, hpr, -⟩ := a.1.fresh_lt
    obtain ⟨pl, hst⟩ := Store.exists_steps hv.sound hv.bounded hd hc hyoung (hv.new hch).unused
      (hv.new hpr).home
    exact hst.keepsSides hv.sound (hv.new hpr).home (Store.owes_of_owesOnce (hall _ hbefore))
      (Store.owes_of_owesOnce (hstore ▸ hall _ hafter))
  · intro hok e he p
    have hstart : (start settings ids).Solvent := ⟨hwaits, nofun, ⟨nofun, nofun⟩, nofun⟩
    exact Store.owesOnce_of_owes (keeps_solvent.moments calls hstart hok hy e he).solvent.live p

/-- A relay of another pool stands between a process and one that waits for it, and forwards. Ids
are numbered as the supply hands them out. -/
def rejoined : List Call :=
  [.createType Small.unit .one, .createType Small.menu (.plus [("l", .link Small.unit)]),
    .createSig ⟨Small.closer, ⟨"x", Small.menu⟩, []⟩,
    .createSig ⟨Small.relay, ⟨"x", Small.menu⟩, [⟨"y", Small.menu⟩]⟩,
    .createSig ⟨Small.waiter, ⟨"self", Small.unit⟩, [⟨"y", Small.menu⟩]⟩,
    .createPool none none, .createPool none none,
    .create ⟨.nth 8, .nth 5, ∅⟩, .create ⟨.nth 9, .nth 6, .ofList [("y", .nth 10)]⟩,
    .create ⟨.nth 8, .nth 7, .ofList [("y", .nth 13)]⟩,
    .step ⟨.nth 9, .nth 14, .fwd "x" "y"⟩, .step ⟨.nth 8, .nth 11, .lab "x" "l"⟩,
    .step ⟨.nth 8, .nth 17, .case "y" [("l", .wait "y" (.close "self"))]⟩]

/-- A process that has closed its only channel calls another one. -/
def revived : List Call :=
  [.createType Small.unit .one, .createType Small.menu (.with [("l", .link Small.unit)]),
    .createSig ⟨Small.closer, ⟨"x", Small.unit⟩, []⟩,
    .createSig ⟨Small.waiter, ⟨"x", Small.menu⟩, []⟩,
    .createPool none none, .create ⟨.nth 7, .nth 5, ∅⟩,
    .step ⟨.nth 7, .nth 9, .close "x"⟩,
    .step ⟨.nth 7, .nth 9, .call "y" (.nth 6) [] (.lab "y" "l")⟩]

/-- Up to their last steps both runs keep to what each process owes. Then a process is left to hold
a channel of its own pool, or it holds one and owes nothing. -/
theorem owesOnce_iff_rejoined :
    ((∀ e ∈ (start {} ⟨0⟩).moments rejoined.dropLast, ∀ p, e.store.OwesOnce p) ∧
        ¬ ∀ e ∈ (start {} ⟨0⟩).moments rejoined, ∀ p, e.store.OwesOnce p) ∧
      (∀ e ∈ (start {} ⟨0⟩).moments revived.dropLast, ∀ p, e.store.OwesOnce p) ∧
        ¬ ∀ e ∈ (start {} ⟨0⟩).moments revived, ∀ p, e.store.OwesOnce p := by
  have hyoung : ∀ calls ∈ [rejoined, revived],
      (∀ pool ∈ ((start {} ⟨0⟩).final calls.dropLast).store.pools.values,
        pool.rev.value < 2 ^ 63) ∧
      ∀ pool ∈ ((start {} ⟨0⟩).final calls).store.pools.values, pool.rev.value < 2 ^ 63 := by
    decide +kernel
  have hstrays : ∀ calls ∈ [rejoined, revived],
      (∀ a ∈ (start {} ⟨0⟩).attempts calls.dropLast, a.1.strays a.2 = false) ∧
      ∃ a ∈ (start {} ⟨0⟩).attempts calls, a.1.strays a.2 = true := by
    decide +kernel
  have hlast : ∀ calls ∈ [rejoined, revived],
      (∀ e ∈ (start {} ⟨0⟩).moments calls.dropLast, ∀ p, e.store.OwesOnce p) ∧
        ¬ ∀ e ∈ (start {} ⟨0⟩).moments calls, ∀ p, e.store.OwesOnce p := by
    intro calls hcalls
    obtain ⟨hbefore, hafter⟩ := hyoung calls hcalls
    obtain ⟨hkept, a, ha, hstray⟩ := hstrays calls hcalls
    refine ⟨(owesOnce_iff {} ⟨0⟩ _ (Store.young_of_values hbefore)).2 hkept, fun hall => ?_⟩
    have hfalse := (owesOnce_iff {} ⟨0⟩ _ (Store.young_of_values hafter)).1 hall a ha
    rw [hstray] at hfalse
    cases hfalse
  exact ⟨hlast _ List.mem_cons_self, hlast _ (List.mem_cons_of_mem _ List.mem_cons_self)⟩

end Engine

end Rendezvous
