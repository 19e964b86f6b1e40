import Rendezvous.Proofs.Kept
import Rendezvous.Proofs.Preservation
import Rendezvous.Proofs.Sessions
import Rendezvous.Proofs.Shortcuts
import Rendezvous.Proofs.Sufficient

/-!
# Late commits

A step that was derived can be committed later, after what others have done. A commit only looks at
the revisions of the pools that the step locks, and at whether there is a half where it takes one.
`Engine.late_commit` says when this is enough: the same step can then be derived once more right
before the commit, leads to the same next step, and comes to the same.

It is, as long as

- no type has been redefined, so that the step is accepted again (`exists_load_again`);
- nobody shares a channel where something is pending, so that what the step has found is left alone
  (`Store.Kept`);
- and none of the process's channels has come home, since that is written into its bindings without
  moving its pool on.

What is derived once more is the same change, except for a forward. Others may have forwarded the
channel that it leads to, and then it leads to where they do at once (`Redone`).
-/

namespace Rendezvous

open Relation (ReflTransGen)

/-! ## Declarations -/

theorem Env.Within.grows {env : Env} {r r' : Registry} (h : env.Within r) (hg : r.Grows r') :
    env.Within r' := by
  refine ⟨fun hn => hg.nodes (h.types hn), fun hname => ?_, fun hs => hg.sigs (h.sigs hs)⟩
  obtain ⟨decl, hdecl, hroot⟩ := h.names hname
  exact ⟨decl, hg.names hdecl, hroot⟩

/-- What was loaded for a step can be loaded again after more was declared. The step is checked as
before with it, and changes the same. -/
theorem Registry.exists_load_again {r r' : Registry} (hg : r.Grows r') {cfg cfg' : Configuration}
    {term : Term} {env : Env} (hchannels : cfg'.channels = cfg.channels)
    (h : r.load cfg term = .ok env) :
    ∃ env', r'.load cfg' term = .ok env' ∧
      (∀ pool, checkStep pool env' cfg' term = checkStep pool env cfg term) ∧
      ∀ fresh, transition env' cfg' fresh term = transition env cfg' fresh term := by
  obtain ⟨hclosed, htypes, hsigs⟩ := closed_of_load h
  rw [← hchannels] at htypes
  have hwithin := (within_load h).grows hg
  obtain ⟨env', henv'⟩ := exists_load (supplies_of_closed hclosed hwithin) htypes hsigs
  obtain ⟨hclosed', htypes', hsigs'⟩ := closed_of_load henv'
  -- both are parts of all that is declared now
  have hpart := Env.partOf_whole hclosed hwithin
  have hpart' := Env.partOf_whole hclosed' (within_load henv')
  refine ⟨env', henv', fun pool => ?_, fun fresh => ?_⟩
  · rw [(hpart'.checkStep_eq htypes' hsigs' pool).1, ← (hpart.checkStep_eq htypes hsigs pool).1,
      checkStep, checkStep, hchannels]
  · rw [(hpart'.transition_eq htypes' hsigs' fresh).1, (hpart.transition_eq htypes hsigs fresh).1]

namespace Engine

variable {e e' : Engine}

theorem Valid.grows_events (hv : e.Valid) (h : ReflTransGen Event e e') (hy : e'.store.Young) :
    e.store.decls.Grows e'.store.decls := by
  induction h with
  | refl => exact .refl _
  | tail hevents hevent ih =>
    have hy' := hy.of_ages hevent.ages
    refine (ih hy').trans ?_
    cases hevent with
    | declares h => exact ((hv.events hevents hy').declares h).2
    | addLiability h =>
      obtain ⟨pool, -, hs⟩ := Store.get?_pools_addLiability h
      rw [hs]
      exact .refl _
    | step _ hc =>
      rw [Store.decls_commit hc]
      exact .refl _

/-- Declarations stay what they are as long as no type is redefined. -/
theorem Valid.grows_final (hv : e.Valid) {calls : List Call}
    (hcalls : ∀ call ∈ calls, call.redefines = false) (hy : (e.final calls).store.Young) :
    e.store.decls.Grows (e.final calls).store.decls := by
  induction calls generalizing e with
  | nil => exact .refl _
  | cons call rest ih =>
    obtain ⟨hcall, hrest⟩ := List.forall_mem_cons.1 hcalls
    have hy' : (call.after e).store.Young := Store.Young.of_ages hy (ages_final rest _)
    refine .trans ?_ (ih (hv.after call hy') hrest hy)
    rcases after_cases call e with ⟨c, ref, -, h⟩ | ⟨hredefines, -⟩ | ⟨-, h⟩
    · obtain ⟨m, -, hc⟩ := (created_of_createProcess h).committed
      rw [Store.decls_commit hc]
      exact .refl _
    · exact absurd hredefines (by simp [hcall])
    · exact hv.grows_events h hy'

end Engine

namespace Store

variable {s₀ s s' t : Store} {p : Id} {fresh : Fresh} {spec : StepSpec} {next : Option StepSpec}
  {m : Change} {cfg read : Configuration} {env : Env} {pl pl' : Plan} {term : Term}

/-! ## Reading again -/

/-- The pool that a spawn aims at is there and known. -/
theorem exists_of_aim (hk : s.Keyed) {via : Sym} {sig : Id} {values : List Sym} {pool : Id}
    {cont : Term} (h : s.aim read (.spawn via sig values pool cont) = .ok cfg) :
    (∃ target, s.pools.get? pool = some target) ∧ ∃ rev, cfg.revOf? pool = some rev := by
  simp only [aim] at h
  cases hp : s.pools.get? pool with
  | none =>
    rw [hp] at h
    cases h
  | some target =>
    rw [hp] at h
    cases h
    refine ⟨⟨target, rfl⟩, ?_⟩
    unfold Configuration.revOf?
    rw [hk.pools hp, Table.get?_insert_self]
    split
    · exact ⟨_, rfl⟩
    · exact ⟨_, rfl⟩

/-- A configuration is aimed where the pool is, and nothing but what it knows of pools is new. -/
theorem exists_aim (h : ∀ via sig values pool cont, term = .spawn via sig values pool cont →
    ∃ target, s.pools.get? pool = some target) (read : Configuration) :
    ∃ peers, s.aim read term = .ok { read with peers } := by
  unfold aim
  split
  · next via sig values pool cont =>
    obtain ⟨target, htarget⟩ := h _ _ _ _ _ rfl
    rw [htarget]
    exact ⟨_, rfl⟩
  · exact ⟨read.peers, rfl⟩

/-- Where what a process has seen is kept, at the same revision of its pool and with none of its
channels come home, it sees the same of itself. -/
theorem Kept.exists_configuration (hk : s₀.Kept s p) (hs : s.Keyed) (hr : s₀.Reads p cfg)
    (hchannels : s.channelsOf p = cfg.channels)
    (hrev : ∃ pool, s.pools.get? cfg.pool = some pool ∧ pool.rev = cfg.rev)
    (haim : ∀ via sig values pool cont, term = .spawn via sig values pool cont →
      ∃ target, s.pools.get? pool = some target) :
    ∃ read halves peers, s.configuration p = .ok read ∧ read.pool = cfg.pool ∧
      read.waiting? = none ∧ s.aim read term = .ok { cfg with halves, peers } ∧
      s.Reads p { cfg with halves, peers } := by
  obtain ⟨pool, hpool, hrev⟩ := hrev
  have hhoused : s.Housed p cfg.pool := ⟨hk.home.trans hr.member, pool, hpool⟩
  obtain ⟨read, hread, hsame, hown⟩ := hhoused.exists_configuration
  have hreads := reads_configuration hs hread
  obtain ⟨pool', hpool', hrev'⟩ := hreads.rev
  rw [hsame, hpool, Option.some.injEq] at hpool'
  obtain ⟨peers, hpeers⟩ := exists_aim haim read
  have heq : ({ read with peers } : Configuration) = { cfg with halves := read.halves, peers } := by
    simp only [Configuration.mk.injEq, and_true]
    exact ⟨hreads.process.trans hr.process.symm, hsame, by rw [← hrev', ← hpool', hrev],
      hown.trans hchannels⟩
  have haimed := hreads.aim hs hpeers
  rw [heq] at hpeers haimed
  exact ⟨read, read.halves, peers, hread, hsame, hreads.idle.2 fun z svc hz hp =>
    hk.idle (service_net_eq_some.2 hz) hp, hpeers, haimed⟩

/-! ## Moving again -/

/-- A process hands a channel over whose provider has not acted: the plan of `Moves.relay`. -/
def relaying (cfg : Configuration) (via target : Sym) (x y : Endpoint) (passed : List Id) (z : Id) :
    Plan :=
  ⟨none, Drafting.handedOver cfg via target x y,
    passed.map .take ++ [.put (.forward ⟨y.channel, cfg.pool, cfg.process, z⟩)], [], [], []⟩

/-- A plan, and what it is when it is made again in `s`: a forward goes on to where those lead that
have come there meanwhile. -/
inductive Redone (s : Store) (cfg : Configuration) : Plan → Plan → Prop
  | same {pl : Plan} : Redone s cfg pl pl
  | further {via target : Sym} {x y : Endpoint} {passed more : List Id} {z w : Id}
    (hx : s.live cfg.process via = some x) (hy : s.halves.get? y.channel = none)
    (hall : Leads s.halves.get? x.channel (passed ++ more) w)
    (hmore : Leads s.halves.get? z more w) :
    Redone s cfg (relaying cfg via target x y passed z)
      (relaying cfg via target x y (passed ++ more) w)

/-- Nothing but the operations on halves is different. -/
theorem Redone.eq_with (h : s.Redone cfg pl pl') : pl' = { pl with slots := pl'.slots } := by
  cases h <;> rfl

/-- A half that fits after some have been taken comes to where nothing is. -/
theorem empty_of_slotsFit {halves : Table Id Half} {cs : List Id} {half : Half}
    (h : SlotsFit halves (cs.map .take ++ [.put half])) (hnot : half.channel ∉ cs) :
    halves.get? half.channel = none := by
  obtain ⟨hempty, -⟩ := (slotsFit_append.1 h).2
  have hnone := (Table.contains_eq_false_iff _).1 hempty
  rw [SlotOp.channel, get?_foldl_applySlot, runSlots_of_ne] at hnone
  · exact hnone
  · rintro op hop heq
    obtain ⟨c, hc, rfl⟩ := List.mem_map.1 hop
    exact hnot (heq ▸ hc)

/-- A step that fits can be made again: what it landed on is still there, and where nothing was
there is nothing, or a forward that leads on. -/
theorem exists_redone (hr : s₀.Reads p cfg) (hk : s₀.Kept s p) (hu : s.Unshared)
    {halves : Table Id Half} {peers : Table Id Rev} (hr' : s.Reads p { cfg with halves, peers })
    (h : Moves env cfg fresh term pl) (hfit : SlotsFit s.halves pl.slots) :
    ∃ pl', Moves env { cfg with halves, peers } fresh term pl' ∧ s.Redone cfg pl pl' := by
  have hlive₀ : ∀ {ph : Sym} {e : Endpoint}, cfg.channels.get? ph = some e →
      s₀.live p ph = some e := fun {ph _} he => (hr.channels ph).symm.trans he
  have hlive : ∀ {ph : Sym} {e : Endpoint}, cfg.channels.get? ph = some e →
      s.live p ph = some e := fun {ph _} he => (hr'.channels ph).symm.trans he
  have hpath : ∀ {ph : Sym} {e : Endpoint} {l : Landing}, cfg.channels.get? ph = some e →
      cfg.landing? e.channel = some l →
      Leads s₀.halves.get? e.channel l.passed l.channel ∧
        ∀ x ∈ l.passed, s.halves.get? x = s₀.halves.get? x := by
    intro ph e l he hl
    obtain ⟨hleads, -⟩ := leads_of_landing hr he hl
    refine ⟨hleads, fun x hx => ?_⟩
    obtain ⟨f, hf⟩ := hleads.forward_of_mem hx
    rw [hf, hk.halves (hlive₀ he) (hleads.along_of_mem hx) hf]
  -- an action lands where it landed, if the same is there, or nothing
  have hland : ∀ {ph : Sym} {e : Endpoint} {l : Landing}, cfg.channels.get? ph = some e →
      cfg.landing? e.channel = some l → (l.half = none → s.halves.get? l.channel = none) →
      Configuration.landing? { cfg with halves, peers } e.channel = some l := by
    intro ph e l he hl hnone
    obtain ⟨hleads, hpending⟩ := leads_of_landing hr he hl
    have hz : s.halves.get? l.channel = s₀.halves.get? l.channel := by
      cases hthere : s₀.halves.get? l.channel with
      | none => exact hnone (hpending.trans hthere)
      | some half => exact hk.halves (hlive₀ he) hleads.along hthere
    refine (hr'.landing?_eq_some_iff (hlive he)).2 ⟨?_, hpending.trans hz.symm⟩
    exact hleads.congr (fun f hf => hleads.last f (hz ▸ hf)) (hpath he hl).2
  cases h with
  | @offer _ ep own half l j ho hl hj =>
    obtain ⟨hep, -⟩ := channel_of_offers ho
    refine ⟨_, .offer (ho.congr rfl rfl rfl rfl) (hland hep hl fun hnone => ?_) hj, .same⟩
    rw [hnone] at hj
    cases hj with
    | wait =>
      have hempty := empty_of_slotsFit hfit
      rw [Half.channel_movedTo] at hempty
      exact hempty (hpath hep hl).1.notMem
  | @relay via target x y l hx hy hl hnone =>
    obtain ⟨hleads, hsame⟩ := hpath hx hl
    have hynot : y.channel ∉ l.passed := by
      intro hmem
      obtain ⟨f, hf⟩ := hleads.forward_of_mem hmem
      cases ((hr.get?_halves (hlive₀ hy)).symm.trans hnone).symm.trans hf
    have hyempty : s.halves.get? y.channel = none := empty_of_slotsFit hfit hynot
    obtain ⟨all, w, hall⟩ := hu.exists_leads (hlive hx) (free_of_idle hk.idle via)
    obtain ⟨more, rfl, hmore⟩ := (hleads.append_iff hsame).1 hall
    have hlive' : s.live cfg.process via = some x := by
      rw [hr.process]
      exact hlive hx
    have hland' : Configuration.landing? { cfg with halves, peers } x.channel =
        some ⟨l.passed ++ more, w, s.halves.get? w⟩ :=
      (hr'.landing?_eq_some_iff (hlive hx)).2 ⟨hall, rfl⟩
    refine ⟨_, .relay hx hy hland' ((hr'.get?_halves (hlive hy)).trans hyempty), ?_⟩
    exact .further hlive' hyempty hall hmore
  | @redirect via target x y l left id node j hx hy hl hleft hnode hown hj =>
    have hthere : s₀.halves.get? y.channel = some left := hr.sub hleft
    have hstill : s.halves.get? y.channel = some left := hk.halves (hlive₀ hy) .here hthere
    refine ⟨_, .redirect hx hy (hland hx hl fun hnone => ?_)
      ((hr'.get?_halves (hlive hy)).trans hstill) hnode hown hj, .same⟩
    obtain ⟨hleads, hpending⟩ := leads_of_landing hr hx hl
    have hne := Joins.channel_ne (hpending ▸ hj) hthere
    rw [hnone] at hj
    cases hj with
    | wait =>
      have hfit' : SlotsFit s.halves
          ((l.passed ++ [y.channel]).map .take ++ [.put (left.movedTo l.channel)]) := by
        rw [List.map_append, List.append_assoc]
        exact hfit
      have hempty := empty_of_slotsFit hfit'
      rw [Half.channel_movedTo] at hempty
      refine hempty fun hmem => ?_
      rcases List.mem_append.1 hmem with hmem | hmem
      · exact hleads.notMem hmem
      · exact hne (List.mem_singleton.1 hmem)
  | call hi => exact ⟨_, .call { hi with elsewhere := hi.elsewhere, given := hi.given }, .same⟩
  | spawn hi => exact ⟨_, .spawn { hi with elsewhere := hi.elsewhere, given := hi.given }, .same⟩

/-! ## Deriving again -/

/-- The pools that a step is locked on are known at the revisions that they were read at. -/
theorem revOf?_of_locked (hd : pl.Drafts cfg m) (hl : s.Locked m.locks) {cfg' : Configuration}
    (hr : s.Reads p cfg') {k : Mark} (hk : k ∈ pl.marks)
    (hknown : (∃ pool ∈ pl.pools, pool.id = k.pool) ∨ ∃ rev, cfg'.revOf? k.pool = some rev) :
    (∃ pool ∈ pl.pools, pool.id = k.pool) ∨ cfg'.revOf? k.pool = cfg.revOf? k.pool := by
  obtain ⟨rev, hstamp⟩ := hd.stamps k hk
  unfold Change.stamp? at hstamp
  cases hf : m.locks.find? (·.pool = k.pool) with
  | none =>
    rw [hf] at hstamp
    obtain ⟨pool, hpool, -⟩ := Option.map_eq_some_iff.1 hstamp
    exact .inl ⟨pool, hd.pools ▸ List.mem_of_find?_eq_some hpool,
      by simpa using List.find?_some hpool⟩
  | some lock =>
    refine hknown.imp_right ?_
    rintro ⟨now, hnow⟩
    have hmem := List.mem_of_find?_eq_some hf
    have hpool : lock.pool = k.pool := by simpa using List.find?_some hf
    obtain ⟨pool, hthere, hrev⟩ := hl lock hmem
    obtain ⟨pool', hthere', hrev'⟩ := hr.revOf hnow
    rw [hpool] at hthere
    cases hthere.symm.trans hthere'
    rw [hnow, ← hpool, hd.locks lock hmem, ← hrev, hrev']

/-- A step whose locks hold, and that fits, can be derived again where what it has seen is kept. -/
theorem Kept.exists_deriveStep (hk : s₀.Kept s spec.process) (hs₀ : s₀.Keyed) (hs : s.Sound)
    (hu : s.Unshared) (hg : s₀.decls.Grows s.decls) (ha : s₀.Ages s)
    (hown : s.channelsOf spec.process = s₀.channelsOf spec.process)
    (hd : s₀.deriveStep fresh spec = .ok (next, m)) (hl : s.Locked m.locks)
    (hfit : SlotsFit s.halves m.slots) :
    ∃ cfg halves peers env pl pl', pl.slots = m.slots ∧ s.Redone cfg pl pl' ∧
      s.deriveStep fresh spec = .ok (next, { m with slots := pl'.slots }) ∧
      s.Derives fresh spec { cfg with halves, peers } env pl' ∧
      pl'.Fills { m with slots := pl'.slots } := by
  obtain ⟨read, cfg, env, ctx, hread, hpool, -, haim, hload, hcheck, htrans⟩ :=
    deriveStep_eq_ok_iff.1 hd
  obtain ⟨pl, hmoves, hnext, hdraft⟩ := transition_eq_ok_iff.1 htrans
  have hr := (reads_configuration hs₀ hread).aim hs₀ haim
  have hchannels : cfg.channels = s₀.channelsOf spec.process :=
    (channels_aim haim).trans (channels_configuration hread)
  have hhome : cfg.pool = spec.pool := (pool_aim haim).1.trans hpool
  have hdrafts := Plan.drafts_of_draft? hdraft
  have htarget : ∀ via sig values pool cont, spec.term = .spawn via sig values pool cont →
      ∃ target, s.pools.get? pool = some target := by
    intro via sig values pool cont hterm
    rw [hterm] at haim
    obtain ⟨⟨target, htarget⟩, -⟩ := exists_of_aim hs₀ haim
    obtain ⟨target', htarget', -⟩ := ha htarget
    exact ⟨target', htarget'⟩
  obtain ⟨read', halves, peers, hread', hpool', hwait', haim', hr'⟩ :=
    hk.exists_configuration hs.toKeyed hr (hown.trans hchannels.symm) (hl _ hdrafts.own) htarget
  obtain ⟨pl', hmoves', hredone⟩ := exists_redone hr hk hu hr' hmoves (hdrafts.slots ▸ hfit)
  have heq := hredone.eq_with
  have hmarks : pl'.marks = pl.marks := by rw [heq]
  have hpools : pl'.pools = pl.pools := by rw [heq]
  have hnext' : pl'.next = next := by rw [heq, ← hnext]
  have hknown := known_of_moves hs hr'
    (fun _ _ _ _ _ hterm => (exists_of_aim hs.toKeyed (hterm ▸ haim')).2) hmoves'
  rw [hmarks, hpools] at hknown
  have hdraft' : pl'.draft? { cfg with halves, peers } = some { m with slots := pl'.slots } := by
    rw [heq]
    refine Plan.draft?_with ?_ ?_ (fun k hmem => ?_) hdraft pl'.slots
    · rfl
    · rfl
    · exact revOf?_of_locked hdrafts hl hr' hmem (hknown k hmem)
  obtain ⟨env', hload', hchecks, htransitions⟩ :=
    Registry.exists_load_again hg (show ({ cfg with halves, peers } : Configuration).channels =
      cfg.channels from rfl) hload
  refine ⟨cfg, halves, peers, env, pl, pl', hdrafts.slots.symm, hredone, ?_, ?_,
    (Plan.drafts_of_draft? hdraft').toFills⟩
  · refine deriveStep_eq_ok_iff.2 ⟨read', _, env', ctx, hread', hpool'.trans hhome, hwait', haim',
      hload', (hchecks _).trans hcheck, ?_⟩
    rw [htransitions]
    exact transition_eq_ok_iff.2 ⟨pl', hmoves', hnext', hdraft'⟩
  · refine ⟨hr', hhome, (pool_aim haim').2.trans hwait', (Registry.within_load hload).grows hg,
      ⟨ctx, ?_⟩, hmoves'⟩
    rw [← hcheck, ← hhome]
    rfl

/-! ## Landing as before -/

/-- What was handed over is not held. -/
theorem after_handedOver (v : Live) {via target : Sym} {x y : Endpoint} :
    v.after (Drafting.handedOver cfg via target x y) cfg.process via = none := by
  rw [Drafting.handedOver, Live.after_cons, Live.after_cons, Live.after_nil, Live.marked, Live.set]
  split
  · rfl
  · exact Live.set_self ..

/-- A step that was made again lands everything where it lands without. -/
theorem landsAs_of_redone (hs : s.Sound) (hu : s.Unshared) (hidle : s.net.Idle cfg.process)
    (hredone : s.Redone cfg pl pl') (hslots : pl.slots = m.slots) {cfg' : Configuration}
    (hd : s.Derives fresh spec cfg' env pl') (hfills : pl'.Fills { m with slots := pl'.slots })
    {new : Id} (hnew : s.poolOf? new = none) (hc : s.commit m = .ok s')
    (hc' : s.commit { m with slots := pl'.slots } = .ok t) (hb : t.Bounded) : t.LandsAs s' := by
  cases hredone with
  | same =>
    rw [hslots] at hc'
    cases hc.symm.trans hc'
    exact .refl s'
  | @further via target x y passed more z w hx hy hall hmore =>
    have hhomes := homes_of_derives hs hd
    have hcommits := commits_of_homes hs ⟨hhomes.marks, hhomes.puts, .inl rfl⟩ hnew hfills
      (Nat.zero_le 1) hc' hb
    obtain ⟨-, -, -, rfl⟩ := commit_eq_ok_iff.1 hc
    obtain ⟨-, -, -, rfl⟩ := commit_eq_ok_iff.1 hc'
    obtain ⟨hshort, hfree⟩ := hu.shortcut hx (free_of_idle hidle via) hy hall hmore
      ⟨y.channel, cfg.pool, cfg.process, z⟩ ⟨y.channel, cfg.pool, cfg.process, w⟩ rfl rfl rfl rfl
    have hhalves : (s.apply m).halves.get? = runSlots (passed.map .take ++
        [.put (.forward ⟨y.channel, cfg.pool, cfg.process, z⟩)]) s.halves.get? := by
      rw [halves_apply, get?_foldl_applySlot, ← hslots]
      rfl
    have hhalves' : (s.apply { m with
        slots := (relaying cfg via target x y (passed ++ more) w).slots }).halves.get? =
        runSlots ((passed ++ more).map .take ++
          [.put (.forward ⟨y.channel, cfg.pool, cfg.process, w⟩)]) s.halves.get? :=
      get?_foldl_applySlot ..
    rw [← hhalves, ← hhalves'] at hshort
    refine landsAs_of_shortcut rfl hshort fun {q ph e} hlive hqfree hmem => ?_
    have hlive' : s.live.after (Drafting.handedOver cfg via target x y) q ph = some e := by
      rw [← hlive]
      exact (congrFun (congrFun hcommits.live q) ph).symm
    have hold : s.Free q ph := by
      intro z' svc hz'
      refine hqfree (w := z') ?_
      rw [hhalves, runSlots_put, if_neg, if_neg, hz']
      · intro hpassed
        obtain ⟨f, hf⟩ := hall.forward_of_mem (List.mem_append_left _ hpassed)
        cases hz'.symm.trans hf
      · rintro rfl
        cases hz'.symm.trans hy
    obtain ⟨rfl, rfl⟩ := hfree (live_of_handedOver hlive') hold hmem
    cases (after_handedOver s.live).symm.trans hlive'

/-- Where what a process has seen is kept, a change that was derived from it and goes through is
like one that is derived right then. -/
theorem Kept.exists_commit (hk : s₀.Kept s spec.process) (hs₀ : s₀.Keyed) (hs : s.Sound)
    (hb : s.Bounded) (hu : s.Unshared) (hg : s₀.decls.Grows s.decls) (ha : s₀.Ages s)
    (hown : s.channelsOf spec.process = s₀.channelsOf spec.process) {new : Id}
    (hnew : s.poolOf? new = none) (hd : s₀.deriveStep fresh spec = .ok (next, m))
    (hc : s.commit m = .ok s') (hy : s'.Young) :
    ∃ m' t, s.deriveStep fresh spec = .ok (next, m') ∧ s.commit m' = .ok t ∧ t.LandsAs s' := by
  obtain ⟨hlocks, hpools, hfit, rfl⟩ := commit_eq_ok_iff.1 hc
  obtain ⟨cfg, halves, peers, env, pl, pl', hslots, hredone, hd', hderives, hfills⟩ :=
    hk.exists_deriveStep hs₀ hs hu hg ha hown hd hlocks hfit
  have hc' : s.commit { m with slots := pl'.slots } = .ok (s.apply { m with slots := pl'.slots }) :=
    commit_eq_ok_iff.2 ⟨hlocks, hpools, slotsFit_of_moves hderives.reads hderives.moves, rfl⟩
  refine ⟨_, _, hd', hc', ?_⟩
  obtain ⟨hone, hinitial⟩ := pools_of_moves hderives.moves
  refine landsAs_of_redone hs hu ?_ hredone hslots hderives hfills hnew hc hc'
    (bounded_of_fills hb hfills hone hinitial hc' ?_)
  · have hprocess : cfg.process = spec.process := hderives.reads.process
    rw [hprocess]
    exact fun {_ _} h => hk.idle h
  · -- the pools are the same
    intro q pool hpool
    rw [pools_apply] at hpool
    exact hy q pool (by rw [pools_apply]; exact hpool)

end Store

namespace Engine

variable {e e' : Engine}

theorem Valid.final (hv : e.Valid) (calls : List Call) (hy : (e.final calls).store.Young) :
    (e.final calls).Valid := by
  induction calls generalizing e with
  | nil => exact hv
  | cons call rest ih =>
    have hy' : (call.after e).store.Young := Store.Young.of_ages hy (ages_final rest _)
    exact ih (hv.after call hy') hy

theorem derive_eq_ok {spec : StepSpec} {next : Option StepSpec} {m : Change}
    (h : Request.derive spec e = .ok (next, m) e') :
    e.store.deriveStep e.ids.fresh spec = .ok (next, m) ∧ e'.store = e.store ∧
      e.ids.next ≤ e'.ids.next := by
  rcases Request.derive_outcome spec e with ⟨err, hfail⟩ | ⟨r, hderive, hsame⟩
  · cases hfail.symm.trans h
  · cases hsame.symm.trans h
    obtain ⟨hle, -, -, hlt, -⟩ := e.fresh_lt
    exact ⟨hderive, rfl, Nat.le_trans hle (Nat.le_of_lt hlt)⟩

theorem commit_eq_ok {m : Change} (h : Request.commit m e = .ok () e') :
    e.store.commit m = .ok e'.store := by
  rw [Request.commit_apply] at h
  cases hc : e.store.commit m with
  | error err =>
    rw [hc] at h
    cases h
  | ok t =>
    rw [hc] at h
    cases h
    rfl

/-- A change that was derived and goes through after more calls is like one that is derived after
them. -/
theorem Valid.exists_commit (hv : e.Valid) {fresh : Fresh} {spec : StepSpec}
    {next : Option StepSpec} {m : Change} {calls : List Call} {s : Store}
    (hd : e.store.deriveStep fresh spec = .ok (next, m))
    (hcalls : ∀ call ∈ calls, call.redefines = false)
    (hu : ∀ a ∈ e.moments calls, a.store.Unshared)
    (hown : (e.final calls).store.channelsOf spec.process = e.store.channelsOf spec.process)
    (hc : (e.final calls).store.commit m = .ok s) (hy : s.Young) :
    ∃ m' t, (e.final calls).store.deriveStep fresh spec = .ok (next, m') ∧
      (e.final calls).store.commit m' = .ok t ∧ t.LandsAs s := by
  have hyoung : (e.final calls).store.Young := hy.of_ages (Store.ages_of_commit hc)
  obtain ⟨cfg, env, pl, hderives, -, hdraft⟩ := Store.exists_derives hv.sound.toKeyed hd
  obtain ⟨pool, hpool, hrev⟩ := hderives.reads.rev
  have hguards : Guards e.store spec.process cfg.pool cfg.rev e.store :=
    ⟨pool, hpool, Nat.le_of_eq (by rw [hrev]),
      fun _ => .refl (Store.idle_of_waiting hderives.reads hderives.idle)⟩
  have hend : e.final calls ∈ e.moments calls := List.mem_append_left _ (mem_states_final e calls)
  obtain ⟨hvalid, now, hnow, -, hkept⟩ := (keeps_kept hderives.reads.member).moments calls
    ⟨hv, hguards⟩ (fun a ha => hu _ (List.mem_append_right _ (List.mem_map_of_mem ha))) hyoung _
    hend
  -- the commit finds the pool where it was
  obtain ⟨found, hfound, hsame⟩ :=
    (Store.commit_eq_ok_iff.1 hc).1 _ (Plan.drafts_of_draft? hdraft).own
  cases hnow.symm.trans hfound
  exact (hkept hsame).exists_commit hv.sound.toKeyed hvalid.sound hvalid.bounded (hu _ hend)
    (hv.grows_final hcalls hyoung) (ages_final calls e) hown (hvalid.new (fresh_lt _).2.1).home hd
    hc hy

/-- A step that is committed after what others have done comes to what it would come to if it were
derived right then, under the conditions above. -/
theorem late_commit {settings : Settings} {ids : Supply} {before after : List Call}
    {spec : StepSpec} {next : Option StepSpec} {m : Change}
    (hd : Request.derive spec ((start settings ids).final before) = .ok (next, m) e)
    (hcalls : ∀ call ∈ after, call.redefines = false)
    (hu : ∀ a ∈ e.moments after, a.store.Unshared)
    (hown : (e.final after).store.channelsOf spec.process = e.store.channelsOf spec.process)
    (hc : Request.commit m (e.final after) = .ok () e') (hy : e'.store.Young) :
    ∃ m' t, (e.final after).store.deriveStep ((start settings ids).final before).ids.fresh spec =
        .ok (next, m') ∧
      (e.final after).store.commit m' = .ok t ∧ t.LandsAs e'.store := by
  have hc' := commit_eq_ok hc
  obtain ⟨hderive, hsame, hle⟩ := derive_eq_ok hd
  have hyoung : e.store.Young :=
    (hy.of_ages (Store.ages_of_commit hc')).of_ages (ages_final after e)
  have hv := (wellTyped_start settings ids).toValid.final before (hsame ▸ hyoung)
  rw [← hsame] at hderive
  exact (hv.declares (.nothing hsame hle)).1.exists_commit hderive hcalls hu hown hc' hy

/-- A server, two relays of it, and a waiter at the end. -/
def queue : List Call :=
  [.createType Small.unit .one,
    .createSig ⟨Small.closer, ⟨"x", Small.unit⟩, []⟩,
    .createSig ⟨Small.relay, ⟨"x", Small.unit⟩, [⟨"y", Small.unit⟩]⟩,
    .createSig ⟨Small.waiter, ⟨"self", Small.unit⟩, [⟨"y", Small.unit⟩]⟩,
    .createPool none none, .createPool none none, .createPool none none, .createPool none none,
    .create ⟨.nth 5, .nth 2, ∅⟩, .create ⟨.nth 6, .nth 3, .ofList [("y", .nth 9)]⟩,
    .create ⟨.nth 7, .nth 3, .ofList [("y", .nth 12)]⟩,
    .create ⟨.nth 8, .nth 4, .ofList [("y", .nth 15)]⟩]

/-- The relay next to the server forwards. -/
def nearRelay : StepSpec := ⟨.nth 6, .nth 13, .fwd "x" "y"⟩

/-- The relay next to the waiter forwards. -/
def farRelay : StepSpec := ⟨.nth 7, .nth 16, .fwd "x" "y"⟩

/-- What the relay next to the server derives when nobody has stepped yet. -/
def nearDerived : EStateM.Result Error Engine (Option StepSpec × Change) :=
  Request.derive nearRelay ((start {} ⟨0⟩).final queue)

/-- The relay next to the server commits after the other one has forwarded. Derived right then, its
step takes that forward as well, and all bindings land as they do now. -/
theorem late_commit_relays :
    ∃ next m e e', nearDerived = .ok (next, m) e ∧ m.slots.length = 1 ∧
      Request.commit m (e.final [.step farRelay]) = .ok () e' ∧
      ∃ m' t, (e.final [.step farRelay]).store.deriveStep
          ((start {} ⟨0⟩).final queue).ids.fresh nearRelay = .ok (next, m') ∧
        m'.slots.length = 2 ∧ (e.final [.step farRelay]).store.commit m' = .ok t ∧
        t.LandsAs e'.store := by
  have hderived : (returned? nearDerived).isSome := by decide +kernel
  have hu : ∀ a ∈ (resulting nearDerived).moments [.step farRelay], a.store.Unshared := by
    decide +kernel
  have hown : ((resulting nearDerived).final [.step farRelay]).store.channelsOf nearRelay.process =
      (resulting nearDerived).store.channelsOf nearRelay.process := by
    decide +kernel
  have hlate : ∀ r ∈ returned? nearDerived, r.2.slots.length = 1 ∧
      let r' := Request.commit r.2 ((resulting nearDerived).final [.step farRelay])
      (returned? r').isSome ∧ ∀ pool ∈ (resulting r').store.pools.values,
        pool.rev.value < 2 ^ 63 := by
    decide +kernel
  have hagain : ∀ r ∈ (((resulting nearDerived).final [.step farRelay]).store.deriveStep
      ((start {} ⟨0⟩).final queue).ids.fresh nearRelay).toOption, r.2.slots.length = 2 := by
    decide +kernel
  generalize hd : nearDerived = derived at *
  cases derived with
  | error => cases hderived
  | ok r e =>
    obtain ⟨next, m⟩ := r
    obtain ⟨hone, hcommits, hyoung⟩ := hlate (next, m) rfl
    obtain ⟨⟨⟩, hc⟩ := exists_of_returned? hcommits
    obtain ⟨m', t, hd', hc', hlands⟩ :=
      late_commit hd (by decide) hu hown hc (Store.young_of_values hyoung)
    exact ⟨next, m, e, _, rfl, hone, hc, m', t, hd',
      hagain (next, m') (by rw [resulting_ok, hd']; rfl), hc', hlands⟩

end Engine

end Rendezvous
