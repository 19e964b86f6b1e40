import Rendezvous.Proofs.Progress
import Rendezvous.Proofs.Runs

/-!
# Accepted terms

A term that is accepted stays so while its process sees the same of itself (`Admits.keeps`), and it
is taken as soon as there is a move for it (`Admits.exists_take`). Nothing is asked of the rest of
the store, so this also holds where a store has not come about by requests.
-/

namespace Rendezvous

namespace Store

variable {s s' : Store} {spec : StepSpec} {cfg : Configuration} {env : Env} {p : Id} {fresh : Fresh}
  {pl : Plan} {m : Change}

/-! ## Accepted terms -/

/-- A term is accepted, with the configuration and the declarations that are loaded for it. -/
structure Admits (s : Store) (spec : StepSpec) (cfg : Configuration) (env : Env) : Prop where
  configuration : s.configuration spec.process = .ok cfg
  pool : cfg.pool = spec.pool
  idle : cfg.waiting? = none
  load : s.decls.load cfg spec.term = .ok env
  checked : ∃ ctx, checkStep spec.pool env cfg spec.term = .ok ctx

/-- A term is accepted from a process that is not suspended. -/
def Accepts (s : Store) (spec : StepSpec) : Prop := ∃ cfg env, s.Admits spec cfg env

/-- What a process sees of itself stays as it is, and nothing else that it has to know is lost. -/
structure Keeps (s s' : Store) (p : Id) : Prop where
  decls : s'.decls = s.decls
  members : s'.members = s.members
  pools : ∀ {q : Id} {pool : Pool}, s.pools.get? q = some pool →
    ∃ pool', s'.pools.get? q = some pool'
  channels : s'.channelsOf p = s.channelsOf p
  idle : ∀ z svc, s'.halves.get? z = some (.service svc) → svc.process ≠ p

theorem exists_configuration (hkeep : s.Keeps s' p) (h : s.configuration p = .ok cfg) :
    ∃ cfg', s'.configuration p = .ok cfg' ∧ cfg'.process = cfg.process ∧ cfg'.pool = cfg.pool ∧
      cfg'.channels = cfg.channels := by
  unfold configuration at h ⊢
  rw [hkeep.members]
  split at h
  · cases h
  next member hmember =>
  split at h
  · cases h
  next pool hpool =>
  cases h
  obtain ⟨pool', hpool'⟩ := hkeep.pools hpool
  rw [hpool']
  exact ⟨_, rfl, rfl, rfl, hkeep.channels⟩

/-- What was accepted is still accepted where the process sees the same of itself. -/
theorem Admits.keeps (h : s.Admits spec cfg env) (hk : s'.Keyed)
    (hkeep : s.Keeps s' spec.process) :
    ∃ cfg', s'.Admits spec cfg' env ∧ cfg'.process = cfg.process ∧ cfg'.pool = cfg.pool ∧
      cfg'.channels = cfg.channels := by
  obtain ⟨cfg', hcfg, hprocess, hpool, hchannels⟩ := exists_configuration hkeep h.configuration
  obtain ⟨ctx, hcheck⟩ := h.checked
  refine ⟨cfg', ⟨hcfg, hpool.trans h.pool, ?_, ?_, ctx, ?_⟩, hprocess, hpool, hchannels⟩
  · exact (reads_configuration hk hcfg).idle.2 hkeep.idle
  · rw [hkeep.decls, ← h.load]
    unfold Registry.load
    rw [hchannels]
  · rw [← hcheck]
    unfold checkStep
    rw [hchannels]

/-- Only a spawn aims at another pool. -/
theorem aim_eq {term : Term} (hop : term.operation ≠ .spawn) : s.aim cfg term = .ok cfg := by
  unfold aim
  split
  · exact absurd rfl hop
  · rfl

/-- A term that has a step is accepted. -/
theorem accepts_of_derives (hop : spec.term.operation ≠ .spawn)
    (h : (s.deriveStep fresh spec).isOk = true) : s.Accepts spec := by
  cases hd : s.deriveStep fresh spec with
  | error => rw [hd] at h; cases h
  | ok r =>
    obtain ⟨read, cfg, env, ctx, hcfg, hpool, hidle, haim, hload, hcheck, -⟩ :=
      deriveStep_eq_ok_iff.1 hd
    rw [aim_eq hop] at haim
    cases haim
    exact ⟨read, env, hcfg, hpool, hidle, hload, ctx, hcheck⟩

/-- A term that is accepted is taken, if it makes a move that touches known pools only and fits the
halves that are there. -/
theorem Admits.exists_take (hk : s.Keyed) (h : s.Admits spec cfg env)
    (hop : spec.term.operation ≠ .spawn) (hmove : Moves env cfg fresh spec.term pl)
    (hpools : pl.pools = []) (hknown : ∀ k ∈ pl.marks, ∃ rev, cfg.revOf? k.pool = some rev)
    (hfit : SlotsFit s.halves pl.slots) :
    ∃ m s', s.deriveStep fresh spec = .ok (pl.next, m) ∧ s.commit m = .ok s' ∧
      pl.Drafts cfg m := by
  obtain ⟨ctx, hcheck⟩ := h.checked
  obtain ⟨m, s', hm, hc⟩ := exists_commit (reads_configuration hk h.configuration)
    (fun k hk => .inr (hknown k hk)) (fun pool hpool => by rw [hpools] at hpool; cases hpool) hfit
  exact ⟨m, s', deriveStep_eq_ok_iff.2 ⟨cfg, cfg, env, ctx, h.configuration, h.pool, h.idle,
    aim_eq hop, h.load, hcheck, transition_eq_ok_iff.2 ⟨pl, hmove, rfl, hm⟩⟩, hc, Plan.drafts_of_draft? hm⟩

/-! ## What a commit keeps -/

/-- Tables stay filed under the names of what they hold. -/
theorem Keyed.commit (hk : s.Keyed) (hc : s.commit m = .ok s') : s'.Keyed := by
  obtain ⟨hlocks, -, -, rfl⟩ := commit_eq_ok_iff.1 hc
  refine ⟨fun {i pool} hp => ?_, fun {c half} hh => ?_⟩
  · rw [pools_apply] at hp
    rcases Table.get?_or_mem_of_foldl_insert hp with hp | ⟨_, -, hid, rfl⟩
    · rw [get?_bumpPools hlocks] at hp
      obtain ⟨old, hold, rfl⟩ := Option.map_eq_some_iff.1 hp
      rw [← hk.pools hold]
      split <;> rfl
    · exact hid
  · rw [halves_apply, get?_foldl_applySlot] at hh
    rcases mem_of_runSlots hh with hold | ⟨-, hchannel⟩
    · exact hk.halves hold
    · exact hchannel

/-- Every entry of a plan is stamped with a revision after the first, and with the sign that it should
have. -/
theorem sized_of_fills (hd : pl.Fills m) (hpools : pl.pools = []) (hc : s.commit m = .ok s')
    (hy : s'.Young) : ∀ k ∈ pl.marks, ((m.stamp? k.pool).getD .initial).Sized := by
  intro k hk
  have hmpools : m.pools = [] := hd.pools.trans hpools
  obtain ⟨rev, hrev⟩ := hd.stamps k hk
  obtain ⟨hlocks, hnew, -, rfl⟩ := commit_eq_ok_iff.1 hc
  obtain ⟨pool, hpool, rfl⟩ := rev_apply_of_stamp? hlocks hnew (by simp [hmpools]) hrev
  rw [hrev]
  refine ⟨?_, hy _ pool hpool⟩
  unfold Change.stamp? at hrev
  split at hrev
  · rw [← Option.some.inj hrev]
    exact Nat.succ_pos _
  · rw [hmpools] at hrev
    cases hrev

/-- The pool of the acting process has moved on from its first revision. -/
theorem bumped_of_drafts (hd : pl.Drafts cfg m) (hpools : m.pools = []) (hc : s.commit m = .ok s') :
    ∃ pool, s'.pools.get? cfg.pool = some pool ∧ 0 < pool.rev.value := by
  obtain ⟨hlocks, -, -, rfl⟩ := commit_eq_ok_iff.1 hc
  obtain ⟨pool, hpool, -⟩ := hlocks _ hd.own
  rw [get?_pools_apply hlocks (by simp [hpools]), hpool, Option.map_some,
    if_pos (List.mem_map_of_mem hd.own)]
  exact ⟨_, rfl, Nat.succ_pos _⟩

/-- Where nothing comes home, a commit writes the entries of its change. -/
theorem log_commit (hd : pl.Fills m) (hc : s.commit m = .ok s') (hhomes : pl.homes = []) :
    s'.log = s.log ++ m.bindings := by
  obtain ⟨-, -, -, rfl⟩ := commit_eq_ok_iff.1 hc
  unfold apply
  rw [hd.homes, hhomes]
  rfl

/-- A process that no entry is for keeps its channels, if nothing comes home. -/
theorem channelsOf_commit (hd : pl.Fills m) (hc : s.commit m = .ok s') (hhomes : pl.homes = [])
    (hne : ∀ k ∈ pl.marks, k.process ≠ p) : s'.channelsOf p = s.channelsOf p := by
  have hnone : m.bindings.filter (fun b => b.process = p) = [] := by
    rw [hd.bindings, List.filter_eq_nil_iff]
    intro b hb
    obtain ⟨k, hk, rfl⟩ := List.mem_map.1 hb
    exact fun heq => hne k hk (of_decide_eq_true heq)
  rw [channelsOf, channelsOf, channelsIn, channelsIn, log_commit hd hc hhomes, List.filter_append,
    hnone, List.append_nil]

end Store

namespace Half

@[simp] theorem movedTo_movedTo (c z : Id) (half : Half) :
    (half.movedTo c).movedTo z = half.movedTo z := by
  cases half <;> rfl

theorem movedTo_channel (half : Half) : half.movedTo half.channel = half := by
  cases half <;> rfl

@[simp] theorem ownDirection_movedTo (polarity : Polarity) (c : Id) (half : Half) :
    Drafting.ownDirection polarity (half.movedTo c) = Drafting.ownDirection polarity half := by
  cases half <;> cases polarity <;> rfl

/-- Providers of a channel are all producers or all consumers, as the type says. -/
theorem Faces.service?_eq {node : TypeNode} {half half' : Half} (h : half.Faces node .provider)
    (h' : half'.Faces node .provider) : half.service?.isSome = half'.service?.isSome := by
  cases h with
  | message _ hσ =>
    cases h' with
    | message => rfl
    | service _ hσ' => cases (hσ.1 rfl).symm.trans (hσ'.1 rfl)
  | service _ hσ =>
    cases h' with
    | message _ hσ' => cases (hσ.1 rfl).symm.trans (hσ'.1 rfl)
    | service => rfl

theorem Meets.halves {half half' : Half} {m : Message} {svc : Service} (h : half.Meets half' m svc) :
    half = .message m ∧ half' = .service svc ∨ half = .service svc ∧ half' = .message m := by
  cases h with
  | serve => exact .inl ⟨rfl, rfl⟩
  | fetch => exact .inr ⟨rfl, rfl⟩

/-- Halves meet where they have been moved to. -/
theorem Meets.joins_moved {half half' : Half} {m : Message} {svc : Service} {term : Term}
    (h : half.Meets half' m svc) (hr : svc.reply m.payload = some term) (z c c' : Id) :
    Joins z (half.movedTo c) (some (half'.movedTo c')) (svc.served z m.payload term) ∧
      Joins z (half'.movedTo c') (some (half.movedTo c)) (svc.served z m.payload term) := by
  cases h with
  | serve =>
    exact ⟨@Joins.serve z { m with channel := c } { svc with channel := c' } term hr,
      @Joins.fetch z { m with channel := c } { svc with channel := c' } term hr⟩
  | fetch =>
    exact ⟨@Joins.fetch z { m with channel := c' } { svc with channel := c } term hr,
      @Joins.serve z { m with channel := c' } { svc with channel := c } term hr⟩

end Half

/-- Halves are taken, and one is put. -/
theorem runSlots_put (cs : List Id) (pending : Id → Option Half) (half : Half) (x : Id) :
    runSlots (cs.map SlotOp.take ++ [.put half]) pending x =
      if x = half.channel then some half else if x ∈ cs then none else pending x := by
  rw [runSlots_append, ← Landing.takes.eq_1 ⟨cs, x, none⟩, runSlots_takes]
  exact Function.update_apply ..

/-- Halves are taken, and then one more. -/
theorem runSlots_take (cs : List Id) (pending : Id → Option Half) (z x : Id) :
    runSlots (cs.map SlotOp.take ++ [.take z]) pending x =
      if x = z then none else if x ∈ cs then none else pending x := by
  rw [runSlots_append, ← Landing.takes.eq_1 ⟨cs, x, none⟩, runSlots_takes]
  exact Function.update_apply ..

/-- Marks of a process only depend on what that process is bound to. -/
theorem Live.after_congr {marks : List Mark} {v w : Live} {p : Id} (h : ∀ ph, v p ph = w p ph)
    (ph : Sym) : v.after marks p ph = w.after marks p ph := by
  induction marks generalizing v w with
  | nil => exact h ph
  | cons k rest ih =>
    refine ih fun ph => ?_
    unfold Live.marked Live.set
    rw [h ph]

/-- What is offered depends on what the process sees of itself, and on the channel that it may draw. -/
theorem Offers.congr {env : Env} {cfg cfg' : Configuration} {fresh fresh' : Fresh} {term : Term}
    {ep : Endpoint} {own : List Mark} {half : Half} (h : Offers env cfg fresh term ep own half)
    (hprocess : cfg'.process = cfg.process) (hpool : cfg'.pool = cfg.pool)
    (hchannels : cfg'.channels = cfg.channels) (hfresh : fresh'.channel = fresh.channel) :
    Offers env cfg' fresh' term ep own half := by
  have hmark : cfg.mark = cfg'.mark := by
    unfold Configuration.mark
    rw [hprocess, hpool]
  have hmessage : cfg.message = cfg'.message := by
    unfold Configuration.message
    rw [hprocess, hpool]
  cases h with
  | close hep =>
    rw [hmark, hmessage]
    exact .close (hchannels ▸ hep)
  | send hep hnode hc hv =>
    rw [hmark, hmessage, ← hfresh]
    exact .send (hchannels ▸ hep) hnode hc (hchannels ▸ hv)
  | pass hep hnode hp =>
    rw [hmark, hmessage, ← hfresh]
    exact .pass (hchannels ▸ hep) hnode hp
  | consume hh hep =>
    rw [← hprocess, ← hpool]
    exact .consume hh (hchannels ▸ hep)

/-- A service is offered by those terms that handle something. -/
theorem service?_of_offers {env : Env} {cfg : Configuration} {fresh : Fresh} {term : Term}
    {ep : Endpoint} {own : List Mark} {half : Half} (h : Offers env cfg fresh term ep own half) :
    half.service?.isSome = term.handler?.isSome := by
  cases h with
  | pass _ _ hp => cases hp <;> rfl
  | consume hh => rw [hh]; rfl
  | _ => rfl

/-- A service that is offered, of a process that changes nothing else. -/
theorem service_of_offers {env : Env} {cfg : Configuration} {fresh : Fresh} {term : Term}
    {ep : Endpoint} {own : List Mark} {svc : Service}
    (h : Offers env cfg fresh term ep own (.service svc)) :
    ∃ handler, term.handler? = some handler ∧
      svc = ⟨ep.channel, cfg.pool, cfg.process, term.via, ep, handler⟩ ∧ own = [] := by
  cases h with
  | consume hh hep => exact ⟨_, hh, rfl, rfl⟩

end Rendezvous
