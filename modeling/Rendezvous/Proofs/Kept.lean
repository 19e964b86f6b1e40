import Rendezvous.Proofs.Ways

/-!
# What others leave of what a process has seen

`Store.Kept s₀ s p` says what is left in a store `s` of what process `p` could see in `s₀`: it lives
where it did and does not wait, its placeholders are bound to the same channels, and each half is
still there that was on the way from one of them. Channels may have come home, and halves may have
come where there were none.

As long as the pool of the process does not move on, and no channel is shared where something is
pending, this is what others leave (`keeps_kept`). They have to lock the pool to bind a process of
it anew; the halves that they take are on ways of their own, and what they put goes where nothing
is.
-/

namespace Rendezvous

namespace Store

/-- What is left in `s` of what `p` has seen in `s₀`. -/
structure Kept (s₀ s : Store) (p : Id) : Prop where
  home : s.poolOf? p = s₀.poolOf? p
  idle : s.net.Idle p
  channels : ∀ ph, (s.live p ph).map Endpoint.channel = (s₀.live p ph).map Endpoint.channel
  /-- What was on the way from a channel of the process is there. -/
  halves : ∀ {ph : Sym} {e : Endpoint} {x : Id} {half : Half}, s₀.live p ph = some e →
    Along s₀.halves.get? e.channel x → s₀.halves.get? x = some half → s.halves.get? x = some half

variable {s₀ s s' : Store} {p new : Id} {pl : Plan} {fresh : Fresh} {spec : StepSpec}
  {cfg : Configuration} {env : Env}

theorem Kept.refl (h : s.net.Idle p) : s.Kept s p := ⟨rfl, h, fun _ => rfl, fun _ _ hx => hx⟩

theorem Kept.leaves (hk : s₀.Kept s p) (h : s.Leaves s') : s₀.Kept s' p := by
  refine ⟨by rw [h.poolOf?, hk.home], ?_, fun ph => by rw [h.live, hk.channels], ?_⟩
  · rw [h.net]
    exact hk.idle
  · rw [h.halves]
    exact hk.halves

/-- The ways of the process go on as they did. -/
theorem Kept.along (hk : s₀.Kept s p) {ph : Sym} {e : Endpoint} (he : s₀.live p ph = some e)
    {x : Id} (h : Along s₀.halves.get? e.channel x) : Along s.halves.get? e.channel x := by
  suffices hall : Along s₀.halves.get? e.channel x ∧ Along s.halves.get? e.channel x from hall.2
  refine along_induction (C := fun x => Along s₀.halves.get? e.channel x ∧
    Along s.halves.get? e.channel x) h ⟨.here, .here⟩ ?_
  rintro y f ⟨hold, hnew⟩ hf
  exact ⟨hold.tail hf, hnew.tail (hk.halves he hold hf)⟩

/-- A placeholder is bound to the channel that it was bound to. -/
theorem Kept.exists_live (hk : s₀.Kept s p) {ph : Sym} {e : Endpoint}
    (he : s₀.live p ph = some e) : ∃ e', s.live p ph = some e' ∧ e'.channel = e.channel := by
  have hc := hk.channels ph
  rw [he] at hc
  exact Option.map_eq_some_iff.1 hc

/-! ## Changes that do not touch the pool -/

/-- A pool that is where it was has not been locked, and nothing was stamped for it. -/
theorem stamp?_of_still {m : Change} {π : Id} {pool pool' : Pool} (hc : s.commit m = .ok s')
    (hp : s.pools.get? π = some pool) (hp' : s'.pools.get? π = some pool')
    (hrev : pool'.rev = pool.rev) : (∀ lock ∈ m.locks, lock.pool ≠ π) ∧ m.stamp? π = none := by
  obtain ⟨hl, hn, -, rfl⟩ := commit_eq_ok_iff.1 hc
  have hne : ∀ new ∈ m.pools, new.id ≠ π := by
    rintro new hnew rfl
    rw [hn new hnew] at hp
    cases hp
  rw [get?_pools_apply hl hne, hp, Option.map_some, Option.some.injEq] at hp'
  have hlocks : ∀ lock ∈ m.locks, lock.pool ≠ π := by
    rintro lock hmem rfl
    rw [if_pos (List.mem_map_of_mem hmem)] at hp'
    rw [← hp'] at hrev
    exact absurd (congrArg Rev.value hrev) (Nat.succ_ne_self pool.rev.value)
  refine ⟨hlocks, ?_⟩
  have hnolock : m.locks.find? (·.pool = π) = none := by
    rw [List.find?_eq_none]
    intro lock hmem
    simpa using hlocks lock hmem
  have hnopool : m.pools.find? (·.id = π) = none := by
    rw [List.find?_eq_none]
    intro new hmem
    simpa using hne new hmem
  rw [Change.stamp?, hnolock, hnopool]
  rfl

/-- A plan that is carried out elsewhere. -/
theorem Kept.commits (hk : s₀.Kept s p) (hh : s.Homes new pl) (hc : s.Commits s' pl)
    (hnew : s.poolOf? new = none) {π : Id} (hp : s.poolOf? p = some π)
    (hmarks : ∀ k ∈ pl.marks, k.pool ≠ π)
    (hputs : ∀ svc, .put (.service svc) ∈ pl.slots → svc.process ≠ p)
    (hslots : ∀ op ∈ pl.slots, ∀ ph e half, s₀.live p ph = some e →
      Along s₀.halves.get? e.channel op.channel → s₀.halves.get? op.channel ≠ some half) :
    s₀.Kept s' p := by
  have hpnew : p ≠ new := by
    rintro rfl
    cases hp.symm.trans hnew
  have hhalves : s'.halves.get? = runSlots pl.slots s.halves.get? := by
    rw [hc.halves, get?_foldl_applySlot]
  refine ⟨?_, ?_, fun ph => ?_, fun {ph e x half} he ha hx => ?_⟩
  · rcases poolOf?_of_commits hh hc with ⟨-, h⟩ | ⟨q, sig, -, -, h⟩
    · rw [h, hk.home]
    · rw [h, Function.update_of_ne hpnew, hk.home]
  · intro z svc hz
    rw [service_net_eq_some, hhalves] at hz
    rcases mem_of_runSlots hz with hold | ⟨hput, -⟩
    · exact hk.idle (service_net_eq_some.2 hold)
    · exact hputs svc hput
  · -- nobody who is bound anew lives in the pool
    have hothers : ∀ k ∈ pl.marks, k.process ≠ p := by
      rintro k hmem rfl
      rcases hh.marks hmem with hhome | ⟨m, hm, hid, -⟩
      · exact hmarks k hmem (Option.some.inj (hhome.symm.trans hp))
      · rcases hh.members with hnone | ⟨q, sig, hone, -⟩
        · rw [hnone] at hm
          cases hm
        · rw [hone, List.mem_singleton] at hm
          rw [hm] at hid
          exact hpnew hid.symm
    rw [hc.live, channel_foldl_rehomed, Live.after_of_ne hothers, hk.channels]
  · rw [hhalves, runSlots_of_ne]
    · exact hk.halves he ha hx
    · rintro op hop rfl
      exact hslots op hop ph e half he ha hx

/-- A step of another process, from another pool. -/
theorem Kept.step (hk : s₀.Kept s p) (hs : s.Sound) (hu : s.Unshared)
    (hd : s.Derives fresh spec cfg env pl) (hc : s.Commits s' pl)
    (hfresh : s.poolOf? fresh.process = none) {π : Id} (hp : s.poolOf? p = some π)
    (hown : cfg.pool ≠ π) (hmarks : ∀ k ∈ pl.marks, k.pool ≠ π) : s₀.Kept s' p := by
  have hne : p ≠ cfg.process := by
    intro heq
    rw [heq, hd.reads.process, hd.reads.member] at hp
    exact hown (Option.some.inj hp)
  have hidle : s.net.Idle cfg.process := by
    rw [hd.reads.process]
    exact idle_of_waiting hd.reads hd.idle
  refine hk.commits (homes_of_derives hs hd) hc hfresh hp hmarks ?_ ?_
  · intro svc hput hsvc
    generalize hhalf : Half.service svc = half at hput
    cases handles_of_derives hd hput with
    | leave _ hprocess _ =>
      subst hhalf
      exact hne (hsvc.symm.trans hprocess)
    | @move y z left hleft _ =>
      cases left with
      | service old =>
        cases hhalf
        exact hk.idle (service_net_eq_some.2 hleft) hsvc
      | message => cases hhalf
      | forward => cases hhalf
  · intro op hop ph e half he ha hx
    obtain ⟨e', he', hchannel⟩ := hk.exists_live he
    have hstill := hk.halves he ha hx
    cases handles_of_derives hd hop with
    | take hlive hled hthere =>
      have hway := hk.along he ha
      rw [← hchannel] at hway
      exact hu.apart hne he' (free_of_idle hk.idle ph) hlive (free_of_idle hidle _) hthere hway
        hled
    | leave hnone => cases hstill.symm.trans hnone
    | move _ hnone =>
      rw [SlotOp.channel, Half.channel_movedTo] at hstill
      cases hstill.symm.trans hnone

end Store

/-! ## Runs -/

namespace Engine

/-- Until the pool `π` of process `p` has moved on from revision `r`, what `p` has seen is kept. -/
def Guards (s₀ : Store) (p π : Id) (r : Rev) (s : Store) : Prop :=
  ∃ pool, s.pools.get? π = some pool ∧ r.value ≤ pool.rev.value ∧ (pool.rev = r → s₀.Kept s p)

variable {s₀ s s' : Store} {p π : Id} {r : Rev}

/-- A change that keeps what was seen, or moves the pool on. -/
theorem Guards.ages (h : Guards s₀ p π r s) (ha : s.Ages s')
    (hkept : ∀ {pool pool' : Pool}, s.pools.get? π = some pool → s'.pools.get? π = some pool' →
      pool'.rev = pool.rev → s₀.Kept s p → s₀.Kept s' p) : Guards s₀ p π r s' := by
  obtain ⟨pool, hpool, hle, hk⟩ := h
  obtain ⟨pool', hpool', hle'⟩ := ha hpool
  refine ⟨pool', hpool', Nat.le_trans hle hle', fun hrev => ?_⟩
  -- revisions do not fall, so the pool was there before
  have hrev' : pool.rev = r := by
    have heq : pool.rev.value = r.value := by
      rw [hrev] at hle'
      omega
    cases hv : pool.rev
    cases r
    rw [hv] at heq
    exact congrArg Rev.mk heq
  exact hkept hpool hpool' (hrev.trans hrev'.symm) (hk hrev')

/-- What a process has seen is kept until its pool has moved on. -/
theorem keeps_kept (hp : s₀.poolOf? p = some π) :
    Keeps (fun e _ => e.store.Unshared) fun e => e.Valid ∧ Guards s₀ p π r e.store := by
  refine ⟨?_, ?_, ?_, ?_, ?_⟩
  · rintro e e' c ref ⟨hv, hg⟩ h hy
    refine ⟨hv.created h hy, hg.ages h.ages fun {pool pool'} hpool hpool' hrev hk => ?_⟩
    obtain ⟨-, sig, provision, receptions, hcr⟩ := hv.creating h hy
    obtain ⟨m, hd, hc⟩ := h.committed
    obtain ⟨_, _, _, _, -, -, -, -, -, -, -, hfills⟩ :=
      Store.exists_creationPlan hv.sound.toKeyed hd
    obtain ⟨-, hnone⟩ := Store.stamp?_of_still hc hpool hpool' hrev
    have helsewhere : c.pool ≠ π := by
      rintro rfl
      obtain ⟨rev, hstamp⟩ := hfills.stamps _ List.mem_cons_self
      cases hnone.symm.trans hstamp
    refine hk.commits Store.homes_of_creation hcr.commits (hv.new e.fresh_lt.2.1).home
      (hk.home.trans hp) ?_ (fun _ h => nomatch h) (fun _ h => nomatch h)
    intro k hmem
    rcases List.mem_cons.1 hmem with rfl | hmem
    · exact helsewhere
    · obtain ⟨_, -, rfl⟩ := List.mem_map.1 hmem
      exact helsewhere
  · rintro e e' ⟨hv, hg⟩ h
    exact ⟨hv.redefines h, hg.ages h.ages fun _ _ _ hk => hk.leaves h.leaves⟩
  · rintro e e' ⟨hv, hg⟩ h
    exact ⟨(hv.declares h).1, hg.ages h.ages fun _ _ _ hk => hk.leaves h.leaves⟩
  · rintro e e' l rev ⟨hv, hg⟩ h hi hy
    exact ⟨(hv.addLiability h hi hy).1, hg.ages (Store.ages_of_addLiability h)
      fun _ _ _ hk => hk.leaves (Store.leaves_of_addLiability h)⟩
  · rintro e e' spec next m ⟨hv, hg⟩ hu h hc hi hy
    have hv' := hv.step h hc hi hy
    refine ⟨hv', hg.ages (Store.ages_of_commit hc) fun hpool hpool' hrev hk => ?_⟩
    obtain ⟨cfg, env, pl, hd, -, hdraft⟩ := Store.exists_derives hv.sound.toKeyed h
    have hdrafts := Plan.drafts_of_draft? hdraft
    have hfresh := (hv.new e.fresh_lt.2.1).home
    have hcommits := Store.commits_of_homes hv.sound (Store.homes_of_derives hv.sound hd) hfresh
      hdrafts.toFills (Store.pools_of_moves hd.moves).1 hc hv'.bounded
    obtain ⟨hlocks, hnone⟩ := Store.stamp?_of_still hc hpool hpool' hrev
    refine hk.step hv.sound hu hd hcommits hfresh (hk.home.trans hp) (hlocks _ hdrafts.own) ?_
    rintro k hmem rfl
    obtain ⟨rev, hstamp⟩ := hdrafts.stamps k hmem
    cases hnone.symm.trans hstamp

end Engine

end Rendezvous
