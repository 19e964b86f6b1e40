import Rendezvous.Proofs.Sessions

/-!
# Proposals

What is known of a session whose proposals wait to be committed, however old its pools are.

- `Proposal.Founding` says how the change of a proposal founds a process: it puts the process on
  record and makes it liable for its pool;
- a change is `Store.Spent` if one of its locks is behind the store; it cannot be committed any more;
- `Session.Tracked` is what every stroke keeps (`Tracked.stroke`). A proposal has not been committed
  yet, and then nobody has the id of the process that it founds, or it is spent. Hence no commit
  takes a process away or moves it (`Tracked.poolOf?_stroke`).
-/

namespace Rendezvous

/-! ## Changes that are spent -/

namespace Store

variable {s s' : Store} {m : Change}

/-- A lock of a change is behind the store. -/
def Spent (s : Store) (m : Change) : Prop :=
  ∃ lock ∈ m.locks, ∃ pool, s.pools.get? lock.pool = some pool ∧ lock.rev.value < pool.rev.value

/-- A change that is spent stays so. -/
theorem Spent.of_ages (h : s.Spent m) (ha : s.Ages s') : s'.Spent m := by
  obtain ⟨lock, hlock, pool, hpool, hlt⟩ := h
  obtain ⟨pool', hpool', hle⟩ := ha hpool
  exact ⟨lock, hlock, pool', hpool', Nat.lt_of_lt_of_le hlt hle⟩

theorem Spent.not_committed (h : s.Spent m) (hc : s.commit m = .ok s') : False := by
  obtain ⟨lock, hlock, pool, hpool, hlt⟩ := h
  obtain ⟨now, hnow, hrev⟩ := (commit_eq_ok_iff.1 hc).1 lock hlock
  cases hpool.symm.trans hnow
  rw [hrev] at hlt
  exact Nat.lt_irrefl _ hlt

/-- A commit uses up its locks. -/
theorem spent_of_commit {lock : Lock} (hlock : lock ∈ m.locks) (hc : s.commit m = .ok s') :
    s'.Spent m := by
  obtain ⟨hlocked, hnew, -, rfl⟩ := commit_eq_ok_iff.1 hc
  obtain ⟨pool, hpool, hrev⟩ := hlocked lock hlock
  have hne : ∀ new ∈ m.pools, new.id ≠ lock.pool := by
    intro new hmem he
    rw [← he, hnew new hmem] at hpool
    cases hpool
  refine ⟨lock, hlock, pool.bumped, ?_, ?_⟩
  · rw [get?_pools_apply hlocked hne, hpool, Option.map_some, if_pos (List.mem_map_of_mem hlock)]
  · rw [← hrev]
    exact Nat.lt_succ_self _

end Store

/-! ## What proposals found -/

/-- The change of a proposal puts what it founds on record, and makes it liable for its pool with
the stamp that the draft has for the pool. -/
structure Proposal.Founding (p : Proposal) : Prop where
  lock : ∃ lock, lock ∈ p.change.locks
  record : p.founds? = none ∧ p.change.members = [] ∧ p.change.liabilities = [] ∨
    ∃ pool sig rev, p.founds? = some ⟨pool, p.process, true⟩ ∧
      p.change.members = [⟨p.process, pool, sig⟩] ∧ p.change.stamp? pool = some rev ∧
      p.change.liabilities = [⟨pool, p.process, rev.introStamp⟩]
  one : p.change.pools.length ≤ 1
  initial : ∀ pool ∈ p.change.pools, pool.rev = .initial

/-- What a draft stamps is past revision zero. -/
theorem Change.stamp?_pos {m : Change} (hinitial : ∀ pool ∈ m.pools, pool.rev = .initial) {p : Id}
    {rev : Rev} (h : m.stamp? p = some rev) : 0 < rev.value := by
  unfold Change.stamp? at h
  cases hlock : m.locks.find? (·.pool = p) with
  | some lock =>
    rw [hlock] at h
    cases h
    exact Nat.succ_pos _
  | none =>
    rw [hlock] at h
    obtain ⟨pool, hpool, rfl⟩ := Option.map_eq_some_iff.1 h
    rw [hinitial pool (List.mem_of_find?_eq_some hpool)]
    exact Nat.one_pos

/-- A move founds what its term says. -/
theorem founds_of_moves {env : Env} {cfg : Configuration} {fresh : Fresh} {spec : StepSpec}
    {pl : Plan} (h : Moves env cfg fresh spec.term pl) :
    spec.founds? fresh = none ∧ pl.members = [] ∨
      ∃ pool sig, spec.founds? fresh = some ⟨pool, fresh.process, true⟩ ∧
        pl.members = [⟨fresh.process, pool, sig⟩] ∧ ∃ k ∈ pl.marks, k.pool = pool := by
  obtain ⟨pool, process, term⟩ := spec
  dsimp only at h
  cases h with
  | offer ho =>
    refine .inl ⟨?_, rfl⟩
    cases ho with
    | close => rfl
    | send => rfl
    | pass _ _ hp => cases hp <;> rfl
    | consume hh =>
      cases term with
      | call => cases hh
      | spawn => cases hh
      | _ => rfl
  | relay => exact .inl ⟨rfl, rfl⟩
  | redirect => exact .inl ⟨rfl, rfl⟩
  | call hi => exact .inr ⟨_, _, rfl, rfl, _, List.mem_cons_self, hi.pool_eq⟩
  | spawn hi => exact .inr ⟨_, _, rfl, rfl, _, List.mem_cons_self, hi.pool_eq⟩

/-- Whoever a plan puts on record becomes liable. -/
theorem Plan.liabilities_of_draft? {pl : Plan} {cfg : Configuration} {m : Change}
    (h : pl.draft? cfg = some m) : m.liabilities = pl.liabilities m := by
  obtain ⟨d, -, rfl⟩ := Option.map_eq_some_iff.1 h
  rfl

theorem Engine.Proposes.founding {e : Engine} {p : Proposal} (h : e.Proposes p)
    (hk : e.store.Keyed) : p.Founding := by
  cases h with
  | step hd hp hf =>
    obtain ⟨cfg, env, pl, hderives, -, hdraft⟩ := Store.exists_derives hk hd
    have hdrafts := Plan.drafts_of_draft? hdraft
    obtain ⟨hone, hinitial⟩ := Store.pools_of_moves hderives.moves
    refine ⟨⟨_, hdrafts.own⟩, ?_, hdrafts.pools ▸ hone, hdrafts.pools ▸ hinitial⟩
    rw [hf, hdrafts.members, Plan.liabilities_of_draft? hdraft, Plan.liabilities, hp]
    rcases founds_of_moves hderives.moves with ⟨hnone, hmem⟩ | ⟨pool, sig, hsome, hmem, k, hk, rfl⟩
    · rw [hmem]
      exact .inl ⟨hnone, rfl, rfl⟩
    · obtain ⟨rev, hrev⟩ := hdrafts.stamps k hk
      refine .inr ⟨k.pool, sig, rev, hsome, hmem, hrev, ?_⟩
      rw [hmem, List.filterMap_cons, hrev]
      rfl
  | @creation c ref hd hp hf =>
    obtain ⟨sig, pool, type, env, bindings, -, hpool, -, -, hm⟩ :=
      Store.exists_of_deriveCreation hd
    have hid := hk.pools hpool
    refine ⟨⟨_, by rw [hm]; exact List.mem_singleton_self _⟩, ?_, ?_, ?_⟩
    · refine .inr ⟨c.pool, sig.id, pool.rev.next, by rw [hf, hp], ?_, ?_, ?_⟩
      · rw [hm, hp, hid]
      · rw [hm, Change.stamp?, List.find?_cons_of_pos (by simp [hid])]
      · rw [hm, hp, hid]
    · rw [hm]
      exact Nat.zero_le 1
    · rw [hm]
      exact List.forall_mem_nil _

/-! ## What strokes keep -/

namespace Engine

variable {e e' : Engine}

theorem Declares.keyed (h : e.Declares e') (hk : e.store.Keyed) : e'.store.Keyed := by
  cases h with
  | nothing hs => rwa [hs]
  | type _ hs => rw [hs]; exact ⟨hk.pools, hk.halves⟩
  | sig _ hs => rw [hs]; exact ⟨hk.pools, hk.halves⟩
  | pool h => exact hk.addPool h

theorem Redefines.keyed (h : e.Redefines e') (hk : e.store.Keyed) : e'.store.Keyed := by
  cases h with
  | nothing hs => rwa [hs]
  | type _ hs => rw [hs]; exact ⟨hk.pools, hk.halves⟩

theorem Redefines.next_le (h : e.Redefines e') : e.ids.next ≤ e'.ids.next := by
  cases h <;> assumption

end Engine

namespace Session

variable {s s' : Session} {ks : List Transaction} {ts : List Transfer}

/-- What is known of a session, however old its pools are. -/
structure Tracked (s : Session) : Prop where
  keyed : s.engine.store.Keyed
  /-- Processes are filed under their own ids, which have been handed out. -/
  named : ∀ {p : Id} {m : Member}, s.engine.store.members.get? p = some m →
    m.id = p ∧ p.value < s.engine.ids.next
  founding : ∀ p ∈ s.proposals, p.Founding
  /-- What has been committed is spent. -/
  open_or_spent : ∀ p ∈ s.proposals,
    s.engine.store.members.get? p.process = none ∨ s.engine.store.Spent p.change
  drawn : ∀ p ∈ s.proposals, p.process.value < s.engine.ids.next
  apart : ∀ p ∈ s.proposals, ∀ p' ∈ s.proposals, p.process = p'.process → p = p'

/-- A stroke that is not about processes. -/
theorem Tracked.frame (h : s.Tracked) (hk : s'.engine.store.Keyed)
    (hm : s'.engine.store.members = s.engine.store.members)
    (ha : s.engine.store.Ages s'.engine.store) (hi : s.engine.ids.next ≤ s'.engine.ids.next)
    (hp : s'.proposals = s.proposals) : s'.Tracked := by
  refine ⟨hk, ?_, ?_, ?_, ?_, ?_⟩
  · intro p m hget
    rw [hm] at hget
    obtain ⟨hid, hlt⟩ := h.named hget
    exact ⟨hid, Nat.lt_of_lt_of_le hlt hi⟩
  · rw [hp]
    exact h.founding
  · rw [hp, hm]
    exact fun p hmem => (h.open_or_spent p hmem).imp_right fun hspent => hspent.of_ages ha
  · rw [hp]
    exact fun p hmem => Nat.lt_of_lt_of_le (h.drawn p hmem) hi
  · rw [hp]
    exact h.apart

/-- A proposal that is committed finds its id unused, and puts one process on record at most. -/
theorem Tracked.commit_cases (h : s.Tracked) {p : Proposal} (hmem : p ∈ s.proposals) {t : Store}
    (hc : s.engine.store.commit p.change = .ok t) :
    s.engine.store.members.get? p.process = none ∧
      (p.founds? = none ∧ t.members = s.engine.store.members ∧
          t.liabilities = s.engine.store.liabilities ∨
        ∃ pool sig now, p.founds? = some ⟨pool, p.process, true⟩ ∧
          t.members = s.engine.store.members.insert p.process ⟨p.process, pool, sig⟩ ∧
          t.pools.get? pool = some now ∧ 0 < now.rev.value ∧ 
          t.liabilities =
            s.engine.store.liabilities ++ [⟨pool, p.process, now.rev.introStamp⟩]) := by
  have hfounding := h.founding p hmem
  have hopen : s.engine.store.members.get? p.process = none :=
    (h.open_or_spent p hmem).resolve_right fun hspent => hspent.not_committed hc
  refine ⟨hopen, ?_⟩
  obtain ⟨hlocked, hnew, -, rfl⟩ := Store.commit_eq_ok_iff.1 hc
  have hliabilities : (s.engine.store.apply p.change).liabilities =
      s.engine.store.liabilities ++ p.change.liabilities := rfl
  rw [Store.members_apply, hliabilities]
  rcases hfounding.record with ⟨hnone, hmembers, hl⟩ | ⟨pool, sig, rev, hsome, hmembers, hstamp, hl⟩
  · rw [hmembers, hl, List.append_nil]
    exact .inl ⟨hnone, rfl, rfl⟩
  · obtain ⟨now, hnow, rfl⟩ := Store.rev_apply_of_stamp? hlocked hnew hfounding.one hstamp
    rw [hmembers, hl]
    exact .inr ⟨pool, sig, now, hsome, rfl, hnow,
      Change.stamp?_pos hfounding.initial hstamp, rfl⟩

theorem Tracked.commit (h : s.Tracked) {p : Proposal} (hmem : p ∈ s.proposals)
    (hc : s.engine.store.commit p.change = .ok s'.engine.store)
    (hi : s'.engine.ids = s.engine.ids) (hp : s'.proposals = s.proposals) : s'.Tracked := by
  obtain ⟨-, hrecord⟩ := h.commit_cases hmem hc
  have hinserted : ∀ {q : Id} {m : Member}, s'.engine.store.members.get? q = some m →
      s.engine.store.members.get? q = some m ∨ q = p.process ∧ m.id = q := by
    intro q m hget
    rcases hrecord with ⟨-, hm, -⟩ | ⟨pool, sig, now, -, hm, -⟩
    · rw [hm] at hget
      exact .inl hget
    · rw [hm, Table.get?_insert] at hget
      split at hget
      · next hq =>
        cases hget
        exact .inr ⟨hq, hq.symm⟩
      · exact .inl hget
  refine ⟨h.keyed.commit hc, ?_, ?_, ?_, ?_, ?_⟩
  · intro q m hget
    rw [hi]
    rcases hinserted hget with hold | ⟨rfl, hid⟩
    · exact h.named hold
    · exact ⟨hid, h.drawn p hmem⟩
  · rw [hp]
    exact h.founding
  · rw [hp]
    intro q hq
    by_cases hsame : q = p
    · subst hsame
      obtain ⟨lock, hlock⟩ := (h.founding q hq).lock
      exact .inr (Store.spent_of_commit hlock hc)
    · -- the id of another proposal stays as it was
      refine (h.open_or_spent q hq).imp (fun hnone => ?_)
        fun hspent => hspent.of_ages (Store.ages_of_commit hc)
      cases hget : s'.engine.store.members.get? q.process with
      | none => rfl
      | some m =>
        rcases hinserted hget with hold | ⟨hid, -⟩
        · rw [hnone] at hold
          cases hold
        · exact absurd (h.apart q hq p hmem hid) hsame
  · rw [hp, hi]
    exact h.drawn
  · rw [hp]
    exact h.apart

/-- A new proposal has an id that is not on record and that no other proposal has. -/
theorem Tracked.propose (h : s.Tracked) {p : Proposal} (hpropose : s.engine.Proposes p)
    (hs : s'.engine.store = s.engine.store) (hi : s'.engine.ids = s.engine.ids.afterFresh)
    (hp : s'.proposals = s.proposals ++ [p]) : s'.Tracked := by
  obtain ⟨-, hle, -, -, hlt, -⟩ := s.engine.fresh_lt
  have hnext := s.engine.ids.next_lt_next_afterFresh
  have hprocess : p.process = s.engine.ids.fresh.process := by
    cases hpropose <;> assumption
  have hold : ∀ q ∈ s.proposals, q.process ≠ p.process := by
    intro q hq he
    have hdrawn := h.drawn q hq
    rw [he, hprocess] at hdrawn
    omega
  refine ⟨hs ▸ h.keyed, ?_, ?_, ?_, ?_, ?_⟩
  · intro q m hget
    rw [hs] at hget
    obtain ⟨hid, hq⟩ := h.named hget
    rw [hi]
    exact ⟨hid, Nat.lt_trans hq hnext⟩
  · rw [hp]
    exact List.forall_mem_append.2
      ⟨h.founding, List.forall_mem_singleton.2 (hpropose.founding h.keyed)⟩
  · rw [hp, hs]
    refine List.forall_mem_append.2 ⟨h.open_or_spent, List.forall_mem_singleton.2 (.inl ?_)⟩
    cases hget : s.engine.store.members.get? p.process with
    | none => rfl
    | some m =>
      obtain ⟨-, hq⟩ := h.named hget
      rw [hprocess] at hq
      omega
  · rw [hp, hi]
    refine List.forall_mem_append.2 ⟨fun q hq => Nat.lt_trans (h.drawn q hq) hnext,
      List.forall_mem_singleton.2 ?_⟩
    rw [hprocess]
    exact hlt
  · rw [hp]
    intro q hq q' hq' he
    rcases List.mem_append.1 hq with hq | hq <;> rcases List.mem_append.1 hq' with hq' | hq'
    · exact h.apart q hq q' hq' he
    · rw [List.mem_singleton.1 hq'] at he
      exact absurd he (hold q hq)
    · rw [List.mem_singleton.1 hq] at he
      exact absurd he.symm (hold q' hq')
    · rw [List.mem_singleton.1 hq, List.mem_singleton.1 hq']

/-- Every stroke keeps track. -/
theorem Tracked.stroke (h : s.Tracked) (hst : s.Stroke s' ks ts) : s'.Tracked := by
  cases hst with
  | declares hd hp => exact h.frame (hd.keyed h.keyed) hd.leaves.members hd.ages hd.next_le hp
  | redefines hr hp => exact h.frame (hr.keyed h.keyed) hr.leaves.members hr.ages hr.next_le hp
  | propose hpropose hs hi hp => exact h.propose hpropose hs hi hp
  | forget he hp =>
    refine ⟨he ▸ h.keyed, he ▸ h.named, fun p hmem => h.founding p (hp p hmem),
      fun p hmem => he ▸ h.open_or_spent p (hp p hmem), fun p hmem => he ▸ h.drawn p (hp p hmem),
      fun p hmem p' hmem' => h.apart p (hp p hmem) p' (hp p' hmem')⟩
  | commit hmem hc hi hp => exact h.commit hmem hc hi hp
  | handOff _ ha hi hp =>
    exact h.frame (h.keyed.addLiability ha) (Store.leaves_of_addLiability ha).members
      (Store.ages_of_addLiability ha) (by rw [hi]) hp

theorem tracked_start (settings : Settings) (ids : Supply) :
    (Engine.start settings ids).session.Tracked :=
  ⟨⟨nofun, nofun⟩, nofun, nofun, nofun, nofun, nofun⟩

/-- Pools get older with every stroke. -/
theorem Stroke.ages (hst : s.Stroke s' ks ts) : s.engine.store.Ages s'.engine.store := by
  intro q pool hpool
  cases hst with
  | declares hd => exact hd.ages hpool
  | redefines hr => exact hr.ages hpool
  | propose _ hs => exact ⟨pool, by rw [hs, hpool], Nat.le_refl _⟩
  | forget he => exact ⟨pool, by rw [he, hpool], Nat.le_refl _⟩
  | commit _ hc => exact Store.ages_of_commit hc hpool
  | handOff _ ha => exact Store.ages_of_addLiability ha hpool

/-- No stroke takes a process away or moves it. -/
theorem Tracked.poolOf?_stroke (h : s.Tracked) (hst : s.Stroke s' ks ts) {p q : Id}
    (hp : s.engine.store.poolOf? p = some q) : s'.engine.store.poolOf? p = some q := by
  have hsame : s'.engine.store.members = s.engine.store.members →
      s'.engine.store.poolOf? p = some q := by
    intro hm
    rwa [Store.poolOf?, hm]
  cases hst with
  | declares hd => exact hsame hd.leaves.members
  | redefines hr => exact hsame hr.leaves.members
  | propose _ hs => exact hsame (by rw [hs])
  | forget he => exact hsame (by rw [he])
  | commit hmem hc =>
    obtain ⟨hnone, ⟨-, hm, -⟩ | ⟨pool, sig, now, -, hm, -⟩⟩ := h.commit_cases hmem hc
    · exact hsame hm
    · rw [Store.poolOf?, hm, Table.get?_insert, if_neg]
      · exact hp
      · rintro rfl
        rw [Store.poolOf?, hnone] at hp
        cases hp
  | handOff _ ha => exact hsame (Store.leaves_of_addLiability ha).members

end Session

end Rendezvous
