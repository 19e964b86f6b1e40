import Rendezvous.Proofs.Proposals

/-!
# Liability

Who is liable for a pool is read off a log of signed entries. All entries that sessions write are
positive as long as the revision of the pool stays below `2 ^ 63`, so that only the last entry of a
pool counts.

- `Session.Ledger` holds a session against the transfers so far: the log has one entry for each of
  them, whoever became liable for a pool lives there, and whoever is on record was founded by one;
- `Ledger.stroke` is what each stroke adds to both sides;
- `Session.liable_of_last_transfer` is the result for runs of acts.
-/

namespace Rendezvous

-- stamps are never computed here
attribute [local irreducible] Rev.introStamp

namespace Store

/-- A pool that is handed on has been at the revision that was expected. -/
theorem rev_of_addLiability {s s' : Store} {l : Liability} {rev : Rev} {pool : Pool}
    (h : s.addLiability l rev = .ok s') (hpool : s.pools.get? l.pool = some pool) :
    pool.rev = rev := by
  unfold addLiability at h
  rw [hpool] at h
  dsimp only at h
  split at h
  · cases h
  · next hrev => exact Decidable.not_not.1 hrev

/-- Of positive entries the last one counts. -/
theorem foldl_replayLiability {ls : List Liability} (h : ∀ l ∈ ls, 0 < l.stamp)
    (liable : Option Id) :
    ls.foldl replayLiability liable = (ls.getLast?.map Liability.process).or liable := by
  induction ls generalizing liable with
  | nil => rfl
  | cons l rest ih =>
    obtain ⟨hl, hrest⟩ := List.forall_mem_cons.1 h
    rw [List.foldl_cons, ih hrest, replayLiability, if_pos hl, List.getLast?_cons]
    cases rest.getLast? <;> rfl

/-- A log whose entries for a pool are positive makes the process of the last one liable. -/
theorem liable?_eq {s : Store} {pool : Id} (h : ∀ l ∈ s.liabilities, l.pool = pool → 0 < l.stamp) :
    s.liable? pool =
      ((s.liabilities.filter fun l => l.pool = pool).getLast?.map Liability.process).bind
        s.members.get? := by
  rw [liable?, foldl_replayLiability, Option.or_none]
  intro l hl
  obtain ⟨hmem, hpool⟩ := List.mem_filter.1 hl
  exact h l hmem (of_decide_eq_true hpool)

end Store

namespace Engine

variable {e e' : Engine}

theorem Declares.liabilities_eq (h : e.Declares e') :
    e'.store.liabilities = e.store.liabilities := by
  cases h with
  | nothing hs => rw [hs]
  | type _ hs => rw [hs]
  | sig _ hs => rw [hs]
  | pool h =>
    unfold Store.addPool at h
    split at h
    · cases h
    · rw [← Except.ok.inj h]

theorem Redefines.liabilities_eq (h : e.Redefines e') :
    e'.store.liabilities = e.store.liabilities := by
  cases h with
  | nothing hs => rw [hs]
  | type _ hs => rw [hs]

end Engine

namespace Session

variable {s s' : Session} {ks : List Transaction} {ts ts' : List Transfer}

/-- The last transfer of a pool in a run. -/
def lastTransfer? (s : Session) (acts : List Act) (pool : Id) : Option Transfer :=
  ((s.transfers acts).filter fun t => t.pool = pool).getLast?

/-- A session after some transfers. -/
structure Ledger (s : Session) (ts : List Transfer) : Prop extends s.Tracked where
  entries : (s.engine.store.liabilities.map fun l => (l.pool, l.process)) =
    ts.map fun t => (t.pool, t.process)
  /-- Entries were stamped with revisions that their pools have come to. -/
  stamps : ∀ l ∈ s.engine.store.liabilities, ∃ rev now, l.stamp = Rev.introStamp rev ∧
    0 < rev.value ∧ s.engine.store.pools.get? l.pool = some now ∧ rev.value ≤ now.rev.value
  homes : ∀ t ∈ ts, s.engine.store.poolOf? t.process = some t.pool
  founded : ∀ {p q : Id}, s.engine.store.poolOf? p = some q → (⟨q, p, true⟩ : Transfer) ∈ ts

theorem ledger_start (settings : Settings) (ids : Supply) :
    (Engine.start settings ids).session.Ledger [] :=
  ⟨tracked_start settings ids, rfl, nofun, nofun, nofun⟩

/-- A stroke that transfers nothing. -/
theorem Ledger.quiet (h : s.Ledger ts) (ht : s'.Tracked)
    (ha : s.engine.store.Ages s'.engine.store)
    (hm : s'.engine.store.members = s.engine.store.members)
    (hl : s'.engine.store.liabilities = s.engine.store.liabilities) : s'.Ledger ts := by
  have hpoolOf : s'.engine.store.poolOf? = s.engine.store.poolOf? := by
    funext p
    rw [Store.poolOf?, hm]
    rfl
  refine ⟨ht, hl ▸ h.entries, ?_, hpoolOf ▸ h.homes, hpoolOf ▸ h.founded⟩
  rw [hl]
  intro l hmem
  obtain ⟨rev, now, hstamp, hpos, hnow, hle⟩ := h.stamps l hmem
  obtain ⟨now', hnow', hle'⟩ := ha hnow
  exact ⟨rev, now', hstamp, hpos, hnow', Nat.le_trans hle hle'⟩

/-- A stroke that makes one transfer: the process lives in the pool then, and the log has an entry
for it with the revision that the pool has come to. -/
theorem Ledger.transfer (h : s.Ledger ts) (ht : s'.Tracked)
    (ha : s.engine.store.Ages s'.engine.store) (t : Transfer) {now : Pool}
    (hl : s'.engine.store.liabilities =
      s.engine.store.liabilities ++ [⟨t.pool, t.process, now.rev.introStamp⟩])
    (hnow : s'.engine.store.pools.get? t.pool = some now) (hpos : 0 < now.rev.value)
    (hkept : ∀ {p q : Id}, s.engine.store.poolOf? p = some q → s'.engine.store.poolOf? p = some q)
    (hhome : s'.engine.store.poolOf? t.process = some t.pool)
    (hnew : ∀ {p q : Id}, s'.engine.store.poolOf? p = some q →
      s.engine.store.poolOf? p = some q ∨ t = ⟨q, p, true⟩) : s'.Ledger (ts ++ [t]) := by
  refine ⟨ht, ?_, ?_, ?_, ?_⟩
  · rw [hl, List.map_append, List.map_append, h.entries]
    rfl
  · rw [hl]
    refine List.forall_mem_append.2 ⟨fun l hmem => ?_, List.forall_mem_singleton.2
      ⟨now.rev, now, rfl, hpos, hnow, Nat.le_refl _⟩⟩
    obtain ⟨rev, old, hstamp, hpos', hold, hle⟩ := h.stamps l hmem
    obtain ⟨now', hnow', hle'⟩ := ha hold
    exact ⟨rev, now', hstamp, hpos', hnow', Nat.le_trans hle hle'⟩
  · exact List.forall_mem_append.2
      ⟨fun u hu => hkept (h.homes u hu), List.forall_mem_singleton.2 hhome⟩
  · intro p q hp
    rcases hnew hp with hold | rfl
    · exact List.mem_append_left _ (h.founded hold)
    · exact List.mem_append_right _ (List.mem_singleton_self _)

/-- What a stroke transfers, it adds to the log. -/
theorem Ledger.stroke (h : s.Ledger ts) (hst : s.Stroke s' ks ts') : s'.Ledger (ts ++ ts') := by
  have htracked := h.toTracked.stroke hst
  have hages : s.engine.store.Ages s'.engine.store := hst.ages
  have hkept : ∀ {p q : Id}, s.engine.store.poolOf? p = some q →
      s'.engine.store.poolOf? p = some q := h.toTracked.poolOf?_stroke hst
  cases hst with
  | declares hd =>
    rw [List.append_nil]
    exact h.quiet htracked hages hd.leaves.members hd.liabilities_eq
  | redefines hr =>
    rw [List.append_nil]
    exact h.quiet htracked hages hr.leaves.members hr.liabilities_eq
  | propose _ hs =>
    rw [List.append_nil]
    exact h.quiet htracked hages (by rw [hs]) (by rw [hs])
  | forget he =>
    rw [List.append_nil]
    exact h.quiet htracked hages (by rw [he]) (by rw [he])
  | @commit p hmem hc =>
    obtain ⟨-, ⟨hnone, hm, hl⟩ | ⟨pool, sig, now, hsome, hm, hnow, hpos, hl⟩⟩ :=
      h.toTracked.commit_cases hmem hc
    · rw [hnone, Option.toList_none, List.append_nil]
      exact h.quiet htracked hages hm hl
    · rw [hsome, Option.toList_some]
      have hpoolOf : ∀ q, s'.engine.store.poolOf? q =
          if q = p.process then some pool else s.engine.store.poolOf? q := by
        intro q
        rw [Store.poolOf?, hm, Table.get?_insert]
        split <;> rfl
      refine h.transfer htracked hages _ hl hnow hpos hkept ?_ ?_
      · exact (hpoolOf _).trans (if_pos rfl)
      · intro q r hq
        rw [hpoolOf] at hq
        split at hq
        · next he =>
          cases hq
          rw [he]
          exact .inr rfl
        · exact .inl hq
  | @handOff pool process rev hhome ha =>
    obtain ⟨old, hold, hs⟩ := Store.get?_pools_addLiability ha
    have hrev : old.bumped.rev = rev.next := by
      rw [← Store.rev_of_addLiability ha hold]
      rfl
    have hpoolOf : s'.engine.store.poolOf? = s.engine.store.poolOf? := by
      rw [hs]
      rfl
    have hnow : s'.engine.store.pools.get? pool = some old.bumped := by
      rw [hs]
      exact Table.get?_insert_self ..
    have hlog : s'.engine.store.liabilities =
        s.engine.store.liabilities ++ [⟨pool, process, old.bumped.rev.introStamp⟩] := by
      rw [hs, hrev]
    exact h.transfer htracked hages ⟨pool, process, false⟩ hlog hnow (Nat.succ_pos _) hkept
      (hkept hhome) fun hq => .inl (hpoolOf ▸ hq)

/-- Runs of acts keep the ledger. -/
theorem ledger_final (settings : Settings) (ids : Supply) (acts : List Act) :
    ((Engine.start settings ids).session.final acts).Ledger
      ((Engine.start settings ids).session.transfers acts) :=
  (strokes_final acts (Engine.start settings ids).session).keeps (I := fun s _ ts => s.Ledger ts)
    Ledger.stroke (ledger_start settings ids)

/-- The log of a pool that has stayed young makes the last one liable to whom the pool was
transferred. -/
theorem Ledger.liable?_eq (h : s.Ledger ts) {pool : Id}
    (hyoung : ∀ now, s.engine.store.pools.get? pool = some now → now.rev.value < 2 ^ 63) :
    s.engine.store.liable? pool =
      ((ts.filter fun t => t.pool = pool).getLast?.map Transfer.process).bind
        s.engine.store.members.get? := by
  have hpositive : ∀ l ∈ s.engine.store.liabilities, l.pool = pool → 0 < l.stamp := by
    rintro l hmem rfl
    obtain ⟨rev, now, hstamp, hpos, hnow, hle⟩ := h.stamps l hmem
    rw [hstamp]
    exact Rev.introStamp_pos ⟨hpos, Nat.lt_of_le_of_lt hle (hyoung now hnow)⟩
  rw [Store.liable?_eq hpositive, ← List.getLast?_map, ← List.getLast?_map]
  -- the two lists name the same pools and processes
  have hsame := congrArg (fun l => (l.filter fun e => e.1 = pool).map Prod.snd) h.entries
  simp only [List.filter_map, List.map_map, Function.comp_def] at hsame
  rw [hsame]

/-- Liability follows the last transfer. In every session, the process that is liable for a pool is
the last one that was created in the pool, called or spawned into it, or that the pool was handed on
to, whatever was proposed, committed late or rejected on the way. It is on record and lives in the
pool; and nobody is liable exactly as long as no process has been created in the pool. The pool is to
be below revision 2⁶³: from there on its stamps change sign, and the positive one no longer stands
for the process in charge. -/
theorem liable_of_last_transfer (settings : Settings) (ids : Supply) (acts : List Act)
    {s : Session} (hs : s = (Engine.start settings ids).session.final acts) (pool : Id)
    (hyoung : ∀ now, s.engine.store.pools.get? pool = some now → now.rev.value < 2 ^ 63) :
    (s.engine.store.liable? pool).map Member.id =
        ((Engine.start settings ids).session.lastTransfer? acts pool).map Transfer.process ∧
      (∀ m, s.engine.store.liable? pool = some m →
        s.engine.store.members.get? m.id = some m ∧ m.pool = pool) ∧
      (s.engine.store.liable? pool = none ↔
        ∀ t ∈ (Engine.start settings ids).session.transfers acts, t.isNew = true →
          t.pool ≠ pool) := by
  have h := ledger_final settings ids acts
  rw [← hs] at h
  have hliable := h.liable?_eq hyoung
  unfold lastTransfer?
  generalize (Engine.start settings ids).session.transfers acts = ts at h hliable ⊢
  cases hlast : (ts.filter fun t => t.pool = pool).getLast? with
  | none =>
    rw [hlast] at hliable
    have hnobody : s.engine.store.liable? pool = none := hliable
    -- no transfer names the pool, so none that founds does
    have hnever : ∀ t ∈ ts, t.pool ≠ pool := by
      intro t ht he
      exact List.filter_eq_nil_iff.1 (List.getLast?_eq_none_iff.1 hlast) t ht (decide_eq_true he)
    rw [hnobody]
    exact ⟨rfl, nofun, fun _ t ht _ => hnever t ht, fun _ => rfl⟩
  | some t =>
    obtain ⟨ht, hpool⟩ := List.mem_filter.1 (List.mem_of_getLast? hlast)
    have hhome := h.homes t ht
    rw [of_decide_eq_true hpool] at hhome
    -- the process of the last transfer is on record
    obtain ⟨m, hm, hmpool⟩ := Option.map_eq_some_iff.1 hhome
    obtain ⟨hid, -⟩ := h.named hm
    have hsome : s.engine.store.liable? pool = some m := by
      rw [hliable, hlast]
      exact hm
    rw [hsome]
    refine ⟨congrArg some hid, ?_, nofun, fun hnone => ?_⟩
    · rintro m' ⟨⟩
      rw [hid]
      exact ⟨hm, hmpool⟩
    · -- whoever lives in the pool was founded there
      exact absurd rfl (hnone _ (h.founded hhome) rfl)

/-- The closer that was spawned late is liable for its pool, and the pool of the other one is not
handed on. -/
theorem liable_of_last_transfer_spawned :
    ((((Engine.start {} ⟨0⟩).session.final lateSpawn).engine.store.liable? (.nth 4)).map Member.id =
        some (.nth 9)) ∧
      ((Engine.start {} ⟨0⟩).session.transfers lateSpawn).length = 2 := by
  have hyoung : ((Engine.start {} ⟨0⟩).session.final lateSpawn).engine.store.Young :=
    Store.young_of_values (by decide +kernel)
  rw [(liable_of_last_transfer {} ⟨0⟩ lateSpawn rfl (.nth 4) (hyoung _)).1]
  exact ⟨by decide +kernel, by decide +kernel⟩

end Session

end Rendezvous
