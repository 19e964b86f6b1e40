import Rendezvous.Proofs.Calls

/-!
# Commits as strict replays

A commit checks its operations on halves against a table of occupied channels before it touches
anything, and makes them afterwards, when pools, processes and bindings have been changed already.
`Store.execute` is the plain reading of these operations: one after the other on the halves
themselves, where a put fails on an occupied channel and a take on an empty one. The two agree
(`Store.execute_eq_some_iff`), whatever the operations are and in whatever order they come.

Homes are applied one by one to the binding log. As long as they name different channels they do not
meet, so that each live binding is replaced once or stays (`Store.bindings_foldl_rehome`); it keeps
its place among the bindings either way.
-/

namespace Rendezvous

/-! ## Tables -/

namespace Table

variable {κ α : Type} [DecidableEq κ]

theorem keys_insert_of_mem {t : Table κ α} {k : κ} (h : k ∈ t.keys) (v : α) :
    (t.insert k v).keys = t.keys := by
  rw [keys, entries_insert_of_mem h, map_fst_replaced]
  rfl

/-- Tables with the same keys in the same order, whose values differ by `f`. -/
theorem entries_eq_map {t t' : Table κ α} {f : κ → α → α} (hkeys : t'.keys = t.keys)
    (h : ∀ k, t'.get? k = (t.get? k).map (f k)) :
    t'.entries = t.entries.map fun e => (e.1, f e.1 e.2) := by
  have hlength : t'.entries.length = t.entries.length := by
    simpa [keys] using congrArg List.length hkeys
  refine List.ext_getElem (by rw [hlength, List.length_map]) fun i hi hi' => ?_
  rw [List.length_map] at hi'
  have hkey : t'.entries[i].1 = t.entries[i].1 := by
    have := congrArg (·[i]?) hkeys
    simpa [keys, hi, hi'] using this
  have hnew : t'.get? t'.entries[i].1 = some t'.entries[i].2 :=
    t'.mem_entries_iff.1 (List.getElem_mem hi)
  have hold : t.get? t.entries[i].1 = some t.entries[i].2 :=
    t.mem_entries_iff.1 (List.getElem_mem hi')
  rw [List.getElem_map]
  rw [hkey, h, hold, Option.map_some, Option.some.injEq] at hnew
  exact Prod.ext hkey hnew.symm

end Table

namespace Store

/-! ## Halves -/

/-- Operations on halves one after the other. -/
def execute (halves : Table Id Half) : List SlotOp → Option (Table Id Half)
  | [] => some halves
  | .put half :: rest =>
    if halves.contains half.channel then none
    else execute (halves.insert half.channel half) rest
  | .take channel :: rest =>
    if halves.contains channel then execute (halves.erase channel) rest else none

/-- Executing operations is to apply them where they fit. -/
theorem execute_eq_some_iff {halves halves' : Table Id Half} {ops : List SlotOp} :
    execute halves ops = some halves' ↔
      SlotsFit halves ops ∧ halves' = ops.foldl applySlot halves := by
  induction ops generalizing halves with
  | nil =>
    rw [execute, SlotsFit, true_and, Option.some.injEq]
    exact eq_comm
  | cons op rest ih =>
    cases op with
    | put half =>
      rw [execute, SlotsFit, List.foldl_cons, SlotOp.channel, wantsHalf]
      by_cases h : halves.contains half.channel = true
      · simp [h]
      · rw [if_neg h, ih]
        exact and_congr_left fun _ => (and_iff_right (Bool.eq_false_iff.2 h)).symm
    | take channel =>
      rw [execute, SlotsFit, List.foldl_cons, SlotOp.channel, wantsHalf]
      by_cases h : halves.contains channel = true
      · rw [if_pos h, ih]
        exact and_congr_left fun _ => (and_iff_right h).symm
      · simp [h]

/-! ## Homes -/

/-- All pools are at revisions whose stamps keep their sign. -/
def SizedPools (s : Store) : Prop := ∀ p pool, s.pools.get? p = some pool → pool.rev.Sized

theorem sized_of_settled {s : Store} (hs : s.SizedPools) {p : Id} {pool : Pool}
    (h : (s.poolOf? p).bind s.pools.get? = some pool) : pool.rev.Sized := by
  obtain ⟨q, -, hq⟩ := Option.bind_eq_some_iff.1 h
  exact hs q pool hq

/-- Entries that bind placeholders which are bound already keep the order of bindings. -/
theorem keys_foldl_replay {bs : List Binding} {t : Table (Id × Sym) Endpoint}
    (h : ∀ b ∈ bs, b.isIntro = true ∧ (b.process, b.placeholder) ∈ t.keys) :
    (bs.foldl replay t).keys = t.keys := by
  induction bs generalizing t with
  | nil => rfl
  | cons b rest ih =>
    obtain ⟨hintro, hkey⟩ := h b List.mem_cons_self
    have hkeys : (replay t b).keys = t.keys := by
      rw [replay, if_pos hintro]
      exact Table.keys_insert_of_mem hkey _
    rw [List.foldl_cons, ih, hkeys]
    intro b' hb'
    rw [hkeys]
    exact h b' (List.mem_cons_of_mem _ hb')

theorem keys_bindings_rehome {s : Store} (hs : s.SizedPools) (home : Endpoint) :
    (s.rehome home).bindings.keys = s.bindings.keys := by
  have hlog : (s.rehome home).bindings = (s.homecoming home).foldl replay s.bindings :=
    List.foldl_append
  rw [hlog]
  refine keys_foldl_replay fun b hb => ?_
  obtain ⟨e, pool, hlive, -, -, hpool, -, hstamp⟩ := mem_homecoming.1 hb
  refine ⟨?_, Table.mem_keys_of_get?_eq_some hlive⟩
  rw [Binding.isIntro, hstamp]
  exact decide_eq_true (Rev.introStamp_pos (sized_of_settled hs hpool))

/-- What a binding of process `p` is replaced by when homes are applied: the home of its channel, if
there is one and the process and its pool exist. -/
def homed (s : Store) (homes : List Endpoint) (p : Id) (e : Endpoint) : Endpoint :=
  if s.settled p then (homes.find? fun home => home.channel = e.channel).getD e else e

theorem homed_cons {s : Store} {home : Endpoint} {rest : List Endpoint}
    (h : home.channel ∉ rest.map Endpoint.channel) (p : Id) (e : Endpoint) :
    s.homed (home :: rest) p e =
      s.homed rest p (if e.channel = home.channel ∧ s.settled p = true then home else e) := by
  unfold homed
  by_cases hp : s.settled p = true
  · by_cases hc : e.channel = home.channel
    · have hnone : rest.find? (fun other => other.channel = home.channel) = none := by
        rw [List.find?_eq_none]
        intro other hmem heq
        exact h (List.mem_map.2 ⟨other, hmem, of_decide_eq_true heq⟩)
      simp [hp, hc, hnone]
    · simp [hp, hc, Ne.symm hc]
  · simp [hp]

/-- Homes of different channels replace the bindings of these channels. -/
theorem live_foldl_rehome_settled {homes : List Endpoint} {s : Store} (hs : s.SizedPools)
    (hn : (homes.map Endpoint.channel).Nodup) (p : Id) (ph : Sym) :
    (homes.foldl rehome s).live p ph = (s.live p ph).map (s.homed homes p) := by
  induction homes generalizing s with
  | nil =>
    have hid : s.homed [] p = id := funext fun e => ite_self _
    rw [hid, Option.map_id]
    rfl
  | cons home rest ih =>
    obtain ⟨hnot, hrest⟩ := List.nodup_cons.1 hn
    have hfirst := @live_rehome_settled s home fun _ _ _ _ _ _ => sized_of_settled hs
    rw [List.foldl_cons, ih (s := s.rehome home) hs hrest, hfirst, Option.map_map]
    exact Option.map_congr fun e _ => (homed_cons hnot p e).symm

theorem keys_bindings_foldl_rehome (homes : List Endpoint) {s : Store} (hs : s.SizedPools) :
    (homes.foldl rehome s).bindings.keys = s.bindings.keys := by
  induction homes generalizing s with
  | nil => rfl
  | cons home rest ih =>
    rw [List.foldl_cons, ih (s := s.rehome home) hs, keys_bindings_rehome hs]

/-- Homes of different channels replace the bindings of these channels in place. -/
theorem bindings_foldl_rehome {homes : List Endpoint} {s : Store} (hs : s.SizedPools)
    (hn : (homes.map Endpoint.channel).Nodup) :
    (homes.foldl rehome s).bindings.entries =
      s.bindings.entries.map fun b => (b.1, s.homed homes b.1.1 b.2) := by
  have hlive : ∀ k : Id × Sym, (homes.foldl rehome s).bindings.get? k =
      (s.bindings.get? k).map (s.homed homes k.1) :=
    fun k => live_foldl_rehome_settled hs hn k.1 k.2
  exact Table.entries_eq_map (keys_bindings_foldl_rehome homes hs) hlive

/-! ## Commits -/

theorem sizedPools_apply {s : Store} {c : Change} (hl : s.Locked c.locks)
    (hs : ∀ p pool, s.pools.get? p = some pool → 1 ≤ pool.rev.value ∧ pool.rev.value ≤ 2 ^ 63 - 2)
    (hc : ∀ pool ∈ c.pools, 1 ≤ pool.rev.value ∧ pool.rev.value ≤ 2 ^ 63 - 2) :
    (s.apply c).SizedPools := by
  intro p pool hp
  rw [pools_apply] at hp
  rcases Table.get?_or_mem_of_foldl_insert hp with hp | ⟨pool, hmem, -, rfl⟩
  · rw [get?_bumpPools hl] at hp
    obtain ⟨old, hold, rfl⟩ := Option.map_eq_some_iff.1 hp
    obtain ⟨hone, hmax⟩ := hs p old hold
    split
    · exact ⟨Nat.succ_pos _, by show old.rev.value + 1 < _; omega⟩
    · exact ⟨hone, by omega⟩
  · obtain ⟨hone, hmax⟩ := hc pool hmem
    exact ⟨hone, by omega⟩

/-- The live bindings that a change leaves. -/
theorem bindings_apply {s : Store} {c : Change} (hs : (s.apply c).SizedPools)
    (hn : (c.homes.map Endpoint.channel).Nodup) :
    (s.apply c).bindings.entries = (bindingsIn (s.log ++ c.bindings)).entries.map fun b =>
      (b.1, (s.apply c).homed c.homes b.1.1 b.2) := by
  let moved : Store := { s with
    pools := c.pools.foldl (fun t pool => t.insert pool.id pool) (bumpPools s.pools c.locks)
    members := c.members.foldl (fun t m => t.insert m.id m) s.members
    log := s.log ++ c.bindings }
  have hmoved : moved.SizedPools := fun p pool hp => hs p pool ((pools_apply s c).symm ▸ hp)
  have hhomed : (s.apply c).homed = moved.homed := by
    funext homes p e
    rw [homed, settled, poolOf?, members_apply, pools_apply]
    rfl
  rw [hhomed]
  exact bindings_foldl_rehome hmoved hn

end Store

namespace Engine

open Store (execute execute_eq_some_iff)

/-- **A commit is a strict replay of its change, all of it or nothing.** It goes through exactly if

- every lock names a pool at its revision,
- no pool of the change exists,
- and the operations on halves can be executed one after the other.

Halves are then what this leaves. The live bindings are those of the log with the change's entries
appended, and where the homes are of different channels each binding of such a channel is replaced
by its home. A commit that fails leaves the engine as it was. -/
theorem commit_all_or_nothing (e : Engine) (c : Change)
    (hs : ∀ p pool, e.store.pools.get? p = some pool →
      1 ≤ pool.rev.value ∧ pool.rev.value ≤ 2 ^ 63 - 2)
    (hc : ∀ pool ∈ c.pools, 1 ≤ pool.rev.value ∧ pool.rev.value ≤ 2 ^ 63 - 2) :
    ((∃ e', Request.commit c e = .ok () e') ↔
      (∀ lock ∈ c.locks, ∃ pool, e.store.pools.get? lock.pool = some pool ∧
        pool.rev = lock.rev) ∧
      (∀ pool ∈ c.pools, e.store.pools.get? pool.id = none) ∧
      ∃ halves, execute e.store.halves c.slots = some halves) ∧
    (∀ e', Request.commit c e = .ok () e' →
      execute e.store.halves c.slots = some e'.store.halves ∧
      ((c.homes.map Endpoint.channel).Nodup →
        e'.store.bindings.entries =
          (Store.bindingsIn (e.store.log ++ c.bindings)).entries.map fun b =>
            (b.1, e'.store.homed c.homes b.1.1 b.2))) ∧
    ∀ err e', Request.commit c e = .error err e' → e' = e := by
  rw [Request.commit_apply]
  cases hcommit : e.store.commit c with
  | error err =>
    refine ⟨⟨fun ⟨_, h⟩ => (nomatch h), ?_⟩, fun _ h => (nomatch h), ?_⟩
    · rintro ⟨hl, hp, halves, hexec⟩
      have hok := Store.commit_eq_ok_iff.2 ⟨hl, hp, (execute_eq_some_iff.1 hexec).1, rfl⟩
      cases hcommit.symm.trans hok
    · rintro _ _ ⟨⟩
      rfl
  | ok s =>
    obtain ⟨hl, hp, hfit, rfl⟩ := Store.commit_eq_ok_iff.1 hcommit
    have hexec : execute e.store.halves c.slots = some (e.store.apply c).halves :=
      execute_eq_some_iff.2 ⟨hfit, rfl⟩
    refine ⟨⟨fun _ => ⟨hl, hp, _, hexec⟩, fun _ => ⟨_, rfl⟩⟩, ?_, fun _ _ h => (nomatch h)⟩
    rintro _ ⟨⟩
    exact ⟨hexec, Store.bindings_apply (Store.sizedPools_apply hl hs hc)⟩

/-- A change that locks a pool twice, puts and takes and puts again, and brings a channel home. -/
theorem commit_all_or_nothing_repeated :
    let half : Half := .forward ⟨.nth 9, .nth 3, .nth 5, .nth 4⟩
    let home : Endpoint := ⟨.nth 4, .nth 0, .nth 7⟩
    let c : Change := { (∅ : Change) with
      locks := [⟨.nth 3, ⟨2⟩⟩, ⟨.nth 3, ⟨2⟩⟩]
      slots := [.put half, .take (.nth 9), .put half]
      homes := [home] }
    ∃ e', Request.commit c founded = .ok () e' ∧
      execute founded.store.halves c.slots = some e'.store.halves ∧
      e'.store.bindings.entries = (Store.bindingsIn (founded.store.log ++ c.bindings)).entries.map
        (fun b => (b.1, e'.store.homed c.homes b.1.1 b.2)) ∧
      e'.store.live (.nth 5) "x" = some home := by
  intro half home c
  have hpools : ∀ pool ∈ founded.store.pools.values,
      1 ≤ pool.rev.value ∧ pool.rev.value ≤ 2 ^ 63 - 2 := by decide +kernel
  obtain ⟨_, hok⟩ := exists_of_returned? (r := Request.commit c founded) (by decide +kernel)
  obtain ⟨hexec, hbindings⟩ := (commit_all_or_nothing founded c
    (fun _ pool hp => hpools pool (Table.mem_values_of_get?_eq_some hp))
    (fun _ hp => nomatch hp)).2.1 _ hok
  exact ⟨_, hok, hexec, hbindings (by decide), by decide +kernel⟩

end Engine

end Rendezvous
