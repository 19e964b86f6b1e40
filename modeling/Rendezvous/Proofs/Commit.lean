import Rendezvous.Proofs.Live

/-!
# What a commit does

- `commit_eq_ok_iff`: a commit goes through exactly if every lock holds (`Locked`), no pool of the
  change exists, and the operations on halves fit one after the other (`SlotsFit`); the store then
  has the change made;
- `live_apply`, `get?_pools_apply`, `poolOf?_apply` say what a change that is made does to live
  bindings, pools and processes. Halves are the slot operations replayed, by definition.
-/

namespace Rendezvous

/-- One computation after the other succeeds exactly if both do. -/
theorem except_bind_eq_ok {ε α β : Type} {x : Except ε α} {f : α → Except ε β} {b : β} :
    (x >>= f) = .ok b ↔ ∃ a, x = .ok a ∧ f a = .ok b := by
  cases x with
  | error e => exact ⟨fun h => (nomatch h), fun ⟨_, h, _⟩ => (nomatch h)⟩
  | ok a =>
    constructor
    · intro h
      exact ⟨a, rfl, h⟩
    · rintro ⟨_, h, hf⟩
      cases h
      exact hf

/-- A pool after a commit that locked it. -/
def Pool.bumped (pool : Pool) : Pool := { pool with rev := pool.rev.next }

namespace Store

/-! ## Conditions -/

/-- Every lock names a pool of the store at its revision. -/
def Locked (s : Store) (locks : List Lock) : Prop :=
  ∀ lock ∈ locks, ∃ pool, s.pools.get? lock.pool = some pool ∧ pool.rev = lock.rev

/-- Operations on halves fit: each finds its channel as it needs it, after those before it. -/
def SlotsFit (halves : Table Id Half) : List SlotOp → Prop
  | [] => True
  | op :: rest => halves.contains op.channel = wantsHalf op ∧ SlotsFit (applySlot halves op) rest

theorem checkLocks_eq_ok {s : Store} {locks : List Lock} :
    s.checkLocks locks = .ok () ↔ s.Locked locks := by
  induction locks with
  | nil => simp [checkLocks, Locked]
  | cons lock rest ih =>
    rw [checkLocks, Locked, List.forall_mem_cons]
    cases hpool : s.pools.get? lock.pool with
    | none => exact ⟨fun h => (nomatch h), fun ⟨⟨_, h, _⟩, _⟩ => (nomatch h)⟩
    | some pool =>
      dsimp only
      by_cases hrev : pool.rev = lock.rev
      · rw [if_neg (fun h => h hrev), ih]
        exact ⟨fun h => ⟨⟨pool, rfl, hrev⟩, h⟩, fun h => h.2⟩
      · rw [if_pos hrev]
        refine ⟨fun h => (nomatch h), ?_⟩
        rintro ⟨⟨_, h, hr⟩, -⟩
        cases h
        exact absurd hr hrev

theorem checkPools_eq_ok {s : Store} {pools : List Pool} :
    s.checkPools pools = .ok () ↔ ∀ pool ∈ pools, s.pools.get? pool.id = none := by
  unfold checkPools
  cases hf : pools.find? fun pool => s.pools.contains pool.id with
  | none =>
    refine ⟨fun _ pool hpool => ?_, fun _ => rfl⟩
    have := List.find?_eq_none.1 hf pool hpool
    exact (s.pools.contains_eq_false_iff).1 (by simpa using this)
  | some pool =>
    refine ⟨fun h => (nomatch h), fun h => ?_⟩
    have hmem := List.mem_of_find?_eq_some hf
    have hcon := List.find?_some hf
    rw [(s.pools.contains_eq_false_iff).2 (h pool hmem)] at hcon
    cases hcon

/-- A table of occupied channels that agrees with some halves. -/
def Tracks (s : Store) (touched : Table Id Bool) (halves : Table Id Half) : Prop :=
  ∀ c, (touched.get? c).getD (s.halves.contains c) = halves.contains c

theorem contains_applySlot {halves : Table Id Half} {op : SlotOp} (c : Id) :
    (applySlot halves op).contains c =
      if c = op.channel then !wantsHalf op else halves.contains c := by
  cases op with
  | put half =>
    simp only [applySlot, Table.contains, Table.get?_insert, SlotOp.channel, wantsHalf]
    by_cases hc : c = half.channel <;> simp [hc]
  | take channel =>
    simp only [applySlot, Table.contains, Table.get?_erase, SlotOp.channel, wantsHalf]
    by_cases hc : c = channel <;> simp [hc]

theorem checkSlots_eq_ok {s : Store} {ops : List SlotOp} {touched : Table Id Bool}
    {halves : Table Id Half} (h : s.Tracks touched halves) :
    s.checkSlots touched ops = .ok () ↔ SlotsFit halves ops := by
  induction ops generalizing touched halves with
  | nil => simp [checkSlots, SlotsFit]
  | cons op rest ih =>
    rw [checkSlots, SlotsFit, h op.channel]
    by_cases hop : halves.contains op.channel = wantsHalf op
    · rw [if_neg (fun hn => hn hop), and_iff_right hop]
      refine ih fun c => ?_
      rw [Table.get?_insert, contains_applySlot, hop]
      by_cases hc : c = op.channel
      · rw [if_pos hc, if_pos hc, Option.getD_some]
      · rw [if_neg hc, if_neg hc, h c]
    · rw [if_pos hop]
      exact ⟨fun h => (nomatch h), fun h => absurd h.1 hop⟩

/-- A commit goes through exactly under its three conditions, and then makes its change. -/
theorem commit_eq_ok_iff {s s' : Store} {c : Change} :
    s.commit c = .ok s' ↔
      s.Locked c.locks ∧ (∀ pool ∈ c.pools, s.pools.get? pool.id = none) ∧
        SlotsFit s.halves c.slots ∧ s' = s.apply c := by
  have htracks : s.Tracks ∅ s.halves := fun _ => rfl
  rw [← checkLocks_eq_ok, ← checkPools_eq_ok, ← checkSlots_eq_ok htracks]
  unfold commit
  simp only [except_bind_eq_ok]
  constructor
  · rintro ⟨_, hl, _, hp, _, hs, h⟩
    cases h
    exact ⟨hl, hp, hs, rfl⟩
  · rintro ⟨hl, hp, hs, rfl⟩
    exact ⟨(), hl, (), hp, (), hs, rfl⟩

theorem slotsFit_append {halves : Table Id Half} {ops ops' : List SlotOp} :
    SlotsFit halves (ops ++ ops') ↔
      SlotsFit halves ops ∧ SlotsFit (ops.foldl applySlot halves) ops' := by
  induction ops generalizing halves with
  | nil => simp [SlotsFit]
  | cons op rest ih => rw [List.cons_append, SlotsFit, SlotsFit, ih, List.foldl_cons, and_assoc]

/-! ## Pools and processes -/

theorem foldl_rehome_frame (homes : List Endpoint) (s : Store) :
    (homes.foldl rehome s).decls = s.decls ∧ (homes.foldl rehome s).members = s.members ∧
      (homes.foldl rehome s).pools = s.pools := by
  induction homes generalizing s with
  | nil => exact ⟨rfl, rfl, rfl⟩
  | cons home rest ih => exact ih (s.rehome home)

@[simp] theorem decls_apply (s : Store) (c : Change) : (s.apply c).decls = s.decls :=
  (foldl_rehome_frame c.homes _).1

@[simp] theorem halves_apply (s : Store) (c : Change) :
    (s.apply c).halves = c.slots.foldl applySlot s.halves := rfl

theorem members_apply (s : Store) (c : Change) :
    (s.apply c).members = c.members.foldl (fun t m => t.insert m.id m) s.members :=
  (foldl_rehome_frame c.homes _).2.1

theorem pools_apply (s : Store) (c : Change) :
    (s.apply c).pools =
      c.pools.foldl (fun t pool => t.insert pool.id pool) (bumpPools s.pools c.locks) :=
  (foldl_rehome_frame c.homes _).2.2

theorem bumpPools_cons {t : Table Id Pool} {lock : Lock} {pool : Pool}
    (h : t.get? lock.pool = some pool) (rest : List Lock) :
    bumpPools t (lock :: rest) =
      bumpPools (t.insert lock.pool { pool with rev := lock.rev.next }) rest := by
  rw [bumpPools, List.foldl_cons, h]
  rfl

/-- A locked pool moves on by one revision, and the others stay. -/
theorem get?_bumpPools {pools : Table Id Pool} {locks : List Lock}
    (h : ∀ lock ∈ locks, ∃ pool, pools.get? lock.pool = some pool ∧ pool.rev = lock.rev) (p : Id) :
    (bumpPools pools locks).get? p =
      (pools.get? p).map fun pool => if p ∈ locks.map Lock.pool then pool.bumped else pool := by
  -- `done` are the pools that the locks before these have moved on
  suffices hmain : ∀ (done : List Id) (t : Table Id Pool),
      (∀ q, t.get? q = (pools.get? q).map fun pool => if q ∈ done then pool.bumped else pool) →
      (bumpPools t locks).get? p = (pools.get? p).map fun pool =>
        if p ∈ done ∨ p ∈ locks.map Lock.pool then pool.bumped else pool by
    simpa using hmain [] pools fun q => by cases pools.get? q <;> simp
  induction locks with
  | nil => exact fun done t ht => by simpa [bumpPools] using ht p
  | cons lock rest ih =>
    intro done t ht
    obtain ⟨pool, hpool, hrev⟩ := h lock List.mem_cons_self
    have hnow := ht lock.pool
    rw [hpool, Option.map_some] at hnow
    rw [bumpPools_cons hnow, ih (fun l hl => h l (List.mem_cons_of_mem _ hl)) (lock.pool :: done)]
    · simp only [List.mem_cons, List.map_cons, or_assoc, or_left_comm]
    · intro q
      rw [Table.get?_insert]
      by_cases hq : q = lock.pool
      · subst hq
        rw [if_pos rfl, hpool, Option.map_some, if_pos List.mem_cons_self]
        by_cases hd : lock.pool ∈ done <;> simp [hd, Pool.bumped, hrev]
      · rw [if_neg hq, ht q]
        simp [hq]

/-- A pool after a change: a new one, or one that was there, moved on if it was locked. -/
theorem get?_pools_apply {s : Store} {c : Change} (h : s.Locked c.locks) {p : Id}
    (hp : ∀ pool ∈ c.pools, pool.id ≠ p) :
    (s.apply c).pools.get? p =
      (s.pools.get? p).map fun pool => if p ∈ c.locks.map Lock.pool then pool.bumped else pool := by
  rw [pools_apply, ← get?_bumpPools h]
  exact Table.get?_foldl_insert_of_ne hp

theorem poolOf?_apply_of_ne {s : Store} {c : Change} {p : Id} (hp : ∀ m ∈ c.members, m.id ≠ p) :
    (s.apply c).poolOf? p = s.poolOf? p := by
  unfold poolOf?
  rw [members_apply, Table.get?_foldl_insert_of_ne hp]

/-- A new pool is there after the change that brings it. -/
theorem get?_pools_apply_new {s : Store} {c : Change} {pool : Pool} (h : c.pools = [pool]) :
    (s.apply c).pools.get? pool.id = some pool := by
  rw [pools_apply, h]
  exact Table.get?_insert_self ..

/-- What a draft stamps its entries with is where the commit leaves the pool. -/
theorem rev_apply_of_stamp? {s : Store} {c : Change} {p : Id} {rev : Rev} (hl : s.Locked c.locks)
    (hn : ∀ pool ∈ c.pools, s.pools.get? pool.id = none) (hone : c.pools.length ≤ 1)
    (h : c.stamp? p = some rev) :
    ∃ pool, (s.apply c).pools.get? p = some pool ∧ pool.rev = rev := by
  unfold Change.stamp? at h
  cases hf : c.locks.find? (·.pool = p) with
  | some lock =>
    rw [hf] at h
    cases h
    have hmem := List.mem_of_find?_eq_some hf
    obtain rfl : lock.pool = p := by simpa using List.find?_some hf
    obtain ⟨pool, hpool, hrev⟩ := hl lock hmem
    refine ⟨pool.bumped, ?_, by rw [Pool.bumped, hrev]⟩
    rw [get?_pools_apply hl, hpool, Option.map_some, if_pos (List.mem_map.2 ⟨lock, hmem, rfl⟩)]
    intro new hnew he
    rw [← he, hn new hnew] at hpool
    cases hpool
  | none =>
    rw [hf] at h
    obtain ⟨pool, hpool, rfl⟩ := Option.map_eq_some_iff.1 h
    have hmem := List.mem_of_find?_eq_some hpool
    obtain rfl : pool.id = p := by simpa using List.find?_some hpool
    have hsingle : c.pools = [pool] := by
      cases hps : c.pools with
      | nil => rw [hps] at hmem; cases hmem
      | cons q rest =>
        rw [hps] at hone hmem
        obtain rfl : rest = [] := List.eq_nil_of_length_eq_zero (by simpa using hone)
        rw [List.mem_singleton.1 hmem]
    exact ⟨pool, get?_pools_apply_new hsingle, rfl⟩

/-! ## Bindings -/

/-- Bringing channels home one after the other. -/
theorem live_foldl_rehome (homes : List Endpoint) {s : Store}
    (h : ∀ p ph e, s.live p ph = some e → (∃ home ∈ homes, e.channel = home.channel) →
      s.Stamped p) :
    (homes.foldl rehome s).live = homes.foldl Live.rehomed s.live := by
  induction homes generalizing s with
  | nil => rfl
  | cons home rest ih =>
    have hlive : (s.rehome home).live = s.live.rehomed home :=
      live_rehome fun p ph e he hc => h p ph e he ⟨home, List.mem_cons_self, hc⟩
    rw [List.foldl_cons, List.foldl_cons, ih, hlive]
    rintro p ph e he ⟨home', hmem, hc⟩
    rw [hlive, Live.rehomed, Option.map_eq_some_iff] at he
    obtain ⟨e', he', rfl⟩ := he
    -- a binding that comes home stays on its channel
    have hsame : e'.channel = home'.channel := by
      rw [← hc]
      split
      · assumption
      · rfl
    exact h p ph e' he' ⟨home', List.mem_cons_of_mem _ hmem, hsame⟩

/-- The live bindings after a change: its marks first, then its homes. -/
theorem live_apply {s : Store} {c : Change} {marks : List Mark} {rev : Mark → Rev}
    (hb : c.bindings = marks.map fun k => k.stamped (rev k)) (hrev : ∀ k ∈ marks, (rev k).Sized)
    (hs : ∀ p ph e, s.live.after marks p ph = some e →
      (∃ home ∈ c.homes, e.channel = home.channel) → (s.apply c).Stamped p) :
    (s.apply c).live = c.homes.foldl Live.rehomed (s.live.after marks) := by
  have hmoved : ∀ (pools : Table Id Pool) (members : Table Id Member),
      live { s with pools, members, log := s.log ++ c.bindings } = s.live.after marks := by
    intro pools members
    rw [hb, ← Live.foldl_entered_stamped hrev, ← live_append]
    rfl
  have hhomes := live_foldl_rehome c.homes
    (s := { s with
      pools := c.pools.foldl (fun t pool => t.insert pool.id pool) (bumpPools s.pools c.locks)
      members := c.members.foldl (fun t m => t.insert m.id m) s.members
      log := s.log ++ c.bindings }) fun p ph e he hhome => by
        rw [hmoved] at he
        obtain ⟨q, pool, hq, hpool, hsized⟩ := hs p ph e he hhome
        rw [poolOf?, members_apply] at hq
        rw [pools_apply] at hpool
        exact ⟨q, pool, hq, hpool, hsized⟩
  rw [hmoved] at hhomes
  exact hhomes

end Store

end Rendezvous
