import Rendezvous.Proofs.Commit
import Rendezvous.Proofs.Moves
import Rendezvous.Proofs.Reading

/-!
# Committed plans

`commits_of_fills`: where the change of a plan has been committed, the store after it is the store
before it with the marks, homes, slots and members of the plan, as long as revisions are below
`2 ^ 63` (`Store.Bounded`).

`Store.Sound` is what every store keeps that is built by requests: tables are filed under their
own names, and whatever acts or is bound has a pool that exists.
-/

namespace Rendezvous

/-- The process that left a half. -/
def Half.process : Half → Id
  | .message m => m.process
  | .service svc => svc.process
  | .forward f => f.process

@[simp] theorem Half.process_movedTo (c : Id) (half : Half) :
    (half.movedTo c).process = half.process := by
  cases half <;> rfl

@[simp] theorem Half.pool_movedTo (c : Id) (half : Half) : (half.movedTo c).pool = half.pool := by
  cases half <;> rfl

namespace Store

/-- Every pool is at a revision whose stamps keep their sign. -/
def Bounded (s : Store) : Prop :=
  ∀ {q : Id} {pool : Pool}, s.pools.get? q = some pool → pool.rev.Sized

/-- Everything that acts or is bound has a home. -/
structure Sound (s : Store) : Prop extends s.Keyed where
  members : ∀ {p q : Id}, s.poolOf? p = some q → ∃ pool, s.pools.get? q = some pool
  live : ∀ {p : Id} {ph : Sym} {e : Endpoint}, s.live p ph = some e → ∃ q, s.poolOf? p = some q
  owners : ∀ {c : Id} {half : Half}, s.halves.get? c = some half →
    s.poolOf? half.process = some half.pool

/-- The store after a plan. -/
structure Commits (s s' : Store) (pl : Plan) : Prop where
  decls : s'.decls = s.decls
  live : s'.live = pl.homes.foldl Live.rehomed (s.live.after pl.marks)
  halves : s'.halves = pl.slots.foldl applySlot s.halves
  fit : SlotsFit s.halves pl.slots
  members : s'.members = pl.members.foldl (fun t m => t.insert m.id m) s.members
  /-- Pools stay; those that are locked move on, and nothing is older than it was. -/
  pools : ∀ {q : Id} {pool : Pool}, s.pools.get? q = some pool →
    ∃ pool', s'.pools.get? q = some pool' ∧ pool'.id = pool.id ∧
      (pool'.rev = pool.rev ∨ pool'.rev = pool.rev.next)
  new : ∀ pool ∈ pl.pools, s.pools.get? pool.id = none
  /-- Every pool is one that was there, or new. -/
  back : ∀ {q : Id} {pool : Pool}, s'.pools.get? q = some pool →
    (∃ old, s.pools.get? q = some old ∧ pool.id = old.id) ∨ pool ∈ pl.pools ∧ pool.id = q
  /-- The pools of all processes that are bound anew exist. -/
  known : ∀ k ∈ pl.marks, ∃ pool, s'.pools.get? k.pool = some pool

variable {s s' : Store}

/-- A plan whose change is committed is carried out, if its entries are stamped with the sign that
they should have. -/
theorem commits_of_sized {pl : Plan} {m : Change} (hd : pl.Fills m)
    (hc : s.commit m = .ok s')
    (hrev : ∀ k ∈ pl.marks, ((m.stamp? k.pool).getD .initial).Sized) (hone : pl.pools.length ≤ 1)
    (hs : ∀ p ph e, s.live.after pl.marks p ph = some e →
      (∃ home ∈ pl.homes, e.channel = home.channel) → s'.Stamped p) : s.Commits s' pl := by
  obtain ⟨hlocks, hpools, hslots, rfl⟩ := commit_eq_ok_iff.1 hc
  have hone' : m.pools.length ≤ 1 := by rw [hd.pools]; exact hone
  have hstill : ∀ {q : Id}, (∀ new ∈ m.pools, new.id ≠ q) → (s.apply m).pools.get? q =
      (s.pools.get? q).map fun pool => if q ∈ m.locks.map Lock.pool then pool.bumped else pool :=
    fun hold => get?_pools_apply hlocks hold
  refine ⟨decls_apply s m, ?_, ?_, ?_, ?_, ?_, ?_, ?_, ?_⟩
  · rw [live_apply hd.bindings hrev, hd.homes]
    rw [hd.homes]
    exact hs
  · rw [halves_apply, hd.slots]
  · rw [← hd.slots]
    exact hslots
  · rw [members_apply, hd.members]
  · intro q pool hq
    have hold : ∀ new ∈ m.pools, new.id ≠ q := by
      intro new hnew he
      rw [← he, hpools new hnew] at hq
      cases hq
    rw [hstill hold, hq, Option.map_some]
    by_cases hl : q ∈ m.locks.map Lock.pool
    · rw [if_pos hl]
      exact ⟨_, rfl, rfl, .inr rfl⟩
    · rw [if_neg hl]
      exact ⟨_, rfl, rfl, .inl rfl⟩
  · rw [← hd.pools]
    exact hpools
  · intro q pool hq
    by_cases hnew : ∃ new ∈ m.pools, new.id = q
    · -- there is one new pool at most, so it is this one
      obtain ⟨new, hmem, rfl⟩ := hnew
      have hall : m.pools = [new] := by
        match hm : m.pools, hone', hmem with
        | [only], _, hmem => rw [List.mem_singleton.1 hmem]
      rw [get?_pools_apply_new hall] at hq
      cases hq
      rw [hd.pools] at hmem
      exact .inr ⟨hmem, rfl⟩
    · rw [hstill fun new hmem he => hnew ⟨new, hmem, he⟩] at hq
      obtain ⟨old, hold, rfl⟩ := Option.map_eq_some_iff.1 hq
      refine .inl ⟨old, hold, ?_⟩
      split <;> rfl
  · intro k hk
    obtain ⟨rev, hr⟩ := hd.stamps k hk
    obtain ⟨pool, hpool, -⟩ := rev_apply_of_stamp? hlocks hpools hone' hr
    exact ⟨pool, hpool⟩

/-- A plan whose change is committed is carried out. -/
theorem commits_of_fills {pl : Plan} {m : Change} (hd : pl.Fills m)
    (hc : s.commit m = .ok s') (hb : s'.Bounded) (hone : pl.pools.length ≤ 1)
    (hs : ∀ p ph e, s.live.after pl.marks p ph = some e →
      (∃ home ∈ pl.homes, e.channel = home.channel) → s'.Stamped p) : s.Commits s' pl := by
  refine commits_of_sized hd hc (fun k hk => ?_) hone hs
  obtain ⟨hlocks, hpools, -, rfl⟩ := commit_eq_ok_iff.1 hc
  obtain ⟨rev, hr⟩ := hd.stamps k hk
  obtain ⟨pool, hpool, rfl⟩ := rev_apply_of_stamp? hlocks hpools (hd.pools ▸ hone) hr
  rw [hr]
  exact hb hpool

end Store

end Rendezvous
