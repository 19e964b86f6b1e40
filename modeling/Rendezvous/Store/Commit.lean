import Rendezvous.Store.Basic

/-!
# Committing changes

`Store.commit` makes all of a change or nothing of it. Before anything is altered

- every lock has to name a pool at exactly its revision,
- no pool of the change may exist,
- and the operations on halves have to fit: a `put` needs an empty channel and a `take` a full
  one, counting the operations before it.

A committed change moves each locked pool on by one revision.
-/

namespace Rendezvous

namespace Store

/-! ## Conditions -/

/-- Every lock names a pool at its revision. -/
def checkLocks (s : Store) : List Lock → Except Error Unit
  | [] => .ok ()
  | lock :: rest =>
    match s.pools.get? lock.pool with
    | none => .error (.noSuch .pool lock.pool)
    | some pool =>
      if pool.rev ≠ lock.rev then
        .error (.optimisticConflict .pool pool.id lock.rev pool.rev)
      else
        s.checkLocks rest

/-- No pool of a change exists. -/
def checkPools (s : Store) (pools : List Pool) : Except Error Unit :=
  match pools.find? fun pool => s.pools.contains pool.id with
  | some pool => .error (.alreadyDefined .pool pool.id.short)
  | none => .ok ()

/-- Whether an operation needs a half to be there. -/
def wantsHalf : SlotOp → Bool
  | .put _ => false
  | .take _ => true

/-- Operations on halves fit. `touched` says which channels are occupied after the operations
before these. -/
def checkSlots (s : Store) (touched : Table Id Bool) : List SlotOp → Except Error Unit
  | [] => .ok ()
  | op :: rest =>
    let present := (touched.get? op.channel).getD (s.halves.contains op.channel)
    if present ≠ wantsHalf op then
      .error (.recordConflict op.channel)
    else
      s.checkSlots (touched.insert op.channel !present) rest

/-! ## Effects -/

/-- Moves locked pools on. -/
def bumpPools (pools : Table Id Pool) (locks : List Lock) : Table Id Pool :=
  locks.foldl
    (fun t lock =>
      match t.get? lock.pool with
      | some pool => t.insert lock.pool { pool with rev := lock.rev.next }
      | none => t)
    pools

/-- The log entries that point every live binding of a channel at `home`, stamped with the
revision that the pool of its process is at. -/
def homecoming (s : Store) (home : Endpoint) : List Binding :=
  (s.bindings.entries.filter fun e => e.2.channel = home.channel && e.2 ≠ home).filterMap
    fun e =>
      ((s.poolOf? e.1.1).bind s.pools.get?).map fun pool =>
        ⟨e.1.1, e.1.2, home, pool.rev.introStamp⟩

/-- Points every live binding of a channel at `home`. -/
def rehome (s : Store) (home : Endpoint) : Store := { s with log := s.log ++ s.homecoming home }

/-- What an operation does to the halves. -/
def applySlot (halves : Table Id Half) : SlotOp → Table Id Half
  | .put half => halves.insert half.channel half
  | .take channel => halves.erase channel

/-- The store with a change made. -/
def apply (s : Store) (c : Change) : Store :=
  let moved : Store := { s with
    pools := c.pools.foldl (fun t pool => t.insert pool.id pool) (bumpPools s.pools c.locks)
    members := c.members.foldl (fun t m => t.insert m.id m) s.members
    log := s.log ++ c.bindings }
  let homed := c.homes.foldl rehome moved
  { homed with
    liabilities := s.liabilities ++ c.liabilities
    halves := c.slots.foldl applySlot s.halves }

/-- Makes a change, all of it or nothing. -/
def commit (s : Store) (c : Change) : Except Error Store := do
  s.checkLocks c.locks
  s.checkPools c.pools
  s.checkSlots ∅ c.slots
  pure (s.apply c)

end Store

end Rendezvous
