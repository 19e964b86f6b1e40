import Rendezvous.Store.Basic
import Rendezvous.Unseen

/-!
# Reading a configuration

`Store.configuration` collects what a process sees: its channels, the halves pending on them, and
the halves that forwards lead to from there. A walk along forwards stops at the first channel
whose half was collected before, so it ends even if forwards go round in a circle.
-/

namespace Rendezvous

/-- Halves collected on the way, and the revisions of the other pools that own them. -/
structure Sighting where
  halves : Table Id Half
  peers : Table Id Rev

namespace Store

/-- Adds the revision of the pool that owns a half, if that is another pool than `home`. -/
def notePeer (s : Store) (home : Id) (half : Half) (peers : Table Id Rev) : Table Id Rev :=
  if half.pool = home then
    peers
  else
    match s.pools.get? half.pool with
    | some pool => peers.insert pool.id pool.rev
    | none => peers

/-- Collects the halves from `channel` on along forwards. -/
def collect (s : Store) (home channel : Id) (seen : Sighting) : Sighting :=
  match _h : s.halves.get? channel with
  | none => seen
  | some half =>
    if channel ∈ seen.halves.keys then
      seen
    else
      let more : Sighting := ⟨seen.halves.insert channel half, s.notePeer home half seen.peers⟩
      match half with
      | .forward f => s.collect home f.target more
      | _ => more
termination_by unseen s.halves.keys seen.halves.keys
decreasing_by
  refine unseen_lt (a := channel) (fun k hk => (Table.mem_keys_insert ..).2 (.inr hk))
    (Table.mem_keys_of_get?_eq_some _h) (by assumption) ((Table.mem_keys_insert ..).2 (.inl rfl))

/-- Whether a half is a service that `process` has left. -/
def isServiceOf (process : Id) : Half → Bool
  | .service svc => svc.process = process
  | _ => false

/-- Adds the services of a process that a forward has moved off its channels. -/
def addOwnServices (s : Store) (process : Id) (halves : Table Id Half) : Table Id Half :=
  s.halves.entries.foldl
    (fun t e => if isServiceOf process e.2 && !t.contains e.1 then t.insert e.1 e.2 else t)
    halves

/-- What a process sees. -/
def configuration (s : Store) (process : Id) : Except Error Configuration :=
  match s.members.get? process with
  | none => .error (.noSuch .process process)
  | some member =>
    match s.pools.get? member.pool with
    | none => .error (.noSuch .pool member.pool)
    | some pool =>
      let channels := s.channelsOf process
      let seen := channels.values.foldl
        (fun seen ep => s.collect member.pool ep.channel seen) ⟨∅, ∅⟩
      .ok {
        process
        pool := member.pool
        rev := pool.rev
        channels
        halves := s.addOwnServices process seen.halves
        peers := seen.peers }

end Store

end Rendezvous
