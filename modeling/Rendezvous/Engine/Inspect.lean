import Rendezvous.Store.View

/-!
# Looking at processes and pools

Read-only views of a store.
-/

namespace Rendezvous

namespace Store

/-- The process liable for a pool, with the channel it provides. -/
def poll (s : Store) (pool : Id) : Except Error ProcRef := do
  let some member := s.liable? pool
    | throw (.notFound .process ("liable in " ++ pool.short))
  let some sig := s.decls.sigs.get? member.sig
    | throw (.noSuch .sig member.sig)
  let cfg ← s.configuration member.id
  let some ep := cfg.channels.get? sig.provision.placeholder
    | throw (.notFound .channel sig.provision.placeholder)
  pure ⟨member.id, member.pool, ep.channel⟩

/-- The state of a process. -/
def procView (s : Store) (process : Id) : Except Error ProcView := do
  let some member := s.members.get? process
    | throw (.noSuch .process process)
  let cfg ← s.configuration process
  pure ⟨process, member.pool, member.sig, cfg.rev, cfg.channels, cfg.halves.values⟩

/-- The state of a pool. -/
def poolView (s : Store) (pool : Id) : Except Error PoolView :=
  match s.poolView? pool with
  | some view => .ok view
  | none => .error (.noSuch .pool pool)

end Store

end Rendezvous
