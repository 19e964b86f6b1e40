import Rendezvous.Registry

/-!
# The store

Everything the runtime knows: the declarations, the processes, the binding log, the halves
pending on channels, the pools and the liability log.

Bindings are never edited. What a process is bound to now is found by replaying the log, for one
process (`Store.channelsOf`) or for all of them at once (`Store.bindings`).
-/

namespace Rendezvous

/-- The state of the whole system. -/
structure Store where
  decls : Registry
  members : Table Id Member
  log : List Binding
  halves : Table Id Half
  pools : Table Id Pool
  liabilities : List Liability

namespace Store

instance : EmptyCollection Store := ⟨⟨∅, ∅, [], ∅, ∅, []⟩⟩

instance : Inhabited Store := ⟨∅⟩

/-- The pool a process lives in. -/
def poolOf? (s : Store) (process : Id) : Option Id := (s.members.get? process).map Member.pool

/-! ## Replaying the binding log -/

/-- One log entry's effect on the channels of its own process. -/
def replayOwn (channels : Table Sym Endpoint) (b : Binding) : Table Sym Endpoint :=
  if b.isIntro then channels.insert b.placeholder b.endpoint else channels.erase b.placeholder

/-- What the placeholders of one process are bound to according to a log. -/
def channelsIn (log : List Binding) (process : Id) : Table Sym Endpoint :=
  (log.filter fun b => b.process = process).foldl replayOwn ∅

/-- What the placeholders of one process are bound to. -/
def channelsOf (s : Store) (process : Id) : Table Sym Endpoint := channelsIn s.log process

/-- One log entry's effect on the bindings of all processes. -/
def replay (live : Table (Id × Sym) Endpoint) (b : Binding) : Table (Id × Sym) Endpoint :=
  if b.isIntro then
    live.insert (b.process, b.placeholder) b.endpoint
  else
    live.erase (b.process, b.placeholder)

/-- What every placeholder of every process is bound to according to a log. -/
def bindingsIn (log : List Binding) : Table (Id × Sym) Endpoint := log.foldl replay ∅

/-- What every placeholder of every process is bound to. -/
def bindings (s : Store) : Table (Id × Sym) Endpoint := bindingsIn s.log

/-- Whether a binding is the provider's: its process lives in the pool the endpoint names. -/
def provides (s : Store) (process : Id) (ep : Endpoint) : Bool :=
  s.poolOf? process = some ep.pool

/-- A live channel as its provider sees it. -/
def endpoint? (s : Store) (channel : Id) : Option Endpoint :=
  (s.bindings.entries.find? fun e => e.2.channel = channel && s.provides e.1.1 e.2).map Prod.snd

/-- The processes that hold a channel without providing it. -/
def clients (s : Store) (channel : Id) : List Id :=
  (s.bindings.entries.filter fun e => e.2.channel = channel && !s.provides e.1.1 e.2).map
    fun e => e.1.1

/-! ## Liability -/

/-- One entry's effect on who is liable. -/
def replayLiability (liable : Option Id) (l : Liability) : Option Id :=
  if 0 < l.stamp then some l.process
  else if liable = some l.process then none
  else liable

/-- The process liable for a pool. -/
def liable? (s : Store) (pool : Id) : Option Member :=
  ((s.liabilities.filter fun l => l.pool = pool).foldl replayLiability none).bind s.members.get?

/-! ## Pools -/

/-- Adds a pool with a new id. -/
def addPool (s : Store) (pool : Pool) : Except Error Store :=
  if s.pools.contains pool.id then
    .error (.alreadyDefined .pool pool.id.short)
  else
    .ok { s with pools := s.pools.insert pool.id pool }

/-- Adds to the liability log, provided the pool is still at `expected`; the pool moves on. -/
def addLiability (s : Store) (l : Liability) (expected : Rev) : Except Error Store :=
  match s.pools.get? l.pool with
  | none => .error (.noSuch .pool l.pool)
  | some pool =>
    if pool.rev ≠ expected then
      .error (.optimisticConflict .pool pool.id expected pool.rev)
    else
      .ok { s with
        pools := s.pools.insert l.pool { pool with rev := expected.next }
        liabilities := s.liabilities ++ [l] }

/-- A pool with the pools right below it and the process liable for it. -/
def poolView? (s : Store) (id : Id) : Option PoolView :=
  (s.pools.get? id).map fun pool =>
    ⟨pool, s.pools.values.filter fun sub => sub.sup = some id, (s.liable? id).map Member.id⟩

end Store

end Rendezvous
