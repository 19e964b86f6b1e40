import Rendezvous.Half

/-!
# Configurations and changes

- `Configuration` is what one process sees when it acts: its channels, the halves pending on
  them, and the revisions of the pools involved;
- `Change` is everything one transition alters, committed as a whole or not at all;
- `StepSpec` is a term submitted for a process.
-/

namespace Rendezvous

/-! ## What a process sees -/

/-- The state of one process, read at revision `rev` of its pool. -/
structure Configuration where
  process : Id
  pool : Id
  rev : Rev
  channels : Table Sym Endpoint
  /-- Halves pending on the channels of the process, and on channels these forward to. -/
  halves : Table Id Half
  /-- Revisions of other pools that own such halves, and of the pool a spawn aims at. -/
  peers : Table Id Rev

namespace Configuration

/-- The revision of a pool, as far as the configuration knows it. -/
def revOf? (c : Configuration) (pool : Id) : Option Rev :=
  if pool = c.pool then some c.rev else c.peers.get? pool

/-- The service of `process` among some halves. -/
def serviceOf? (process : Id) : List Half → Option Service
  | [] => none
  | .service s :: rest => if s.process = process then some s else serviceOf? process rest
  | _ :: rest => serviceOf? process rest

/-- The service this process has pending. A process with one is suspended until it is served. -/
def waiting? (c : Configuration) : Option Service := serviceOf? c.process c.halves.values

/-- Where an action on channel `c` lands. A walk that passes more forwards than there are halves
has gone round in a circle and lands nowhere. -/
def landing? (cfg : Configuration) (c : Id) : Option Landing :=
  walk cfg.halves (cfg.halves.size + 1) c

end Configuration

/-- A term submitted for a process in a pool. -/
structure StepSpec where
  pool : Id
  process : Id
  term : Term

/-! ## What a transition alters -/

/-- An entry of the binding log: a positive stamp introduces the placeholder, a negative one
consumes it. -/
structure Binding where
  process : Id
  placeholder : Sym
  endpoint : Endpoint
  stamp : Int
deriving DecidableEq

/-- Whether a log entry introduces its placeholder. -/
def Binding.isIntro (b : Binding) : Bool := 0 < b.stamp

/-- A process as it was created. -/
structure Member where
  id : Id
  pool : Id
  sig : Id
deriving DecidableEq

/-- A pool of processes. -/
structure Pool where
  id : Id
  title : Option QualName
  /-- The pool above this one. -/
  sup : Option Id
  rev : Rev
deriving DecidableEq

/-- An entry of the liability log, stamped like a binding. -/
structure Liability where
  pool : Id
  process : Id
  stamp : Int
deriving DecidableEq

/-- A pool that has to be at `rev` when the change is committed. -/
structure Lock where
  pool : Id
  rev : Rev
deriving DecidableEq

/-- What a change does to the half on one channel. -/
inductive SlotOp where
  /-- Leaves a half on a channel that has none. -/
  | put (half : Half)
  /-- Takes the half off a channel that has one. -/
  | take (channel : Id)

/-- The channel an operation works on. -/
def SlotOp.channel : SlotOp → Id
  | .put half => half.channel
  | .take channel => channel

/-- Everything one transition alters. -/
structure Change where
  locks : List Lock
  bindings : List Binding
  slots : List SlotOp
  liabilities : List Liability
  members : List Member
  pools : List Pool
  /-- Continuation channels whose provider is not in the pool that their other holders have on
  record; every live binding of such a channel is moved to the endpoint given here. -/
  homes : List Endpoint

namespace Change

/-- The change that alters nothing. -/
def empty : Change := ⟨[], [], [], [], [], [], []⟩

instance : EmptyCollection Change := ⟨empty⟩

instance : Inhabited Change := ⟨empty⟩

/-- Locks a pool at `rev`; the first lock of a pool stays. -/
def lock (c : Change) (pool : Id) (rev : Rev) : Change :=
  if c.locks.any (·.pool = pool) then c else { c with locks := c.locks ++ [⟨pool, rev⟩] }

/-- The revision the commit will leave a pool at: one past its lock, or that of a new pool. -/
def stamp? (c : Change) (pool : Id) : Option Rev :=
  match c.locks.find? (·.pool = pool) with
  | some lock => some lock.rev.next
  | none => (c.pools.find? (·.id = pool)).map Pool.rev

end Change

/-! ## What callers see -/

/-- A process as its creator refers to it. -/
structure ProcRef where
  process : Id
  pool : Id
  /-- The channel the process provides. -/
  channel : Id
deriving DecidableEq

/-- The state of a process, for reading. -/
structure ProcView where
  process : Id
  pool : Id
  sig : Id
  rev : Rev
  channels : Table Sym Endpoint
  halves : List Half

/-- A pool with the pools right below it and the process liable for it. -/
structure PoolView where
  pool : Pool
  subs : List Pool
  liable : Option Id
deriving DecidableEq

/-- A request for a process: an instance of `sig` in `pool`, with existing channels for the
placeholders that the signature needs. -/
structure Creation where
  pool : Id
  sig : Id
  values : Table Sym Id
deriving DecidableEq

end Rendezvous
