import Rendezvous.Engine.Basic
import Rendezvous.Loading
import Rendezvous.Types.Equality

/-!
# Creating pools and processes

- `Request.createPool` adds a pool, on its own or below another;
- `Request.handOff` makes another process of a pool liable for it;
- `Request.createProcess` instantiates a signature in a pool. What the new process needs is given
  as existing channels that nobody holds yet, and the new process becomes liable for the pool.
-/

namespace Rendezvous

/-! ## Pools -/

namespace Request

/-- Adds a pool. -/
def createPool (title : Option QualName) (sup : Option Id) : Request Pool := do
  read fun s =>
    match sup with
    | some id => if s.pools.contains id then .ok () else .error (.noSuch .pool id)
    | none => .ok ()
  let pool : Pool := ⟨← draw, title, sup, .initial⟩
  update (·.addPool pool)
  pure pool

/-- Makes a process, which has to live in the pool, liable for it; the pool has to be at `rev`. -/
def handOff (pool process : Id) (rev : Rev) : Request Rev := do
  read fun s =>
    match s.members.get? process with
    | none => .error (.noSuch .process process)
    | some member =>
      if member.pool ≠ pool then .error (.foreignProcess process pool) else .ok ()
  update (·.addLiability ⟨pool, process, rev.next.introStamp⟩ rev)
  pure rev.next

end Request

/-! ## Processes -/

namespace Store

/-- Binds what a new process in `pool` needs, one parameter after the other. `bound` are the
bindings it has got so far. -/
def receive (s : Store) (process pool : Id) (rev : Rev) (values : Table Sym Id) :
    List Parameter → Env → List Binding → Except Error (List Binding)
  | [], _, bound => .ok bound
  | parameter :: rest, env, bound => do
    let some channel := values.get? parameter.placeholder
      | throw (.missingBinding parameter.placeholder)
    let some ep := s.endpoint? channel
      | throw (.noSuch .channel channel)
    if bound.any (·.endpoint.channel = channel) || !(s.clients channel).isEmpty then
      throw (.held channel)
    if ep.pool = pool then
      throw (.poolLoop channel pool)
    let env ← s.decls.extend env [ep.type]
    let want ← env.rootOf parameter.type
    if !(← env.eqType want ep.type) then
      throw (.typeMismatch (env.typeText want) (env.typeText ep.type))
    s.receive process pool rev values rest env
      (bound ++ [⟨process, parameter.placeholder, ep, rev.introStamp⟩])

/-- What the creation of a process changes, and how the process is referred to. -/
def deriveCreation (s : Store) (fresh : Fresh) (c : Creation) :
    Except Error (ProcRef × Change) := do
  let some sig := s.decls.sigs.get? c.sig
    | throw (.noSuch .sig c.sig)
  let some pool := s.pools.get? c.pool
    | throw (.noSuch .pool c.pool)
  if c.values.size ≠ sig.receptions.length then
    throw (.arityMismatch "reception endpoints" sig.receptions.length c.values.size)
  let env ← s.decls.loadSig sig.id
  let rev := pool.rev.next
  let provision : Endpoint := ⟨fresh.channel, ← env.rootOf sig.provision.type, pool.id⟩
  let provided : Binding :=
    ⟨fresh.process, sig.provision.placeholder, provision, rev.introStamp⟩
  let bindings ←
    s.receive fresh.process pool.id rev c.values sig.receptions env [provided]
  let change : Change := {
    locks := [⟨pool.id, pool.rev⟩]
    bindings
    slots := []
    liabilities := [⟨pool.id, fresh.process, rev.introStamp⟩]
    members := [⟨fresh.process, pool.id, sig.id⟩]
    pools := []
    homes := [] }
  pure (⟨fresh.process, pool.id, provision.channel⟩, change)

end Store

namespace Request

/-- Instantiates a signature. -/
def createProcess (c : Creation) : Request ProcRef := do
  let fresh ← drawFresh
  let (ref, change) ← read (·.deriveCreation fresh c)
  commit change
  pure ref

end Request

end Rendezvous
