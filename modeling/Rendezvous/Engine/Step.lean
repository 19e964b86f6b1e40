import Rendezvous.Engine.Basic
import Rendezvous.Loading
import Rendezvous.Store.View
import Rendezvous.Transition
import Rendezvous.Typing

/-!
# Taking steps

A step is derived from the store as it is and committed afterwards; in between, others may have
written to the store, and then the commit may fail.

- `Store.deriveStep` checks a term and computes what it changes;
- `Request.step` derives and commits one step;
- `Request.take` goes on with the step that follows, until one of them waits. Once a step has
  been committed, a failure further down the chain comes back as `Error.interrupted`, with the
  step that did not happen.
-/

namespace Rendezvous

namespace Store

/-- The configuration with the revision of the pool that a term spawns into. -/
def aim (s : Store) (cfg : Configuration) : Term → Except Error Configuration
  | .spawn _ _ _ pool _ =>
    match s.pools.get? pool with
    | some target => .ok { cfg with peers := cfg.peers.insert target.id target.rev }
    | none => .error (.noSuch .pool pool)
  | _ => .ok cfg

/-- Checks a term against the store and computes what it changes. -/
def deriveStep (s : Store) (fresh : Fresh) (spec : StepSpec) :
    Except Error (Option StepSpec × Change) := do
  let cfg ← s.configuration spec.process
  if cfg.pool ≠ spec.pool then
    throw (.foreignProcess spec.process spec.pool)
  if let some svc := cfg.waiting? then
    throw (.suspended spec.process svc.channel)
  let cfg ← s.aim cfg spec.term
  let env ← s.decls.load cfg spec.term
  let _ ← checkStep spec.pool env cfg spec.term
  transition env cfg fresh spec.term

end Store

/-- What other writers do to the store right before a commit. -/
abbrev Interference := Store → Except Error Store

/-- No other writer. -/
def Interference.none : Interference := .ok

namespace Request

/-- Derives a step without committing it. -/
def derive (spec : StepSpec) : Request (Option StepSpec × Change) := do
  let fresh ← drawFresh
  read (·.deriveStep fresh spec)

/-- Derives a step and commits it after what others did in between. -/
def step (others : Interference) (spec : StepSpec) : Request (Option StepSpec) := do
  let (next, change) ← derive spec
  update others
  commit change
  pure next

/-- How a chain reports an error after `taken` steps. -/
def stopped (taken : Nat) (spec : StepSpec) (e : Error) : Error :=
  if taken = 0 then e else .interrupted taken spec e

/-- Goes on with a chain after `taken` steps, for at most `n` more. `others` says what other
writers do before the commit with a given number. -/
def takeFrom (others : Nat → Interference) (limit taken : Nat) : Nat → StepSpec → Request Unit
  | 0, spec => throw (stopped taken spec (.stepLimit limit))
  | n + 1, spec => fun engine =>
    match step (others taken) spec engine with
    | .error e engine => .error (stopped taken spec e) engine
    | .ok none engine => .ok () engine
    | .ok (some next) engine => takeFrom others limit (taken + 1) n next engine

/-- Takes a step and every step it leads to, until one of them waits. -/
def take (others : Nat → Interference) (spec : StepSpec) : Request Unit := do
  let limit := (← get).settings.maxSteps
  takeFrom others limit 0 limit spec

end Request

end Rendezvous
