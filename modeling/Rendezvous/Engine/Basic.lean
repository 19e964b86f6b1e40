import Rendezvous.Store.Commit

/-!
# The engine

An `Engine` is a store with what it takes to run over it: a supply of new ids, the limit on
chains of steps, and a journal of the changes committed so far. Requests are computations on an
engine (`Request`); one that fails leaves behind what it had committed before.
-/

namespace Rendezvous

/-- What can be set about an engine. -/
structure Settings where
  /-- The longest chain of steps that one request may drive. -/
  maxSteps : Nat := 1024
deriving DecidableEq, Inhabited

/-- A running system. -/
structure Engine where
  store : Store
  ids : Supply
  settings : Settings
  /-- The changes committed for processes, oldest first. -/
  journal : List Change

/-- A request to an engine. -/
abbrev Request := EStateM Error Engine

namespace Engine

/-- An engine over the empty store. -/
def start (settings : Settings) (ids : Supply) : Engine := ⟨∅, ids, settings, []⟩

end Engine

namespace Request

variable {α : Type}

/-- The store as it is. -/
def store : Request Store := do return (← get).store

/-- A result that only depends on the store. -/
def read (f : Store → Except Error α) : Request α := do
  match f (← store) with
  | .ok a => pure a
  | .error e => throw e

/-- Replaces the store, or fails and leaves it. -/
def update (f : Store → Except Error Store) : Request Unit := do
  let s ← read f
  modify fun e => { e with store := s }

/-- Replaces the declarations, or fails and leaves them. -/
def declare (f : Registry → Except Error Registry) : Request Unit :=
  update fun s => do
    let decls ← f s.decls
    pure { s with decls }

/-- A new id. -/
def draw : Request Id := do
  let e ← get
  set { e with ids := e.ids.rest }
  pure e.ids.id

/-- New ids for one step. -/
def drawFresh : Request Fresh := do
  let e ← get
  set { e with ids := e.ids.afterFresh }
  pure e.ids.fresh

/-- Commits a change and enters it in the journal. -/
def commit (c : Change) : Request Unit := do
  update (·.commit c)
  modify fun e => { e with journal := e.journal ++ [c] }

end Request

end Rendezvous
