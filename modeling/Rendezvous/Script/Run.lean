import Rendezvous.Engine.Create
import Rendezvous.Engine.Declare
import Rendezvous.Engine.Inspect
import Rendezvous.Engine.Step
import Rendezvous.Script.Basic
import Rendezvous.Script.Event

/-!
# Running scripts

`Script.run` plays a script on a new engine. It stops at the first action that fails or does not
turn out as expected; the events up to there are part of the outcome.
-/

namespace Rendezvous

/-- A run in progress: the engine, what the script's names stand for, and what has happened. -/
structure Stage where
  engine : Engine
  sigs : Table String Id
  pools : Table String Id
  procs : Table String ProcRef
  events : List Event

/-- Part of a run. -/
abbrev Playing := EStateM ScriptError Stage

namespace Playing

variable {α : Type}

/-- Makes a request to the engine on behalf of an action. -/
def request (index : Nat) (r : Request α) : Playing α := fun stage =>
  match r stage.engine with
  | .ok a engine => .ok a { stage with engine }
  | .error e engine => .error (.action index e) { stage with engine }

/-- Makes a request whose failure is looked at. -/
def attempt (r : Request α) : Playing (Except Error α) := fun stage =>
  match r stage.engine with
  | .ok a engine => .ok (.ok a) { stage with engine }
  | .error e engine => .ok (.error e) { stage with engine }

/-- Reports an event. -/
def report (e : Event) : Playing Unit := modify fun s => { s with events := s.events ++ [e] }

/-- What a name stands for in a table of names. -/
def named (table : Stage → Table String α) (name : String) : Playing α := do
  match (table (← get)).get? name with
  | some a => pure a
  | none => throw (.unknownName name)

/-! ## Names in terms -/

/-- The id a name stands for in a term: that of a signature, else of a pool. -/
def idNamed (stage : Stage) (name : String) : Except ScriptError Id :=
  match stage.sigs.get? name, stage.pools.get? name with
  | some id, _ => .ok id
  | none, some id => .ok id
  | none, none => .error (.unknownName name)

mutual

/-- Replaces every text `@name` by the id it stands for. -/
def substitute (stage : Stage) : Json → Except ScriptError Json
  | .str s =>
    match s.toList with
    | '@' :: name => (idNamed stage (String.ofList name)).map Id.toJson
    | _ => .ok (.str s)
  | .arr items => (substituteItems stage items).map .arr
  | .obj members => (substituteMembers stage members).map .obj
  | j => .ok j

/-- `substitute` for the items of an array. -/
def substituteItems (stage : Stage) : List Json → Except ScriptError (List Json)
  | [] => .ok []
  | j :: rest => do
    let j ← substitute stage j
    let rest ← substituteItems stage rest
    pure (j :: rest)

/-- `substitute` for the values of members. -/
def substituteMembers (stage : Stage) :
    List (String × Json) → Except ScriptError (List (String × Json))
  | [] => .ok []
  | (name, j) :: rest => do
    let j ← substitute stage j
    let rest ← substituteMembers stage rest
    pure ((name, j) :: rest)

end

/-- The term that a script wrote. -/
def readTerm (written : Json) : Playing Term := do
  match substitute (← get) written with
  | .error e => throw e
  | .ok j =>
    match Term.ofJson? j with
    | some term => pure term
    | none => throw .badTerm

/-! ## Actions -/

/-- The channels provided by named processes. -/
def provided : List (Sym × String) → Playing (List (Sym × Id))
  | [] => pure []
  | (ph, provider) :: rest => do
    let ref ← named Stage.procs provider
    pure ((ph, ref.channel) :: (← provided rest))

/-- Texts in increasing order. -/
def sorted (xs : List String) : List String := xs.mergeSort fun a b => decide (a ≤ b)

/-- Compares what a process has bound with what is expected. -/
def expectBound (index : Nat) (proc : String) (bound : List Sym) (view : ProcView) :
    Playing Unit := do
  let actual := sorted view.channels.keys
  let wanted := sorted bound
  if actual ≠ wanted then
    throw (.expectation index
      (proc ++ " has " ++ symList actual ++ " bound, not " ++ symList wanted))

/-- Compares how many halves are pending for a process with what is expected. -/
def expectPending (index : Nat) (proc : String) (pending : Nat) (view : ProcView) :
    Playing Unit := do
  if view.halves.length ≠ pending then
    throw (.expectation index
      (proc ++ " has " ++ toString view.halves.length ++ " pending records, not " ++
        toString pending))

/-- Takes one action. -/
def act (index : Nat) : Action → Playing Event
  | .create name pool sig values => do
    let channels ← provided values.entries
    let creation : Creation :=
      ⟨← named Stage.pools pool, ← named Stage.sigs sig, .ofList channels⟩
    let ref ← request index (Request.createProcess creation)
    modify fun s => { s with procs := s.procs.insert name ref }
    pure (.created name ref)
  | .take proc written fails => do
    let target ← named Stage.procs proc
    let term ← readTerm written
    let outcome ←
      attempt (Request.take (fun _ => .none) ⟨target.pool, target.process, term⟩)
    match outcome, fails with
    | .ok _, none => pure (.took proc term)
    | .ok _, some kind =>
      throw (.expectation index
        ("expected " ++ kind.title ++ ", but `" ++ term.text ++ "` succeeded"))
    | .error e, some kind =>
      if e.kind = kind then pure (.rejected proc kind) else throw (.action index e)
    | .error e, none => throw (.action index e)
  | .poll pool name => do
    let id ← named Stage.pools pool
    let ref ← request index (Request.read (·.poll id))
    if let some name := name then
      modify fun s => { s with procs := s.procs.insert name ref }
    pure (.polled pool ref)
  | .expect proc bound pending => do
    let target ← named Stage.procs proc
    let view ← request index (Request.read (·.procView target.process))
    if let some bound := bound then
      expectBound index proc bound view
    if let some pending := pending then
      expectPending index proc pending view
    pure (.checked proc)

/-- Takes actions one after the other, counting from `index`. -/
def actAll (index : Nat) : List Action → Playing Unit
  | [] => pure ()
  | action :: rest => do
    report (← act index action)
    actAll (index + 1) rest

/-! ## Declarations -/

/-- Declares a type. -/
def declareType (entry : TypeEntry) : Playing Unit := do
  let _ ← request 0 (Request.createType entry.title entry.spec)
  report (.declared "type" entry.title.text)

/-- Declares a signature. -/
def declareSig (spec : SignatureSpec) : Playing Unit := do
  let ref ← request 0 (Request.createSig spec)
  modify fun s => { s with sigs := s.sigs.insert ref.title.text ref.id }
  report (.declared "process" ref.title.text)

/-- Declares a pool; its name is its title if it can be one. -/
def declarePool (entry : PoolEntry) : Playing Unit := do
  let sup ← match entry.sup with
    | some name => some <$> named Stage.pools name
    | none => pure none
  let pool ← request 0 (Request.createPool (QualName.parse? entry.name) sup)
  modify fun s => { s with pools := s.pools.insert entry.name pool.id }
  report (.declared "pool" entry.name)

/-- Plays a whole script. -/
def script (s : Script) : Playing Unit := do
  s.types.forM declareType
  s.sigs.forM declareSig
  s.pools.forM declarePool
  actAll 1 s.actions

end Playing

/-- What came of a run. -/
structure Outcome where
  events : List Event
  stopped : Option ScriptError

/-- Plays a script on a new engine. -/
def Script.run (s : Script) (settings : Settings) (ids : Supply) : Outcome :=
  match Playing.script s ⟨.start settings ids, ∅, ∅, ∅, []⟩ with
  | .ok _ stage => ⟨stage.events, none⟩
  | .error e stage => ⟨stage.events, some e⟩

end Rendezvous
