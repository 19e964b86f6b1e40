import Rendezvous.Context
import Rendezvous.Types.Equality

/-!
# Checking terms

`Context.check` follows a term down to its end and accounts for every placeholder on the way. A
term acts on one side of a channel, and each operation goes with one connective per side:

| term | as provider | as client |
|---|---|---|
| `close` / `wait` | `one` | `one` |
| `send` | `tensor` | `lolli` |
| `recv` | `lolli` | `tensor` |
| `lab` | `plus` | `with` |
| `case` | `with` | `plus` |
| `accept` / `acquire` | `up` | `up` |
| `detach` / `release` | `down` | `down` |
| `fwd` | any | |

`call` and `spawn` act on no channel yet: they give channels away and hold the new one.
-/

namespace Rendezvous

namespace Context

/-- The side a term acts on: the one asked for, or the one its placeholder is bound on. -/
def actingSide (asked : Option Side) (via : Sym) : Checking Side := do
  match asked, (← get).sideOf? via with
  | some side, _ => pure side
  | none, some side => pure side
  | none, none => throw (.missingBinding via)

/-- Takes out the channel a term acts on: its side, its type and what that resolves to. -/
def enter (env : Env) (asked : Option Side) (via : Sym) : Checking (Side × Id × TypeNode) := do
  let side ← actingSide asked via
  let type ← take side via
  let (_, node) ← Checking.ofExcept (env.resolve type)
  pure (side, type, node)

/-- The error for a term that does not go with its channel. -/
def misfit {α : Type} (op : Operation) (side : Side) (node : TypeNode) : Checking α :=
  throw (.structuralMismatch op side node.connective)

/-- Compares a type with the one required. -/
def demand (env : Env) (want got : Id) : Checking Unit := do
  if ← Checking.ofExcept (env.eqType want got) then
    pure ()
  else
    throw (.typeMismatch (env.typeText want) (env.typeText got))

/-- Gives away the held channel `value`, which has to be of type `want`. -/
def giveValue (env : Env) (value : Sym) (want : Id) : Checking Unit := do
  let got ← takeAsset value
  demand env want got

/-- Gives away one held channel for each parameter. -/
def giveValues (env : Env) : List (Sym × Parameter) → Checking Unit
  | [] => pure ()
  | (value, parameter) :: rest => do
    let want ← Checking.ofExcept (env.rootOf parameter.type)
    giveValue env value want
    giveValues env rest

/-- Picks a label: its channel goes on with the type of the branch. -/
def pick (side : Side) (via label : Sym) (choices : Table Sym Id) : Checking Unit :=
  match choices.get? label with
  | some cont => put side via cont
  | none => throw (.missingLabel label)

/-- A forward needs the target to be all that is left, of the type that is owed. -/
def joinWith (env : Env) (want : Id) (target : Sym) : Checking Unit := do
  let ctx ← get
  if !ctx.liabilities.isEmpty then
    throw (.unfulfilledObligations ctx.liabilities.keys)
  let got ← takeAsset target
  finish
  demand env want got

/-- Instantiates a signature: its receptions are given away and its provision is held. -/
def instantiate (env : Env) (via : Sym) (sigId : Id) (values : List Sym) : Checking Unit := do
  let sig ← Checking.ofExcept (env.sig sigId)
  if values.length ≠ sig.receptions.length then
    throw (.arityMismatch "reception endpoints" sig.receptions.length values.length)
  giveValues env (values.zip sig.receptions)
  let provided ← Checking.ofExcept (env.rootOf sig.provision.type)
  put .client via provided

/-- The branches have to be for exactly the labels on offer. -/
def matchLabels (choices : Table Sym Id) (labels : List Sym) : Checking Unit := do
  let missing := choices.keys.filter fun label => !labels.contains label
  let redundant := labels.filter fun label => !choices.contains label
  if missing.isEmpty && redundant.isEmpty then
    pure ()
  else
    throw (.branchMismatch missing redundant)

/-- Runs a check on a copy of the context, which is thrown away. -/
def onCopy (c : Checking Unit) : Checking Unit := do
  let ctx ← get
  match c.run ctx with
  | .ok _ _ => pure ()
  | .error e _ => throw e

mutual

/-- Checks a term on the side asked for, or on the side its placeholder is bound on. -/
def checkAs (env : Env) : Term → Option Side → Checking Unit
  | .close via, asked => do
    match ← enter env asked via with
    | (.provider, _, .one) => finish
    | (side, _, node) => misfit .close side node
  | .wait via cont, asked => do
    match ← enter env asked via with
    | (.client, _, .one) => checkAs env cont none
    | (side, _, node) => misfit .wait side node
  | .send via value, asked => do
    match ← enter env asked via with
    | (.provider, _, .tensor want next) =>
      giveValue env value want
      put .provider via next
    | (.client, _, .lolli want next) =>
      giveValue env value want
      put .client via next
    | (side, _, node) => misfit .send side node
  | .recv via value cont, asked => do
    match ← enter env asked via with
    | (.provider, _, .lolli got next) =>
      put .provider via next
      put .client value got
      checkAs env cont none
    | (.client, _, .tensor got next) =>
      put .client via next
      put .client value got
      checkAs env cont none
    | (side, _, node) => misfit .recv side node
  | .lab via label, asked => do
    match ← enter env asked via with
    | (.provider, _, .plus choices) => pick .provider via label choices
    | (.client, _, .with choices) => pick .client via label choices
    | (side, _, node) => misfit .lab side node
  | .case via conts, asked => do
    match ← enter env asked via with
    | (.provider, _, .with choices) =>
      matchLabels choices (conts.map Prod.fst)
      checkBranches env .provider via choices conts
    | (.client, _, .plus choices) =>
      matchLabels choices (conts.map Prod.fst)
      checkBranches env .client via choices conts
    | (side, _, node) => misfit .case side node
  | .fwd via target, asked => do
    match ← enter env asked via with
    | (.provider, type, _) => joinWith env type target
    | (side, _, node) => misfit .fwd side node
  | .call via sig values cont, asked => do
    match asked with
    | none =>
      instantiate env via sig values
      checkAs env cont none
    | some _ =>
      let (side, _, node) ← enter env asked via
      misfit .call side node
  | .spawn via sig values _ cont, asked => do
    match asked with
    | none =>
      instantiate env via sig values
      checkAs env cont none
    | some _ =>
      let (side, _, node) ← enter env asked via
      misfit .spawn side node
  | .acquire via, asked => do
    match ← enter env asked via with
    | (.client, _, .up next) => put .client via next
    | (side, _, node) => misfit .acquire side node
  | .accept via cont, asked => do
    match ← enter env asked via with
    | (.provider, _, .up next) =>
      put .provider via next
      checkAs env cont none
    | (side, _, node) => misfit .accept side node
  | .detach via, asked => do
    match ← enter env asked via with
    | (.provider, _, .down next) => put .provider via next
    | (side, _, node) => misfit .detach side node
  | .release via cont, asked => do
    match ← enter env asked via with
    | (.client, _, .down next) =>
      put .client via next
      checkAs env cont none
    | (side, _, node) => misfit .release side node

/-- Checks every branch of a case, each in the context the case was met in. -/
def checkBranches (env : Env) (side : Side) (via : Sym) (choices : Table Sym Id) :
    List (Sym × Term) → Checking Unit
  | [] => pure ()
  | (label, cont) :: rest => do
    onCopy do
      pick side via label choices
      checkAs env cont none
    checkBranches env side via choices rest

end

/-- Checks a term in a context. -/
def check (env : Env) (term : Term) : Checking Unit := checkAs env term none

end Context

/-- Checks a term as the next action of the process that a configuration describes, acting from
`pool`; what remains of its context is the result. -/
def checkStep (pool : Id) (env : Env) (cfg : Configuration) (term : Term) :
    Except Error Context :=
  match (Context.check env term).run (.ofChannels pool cfg.channels) with
  | .ok _ ctx => .ok ctx
  | .error e _ => .error e

end Rendezvous
