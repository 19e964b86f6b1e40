import Rendezvous.Error

/-!
# Linear contexts

A `Context` is what a process has while its term is checked: the channels it holds as a client
(`assets`) and the channels it owes as a provider (`liabilities`), each placeholder with the id
of its type. Every placeholder has to be dealt with exactly once.

The operations are `Checking` computations: they may fail, and what they did to the context
before failing stays done.
-/

namespace Rendezvous

/-- What a process holds and what it owes. -/
structure Context where
  assets : Table Sym Id
  liabilities : Table Sym Id
deriving DecidableEq

/-- A computation on a context that may fail and leaves a context behind either way. -/
abbrev Checking := EStateM Error Context

/-- A result that does not touch the context. -/
def Checking.ofExcept {α : Type} : Except Error α → Checking α
  | .ok a => pure a
  | .error e => throw e

namespace Context

instance : EmptyCollection Context := ⟨⟨∅, ∅⟩⟩

instance : Inhabited Context := ⟨∅⟩

/-- The context of a process acting from `pool`: channels provided from there are owed, all
others are held. -/
def ofChannels (pool : Id) (channels : Table Sym Endpoint) : Context :=
  channels.entries.foldl
    (fun ctx e =>
      if e.2.pool = pool then
        { ctx with liabilities := ctx.liabilities.insert e.1 e.2.type }
      else
        { ctx with assets := ctx.assets.insert e.1 e.2.type })
    ∅

/-- The side on which a placeholder is bound, if it is. -/
def sideOf? (ctx : Context) (ph : Sym) : Option Side :=
  if ctx.liabilities.contains ph then some .provider
  else if ctx.assets.contains ph then some .client
  else none

/-- Whether nothing is held or owed. -/
def isEmpty (ctx : Context) : Bool := ctx.assets.isEmpty && ctx.liabilities.isEmpty

/-- Everything that is left to deal with, what is owed first. -/
def obligations (ctx : Context) : List Sym := ctx.liabilities.keys ++ ctx.assets.keys

/-- Takes a held channel out. -/
def takeAsset (ph : Sym) : Checking Id := do
  let ctx ← get
  match ctx.assets.get? ph with
  | some type =>
    set { ctx with assets := ctx.assets.erase ph }
    pure type
  | none => throw (.missingBinding ph)

/-- Takes an owed channel out. -/
def takeLiability (ph : Sym) : Checking Id := do
  let ctx ← get
  match ctx.liabilities.get? ph with
  | some type =>
    set { ctx with liabilities := ctx.liabilities.erase ph }
    pure type
  | none => throw (.missingBinding ph)

/-- Takes a channel out on one side. -/
def take (side : Side) (ph : Sym) : Checking Id :=
  match side with
  | .provider => takeLiability ph
  | .client => takeAsset ph

/-- Binds a placeholder that is not bound on either side. -/
def put (side : Side) (ph : Sym) (type : Id) : Checking Unit := do
  let ctx ← get
  match ctx.sideOf? ph, side with
  | some _, _ => throw (.shadowedBinding ph)
  | none, .provider => set { ctx with liabilities := ctx.liabilities.insert ph type }
  | none, .client => set { ctx with assets := ctx.assets.insert ph type }

/-- Fails if anything is left to deal with. -/
def finish : Checking Unit := do
  let ctx ← get
  if ctx.isEmpty then pure () else throw (.unfulfilledObligations ctx.obligations)

end Context

end Rendezvous
