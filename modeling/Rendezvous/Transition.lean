import Rendezvous.Types.Env

/-!
# Transitions

`transition` computes what one term changes. A value goes to the consumer that waits for it, or
stays as a message; a consumer takes the message that is there, or stays as a service. When the
two have met, the consumer's channels are bound anew and its continuation is the step to take
next.

The change is drafted bit by bit (`Drafting`). The first time a draft touches a pool it locks it
at the revision the configuration was read at (`stamp`), so a commit fails if the pool has moved
on since.

A term is expected to have passed the checker in the same configuration; stored halves that
disagree with it are reported as `Error.unexpectedVariant`.
-/

namespace Rendezvous

/-- A computation that adds to a change and may fail. -/
abbrev Drafting := StateT Change (Except Error)

namespace Drafting

/-! ## Entries -/

/-- The revision the commit leaves `pool` at, locking the pool if it is not new. -/
def stamp (cfg : Configuration) (pool : Id) : Drafting Rev := do
  let draft ← get
  match draft.stamp? pool, cfg.revOf? pool with
  | some rev, _ => pure rev
  | none, some rev =>
    set (draft.lock pool rev)
    pure rev.next
  | none, none => throw (.noSuch .pool pool)

/-- Binds a placeholder of a process in `pool`. -/
def introduceFor (cfg : Configuration) (process pool : Id) (ph : Sym) (ep : Endpoint) :
    Drafting Unit := do
  let rev ← stamp cfg pool
  modify fun d => { d with bindings := d.bindings ++ [⟨process, ph, ep, rev.introStamp⟩] }

/-- Consumes a placeholder of a process in `pool`. -/
def discardFor (cfg : Configuration) (process pool : Id) (ph : Sym) (ep : Endpoint) :
    Drafting Unit := do
  let rev ← stamp cfg pool
  modify fun d => { d with bindings := d.bindings ++ [⟨process, ph, ep, rev.consumeStamp⟩] }

/-- Binds a placeholder of the acting process. -/
def introduce (cfg : Configuration) (ph : Sym) (ep : Endpoint) : Drafting Unit :=
  introduceFor cfg cfg.process cfg.pool ph ep

/-- Consumes a placeholder of the acting process. -/
def discard (cfg : Configuration) (ph : Sym) (ep : Endpoint) : Drafting Unit :=
  discardFor cfg cfg.process cfg.pool ph ep

/-- Adds an operation on the half of a channel. -/
def slot (op : SlotOp) : Drafting Unit := modify fun d => { d with slots := d.slots ++ [op] }

/-! ## Channels -/

/-- The channel bound to a placeholder of the acting process. -/
def endpoint (cfg : Configuration) (ph : Sym) : Drafting Endpoint :=
  match cfg.channels.get? ph with
  | some ep => pure ep
  | none => throw (.missingBinding ph)

/-- The structure of a channel's type. -/
def nodeOf (env : Env) (ep : Endpoint) : Drafting TypeNode := do
  let (_, node) ← env.resolve ep.type
  pure node

/-- Moves a placeholder of the acting process to the new channel, which carries on with `type`. -/
def advance (cfg : Configuration) (fresh : Fresh) (via : Sym) (ep : Endpoint) (type : Id) :
    Drafting Endpoint := do
  let next : Endpoint := ⟨fresh.channel, type, ep.pool⟩
  discard cfg via ep
  introduce cfg via next
  pure next

/-- Follows forwards from a channel, using them up, to where an action lands: the channel there
and the half pending on it. -/
def land (cfg : Configuration) (channel : Id) : Drafting (Id × Option Half) :=
  match cfg.landing? channel with
  | some l => do
    modify fun d => { d with slots := d.slots ++ l.passed.map SlotOp.take }
    pure (l.channel, l.half)
  | none => throw (.unexpectedVariant "message or service" "forward")

/-! ## Meeting -/

/-- The continuation of a channel as its consumer sees it: a consumer that provides the channel
keeps providing it. -/
def continued (svc : Service) (next : Endpoint) : Endpoint :=
  if svc.endpoint.pool = svc.pool then { next with pool := svc.pool } else next

/-- The continuation as the consumer binds it. Where a forward has put another provider behind
it than the producer has on record, the other holders are moved over too. -/
def rehome (svc : Service) (next : Endpoint) : Drafting Endpoint := do
  let home := continued svc next
  if home.pool ≠ next.pool then
    modify fun d => { d with homes := d.homes ++ [home] }
  pure home

/-- Binds the continuation of a served channel for its consumer. -/
def proceed (cfg : Configuration) (svc : Service) (next : Endpoint) : Drafting Unit := do
  let home ← rehome svc next
  introduceFor cfg svc.process svc.pool svc.via home

/-- Hands a payload to its consumer: the consumer is bound anew and goes on. -/
def complete (cfg : Configuration) (payload : Payload) (svc : Service) : Drafting StepSpec := do
  discardFor cfg svc.process svc.pool svc.via svc.endpoint
  match payload, svc.handler with
  | .close, .wait cont => pure ⟨svc.pool, svc.process, cont⟩
  | .send value next, .recv ph cont =>
    if value.pool = svc.pool then
      throw (.poolLoop value.channel svc.pool)
    proceed cfg svc next
    introduceFor cfg svc.process svc.pool ph value
    pure ⟨svc.pool, svc.process, cont⟩
  | .lab label next, .case conts =>
    match Table.find? label conts with
    | some cont =>
      proceed cfg svc next
      pure ⟨svc.pool, svc.process, cont⟩
    | none => throw (.missingLabel label)
  | .acquire next, .accept cont =>
    proceed cfg svc next
    pure ⟨svc.pool, svc.process, cont⟩
  | .detach next, .release cont =>
    proceed cfg svc next
    pure ⟨svc.pool, svc.process, cont⟩
  | payload, handler => throw (.unexpectedVariant handler.payloadName payload.name)

/-- Leaves a value for the other side, or hands it to the consumer that waits for it. -/
def produce (cfg : Configuration) (ep : Endpoint) (payload : Payload) :
    Drafting (Option StepSpec) := do
  match ← land cfg ep.channel with
  | (channel, none) =>
    slot (.put (.message ⟨channel, cfg.pool, cfg.process, payload⟩))
    pure none
  | (channel, some (.service svc)) =>
    slot (.take channel)
    some <$> complete cfg payload svc
  | (_, some half) => throw (.unexpectedVariant "service" half.kind)

/-- Leaves a consumer waiting for a value, or takes the value that was sent already. -/
def consume (cfg : Configuration) (via : Sym) (handler : Handler) :
    Drafting (Option StepSpec) := do
  let ep ← endpoint cfg via
  match ← land cfg ep.channel with
  | (channel, none) =>
    slot (.put (.service ⟨channel, cfg.pool, cfg.process, via, ep, handler⟩))
    pure none
  | (channel, some (.message msg)) =>
    slot (.take channel)
    some <$> complete cfg msg.payload ⟨channel, cfg.pool, cfg.process, via, ep, handler⟩
  | (_, some half) => throw (.unexpectedVariant "message" half.kind)

/-! ## Forwarding -/

/-- The provider of a forwarded channel may only have acted in its own direction: it has left a
message on a positive channel and a service on a negative one. -/
def ownDirection : Polarity → Half → Bool
  | .pos, .message _ => true
  | .neg, .service _ => true
  | _, _ => false

/-- The half that goes with a direction. -/
def directionKind : Polarity → String
  | .pos => "message"
  | _ => "service"

/-- Joins the half left by the provider of a forwarded channel with what is pending on the
channel it is forwarded to. -/
def join (cfg : Configuration) (channel : Id) :
    Half → Option Half → Drafting (Option StepSpec)
  | left, none => do
    slot (.put (left.movedTo channel))
    pure none
  | .message msg, some (.service svc) => do
    slot (.take channel)
    some <$> complete cfg msg.payload svc
  | .service svc, some (.message msg) => do
    slot (.take channel)
    some <$> complete cfg msg.payload svc
  | .message _, some half => throw (.unexpectedVariant "service" half.kind)
  | _, some half => throw (.unexpectedVariant "message" half.kind)

/-- Connects the client of `via` with the provider of `target`. -/
def forward (env : Env) (cfg : Configuration) (via target : Sym) :
    Drafting (Option StepSpec) := do
  let x ← endpoint cfg via
  let y ← endpoint cfg target
  discard cfg via x
  discard cfg target y
  let (channel, pending) ← land cfg x.channel
  match cfg.halves.get? y.channel with
  | none =>
    slot (.put (.forward ⟨y.channel, cfg.pool, cfg.process, channel⟩))
    pure none
  | some left =>
    let polarity := (← nodeOf env y).polarity
    if !ownDirection polarity left then
      throw (.unexpectedVariant (directionKind polarity) left.kind)
    slot (.take y.channel)
    join cfg channel left pending

/-! ## Spawning -/

/-- Moves channels of the acting process to the parameters of a new one. -/
def passOn (cfg : Configuration) (process pool : Id) : List (Sym × Parameter) → Drafting Unit
  | [] => pure ()
  | (value, parameter) :: rest => do
    let ep ← endpoint cfg value
    if ep.pool = pool then
      throw (.poolLoop ep.channel pool)
    discard cfg value ep
    introduceFor cfg process pool parameter.placeholder ep
    passOn cfg process pool rest

/-- Creates an instance of a signature in `pool`; the acting process holds the channel that the
instance provides and goes on with `cont`. -/
def spawn (env : Env) (cfg : Configuration) (fresh : Fresh) (via : Sym) (sigId : Id)
    (values : List Sym) (pool : Id) (cont : Term) : Drafting (Option StepSpec) := do
  let sig ← env.sig sigId
  if values.length ≠ sig.receptions.length then
    throw (.arityMismatch "reception endpoints" sig.receptions.length values.length)
  let provision : Endpoint := ⟨fresh.channel, ← env.rootOf sig.provision.type, pool⟩
  if pool = cfg.pool then
    throw (.poolLoop provision.channel pool)
  modify fun d => { d with members := d.members ++ [⟨fresh.process, pool, sigId⟩] }
  let rev ← stamp cfg pool
  modify fun d =>
    { d with liabilities := d.liabilities ++ [⟨pool, fresh.process, rev.introStamp⟩] }
  introduceFor cfg fresh.process pool sig.provision.placeholder provision
  passOn cfg fresh.process pool (values.zip sig.receptions)
  introduce cfg via provision
  pure (some ⟨cfg.pool, cfg.process, cont⟩)

/-! ## Terms -/

/-- Drafts what a term changes. -/
def act (env : Env) (cfg : Configuration) (fresh : Fresh) : Term → Drafting (Option StepSpec)
  | .close via => do
    let ep ← endpoint cfg via
    discard cfg via ep
    produce cfg ep .close
  | .send via value => do
    let ep ← endpoint cfg via
    let type ← match ← nodeOf env ep with
      | .tensor _ cont | .lolli _ cont => pure cont
      | node => throw (.unexpectedVariant "tensor or lolli" node.connective.name)
    let given ← endpoint cfg value
    discard cfg value given
    let next ← advance cfg fresh via ep type
    produce cfg ep (.send given next)
  | .lab via label => do
    let ep ← endpoint cfg via
    let type ← match ← nodeOf env ep with
      | .plus choices | .with choices =>
        match choices.get? label with
        | some cont => pure cont
        | none => throw (.missingLabel label)
      | node => throw (.unexpectedVariant "plus or with" node.connective.name)
    let next ← advance cfg fresh via ep type
    produce cfg ep (.lab label next)
  | .acquire via => do
    let ep ← endpoint cfg via
    let type ← match ← nodeOf env ep with
      | .up cont => pure cont
      | node => throw (.unexpectedVariant "up" node.connective.name)
    let next ← advance cfg fresh via ep type
    produce cfg ep (.acquire next)
  | .detach via => do
    let ep ← endpoint cfg via
    let type ← match ← nodeOf env ep with
      | .down cont => pure cont
      | node => throw (.unexpectedVariant "down" node.connective.name)
    let next ← advance cfg fresh via ep type
    produce cfg ep (.detach next)
  | .wait via cont => consume cfg via (.wait cont)
  | .recv via value cont => consume cfg via (.recv value cont)
  | .case via conts => consume cfg via (.case conts)
  | .accept via cont => consume cfg via (.accept cont)
  | .release via cont => consume cfg via (.release cont)
  | .fwd via target => forward env cfg via target
  | .call via sig values cont => do
    modify fun d => { d with pools := d.pools ++ [⟨fresh.pool, none, some cfg.pool, .initial⟩] }
    spawn env cfg fresh via sig values fresh.pool cont
  | .spawn via sig values pool cont => spawn env cfg fresh via sig values pool cont

end Drafting

/-- What a term changes from a configuration: the step to take next, if there is one, and the
change to commit. Without a next step the acting side is left pending and waits for its dual. -/
def transition (env : Env) (cfg : Configuration) (fresh : Fresh) (term : Term) :
    Except Error (Option StepSpec × Change) :=
  StateT.run
    (do
      let _ ← Drafting.stamp cfg cfg.pool
      Drafting.act env cfg fresh term)
    ∅

end Rendezvous
