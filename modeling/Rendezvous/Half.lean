import Rendezvous.Table
import Rendezvous.Term

/-!
# Halves of a rendezvous

Two processes meet on a channel: one produces a value, the other consumes it. Whichever comes
first leaves its half behind, to be found by the other.

- `Endpoint` is a channel as a placeholder sees it;
- `Payload` is what a producer left, `Handler` what a consumer left;
- `Half` is a record pending on a channel: a `Message`, a `Service`, or a `Forward` that sends
  whatever comes on to another channel;
- `walk` follows forwards from a channel to where an action really lands.
-/

namespace Rendezvous

/-- A channel as seen through a placeholder. -/
structure Endpoint where
  channel : Id
  type : Id
  /-- The pool of the process that provides the channel. -/
  pool : Id
deriving DecidableEq, Inhabited

/-- What a consumer will receive. -/
inductive Payload where
  | close
  | send (value cont : Endpoint)
  | lab (label : Sym) (cont : Endpoint)
  | acquire (cont : Endpoint)
  | detach (cont : Endpoint)
deriving DecidableEq

/-- The word for a payload in messages. -/
def Payload.name : Payload → String
  | .close => "close"
  | .send .. => "send"
  | .lab .. => "lab"
  | .acquire _ => "acquire"
  | .detach _ => "detach"

/-- What a consumer does with a payload, in its own placeholders. -/
inductive Handler where
  | wait (cont : Term)
  | recv (value : Sym) (cont : Term)
  | case (conts : List (Sym × Term))
  | accept (cont : Term)
  | release (cont : Term)

namespace Handler

/-- The word for a handler in messages. -/
def name : Handler → String
  | .wait _ => "wait"
  | .recv .. => "recv"
  | .case _ => "case"
  | .accept _ => "accept"
  | .release _ => "release"

/-- The word for the payload a handler takes. -/
def payloadName : Handler → String
  | .wait _ => "close"
  | .recv .. => "send"
  | .case _ => "lab"
  | .accept _ => "acquire"
  | .release _ => "detach"

end Handler

/-- A value waiting for its consumer. -/
structure Message where
  channel : Id
  pool : Id
  process : Id
  payload : Payload
deriving DecidableEq

/-- A consumer waiting for its value. -/
structure Service where
  channel : Id
  pool : Id
  process : Id
  /-- The consumer's placeholder for the channel, bound anew on completion. -/
  via : Sym
  endpoint : Endpoint
  handler : Handler

/-- A forward that nobody has acted on yet: what lands on `channel` belongs to `target`. -/
structure Forward where
  channel : Id
  pool : Id
  process : Id
  target : Id
deriving DecidableEq

/-- One half of a rendezvous, kept until its dual arrives. -/
inductive Half where
  | message (m : Message)
  | service (s : Service)
  | forward (f : Forward)

namespace Half

/-- The channel a half is pending on. -/
def channel : Half → Id
  | .message m => m.channel
  | .service s => s.channel
  | .forward f => f.channel

/-- The pool of the process that left a half. -/
def pool : Half → Id
  | .message m => m.pool
  | .service s => s.pool
  | .forward f => f.pool

/-- The word for a half in messages. -/
def kind : Half → String
  | .message _ => "message"
  | .service _ => "service"
  | .forward _ => "forward"

/-- The same half on another channel. -/
def movedTo (channel : Id) : Half → Half
  | .message m => .message { m with channel }
  | .service s => .service { s with channel }
  | .forward f => .forward { f with channel }

@[simp] theorem channel_movedTo (c : Id) (h : Half) : (h.movedTo c).channel = c := by
  cases h <;> rfl

@[simp] theorem kind_movedTo (c : Id) (h : Half) : (h.movedTo c).kind = h.kind := by
  cases h <;> rfl

end Half

/-! ## Following forwards -/

/-- Where a walk along forwards ends. -/
structure Landing where
  /-- The channels of the forwards passed, in order. -/
  passed : List Id
  /-- The channel the walk ends at. -/
  channel : Id
  /-- What is pending there; never a forward. -/
  half : Option Half

/-- Follows pending forwards from `c`, passing fewer than `n` of them. -/
def walk (halves : Table Id Half) : Nat → Id → Option Landing
  | 0, _ => none
  | n + 1, c =>
    match halves.get? c with
    | some (.forward f) => (walk halves n f.target).map fun l => { l with passed := c :: l.passed }
    | half => some ⟨[], c, half⟩

end Rendezvous
