import Mathlib.Logic.Function.Basic
import Mathlib.Logic.Relation
import Rendezvous.Proofs.Checked
import Rendezvous.Proofs.Moves
import Rendezvous.Proofs.Reading

/-!
# Nets and turns

A `Net` is what matters of a store for the processes in it: live bindings, what is pending on
channels, and where processes live. Revisions, locks and stamps are left behind.

A transition does several things at once: it may follow any number of forwards and complete a
rendezvous at the end. `Turn` takes these apart. A process emits a message, waits with a service or
leaves a forward (`emit`, `await`, `relay`); then what it left moves along forwards one at a time
(`carry`, `usher`, `shorten`), and a message and a service on one channel are used up together
(`meet`). Between turns a channel may have a message, a service and a forward at once, which is why
a net keeps them apart.

Every turn is simple enough to say what it preserves; a whole step is a run of turns, which is
shown in `Rendezvous.Proofs.Turns`.
-/

namespace Rendezvous

/-- Bindings and halves, apart from revisions. -/
@[ext]
structure Net where
  live : Live
  message : Id → Option Message
  service : Id → Option Service
  /-- The channel that a forward leads to. -/
  forward : Id → Option Id
  /-- The pool of a process. -/
  home : Id → Option Id

/-! ## Halves of a store -/

namespace Half

/-- The message a half is. -/
def message? : Half → Option Message
  | .message m => some m
  | _ => none

/-- The service a half is. -/
def service? : Half → Option Service
  | .service svc => some svc
  | _ => none

/-- Where a forward leads. -/
def forward? : Half → Option Id
  | .forward f => some f.target
  | _ => none

end Half

namespace Half

theorem message?_eq_some {half : Half} {m : Message} :
    half.message? = some m ↔ half = .message m := by
  cases half with
  | message m' =>
    show some m' = some m ↔ Half.message m' = Half.message m
    rw [Option.some_inj, Half.message.injEq]
  | _ => exact ⟨nofun, nofun⟩

theorem service?_eq_some {half : Half} {svc : Service} :
    half.service? = some svc ↔ half = .service svc := by
  cases half with
  | service svc' =>
    show some svc' = some svc ↔ Half.service svc' = Half.service svc
    rw [Option.some_inj, Half.service.injEq]
  | _ => exact ⟨nofun, nofun⟩

theorem forward?_eq_some {half : Half} {x : Id} :
    half.forward? = some x ↔ ∃ f, half = .forward f ∧ f.target = x := by
  cases half with
  | forward f =>
    show some f.target = some x ↔ _
    rw [Option.some_inj]
    refine ⟨fun h => ⟨f, rfl, h⟩, ?_⟩
    rintro ⟨f', ⟨⟩, h⟩
    exact h
  | _ => exact ⟨nofun, fun ⟨_, h, _⟩ => nomatch h⟩

end Half

/-- The net with one half at most on each channel. -/
def Net.ofPending (live : Live) (pending : Id → Option Half) (home : Id → Option Id) : Net where
  live
  message c := (pending c).bind Half.message?
  service c := (pending c).bind Half.service?
  forward c := (pending c).bind Half.forward?
  home

/-- The net of a store. -/
def Store.net (s : Store) : Net := .ofPending s.live s.halves.get? s.poolOf?

namespace Store

variable {s : Store} {z : Id}

theorem message_net_eq_some {m : Message} :
    s.net.message z = some m ↔ s.halves.get? z = some (.message m) := by
  refine Option.bind_eq_some_iff.trans ⟨?_, fun h => ⟨_, h, rfl⟩⟩
  rintro ⟨half, h, hm⟩
  rw [h, Half.message?_eq_some.1 hm]

theorem service_net_eq_some {svc : Service} :
    s.net.service z = some svc ↔ s.halves.get? z = some (.service svc) := by
  refine Option.bind_eq_some_iff.trans ⟨?_, fun h => ⟨_, h, rfl⟩⟩
  rintro ⟨half, h, hs⟩
  rw [h, Half.service?_eq_some.1 hs]

theorem forward_net_eq_some {x : Id} :
    s.net.forward z = some x ↔ ∃ f, s.halves.get? z = some (.forward f) ∧ f.target = x := by
  refine Option.bind_eq_some_iff.trans ⟨?_, ?_⟩
  · rintro ⟨half, h, hf⟩
    obtain ⟨f, rfl, hx⟩ := Half.forward?_eq_some.1 hf
    exact ⟨f, h, hx⟩
  · rintro ⟨f, h, rfl⟩
    exact ⟨_, h, rfl⟩

end Store

/-- The net with one more half. -/
def Net.add (n : Net) : Half → Net
  | .message m => { n with message := Function.update n.message m.channel (some m) }
  | .service svc => { n with service := Function.update n.service svc.channel (some svc) }
  | .forward f => { n with forward := Function.update n.forward f.channel (some f.target) }

/-! ## Fitting -/

/-- A payload goes with a connective. -/
inductive Payload.Fits : Payload → TypeNode → Prop
  | close : Fits .close .one
  | tensor {value cont : Endpoint} {got next : Id} : Fits (.send value cont) (.tensor got next)
  | lolli {value cont : Endpoint} {got next : Id} : Fits (.send value cont) (.lolli got next)
  | plus {label : Sym} {cont : Endpoint} {choices : Table Sym Id} (h : label ∈ choices.keys) :
    Fits (.lab label cont) (.plus choices)
  | with {label : Sym} {cont : Endpoint} {choices : Table Sym Id} (h : label ∈ choices.keys) :
    Fits (.lab label cont) (.with choices)
  | up {cont : Endpoint} {next : Id} : Fits (.acquire cont) (.up next)
  | down {cont : Endpoint} {next : Id} : Fits (.detach cont) (.down next)

/-- A handler goes with a connective. -/
inductive Handler.Fits : Handler → TypeNode → Prop
  | one {cont : Term} : Fits (.wait cont) .one
  | tensor {ph : Sym} {cont : Term} {got next : Id} : Fits (.recv ph cont) (.tensor got next)
  | lolli {ph : Sym} {cont : Term} {got next : Id} : Fits (.recv ph cont) (.lolli got next)
  | plus {conts : List (Sym × Term)} {choices : Table Sym Id}
    (h : ∀ label ∈ choices.keys, label ∈ conts.map Prod.fst) : Fits (.case conts) (.plus choices)
  | with {conts : List (Sym × Term)} {choices : Table Sym Id}
    (h : ∀ label ∈ choices.keys, label ∈ conts.map Prod.fst) : Fits (.case conts) (.with choices)
  | up {cont : Term} {next : Id} : Fits (.accept cont) (.up next)
  | down {cont : Term} {next : Id} : Fits (.release cont) (.down next)

theorem Payload.Fits.congr {payload : Payload} {m n : TypeNode} (h : payload.Fits m)
    (hs : m.SameShape n) : payload.Fits n := by
  obtain ⟨hc, hl⟩ := hs
  cases h with
  | close => cases n <;> cases hc; exact .close
  | tensor => cases n <;> cases hc; exact .tensor
  | lolli => cases n <;> cases hc; exact .lolli
  | plus h => cases n <;> cases hc; exact .plus ((hl _).1 h)
  | «with» h => cases n <;> cases hc; exact .with ((hl _).1 h)
  | up => cases n <;> cases hc; exact .up
  | down => cases n <;> cases hc; exact .down

theorem Handler.Fits.congr {handler : Handler} {m n : TypeNode} (h : handler.Fits m)
    (hs : m.SameShape n) : handler.Fits n := by
  obtain ⟨hc, hl⟩ := hs
  cases h with
  | one => cases n <;> cases hc; exact .one
  | tensor => cases n <;> cases hc; exact .tensor
  | lolli => cases n <;> cases hc; exact .lolli
  | plus h => cases n <;> cases hc; exact .plus fun label hm => h label ((hl label).2 hm)
  | «with» h => cases n <;> cases hc; exact .with fun label hm => h label ((hl label).2 hm)
  | up => cases n <;> cases hc; exact .up
  | down => cases n <;> cases hc; exact .down

theorem exists_find?_of_mem {label : Sym} {conts : List (Sym × Term)}
    (h : label ∈ conts.map Prod.fst) : ∃ term, Table.find? label conts = some term := by
  cases hf : Table.find? label conts with
  | some term => exact ⟨term, rfl⟩
  | none => exact absurd h ((Table.find?_eq_none_iff _ _).1 hf)

/-- A payload that goes with the same connective as a handler is taken, unless it hands over a
channel of the consumer's own pool. -/
theorem Service.reply_of_fits {svc : Service} {payload : Payload} {node : TypeNode}
    (hp : payload.Fits node) (hh : svc.handler.Fits node)
    (hv : ∀ v, payload.value? = some v → v.pool ≠ svc.pool) :
    ∃ term, svc.reply payload = some term := by
  unfold Service.reply
  revert hh
  generalize svc.handler = handler
  intro hh
  cases hp with
  | close => cases hh; exact ⟨_, rfl⟩
  | tensor => cases hh; exact ⟨_, if_neg (hv _ rfl)⟩
  | lolli => cases hh; exact ⟨_, if_neg (hv _ rfl)⟩
  | plus hl => cases hh with | plus h => exact exists_find?_of_mem (h _ hl)
  | «with» hl => cases hh with | «with» h => exact exists_find?_of_mem (h _ hl)
  | up => cases hh; exact ⟨_, rfl⟩
  | down => cases hh; exact ⟨_, rfl⟩

/-- What a service is given comes from elsewhere. -/
theorem Service.pool_ne_of_reply {svc : Service} {payload : Payload} {term : Term} {v : Endpoint}
    (h : svc.reply payload = some term) (hv : payload.value? = some v) : v.pool ≠ svc.pool := by
  intro hpool
  cases payload with
  | send value cont =>
    cases hv
    unfold reply at h
    cases hh : svc.handler with
    | recv ph cont =>
      rw [hh] at h
      dsimp only at h
      rw [if_pos hpool] at h
      cases h
    | _ =>
      rw [hh] at h
      cases h
  | _ => cases hv

/-- Whether a message comes from the provider of its channel. A channel is closed by nobody
else, and what goes on belongs to the pool of the provider. -/
def Message.ByProvider (m : Message) : Prop := ∀ k, m.payload.cont? = some k → k.pool = m.pool

/-! ## Turns -/

/-- The bindings after a process has acted on `via`: the placeholder goes on with `next`, if
anything, and what is given away is gone. -/
def Live.acted (v : Live) (p : Id) (via : Sym) (next : Option Endpoint) (given : Option Sym) :
    Live :=
  fun q ph =>
    if q = p then if ph = via then next else if given = some ph then none else v p ph else v q ph

/-- Where a binding points after a payload has been taken: the continuation may have come home to
the pool of its consumer. -/
def Service.homeward (svc : Service) (payload : Payload) (e : Endpoint) : Endpoint :=
  match payload.cont? with
  | some k =>
    if (Drafting.continued svc k).pool ≠ k.pool ∧ e.channel = k.channel then
      Drafting.continued svc k
    else e
  | none => e

namespace Net

/-- The process waits for nothing. -/
def Idle (n : Net) (p : Id) : Prop := ∀ {z : Id} {svc : Service}, n.service z = some svc →
  svc.process ≠ p

/-- The channel occurs nowhere. -/
structure Unused (n : Net) (c : Id) : Prop where
  live : ∀ {p : Id} {ph : Sym} {e : Endpoint}, n.live p ph = some e → e.channel ≠ c
  message : ∀ {z : Id} {m : Message}, n.message z = some m → z ≠ c
  value : ∀ {z : Id} {m : Message} {v : Endpoint}, n.message z = some m →
    m.payload.value? = some v → v.channel ≠ c
  cont : ∀ {z : Id} {m : Message} {k : Endpoint}, n.message z = some m →
    m.payload.cont? = some k → k.channel ≠ c
  service : ∀ {z : Id} {svc : Service}, n.service z = some svc → z ≠ c
  source : ∀ {y x : Id}, n.forward y = some x → y ≠ c
  target : ∀ {y x : Id}, n.forward y = some x → x ≠ c

/-- A process in pool `π` can emit a payload on the channel of `via`; `c` is the channel that
carries on. -/
structure Emits (D : Id → TypeNode → Prop) (n : Net) (p π : Id) (via : Sym) (ep : Endpoint)
    (payload : Payload) (given : Option Sym) (c : Id) : Prop where
  home : n.home p = some π
  bound : n.live p via = some ep
  /-- The payload goes with the type, and the acting side is the one that produces. -/
  fits : ∃ node, D ep.type node ∧ payload.Fits node ∧ (ep.pool = π ↔ node.polarity = .pos)
  cont : ∀ {k : Endpoint}, payload.cont? = some k → k.channel = c ∧ k.pool = ep.pool
  /-- What is sent is held, under another placeholder. -/
  value : ∀ {v : Endpoint}, payload.value? = some v →
    ∃ ph, given = some ph ∧ ph ≠ via ∧ n.live p ph = some v ∧ v.pool ≠ π
  keep : payload.value? = none → given = none

/-- The net with a message emitted. -/
def emitted (n : Net) (p π : Id) (via : Sym) (ep : Endpoint) (payload : Payload)
    (given : Option Sym) : Net :=
  { n with
    live := n.live.acted p via payload.cont? given
    message := Function.update n.message ep.channel (some ⟨ep.channel, π, p, payload⟩) }

/-- The net with a message and a service used up. -/
def met (n : Net) (z : Id) (m : Message) (svc : Service) : Net :=
  { n with
    live := fun q ph =>
      (n.live.after (svc.marks m.payload) q ph).map (svc.homeward m.payload)
    message := Function.update n.message z none
    service := Function.update n.service z none }

/-! ### What is there afterwards -/

theorem update_eq_some {α : Type} {f : Id → Option α} {x w : Id} {o : Option α} {a : α}
    (h : Function.update f x o w = some a) : w = x ∧ o = some a ∨ w ≠ x ∧ f w = some a := by
  by_cases hw : w = x
  · subst hw
    rw [Function.update_self] at h
    exact .inl ⟨rfl, h⟩
  · rw [Function.update_of_ne hw] at h
    exact .inr ⟨hw, h⟩

/-- What is there after an erasure was there before. -/
theorem erased_eq_some {α : Type} {f : Id → Option α} {x w : Id} {a : α}
    (h : Function.update f x none w = some a) : w ≠ x ∧ f w = some a := by
  rcases update_eq_some h with ⟨-, hnew⟩ | hold
  · cases hnew
  · exact hold

/-- What is there after something has moved from `y` to `x`. -/
theorem moved_eq_some {α : Type} {f : Id → Option α} {x y z : Id} {a b : α}
    (h : Function.update (Function.update f y none) x (some a) z = some b) :
    z = x ∧ b = a ∨ z ≠ x ∧ z ≠ y ∧ f z = some b := by
  rcases update_eq_some h with ⟨rfl, hnew⟩ | ⟨hne, h⟩
  · exact .inl ⟨rfl, (Option.some.inj hnew).symm⟩
  · obtain ⟨hne', h⟩ := erased_eq_some h
    exact .inr ⟨hne, hne', h⟩

/-- A binding of a process that has acted is the new one, or one that it kept. -/
theorem acted_eq_some {v : Live} {p q : Id} {via ph : Sym} {next : Option Endpoint}
    {given : Option Sym} {e : Endpoint} (h : v.acted p via next given q ph = some e) :
    (q = p ∧ ph = via ∧ next = some e) ∨
      (q = p → ph ≠ via ∧ given ≠ some ph) ∧ v q ph = some e := by
  unfold Live.acted at h
  by_cases hq : q = p
  · rw [if_pos hq] at h
    by_cases hph : ph = via
    · rw [if_pos hph] at h
      exact .inl ⟨hq, hph, h⟩
    · rw [if_neg hph] at h
      by_cases hg : given = some ph
      · rw [if_pos hg] at h
        cases h
      · rw [if_neg hg] at h
        exact .inr ⟨fun _ => ⟨hph, hg⟩, hq ▸ h⟩
  · rw [if_neg hq] at h
    exact .inr ⟨fun e => absurd e hq, h⟩

theorem continued_channel (svc : Service) (k : Endpoint) :
    (Drafting.continued svc k).channel = k.channel ∧
      (Drafting.continued svc k).type = k.type := by
  unfold Drafting.continued
  split <;> exact ⟨rfl, rfl⟩

/-- A binding stays where it is, or it is one of the continuation and comes home with it. -/
theorem homeward_cases (svc : Service) (payload : Payload) (e : Endpoint) :
    svc.homeward payload e = e ∨ ∃ k, payload.cont? = some k ∧ e.channel = k.channel ∧
      svc.homeward payload e = Drafting.continued svc k := by
  unfold Service.homeward
  cases payload.cont? with
  | none => exact .inl rfl
  | some k =>
    dsimp only
    split
    · next h => exact .inr ⟨k, rfl, h.2, rfl⟩
    · exact .inl rfl

/-- A client goes on with what it is given. -/
theorem continued_of_client {svc : Service} (h : svc.endpoint.pool ≠ svc.pool) (k : Endpoint) :
    Drafting.continued svc k = k :=
  if_neg h

theorem homeward_of_client {svc : Service} (h : svc.endpoint.pool ≠ svc.pool) (payload : Payload)
    (e : Endpoint) : svc.homeward payload e = e := by
  unfold Service.homeward
  cases payload.cont? with
  | none => rfl
  | some k =>
    dsimp only
    rw [if_neg]
    rintro ⟨hpool, -⟩
    exact hpool (congrArg Endpoint.pool (continued_of_client h k))

/-- A provider goes on as the provider. -/
theorem continued_of_provider {svc : Service} (h : svc.endpoint.pool = svc.pool) (k : Endpoint) :
    Drafting.continued svc k = { k with pool := svc.pool } :=
  if_pos h

theorem homeward_channel (svc : Service) (payload : Payload) (e : Endpoint) :
    (svc.homeward payload e).channel = e.channel := by
  rcases homeward_cases svc payload e with h | ⟨k, -, hch, h⟩
  · rw [h]
  · rw [h, hch, (continued_channel svc k).1]

/-- A binding after a meeting: the continuation, what was received, or one that was there. -/
theorem met_eq_some {n : Net} {z q : Id} {m : Message} {svc : Service} {ph : Sym} {e : Endpoint}
    (h : (n.met z m svc).live q ph = some e) :
    (∃ k, q = svc.process ∧ ph = svc.via ∧ m.payload.cont? = some k ∧
        e = Drafting.continued svc k) ∨
      (∃ v term, q = svc.process ∧ svc.handler = .recv ph term ∧ m.payload.value? = some v ∧
        e = svc.homeward m.payload v) ∨
      ∃ e₀, ¬ (q = svc.process ∧ ph = svc.via) ∧ n.live q ph = some e₀ ∧
        e = svc.homeward m.payload e₀ := by
  obtain ⟨e₀, he₀, rfl⟩ := Option.map_eq_some_iff.1 h
  rw [Service.marks, Live.after_cons] at he₀
  rcases Live.after_eq_some he₀ with hold | ⟨mark, hmark, -, rfl, rfl, rfl⟩
  · -- not a new binding, so it is not the one that was consumed
    by_cases hvia : q = svc.process ∧ ph = svc.via
    · obtain ⟨rfl, rfl⟩ := hvia
      rw [Live.marked] at hold
      cases (Live.set_self ..).symm.trans hold
    · rw [Live.marked_of_ne hvia] at hold
      exact .inr (.inr ⟨e₀, hvia, hold, rfl⟩)
  · rcases List.mem_append.1 hmark with hcont | hreceived
    · obtain ⟨k, hk, rfl⟩ := Option.map_eq_some_iff.1 (Option.mem_toList.1 hcont)
      refine .inl ⟨k, rfl, rfl, hk, ?_⟩
      rcases homeward_cases svc m.payload (Drafting.continued svc k) with h | ⟨k', hk', -, h⟩
      · exact h
      · cases hk.symm.trans hk'
        exact h
    · unfold Service.received at hreceived
      split at hreceived
      · next value next ph term hp hh =>
        rw [List.mem_singleton.1 hreceived]
        exact .inr (.inl ⟨value, term, rfl, hh, by rw [hp]; rfl, rfl⟩)
      · cases hreceived

theorem mem_serviceMarks {svc : Service} {payload : Payload} {k : Mark}
    (h : k ∈ svc.marks payload) : k.process = svc.process ∧ k.pool = svc.pool := by
  rcases List.mem_cons.1 h with rfl | h
  · exact ⟨rfl, rfl⟩
  rcases List.mem_append.1 h with h | h
  · obtain ⟨next, -, rfl⟩ := Option.map_eq_some_iff.1 (Option.mem_toList.1 h)
    exact ⟨rfl, rfl⟩
  · unfold Service.received at h
    split at h
    · rw [List.mem_singleton.1 h]
      exact ⟨rfl, rfl⟩
    · cases h

/-- Other processes keep their bindings, wherever these come home to. -/
theorem met_of_ne {n : Net} {z q : Id} {m : Message} {svc : Service} (hq : q ≠ svc.process)
    (ph : Sym) :
    (n.met z m svc).live q ph = (n.live q ph).map (svc.homeward m.payload) := by
  show (n.live.after (svc.marks m.payload) q ph).map _ = _
  rw [Live.after_of_ne fun mark hmark => ?_]
  rw [(mem_serviceMarks hmark).1]
  exact Ne.symm hq

/-- One thing that happens in a net, where types stand for what `D` says and `c` is the channel
that is new. -/
inductive Turn (D : Id → TypeNode → Prop) (c : Id) : Net → Net → Prop
  /-- A process leaves a message. -/
  | emit {n : Net} {p π : Id} {via : Sym} {ep : Endpoint} {payload : Payload} {given : Option Sym}
    (he : n.Emits D p π via ep payload given c) (hc : n.Unused c) (hidle : n.Idle p)
    (hfree : n.message ep.channel = none) : Turn D c n (n.emitted p π via ep payload given)
  /-- A process leaves a service. -/
  | await {n : Net} {p π : Id} {via : Sym} {ep : Endpoint} {handler : Handler} {node : TypeNode}
    (hhome : n.home p = some π) (hbound : n.live p via = some ep) (hnode : D ep.type node)
    (hfits : handler.Fits node) (hside : ep.pool = π ↔ node.polarity = .neg) (hidle : n.Idle p)
    (hfree : n.service ep.channel = none) :
    Turn D c n { n with
      service := Function.update n.service ep.channel
        (some ⟨ep.channel, π, p, via, ep, handler⟩) }
  /-- A process leaves a forward and is gone from both channels. -/
  | relay {n : Net} {p π : Id} {via target : Sym} {x y : Endpoint} {nx ny : TypeNode}
    (hhome : n.home p = some π) (hx : n.live p via = some x) (hxp : x.pool = π)
    (hy : n.live p target = some y) (hyp : y.pool ≠ π) (hnx : D x.type nx) (hny : D y.type ny)
    (hshape : ny.SameShape nx) (hidle : n.Idle p) (hfree : n.forward y.channel = none) :
    Turn D c n { n with
      live := n.live.acted p via none (some target)
      forward := Function.update n.forward y.channel (some x.channel) }
  /-- A message moves along a forward, which is used up. -/
  | carry {n : Net} {x y : Id} {m : Message} (hf : n.forward y = some x)
    (hm : n.message y = some m) (hfree : n.message x = none) :
    Turn D c n { n with
      forward := Function.update n.forward y none
      message := Function.update (Function.update n.message y none) x
        (some { m with channel := x }) }
  /-- A service moves along a forward, which is used up. -/
  | usher {n : Net} {x y : Id} {svc : Service} (hf : n.forward y = some x)
    (hs : n.service y = some svc) (hfree : n.service x = none) :
    Turn D c n { n with
      forward := Function.update n.forward y none
      service := Function.update (Function.update n.service y none) x
        (some { svc with channel := x }) }
  /-- Two forwards in a row become one. -/
  | shorten {n : Net} {x y w : Id} (hf : n.forward y = some x) (hg : n.forward x = some w)
    (hne : x ≠ y) :
    Turn D c n { n with
      forward := Function.update (Function.update n.forward x none) y (some w) }
  /-- A message and a service on one channel are used up together. -/
  | meet {n : Net} {z : Id} {m : Message} {svc : Service} {term : Term}
    (hm : n.message z = some m) (hs : n.service z = some svc)
    (hr : svc.reply m.payload = some term) : Turn D c n (n.met z m svc)

/-- Process `q` is new in `pool` and provides a channel that is new as well. -/
structure Born (n n' : Net) (q pool : Id) (provision : Endpoint) : Prop where
  new : n.home q = none
  home_eq : n'.home = Function.update n.home q (some pool)
  pool_eq : provision.pool = pool
  unused : n.Unused provision.channel
  message : n'.message = n.message
  service : n'.service = n.service
  forward : n'.forward = n.forward

section Born

variable {n n' : Net} {q pool : Id} {provision : Endpoint}

/-- Everybody else stays at home when a process is born. -/
theorem Born.home_of_ne (hb : n.Born n' q pool provision) {r : Id} (hr : r ≠ q) :
    n'.home r = n.home r := by
  rw [hb.home_eq, Function.update_of_ne hr]

theorem Born.home_self (hb : n.Born n' q pool provision) : n'.home q = some pool := by
  rw [hb.home_eq, Function.update_self]

theorem Born.home_of_home (hb : n.Born n' q pool provision) {p π : Id} (hp : n.home p = some π) :
    n'.home p = some π := by
  rw [hb.home_of_ne, hp]
  rintro rfl
  cases hb.new.symm.trans hp

end Born

/-- Process `p` founds process `q` in `pool`. It holds what `q` provides under `via`, and `q` has
got its gifts. -/
structure Founds (n n' : Net) (p π q pool : Id) (via ph : Sym) (provision : Endpoint)
    (gifts : List Gift) : Prop extends n.Born n' q pool provision where
  home : n.home p = some π
  idle : n.Idle p
  elsewhere : pool ≠ π
  nodup : (gifts.map Gift.value).Nodup
  given : ∀ g ∈ gifts, n.live p g.value = some g.endpoint ∧ g.endpoint.pool ≠ π ∧
    g.endpoint.pool ≠ pool
  live_new : ∀ {h : Sym} {e : Endpoint}, n'.live q h = some e →
    h = ph ∧ e = provision ∨ ∃ g ∈ gifts, g.parameter.placeholder = h ∧ g.endpoint = e
  live_giver : ∀ h, n'.live p h =
    if h = via then some provision else if h ∈ gifts.map Gift.value then none else n.live p h
  live_other : ∀ {r : Id}, r ≠ p → r ≠ q → n'.live r = n.live r

/-- Process `q` is created in `pool` and receives channels that are provided and not held. -/
structure Creates (n n' : Net) (q pool : Id) (ph : Sym) (provision : Endpoint)
    (receptions : List (Sym × Endpoint)) : Prop extends n.Born n' q pool provision where
  distinct : (receptions.map fun r => r.2.channel).Nodup
  provided : ∀ r ∈ receptions, ∃ p h, n.live p h = some r.2 ∧ n.home p = some r.2.pool
  free : ∀ r ∈ receptions, ∀ {p : Id} {h : Sym} {e : Endpoint}, n.live p h = some e →
    e.channel = r.2.channel → n.home p = some e.pool
  elsewhere : ∀ r ∈ receptions, r.2.pool ≠ pool
  live_new : ∀ {h : Sym} {e : Endpoint}, n'.live q h = some e →
    h = ph ∧ e = provision ∨ (h, e) ∈ receptions
  live_other : ∀ {r : Id}, r ≠ q → n'.live r = n.live r

end Net

end Rendezvous
