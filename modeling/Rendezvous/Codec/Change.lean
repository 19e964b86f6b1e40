import Rendezvous.Codec.Term
import Rendezvous.Configuration

/-!
# Halves, configurations and changes in JSON

Every record is written as an object with its fields. A half, a payload, a handler and an
operation on a half are variants.
-/

namespace Rendezvous

/-! ## Halves -/

/-- Writes an endpoint. -/
def Endpoint.toJson (ep : Endpoint) : Json :=
  .obj [("chnl_id", ep.channel.toJson), ("type_id", ep.type.toJson), ("pool_id", ep.pool.toJson)]

/-- Reads an endpoint. -/
def Endpoint.ofJson? (j : Json) : Option Endpoint := do
  let f ← Json.record? ["chnl_id", "type_id", "pool_id"] j
  pure ⟨← f.required "chnl_id" Id.ofJson?, ← f.required "type_id" Id.ofJson?,
    ← f.required "pool_id" Id.ofJson?⟩

/-- Writes a payload. -/
def Payload.toJson : Payload → Json
  | .close => .str "close"
  | .send value cont => .obj [("send", .obj [("value", value.toJson), ("cont", cont.toJson)])]
  | .lab label cont => .obj [("lab", .obj [("label", .str label), ("cont", cont.toJson)])]
  | .acquire cont => .obj [("acquire", .obj [("cont", cont.toJson)])]
  | .detach cont => .obj [("detach", .obj [("cont", cont.toJson)])]

/-- Reads a payload. -/
def Payload.ofJson? (j : Json) : Option Payload := do
  match ← Json.variant? j with
  | ("close", none) | ("close", some .null) => pure .close
  | ("send", some j) =>
    let f ← Json.object? ["value", "cont"] j
    pure (.send (← f.required "value" Endpoint.ofJson?) (← f.required "cont" Endpoint.ofJson?))
  | ("lab", some j) =>
    let f ← Json.object? ["label", "cont"] j
    pure (.lab (← f.required "label" Json.string) (← f.required "cont" Endpoint.ofJson?))
  | ("acquire", some j) =>
    let f ← Json.object? ["cont"] j
    pure (.acquire (← f.required "cont" Endpoint.ofJson?))
  | ("detach", some j) =>
    let f ← Json.object? ["cont"] j
    pure (.detach (← f.required "cont" Endpoint.ofJson?))
  | _ => none

/-- Writes a handler. -/
def Handler.toJson : Handler → Json
  | .wait cont => .obj [("wait", .obj [("cont", cont.toJson)])]
  | .recv value cont => .obj [("recv", .obj [("value", .str value), ("cont", cont.toJson)])]
  | .case conts => .obj [("case", .obj [("conts", .obj (Term.branchesToJson conts))])]
  | .accept cont => .obj [("accept", .obj [("cont", cont.toJson)])]
  | .release cont => .obj [("release", .obj [("cont", cont.toJson)])]

/-- Reads the branches of a case handler. -/
def Handler.branches? : Json → Option (List (Sym × Term))
  | .obj members => (Term.branchesOfJson? members).map sortEntries
  | _ => none

/-- Reads a handler. -/
def Handler.ofJson? (j : Json) : Option Handler := do
  match ← Json.variant? j with
  | ("wait", some j) =>
    let f ← Json.object? ["cont"] j
    pure (.wait (← f.required "cont" Term.ofJson?))
  | ("recv", some j) =>
    let f ← Json.object? ["value", "cont"] j
    pure (.recv (← f.required "value" Json.string) (← f.required "cont" Term.ofJson?))
  | ("case", some j) =>
    let f ← Json.object? ["conts"] j
    pure (.case (← f.required "conts" Handler.branches?))
  | ("accept", some j) =>
    let f ← Json.object? ["cont"] j
    pure (.accept (← f.required "cont" Term.ofJson?))
  | ("release", some j) =>
    let f ← Json.object? ["cont"] j
    pure (.release (← f.required "cont" Term.ofJson?))
  | _ => none

/-- Writes a message. -/
def Message.toJson (m : Message) : Json :=
  .obj [("chnl_id", m.channel.toJson), ("pool_id", m.pool.toJson), ("proc_id", m.process.toJson),
    ("val", m.payload.toJson)]

/-- Reads a message. -/
def Message.ofJson? (j : Json) : Option Message := do
  let f ← Json.record? ["chnl_id", "pool_id", "proc_id", "val"] j
  pure ⟨← f.required "chnl_id" Id.ofJson?, ← f.required "pool_id" Id.ofJson?,
    ← f.required "proc_id" Id.ofJson?, ← f.required "val" Payload.ofJson?⟩

/-- Writes a service. -/
def Service.toJson (s : Service) : Json :=
  .obj [("chnl_id", s.channel.toJson), ("pool_id", s.pool.toJson), ("proc_id", s.process.toJson),
    ("via", .str s.via), ("ep", s.endpoint.toJson), ("cont", s.handler.toJson)]

/-- Reads a service. -/
def Service.ofJson? (j : Json) : Option Service := do
  let f ← Json.record? ["chnl_id", "pool_id", "proc_id", "via", "ep", "cont"] j
  pure ⟨← f.required "chnl_id" Id.ofJson?, ← f.required "pool_id" Id.ofJson?,
    ← f.required "proc_id" Id.ofJson?, ← f.required "via" Json.string,
    ← f.required "ep" Endpoint.ofJson?, ← f.required "cont" Handler.ofJson?⟩

/-- Writes a forward. -/
def Forward.toJson (r : Forward) : Json :=
  .obj [("chnl_id", r.channel.toJson), ("pool_id", r.pool.toJson), ("proc_id", r.process.toJson),
    ("target", r.target.toJson)]

/-- Reads a forward. -/
def Forward.ofJson? (j : Json) : Option Forward := do
  let f ← Json.record? ["chnl_id", "pool_id", "proc_id", "target"] j
  pure ⟨← f.required "chnl_id" Id.ofJson?, ← f.required "pool_id" Id.ofJson?,
    ← f.required "proc_id" Id.ofJson?, ← f.required "target" Id.ofJson?⟩

/-- Writes a half. -/
def Half.toJson : Half → Json
  | .message m => .obj [("msg", m.toJson)]
  | .service s => .obj [("svc", s.toJson)]
  | .forward f => .obj [("fwd", f.toJson)]

/-- Reads a half. -/
def Half.ofJson? (j : Json) : Option Half := do
  match ← Json.variant? j with
  | ("msg", some j) => .message <$> Message.ofJson? j
  | ("svc", some j) => .service <$> Service.ofJson? j
  | ("fwd", some j) => .forward <$> Forward.ofJson? j
  | _ => none

/-! ## Changes -/

/-- Writes a binding. -/
def Binding.toJson (b : Binding) : Json :=
  .obj [("proc_id", b.process.toJson), ("ph", .str b.placeholder), ("ep", b.endpoint.toJson),
    ("rev", .int b.stamp)]

/-- Reads a binding. -/
def Binding.ofJson? (j : Json) : Option Binding := do
  let f ← Json.record? ["proc_id", "ph", "ep", "rev"] j
  pure ⟨← f.required "proc_id" Id.ofJson?, ← f.required "ph" Json.string,
    ← f.required "ep" Endpoint.ofJson?, ← f.required "rev" Json.int64⟩

/-- Writes a process record. -/
def Member.toJson (m : Member) : Json :=
  .obj [("id", m.id.toJson), ("pool_id", m.pool.toJson), ("sig_id", m.sig.toJson)]

/-- Reads a process record. -/
def Member.ofJson? (j : Json) : Option Member := do
  let f ← Json.record? ["id", "pool_id", "sig_id"] j
  pure ⟨← f.required "id" Id.ofJson?, ← f.required "pool_id" Id.ofJson?,
    ← f.required "sig_id" Id.ofJson?⟩

/-- Writes a pool. -/
def Pool.toJson (p : Pool) : Json :=
  .obj [("id", p.id.toJson), ("title", Json.ofOption QualName.toJson p.title),
    ("sup", Json.ofOption Id.toJson p.sup), ("rev", p.rev.toJson)]

/-- Reads a pool. -/
def Pool.ofJson? (j : Json) : Option Pool := do
  let f ← Json.record? ["id", "title", "sup", "rev"] j
  pure ⟨← f.required "id" Id.ofJson?, ← f.optional "title" QualName.ofJson?,
    ← f.optional "sup" Id.ofJson?, ← f.required "rev" Rev.ofJson?⟩

/-- Writes a liability. -/
def Liability.toJson (l : Liability) : Json :=
  .obj [("pool_id", l.pool.toJson), ("proc_id", l.process.toJson), ("rev", .int l.stamp)]

/-- Reads a liability. -/
def Liability.ofJson? (j : Json) : Option Liability := do
  let f ← Json.record? ["pool_id", "proc_id", "rev"] j
  pure ⟨← f.required "pool_id" Id.ofJson?, ← f.required "proc_id" Id.ofJson?,
    ← f.required "rev" Json.int64⟩

/-- Writes a lock. -/
def Lock.toJson (l : Lock) : Json := .obj [("pool_id", l.pool.toJson), ("rev", l.rev.toJson)]

/-- Reads a lock. -/
def Lock.ofJson? (j : Json) : Option Lock := do
  let f ← Json.record? ["pool_id", "rev"] j
  pure ⟨← f.required "pool_id" Id.ofJson?, ← f.required "rev" Rev.ofJson?⟩

/-- Writes an operation on a half. -/
def SlotOp.toJson : SlotOp → Json
  | .put half => .obj [("put", half.toJson)]
  | .take channel => .obj [("take", channel.toJson)]

/-- Reads an operation on a half. -/
def SlotOp.ofJson? (j : Json) : Option SlotOp := do
  match ← Json.variant? j with
  | ("put", some j) => .put <$> Half.ofJson? j
  | ("take", some j) => .take <$> Id.ofJson? j
  | _ => none

/-- Writes a change. -/
def Change.toJson (c : Change) : Json :=
  .obj [("locks", Json.ofList Lock.toJson c.locks), ("bnds", Json.ofList Binding.toJson c.bindings),
    ("steps", Json.ofList SlotOp.toJson c.slots),
    ("liabs", Json.ofList Liability.toJson c.liabilities),
    ("procs", Json.ofList Member.toJson c.members), ("pools", Json.ofList Pool.toJson c.pools),
    ("homes", Json.ofList Endpoint.toJson c.homes)]

/-- Reads a change; homes may be left out. -/
def Change.ofJson? (j : Json) : Option Change := do
  let f ← Json.record? ["locks", "bnds", "steps", "liabs", "procs", "pools", "homes"] j
  pure {
    locks := ← f.required "locks" (Json.list Lock.ofJson?)
    bindings := ← f.required "bnds" (Json.list Binding.ofJson?)
    slots := ← f.required "steps" (Json.list SlotOp.ofJson?)
    liabilities := ← f.required "liabs" (Json.list Liability.ofJson?)
    members := ← f.required "procs" (Json.list Member.ofJson?)
    pools := ← f.required "pools" (Json.list Pool.ofJson?)
    homes := ← f.defaulted "homes" [] (Json.list Endpoint.ofJson?) }

/-! ## Steps and configurations -/

/-- Writes a submitted step. -/
def StepSpec.toJson (s : StepSpec) : Json :=
  .obj [("pool_id", s.pool.toJson), ("proc_id", s.process.toJson), ("term", s.term.toJson)]

/-- Reads a submitted step. -/
def StepSpec.ofJson? (j : Json) : Option StepSpec := do
  let f ← Json.record? ["pool_id", "proc_id", "term"] j
  pure ⟨← f.required "pool_id" Id.ofJson?, ← f.required "proc_id" Id.ofJson?,
    ← f.required "term" Term.ofJson?⟩

/-- Writes a configuration. -/
def Configuration.toJson (c : Configuration) : Json :=
  .obj [("proc_id", c.process.toJson), ("pool_id", c.pool.toJson), ("rev", c.rev.toJson),
    ("chnls", Json.ofTable Json.str Endpoint.toJson c.channels),
    ("steps", Json.ofTable Id.toJson Half.toJson c.halves),
    ("peers", Json.ofTable Id.toJson Rev.toJson c.peers)]

/-- Reads a configuration: its halves are given as a list and filed under their channels. -/
def Configuration.ofJson? (j : Json) : Option Configuration := do
  let f ← Json.record? ["proc_id", "pool_id", "rev", "chnls", "steps", "peers"] j
  let halves ← f.required "steps" (Json.list Half.ofJson?)
  pure {
    process := ← f.required "proc_id" Id.ofJson?
    pool := ← f.required "pool_id" Id.ofJson?
    rev := ← f.required "rev" Rev.ofJson?
    channels := .ofList (← f.required "chnls" (Json.list (Json.pair Json.string Endpoint.ofJson?)))
    halves := .ofList (halves.map fun half => (half.channel, half))
    peers := .ofList (← f.required "peers" (Json.list (Json.pair Id.ofJson? Rev.ofJson?))) }

/-- Writes a reference to a process. -/
def ProcRef.toJson (r : ProcRef) : Json :=
  .obj [("proc_id", r.process.toJson), ("pool_id", r.pool.toJson), ("chnl_id", r.channel.toJson)]

/-- Writes the state of a process. -/
def ProcView.toJson (v : ProcView) : Json :=
  .obj [("proc_id", v.process.toJson), ("pool_id", v.pool.toJson), ("sig_id", v.sig.toJson),
    ("rev", v.rev.toJson), ("chnls", Json.ofTable Json.str Endpoint.toJson v.channels),
    ("steps", Json.ofList Half.toJson v.halves)]

/-- Writes a pool with what belongs to it. -/
def PoolView.toJson (v : PoolView) : Json :=
  .obj [("pool", v.pool.toJson), ("subs", Json.ofList Pool.toJson v.subs),
    ("liable", Json.ofOption Id.toJson v.liable)]

end Rendezvous
