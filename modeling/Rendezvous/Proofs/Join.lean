import Rendezvous.Proofs.Draft

/-!
# Where halves meet

What happens to a half where it lands: it stays, or it meets its dual and the two are used up.

- `Service.reply` is what a consumer goes on with when it is given a payload, `Service.marks` how
  it is bound anew;
- `Joins` says what comes of a half on the channel it lands on (`join_eq_ok`);
- `produce_eq` and `consume_eq`: producing and consuming are landing with a half.
-/

namespace Rendezvous

/-! ## Meeting -/

/-- The continuation a payload carries. -/
def Payload.cont? : Payload → Option Endpoint
  | .close => none
  | .send _ cont | .lab _ cont | .acquire cont | .detach cont => some cont

/-- The channel a payload hands over. -/
def Payload.value? : Payload → Option Endpoint
  | .send value _ => some value
  | .close | .lab .. | .acquire _ | .detach _ => none

namespace Service

/-- What a service goes on with when it is given a payload, if it can take it. -/
def reply (svc : Service) (payload : Payload) : Option Term :=
  match payload, svc.handler with
  | .close, .wait cont => some cont
  | .send value _, .recv _ cont => if value.pool = svc.pool then none else some cont
  | .lab label _, .case conts => Table.find? label conts
  | .acquire _, .accept cont => some cont
  | .detach _, .release cont => some cont
  | _, _ => none

/-- A mark for the process of a service. -/
def mark (svc : Service) (isIntro : Bool) (ph : Sym) (ep : Endpoint) : Mark :=
  ⟨svc.process, svc.pool, ph, ep, isIntro⟩

/-- What a consumer binds beside the continuation. -/
def received (svc : Service) (payload : Payload) : List Mark :=
  match payload, svc.handler with
  | .send value _, .recv ph _ => [svc.mark true ph value]
  | _, _ => []

/-- The bindings of a consumer that is served: its channel goes on as the continuation, and what
it receives is bound. -/
def marks (svc : Service) (payload : Payload) : List Mark :=
  svc.mark false svc.via svc.endpoint ::
    ((payload.cont?.map fun next => svc.mark true svc.via (Drafting.continued svc next)).toList ++
      svc.received payload)

/-- The home that a continuation gets, where it is provided from another pool than the producer
has on record. -/
def homeOf (svc : Service) (next : Endpoint) : List Endpoint :=
  if (Drafting.continued svc next).pool ≠ next.pool then [Drafting.continued svc next] else []

/-- The home of the continuation that a payload carries. -/
def homes (svc : Service) (payload : Payload) : List Endpoint :=
  match payload.cont? with
  | some next => svc.homeOf next
  | none => []

end Service

/-- What comes of a half where it lands. -/
structure Joined where
  next : Option StepSpec
  marks : List Mark
  slots : List SlotOp
  homes : List Endpoint

/-- A service that is given a payload on channel `z` and goes on with `term`. -/
def Service.served (svc : Service) (z : Id) (payload : Payload) (term : Term) : Joined :=
  ⟨some ⟨svc.pool, svc.process, term⟩, svc.marks payload, [.take z], svc.homes payload⟩

/-- A half that lands on channel `z`, with what is pending there. -/
inductive Joins (z : Id) : Half → Option Half → Joined → Prop
  /-- Nothing is there, and the half stays. -/
  | wait {half : Half} : Joins z half none ⟨none, [], [.put (half.movedTo z)], []⟩
  /-- A message meets the service that takes it. -/
  | serve {msg : Message} {svc : Service} {term : Term} (h : svc.reply msg.payload = some term) :
    Joins z (.message msg) (some (.service svc)) (svc.served z msg.payload term)
  /-- A service meets the message it takes. -/
  | fetch {msg : Message} {svc : Service} {term : Term} (h : svc.reply msg.payload = some term) :
    Joins z (.service svc) (some (.message msg)) (svc.served z msg.payload term)

/-- The operations that use up the forwards of a landing. -/
def Landing.takes (l : Landing) : List SlotOp := l.passed.map SlotOp.take

namespace Drafting

theorem rehome_eq_ok (cfg : Configuration) {svc : Service} {next : Endpoint} {d d' : Change}
    {home : Endpoint} :
    rehome svc next d = .ok (home, d') ↔
      home = continued svc next ∧ Adds cfg [] [] (svc.homeOf next) d d' := by
  unfold rehome Service.homeOf
  rw [adds_nil]
  by_cases h : (continued svc next).pool ≠ next.pool
  · rw [if_pos h, if_pos h]
    simp only [bind_eq_ok, modify_eq_ok, pure_eq_ok, Prod.mk.injEq, true_and]
    constructor
    · rintro ⟨_, _, rfl, rfl, rfl⟩
      simp
    · rintro ⟨rfl, rfl⟩
      exact ⟨(), _, rfl, rfl, by simp⟩
  · rw [if_neg h, if_neg h]
    simp [pure_eq_ok]

/-- Going on with a continuation binds it and may give it a home. -/
theorem proceed_eq_ok {cfg : Configuration} {svc : Service} {next : Endpoint} {d d' : Change}
    {u : Unit} :
    proceed cfg svc next d = .ok (u, d') ↔
      Adds cfg [svc.mark true svc.via (continued svc next)] [] (svc.homeOf next) d d' := by
  have h := exists_adds_iff cfg d d' [] [svc.mark true svc.via (continued svc next)] [] []
    (svc.homeOf next) []
  rw [List.nil_append, List.nil_append, List.append_nil] at h
  rw [← h]
  unfold proceed
  simp only [bind_eq_ok, rehome_eq_ok cfg, introduceFor_eq_ok, adds_marks]
  constructor
  · rintro ⟨_, e, ⟨rfl, he⟩, hd⟩
    exact ⟨e, he, hd⟩
  · rintro ⟨e, he, hd⟩
    exact ⟨_, e, ⟨rfl, he⟩, hd⟩

/-- A received channel is bound after the continuation. -/
theorem proceed_introduceFor_eq_ok {cfg : Configuration} {svc : Service} {next value : Endpoint}
    {ph : Sym} {d d' : Change} :
    (∃ u e, proceed cfg svc next d = .ok (u, e) ∧
      ∃ v, introduceFor cfg svc.process svc.pool ph value e = .ok (v, d')) ↔
      Adds cfg [svc.mark true svc.via (continued svc next), svc.mark true ph value] []
        (svc.homeOf next) d d' := by
  have h := exists_adds_iff cfg d d' [svc.mark true svc.via (continued svc next)]
    [svc.mark true ph value] [] [] (svc.homeOf next) []
  rw [List.nil_append, List.append_nil, List.singleton_append] at h
  rw [← h]
  simp only [proceed_eq_ok, introduceFor_eq_ok, adds_marks]
  constructor
  · rintro ⟨_, e, he, _, hd⟩
    exact ⟨e, he, hd⟩
  · rintro ⟨e, he, hd⟩
    exact ⟨(), e, he, (), hd⟩

/-- A first step that is the same in all cases can be left aside. -/
theorem exists_after_iff {α : Type} {P T A : Change → Prop} {R S : α → Prop}
    (key : ∀ e, T e ↔ ∃ t, R t ∧ S t ∧ A e) :
    (∃ (_ : Unit) (e : Change), P e ∧ T e) ↔ ∃ t, R t ∧ S t ∧ ∃ e, P e ∧ A e := by
  constructor
  · rintro ⟨_, e, he, ht⟩
    obtain ⟨t, hr, hs, ha⟩ := (key e).1 ht
    exact ⟨t, hr, hs, e, he, ha⟩
  · rintro ⟨t, hr, hs, e, he, ha⟩
    exact ⟨(), e, he, (key e).2 ⟨t, hr, hs, ha⟩⟩

/-- A payload is handed over exactly if the service has a reply to it. -/
theorem complete_eq_ok {cfg : Configuration} {payload : Payload} {svc : Service}
    {d d' : Change} {spec : StepSpec} :
    complete cfg payload svc d = .ok (spec, d') ↔
      ∃ term, svc.reply payload = some term ∧ spec = ⟨svc.pool, svc.process, term⟩ ∧
        Adds cfg (svc.marks payload) [] (svc.homes payload) d d' := by
  have h := exists_adds_iff cfg d d' [svc.mark false svc.via svc.endpoint]
    ((payload.cont?.map fun next => svc.mark true svc.via (continued svc next)).toList ++
      svc.received payload) [] [] [] (svc.homes payload)
  rw [List.nil_append, List.nil_append, List.singleton_append] at h
  unfold Service.marks complete
  rw [← h]
  simp only [bind_eq_ok, discardFor_eq_ok, adds_marks]
  refine exists_after_iff fun e => ?_
  unfold Service.reply Service.received Service.homes
  cases payload <;> cases svc.handler
  case close.wait cont => simp [Payload.cont?, pure_eq_ok, adds_nil]
  case send.recv value next ph cont =>
    by_cases hp : value.pool = svc.pool
    · simp [hp, bind_eq_ok, throw_ne_ok]
    · simp only [hp, if_false, bind_eq_ok, pure_eq_ok, Payload.cont?, Option.map_some,
        Option.toList_some, List.singleton_append, ← proceed_introduceFor_eq_ok,
        Option.some.injEq, Prod.mk.injEq]
      constructor
      · rintro ⟨u, f, hf, v, _, hv, rfl, rfl⟩
        exact ⟨cont, rfl, rfl, u, f, hf, v, hv⟩
      · rintro ⟨_, rfl, rfl, u, f, hf, v, hv⟩
        exact ⟨u, f, hf, v, _, hv, rfl, rfl⟩
  case lab.case label next conts =>
    cases hf : Table.find? label conts with
    | none => simp [hf, throw_ne_ok]
    | some cont =>
      simp [hf, Payload.cont?, map_eq_ok, proceed_eq_ok]
      exact and_comm
  case acquire.accept =>
    simp [Payload.cont?, map_eq_ok, proceed_eq_ok]
    exact and_comm
  case detach.release =>
    simp [Payload.cont?, map_eq_ok, proceed_eq_ok]
    exact and_comm
  all_goals simp [throw_ne_ok]

/-! ## Landing -/

theorem land_eq_ok (cfg : Configuration) {channel : Id} {d d' : Change} {r : Id × Option Half} :
    land cfg channel d = .ok (r, d') ↔
      ∃ l, cfg.landing? channel = some l ∧ r = (l.channel, l.half) ∧
        Adds cfg [] l.takes [] d d' := by
  unfold land
  cases hl : cfg.landing? channel with
  | none => simp [throw_ne_ok]
  | some l =>
    simp only [bind_eq_ok, modify_eq_ok, pure_eq_ok, adds_nil, Prod.mk.injEq, Option.some.injEq]
    constructor
    · rintro ⟨_, _, ⟨-, rfl⟩, rfl, rfl⟩
      exact ⟨l, rfl, rfl, by simp [Landing.takes]⟩
    · rintro ⟨_, rfl, rfl, rfl⟩
      exact ⟨(), _, ⟨trivial, rfl⟩, rfl, by simp [Landing.takes]⟩

theorem slot_adds (cfg : Configuration) {op : SlotOp} {d d' : Change} {u : Unit} :
    slot op d = .ok (u, d') ↔ Adds cfg [] [op] [] d d' := by
  rw [slot_eq_ok, adds_nil]
  simp

/-- A half that is there is taken and handed over, or handed what is there. -/
theorem take_complete_eq_ok {cfg : Configuration} {z : Id} {payload : Payload} {svc : Service}
    {d d' : Change} {next : Option StepSpec} :
    (∃ u e, slot (.take z) d = .ok (u, e) ∧
      (some <$> complete cfg payload svc) e = .ok (next, d')) ↔
      ∃ term, svc.reply payload = some term ∧ next = (svc.served z payload term).next ∧
        Adds cfg (svc.marks payload) [.take z] (svc.homes payload) d d' := by
  have h := exists_adds_iff cfg d d' [] (svc.marks payload) [.take z] [] [] (svc.homes payload)
  rw [List.nil_append, List.nil_append, List.append_nil] at h
  simp only [← h, slot_adds cfg, map_eq_ok, complete_eq_ok, Prod.mk.injEq]
  constructor
  · rintro ⟨_, e, he, _, _, ⟨term, hr, rfl, ha⟩, rfl, rfl⟩
    exact ⟨term, hr, rfl, e, he, ha⟩
  · rintro ⟨term, hr, rfl, e, he, ha⟩
    exact ⟨(), e, he, _, _, ⟨term, hr, rfl, ha⟩, rfl, rfl⟩

/-- What `join` does is one of the three ways in which a half joins what is pending. -/
theorem join_eq_ok {cfg : Configuration} {z : Id} {half : Half} {pending : Option Half}
    {d d' : Change} {next : Option StepSpec} :
    join cfg z half pending d = .ok (next, d') ↔
      ∃ j, Joins z half pending j ∧ next = j.next ∧ Adds cfg j.marks j.slots j.homes d d' := by
  cases pending with
  | none =>
    unfold join
    simp only [bind_eq_ok, slot_adds cfg, pure_eq_ok, Prod.mk.injEq]
    constructor
    · rintro ⟨_, e, he, rfl, rfl⟩
      exact ⟨_, .wait, rfl, he⟩
    · rintro ⟨_, hj, rfl, hd⟩
      cases hj
      exact ⟨(), d', hd, rfl, rfl⟩
  | some other =>
    cases half <;> cases other
    case message.service msg svc =>
      refine (bind_eq_ok.trans take_complete_eq_ok).trans ⟨?_, ?_⟩
      · rintro ⟨term, hr, rfl, hd⟩
        exact ⟨_, .serve hr, rfl, hd⟩
      · rintro ⟨_, hj, rfl, hd⟩
        cases hj with
        | serve hr => exact ⟨_, hr, rfl, hd⟩
    case service.message svc msg =>
      refine (bind_eq_ok.trans take_complete_eq_ok).trans ⟨?_, ?_⟩
      · rintro ⟨term, hr, rfl, hd⟩
        exact ⟨_, .fetch hr, rfl, hd⟩
      · rintro ⟨_, hj, rfl, hd⟩
        cases hj with
        | fetch hr => exact ⟨_, hr, rfl, hd⟩
    all_goals
      refine ⟨fun h => (nomatch h), ?_⟩
      rintro ⟨_, hj, -⟩
      cases hj

/-- Landing and joining, one after the other. -/
theorem land_join_eq_ok {cfg : Configuration} {channel : Id} {half : Half} {d d' : Change}
    {next : Option StepSpec} :
    (∃ r e, land cfg channel d = .ok (r, e) ∧ join cfg r.1 half r.2 e = .ok (next, d')) ↔
      ∃ l j, cfg.landing? channel = some l ∧ Joins l.channel half l.half j ∧ next = j.next ∧
        Adds cfg j.marks (l.takes ++ j.slots) j.homes d d' := by
  simp only [land_eq_ok, join_eq_ok]
  constructor
  · rintro ⟨_, e, ⟨l, hl, rfl, he⟩, j, hj, rfl, hd⟩
    exact ⟨l, j, hl, hj, rfl,
      (exists_adds_iff cfg d d' [] j.marks l.takes j.slots [] j.homes).1 ⟨e, he, hd⟩⟩
  · rintro ⟨l, j, hl, hj, rfl, hd⟩
    obtain ⟨e, he, hd⟩ :=
      (exists_adds_iff cfg d d' [] j.marks l.takes j.slots [] j.homes).2 hd
    exact ⟨_, e, ⟨l, hl, rfl, he⟩, j, hj, rfl, hd⟩

/-- Producing is landing with a message. -/
theorem produce_eq (cfg : Configuration) (ep : Endpoint) (payload : Payload) :
    produce cfg ep payload =
      (land cfg ep.channel >>= fun r =>
        join cfg r.1 (.message ⟨ep.channel, cfg.pool, cfg.process, payload⟩) r.2) := by
  unfold produce
  refine bind_congr fun r => ?_
  obtain ⟨z, pending⟩ := r
  cases pending with
  | none => rfl
  | some half => cases half <;> rfl

/-- Consuming is landing with a service. -/
theorem consume_eq (cfg : Configuration) (via : Sym) (handler : Handler) :
    consume cfg via handler =
      (endpoint cfg via >>= fun ep => land cfg ep.channel >>= fun r =>
        join cfg r.1 (.service ⟨ep.channel, cfg.pool, cfg.process, via, ep, handler⟩) r.2) := by
  unfold consume
  refine bind_congr fun ep => bind_congr fun r => ?_
  obtain ⟨z, pending⟩ := r
  cases pending with
  | none => rfl
  | some half => cases half <;> rfl

end Drafting

end Rendezvous
