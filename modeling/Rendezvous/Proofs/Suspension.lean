import Rendezvous.Proofs.Agreement
import Rendezvous.Proofs.Preservation

/-!
# Processes that wait

A process that leaves a service goes on when the service is served, and not before. The service may
be moved in the meantime to channels that its process knows nothing of, and the channel that the
process waits on may come home to another pool.

- `Net.Waits` is what holds between a service and its process: it is the only one of the process, the
  process lives in the pool on record, and it still has the channel under the placeholder on record.
  Turns keep it (`Waits.turn`), and so do new processes (`Waits.born`);
- `Store.suspended_of_service`: a process that waits can do nothing else;
- `Store.Resumes` says what a step has made of a service: it is there still, on the same channel or
  another one, or the step goes on with what the service had left to do.

The main statement is `Engine.suspension_consistent`, for all engines along a run.
-/

namespace Rendezvous

open Relation (ReflTransGen)

namespace Net

variable {D : Id → TypeNode → Prop} {f : Endpoint → Id} {g : Id → Id} {n n' : Net} {c : Id}

/-! ## Types along turns -/

/-- Copies that do not show where a channel has come home to agree all along. -/
theorem Agrees.turn (hf : ∀ svc k, f (Drafting.continued svc k) = f k) (hn : n.Agrees f g)
    (ht : Turn D c n n') : ∃ g', n'.Agrees f g' := by
  cases ht with
  | emit he hc => exact hn.emit he hc
  | await => exact ⟨g, hn.mono id id⟩
  | relay =>
    refine ⟨g, hn.mono (fun hl => ?_) id⟩
    rcases acted_eq_some hl with ⟨-, -, hnext⟩ | ⟨-, hold⟩
    · cases hnext
    · exact hold
  | @carry x y m hfw hm hfree =>
    -- the message has moved from `y` to `x`, and `y` is empty now
    have hfrom : ∀ {w : Id} {m' : Message},
        Function.update (Function.update n.message y none) x (some { m with channel := x }) w =
          some m' →
        (∃ m₀, n.message (cameFrom x y w) = some m₀ ∧ m₀.payload = m'.payload) ∧
          (w ≠ x → w ≠ y) := by
      intro w m' hm'
      rcases moved_eq_some hm' with ⟨rfl, rfl⟩ | ⟨hne, hne', hold⟩
      · rw [cameFrom, if_pos rfl]
        exact ⟨⟨m, hm, rfl⟩, fun h => absurd rfl h⟩
      · rw [cameFrom, if_neg hne]
        exact ⟨⟨m', hold, rfl⟩, fun _ => hne'⟩
    exact ⟨g, hn.of_origins (cameFrom x y) id (fun hm' => (hfrom hm').1)
      fun hm₁ hm₂ => cameFrom_injective (hfrom hm₁).2 (hfrom hm₂).2⟩
  | usher => exact ⟨g, hn.mono id id⟩
  | shorten => exact ⟨g, hn.mono id id⟩
  | @meet z m svc term hm hs hr => exact hn.meet svc hm fun _ => .inl (hf svc _)

/-! ## Waiting -/

/-- Each service is the only one of its process; the process lives where the service says, and it has
the channel that it waits on. -/
structure Waits (n : Net) : Prop where
  single : ∀ {z z' : Id} {svc svc' : Service}, n.service z = some svc → n.service z' = some svc' →
    svc.process = svc'.process → z = z'
  home : ∀ {z : Id} {svc : Service}, n.service z = some svc →
    n.home svc.process = some svc.pool
  bound : ∀ {z : Id} {svc : Service}, n.service z = some svc → ∃ e,
    n.live svc.process svc.via = some e ∧ e.channel = svc.endpoint.channel ∧
      e.type = svc.endpoint.type

/-- What a process has that waits stays, but for the pool of a channel. -/
theorem Waits.mono (hn : n.Waits)
    (hservice : ∀ {z : Id} {svc : Service}, n'.service z = some svc → n.service z = some svc)
    (hhome : ∀ {z : Id} {svc : Service}, n.service z = some svc →
      n'.home svc.process = n.home svc.process)
    (hlive : ∀ {z : Id} {svc : Service} {e : Endpoint}, n'.service z = some svc →
      n.live svc.process svc.via = some e →
      ∃ e', n'.live svc.process svc.via = some e' ∧ e'.channel = e.channel ∧ e'.type = e.type) :
    n'.Waits where
  single hs hs' := hn.single (hservice hs) (hservice hs')
  home hs := (hhome (hservice hs)).trans (hn.home (hservice hs))
  bound hs := by
    obtain ⟨e, he, hch, htype⟩ := hn.bound (hservice hs)
    obtain ⟨e', he', hch', htype'⟩ := hlive hs he
    exact ⟨e', he', hch'.trans hch, htype'.trans htype⟩

/-- Others do not see what a process does. -/
theorem acted_of_ne {v : Live} {p q : Id} (hq : q ≠ p) (via ph : Sym) (next : Option Endpoint)
    (given : Option Sym) : v.acted p via next given q ph = v q ph :=
  if_neg hq

/-- A process that acts waits for nothing, so that nobody who waits loses a binding. -/
theorem Waits.act (hn : n.Waits) {p : Id} (hidle : n.Idle p) {via : Sym} {next : Option Endpoint}
    {given : Option Sym} (hlive : n'.live = n.live.acted p via next given)
    (hservice : n'.service = n.service) (hhome : n'.home = n.home) : n'.Waits := by
  refine hn.mono (fun hs => hservice ▸ hs) (fun _ => by rw [hhome]) fun hs he => ⟨_, ?_, rfl, rfl⟩
  rw [hlive, acted_of_ne (hidle (hservice ▸ hs))]
  exact he

theorem Waits.await (hn : n.Waits) {p π : Id} {via : Sym} {ep : Endpoint} {handler : Handler}
    (hhome : n.home p = some π) (hbound : n.live p via = some ep) (hidle : n.Idle p) :
    ({ n with
      service := Function.update n.service ep.channel
        (some ⟨ep.channel, π, p, via, ep, handler⟩) } : Net).Waits where
  single hs hs' hp := by
    rcases update_eq_some hs with ⟨rfl, hnew⟩ | ⟨-, hold⟩ <;>
      rcases update_eq_some hs' with ⟨rfl, hnew'⟩ | ⟨-, hold'⟩
    · rfl
    · cases hnew
      exact absurd hp.symm (hidle hold')
    · cases hnew'
      exact absurd hp (hidle hold)
    · exact hn.single hold hold' hp
  home hs := by
    rcases update_eq_some hs with ⟨-, hnew⟩ | ⟨-, hold⟩
    · cases hnew
      exact hhome
    · exact hn.home hold
  bound hs := by
    rcases update_eq_some hs with ⟨-, hnew⟩ | ⟨-, hold⟩
    · cases hnew
      exact ⟨ep, hbound, rfl, rfl⟩
    · exact hn.bound hold

/-- A service is the same wherever it is moved. -/
theorem Waits.usher (hn : n.Waits) {x y : Id} {svc : Service} (hs : n.service y = some svc)
    (forward : Id → Option Id) :
    ({ n with
      forward
      service := Function.update (Function.update n.service y none) x
        (some { svc with channel := x }) } : Net).Waits where
  single hs₁ hs₂ hp := by
    rcases moved_eq_some hs₁ with ⟨rfl, rfl⟩ | ⟨-, hy₁, hold₁⟩ <;>
      rcases moved_eq_some hs₂ with ⟨rfl, rfl⟩ | ⟨-, hy₂, hold₂⟩
    · rfl
    · exact absurd (hn.single hs hold₂ hp).symm hy₂
    · exact absurd (hn.single hold₁ hs hp) hy₁
    · exact hn.single hold₁ hold₂ hp
  home hs' := by
    rcases moved_eq_some hs' with ⟨-, rfl⟩ | ⟨-, -, hold⟩
    · show n.home svc.process = some svc.pool
      exact hn.home hs
    · exact hn.home hold
  bound hs' := by
    rcases moved_eq_some hs' with ⟨-, rfl⟩ | ⟨-, -, hold⟩
    · obtain ⟨e, he⟩ := hn.bound hs
      exact ⟨e, he⟩
    · exact hn.bound hold

/-- A process that still waits when another is served keeps its channel, wherever that comes home
to. -/
theorem Waits.meet (hn : n.Waits) (hg : n.Agrees Endpoint.type g) {z : Id} {m : Message}
    {svc : Service} (hm : n.message z = some m) (hs : n.service z = some svc) :
    (n.met z m svc).Waits := by
  have hold : ∀ {w : Id} {svc' : Service}, (n.met z m svc).service w = some svc' →
      w ≠ z ∧ n.service w = some svc' := by
    intro w svc' hs'
    rcases update_eq_some hs' with ⟨-, hnew⟩ | h
    · cases hnew
    · exact h
  refine hn.mono (fun hs' => (hold hs').2) (fun _ => rfl) fun {w svc' e} hs' he => ?_
  obtain ⟨hne, hs'⟩ := hold hs'
  have hother : svc'.process ≠ svc.process := fun hp => hne (hn.single hs' hs hp)
  refine ⟨svc.homeward m.payload e, ?_, homeward_channel svc m.payload e, ?_⟩
  · rw [met_of_ne hother, he]
    rfl
  · rcases homeward_cases svc m.payload e with hstay | ⟨k, hk, hch, hcame⟩
    · rw [hstay]
    · rw [hcame, (continued_channel svc k).2, hg.live he, hg.cont hm hk, hch]

theorem Waits.turn (hn : n.Waits) (hg : n.Agrees Endpoint.type g) (ht : Turn D c n n') :
    n'.Waits := by
  cases ht with
  | emit he hc hidle => exact hn.act hidle rfl rfl rfl
  | await hhome hbound hnode hfits hside hidle => exact hn.await hhome hbound hidle
  | relay hhome hx hxp hy hyp hnx hny hshape hidle => exact hn.act hidle rfl rfl rfl
  | carry => exact ⟨hn.single, hn.home, hn.bound⟩
  | usher hf hs => exact hn.usher hs _
  | shorten => exact ⟨hn.single, hn.home, hn.bound⟩
  | meet hm hs => exact hn.meet hg hm hs

theorem Waits.turns (hn : n.Waits) (hg : n.Agrees Endpoint.type g)
    (h : ReflTransGen (Turn D c) n n') : n'.Waits ∧ ∃ g', n'.Agrees Endpoint.type g' := by
  induction h with
  | refl => exact ⟨hn, g, hg⟩
  | tail _ hturn ih =>
    obtain ⟨hw, g', hg'⟩ := ih
    exact ⟨hw.turn hg' hturn, hg'.turn (fun svc k => (continued_channel svc k).2) hturn⟩

/-- A new process has not waited before. -/
theorem Waits.born (hn : n.Waits) {q pool : Id} {provision : Endpoint}
    (hb : n.Born n' q pool provision)
    (hlive : ∀ {z : Id} {svc : Service}, n.service z = some svc → svc.process ≠ q →
      n'.live svc.process = n.live svc.process) : n'.Waits := by
  have hne : ∀ {z : Id} {svc : Service}, n.service z = some svc → svc.process ≠ q := by
    rintro z svc hs rfl
    cases (hn.home hs).symm.trans hb.new
  have hservice : ∀ {z : Id} {svc : Service}, n'.service z = some svc → n.service z = some svc := by
    intro z svc hs
    rwa [hb.service] at hs
  refine hn.mono hservice (fun hs => ?_) fun hs he => ⟨_, ?_, rfl, rfl⟩
  · rw [hb.home_eq, Function.update_of_ne (hne hs)]
  · rw [hlive (hservice hs) (hne (hservice hs))]
    exact he

end Net

/-! ## Steps of a process that waits -/

theorem serviceOf?_eq_some {process : Id} {halves : List Half} {svc : Service}
    (h : Configuration.serviceOf? process halves = some svc) :
    .service svc ∈ halves ∧ svc.process = process := by
  induction halves with
  | nil => cases h
  | cons half rest ih =>
    cases half with
    | service other =>
      rw [Configuration.serviceOf?] at h
      split at h
      · next hp =>
        cases h
        exact ⟨List.mem_cons_self, hp⟩
      · obtain ⟨hmem, hp⟩ := ih h
        exact ⟨List.mem_cons_of_mem _ hmem, hp⟩
    | message | forward =>
      rw [Configuration.serviceOf?] at h
      · obtain ⟨hmem, hp⟩ := ih h
        exact ⟨List.mem_cons_of_mem _ hmem, hp⟩
      · rintro _ ⟨⟩

namespace Store

variable {s s' : Store} {z : Id} {svc : Service}

/-- A process that waits sees its service, wherever that is. -/
theorem waiting?_of_service (hk : s.Keyed) (hw : s.net.Waits)
    (hz : s.halves.get? z = some (.service svc)) {cfg : Configuration}
    (hcfg : s.configuration svc.process = .ok cfg) : cfg.waiting? = some svc := by
  have hreads := reads_configuration hk hcfg
  cases hwait : cfg.waiting? with
  | none => exact absurd rfl (hreads.idle.1 hwait z svc hz)
  | some other =>
    obtain ⟨hmem, hp⟩ := serviceOf?_eq_some hwait
    obtain ⟨z', hz'⟩ := (Table.mem_values_iff _).1 hmem
    have hother : s.halves.get? z' = some (.service other) := hreads.sub hz'
    have hsame : z = z' := hw.single (service_net_eq_some.2 hz) (service_net_eq_some.2 hother)
      (hp.trans hreads.process).symm
    subst hsame
    cases hz.symm.trans hother
    rfl

/-- A process that waits can do nothing else. -/
theorem suspended_of_service (hs : s.Sound) (hw : s.net.Waits)
    (hz : s.halves.get? z = some (.service svc)) (fresh : Fresh) (pool : Id) (term : Term) :
    s.deriveStep fresh ⟨pool, svc.process, term⟩ = .error (if pool = svc.pool then
      .suspended svc.process z else .foreignProcess svc.process pool) := by
  have hhome : s.poolOf? svc.process = some svc.pool := hs.owners hz
  obtain ⟨cfg, hcfg, hpool, -⟩ := Housed.exists_configuration ⟨hhome, hs.members hhome⟩
  have hwait := waiting?_of_service hs.toKeyed hw hz hcfg
  have hch : svc.channel = z := hs.halves hz
  unfold deriveStep
  rw [hcfg]
  by_cases hp : pool = svc.pool
  · simp [bind, Except.bind, hwait, hp, hpool, hch, throw, throwThe, MonadExceptOf.throw]
  · have hne : cfg.pool ≠ pool := fun h => hp (h.symm.trans hpool)
    simp [bind, Except.bind, hp, hne, throw, throwThe, MonadExceptOf.throw]

/-! ## Steps that serve -/

/-- What a step brings to a service that waits: what its term has to tell, or what a message tells
that is used up by a forward. -/
inductive Brings (s s' : Store) : Term → Payload → Prop
  | close {via : Sym} : Brings s s' (.close via) .close
  | send {via value : Sym} {v k : Endpoint} : Brings s s' (.send via value) (.send v k)
  | lab {via label : Sym} {k : Endpoint} : Brings s s' (.lab via label) (.lab label k)
  | acquire {via : Sym} {k : Endpoint} : Brings s s' (.acquire via) (.acquire k)
  | detach {via : Sym} {k : Endpoint} : Brings s s' (.detach via) (.detach k)
  | fwd {via target : Sym} {w : Id} {m : Message} (hm : s.halves.get? w = some (.message m))
    (hgone : s'.halves.get? w = none) : Brings s s' (.fwd via target) m.payload

/-- What a step has made of a service: it is still there, maybe on another channel; or the step has
served it, returns what it had left to do, and its process waits no more. -/
inductive Resumes (s s' : Store) (term : Term) (svc : Service) : Option StepSpec → Prop
  | stays {next : Option StepSpec} {z : Id}
    (h : s'.halves.get? z = some (.service { svc with channel := z })) : Resumes s s' term svc next
  | served {payload : Payload} {cont : Term} (hb : s.Brings s' term payload)
    (hr : svc.reply payload = some cont)
    (hidle : ∀ w svc', s'.halves.get? w = some (.service svc') → svc'.process ≠ svc.process) :
    Resumes s s' term svc (some ⟨svc.pool, svc.process, cont⟩)

theorem brings_of_offers {env : Env} {cfg : Configuration} {fresh : Fresh} {term : Term}
    {ep : Endpoint} {own : List Mark} {msg : Message}
    (ho : Offers env cfg fresh term ep own (.message msg)) : s.Brings s' term msg.payload := by
  cases ho with
  | close => exact .close
  | send => exact .send
  | pass _ _ hp =>
    cases hp with
    | plus => exact .lab
    | «with» => exact .lab
    | up => exact .acquire
    | down => exact .detach

/-- A service that is taken leaves its process idle, if nothing is put. -/
theorem idle_of_taken (hw : s.net.Waits) (hz : s.halves.get? z = some (.service svc)) {cs : List Id}
    (hmem : z ∈ cs) (h : ∀ w, s'.halves.get? w = if w ∈ cs then none else s.halves.get? w) (w : Id)
    (svc' : Service) (hs' : s'.halves.get? w = some (.service svc')) :
    svc'.process ≠ svc.process := by
  intro hp
  rw [h w] at hs'
  split at hs'
  · cases hs'
  · next hout =>
    have hsame : w = z := hw.single (service_net_eq_some.2 hs') (service_net_eq_some.2 hz) hp
    exact hout (hsame ▸ hmem)

theorem stays_of_eq (hk : s.Keyed) {term : Term} {next : Option StepSpec}
    (hz : s.halves.get? z = some (.service svc)) (h : s'.halves.get? z = s.halves.get? z) :
    s.Resumes s' term svc next := by
  have hch : svc.channel = z := hk.halves hz
  subst hch
  exact .stays (h.trans hz)

theorem halves_of_served {c : Id} {cs : List Id} {payload : Payload} {cont : Term}
    (h : s'.halves.get? = runSlots (cs.map SlotOp.take ++ (svc.served c payload cont).slots)
      s.halves.get?) (w : Id) :
    s'.halves.get? w = if w ∈ c :: cs then none else s.halves.get? w := by
  rw [h, Service.served, runSlots_take]
  by_cases hw : w = c
  · simp [hw]
  · simp [hw]

/-- Where a half joins what is pending on `c`, other services stay, and the one on `c` is served. -/
theorem resumes_of_joins (hk : s.Keyed) (hw : s.net.Waits) {term : Term} {half : Half} {c : Id}
    {j : Joined} {cs : List Id} (hj : Joins c half (s.halves.get? c) j)
    (hslots : s'.halves.get? = runSlots (cs.map SlotOp.take ++ j.slots) s.halves.get?)
    (hz : s.halves.get? z = some (.service svc)) (hcs : z ∉ cs)
    (hb : ∀ {msg : Message}, half = .message msg → (∀ w ∈ cs, s'.halves.get? w = none) →
      s.Brings s' term msg.payload) : s.Resumes s' term svc j.next := by
  generalize hpending : s.halves.get? c = pending at hj
  cases hj with
  | wait =>
    have hne : z ≠ c := by
      rintro rfl
      cases hz.symm.trans hpending
    refine stays_of_eq hk hz ?_
    rw [hslots, runSlots_put, Half.channel_movedTo, if_neg hne, if_neg hcs]
  | @serve msg other cont hr =>
    have htaken := halves_of_served hslots
    by_cases hzc : z = c
    · subst hzc
      cases hz.symm.trans hpending
      refine .served (hb rfl fun w hmem => ?_) hr (idle_of_taken hw hz List.mem_cons_self htaken)
      rw [htaken, if_pos (List.mem_cons_of_mem _ hmem)]
    · refine stays_of_eq hk hz ?_
      rw [htaken, if_neg (List.not_mem_cons_of_ne_of_not_mem hzc hcs)]
  | fetch hr =>
    have hne : z ≠ c := by
      rintro rfl
      cases hz.symm.trans hpending
    refine stays_of_eq hk hz ?_
    rw [hslots, Service.served, runSlots_take, if_neg hne, if_neg hcs]

/-- A service that is moved on to `c` stays there, or is served there. -/
theorem resumes_of_redirect (hw : s.net.Waits) {via target : Sym} {c : Id} {j : Joined}
    {cs : List Id} (hj : Joins c (.service svc) (s.halves.get? c) j)
    (hslots : s'.halves.get? = runSlots (cs.map SlotOp.take ++ j.slots) s.halves.get?)
    (hz : s.halves.get? z = some (.service svc)) (hcs : z ∈ cs) :
    s.Resumes s' (.fwd via target) svc j.next := by
  generalize hpending : s.halves.get? c = pending at hj
  cases hj with
  | wait =>
    refine .stays (z := c) ?_
    rw [hslots, runSlots_put, Half.channel_movedTo, if_pos rfl]
    rfl
  | @fetch msg _ cont hr =>
    have htaken := halves_of_served hslots
    refine .served (.fwd hpending ?_) hr
      (idle_of_taken hw hz (List.mem_cons_of_mem _ hcs) htaken)
    rw [htaken, if_pos List.mem_cons_self]

/-- A step leaves a service where it is, moves it, or serves it. -/
theorem resumes_of_step (hs : s.Sound) (hw : s.net.Waits) {fresh : Fresh} {spec : StepSpec}
    {next : Option StepSpec} {m : Change} (hd : s.deriveStep fresh spec = .ok (next, m))
    (hc : s.commit m = .ok s') (hz : s.halves.get? z = some (.service svc)) :
    s.Resumes s' spec.term svc next := by
  have hk := hs.toKeyed
  obtain ⟨cfg, env, pl, hderives, rfl, hdraft⟩ := exists_derives hk hd
  have hslots := halves_commit (Plan.drafts_of_draft? hdraft).toFills hc
  have hr := hderives.reads
  have hpassed : ∀ {ph : Sym} {ep : Endpoint} {l : Landing}, cfg.channels.get? ph = some ep →
      cfg.landing? ep.channel = some l → l.half = s.halves.get? l.channel ∧ z ∉ l.passed := by
    intro ph ep l hep hl
    obtain ⟨hleads, hhalf⟩ := leads_of_landing hr hep hl
    refine ⟨hhalf, fun hmem => ?_⟩
    obtain ⟨f, hf⟩ := hleads.forward_of_mem hmem
    cases hz.symm.trans hf
  have hmoves := hderives.moves
  generalize spec.term = term at hmoves
  cases hmoves with
  | offer ho hl hj =>
    obtain ⟨hhalf, hnot⟩ := hpassed (channel_of_offers ho).1 hl
    rw [hhalf] at hj
    refine resumes_of_joins hk hw hj hslots hz hnot ?_
    rintro msg rfl -
    exact brings_of_offers ho
  | @relay via target x y l hx hy hl hnone =>
    obtain ⟨-, hnot⟩ := hpassed hx hl
    have hfree : s.halves.get? y.channel = none :=
      (hr.get?_halves ((hr.channels _).symm.trans hy)).symm.trans hnone
    have hne : z ≠ y.channel := by
      rintro rfl
      cases hz.symm.trans hfree
    refine stays_of_eq hk hz ?_
    rw [hslots, Landing.takes, runSlots_put]
    exact (if_neg hne).trans (if_neg hnot)
  | @redirect via target x y l left id node j hx hy hl hleft hnode hown hj =>
    obtain ⟨hhalf, hnot⟩ := hpassed hx hl
    rw [hhalf] at hj
    have hthere : s.halves.get? y.channel = some left :=
      (hr.get?_halves ((hr.channels _).symm.trans hy)).symm.trans hleft
    -- the half that is moved on is taken like the forwards on its way
    have hslots' : s'.halves.get? =
        runSlots ((l.passed ++ [y.channel]).map SlotOp.take ++ j.slots) s.halves.get? := by
      rw [hslots, Landing.takes, List.map_append, List.append_assoc]
      rfl
    by_cases hzy : z = y.channel
    · subst hzy
      cases hz.symm.trans hthere
      exact resumes_of_redirect hw hj hslots' hz
        (List.mem_append_right _ (List.mem_singleton_self _))
    · refine resumes_of_joins hk hw hj hslots' hz ?_ ?_
      · rw [List.mem_append, List.mem_singleton]
        exact fun h => h.elim hnot hzy
      · rintro msg rfl hgone
        exact .fwd hthere (hgone _ (List.mem_append_right _ (List.mem_singleton_self _)))
  | call => exact stays_of_eq hk hz (by rw [hslots]; rfl)
  | spawn => exact stays_of_eq hk hz (by rw [hslots]; rfl)

end Store

/-! ## Runs -/

namespace Engine

/-- Everything that calls do keeps those who wait. -/
theorem keeps_waits : Keeps (fun _ _ => True) fun e =>
    (e.Valid ∧ ∃ g, e.store.net.Agrees Endpoint.type g) ∧ e.store.net.Waits := by
  have hkeeps : Keeps (fun _ _ => True) fun e =>
      e.Valid ∧ ∃ g, e.store.net.Agrees Endpoint.type g :=
    keeps_agrees fun _ _ _ => .inl fun svc k => (Net.continued_channel svc k).2
  refine ⟨?_, ?_, ?_, ?_, ?_⟩
  · rintro e e' c ref ⟨hI, hw⟩ h hy
    obtain ⟨-, sig, provision, receptions, hcr⟩ := hI.1.creating h hy
    exact ⟨hkeeps.created hI h hy, hw.born hcr.net.toBorn fun _ hne => hcr.net.live_other hne⟩
  · rintro e e' ⟨hI, hw⟩ h
    exact ⟨hkeeps.redefines hI h, h.net_eq ▸ hw⟩
  · rintro e e' ⟨hI, hw⟩ h
    exact ⟨hkeeps.declares hI h, h.net_eq ▸ hw⟩
  · rintro e e' l rev ⟨hI, hw⟩ h hi hy
    obtain ⟨-, hnet, -⟩ := hI.1.addLiability h hi hy
    exact ⟨hkeeps.addLiability hI h hi hy, hnet ▸ hw⟩
  · rintro e e' spec next m ⟨hI, hw⟩ hok h hc hi hy
    obtain ⟨pl, hst⟩ := hI.1.steps h hc hy
    obtain ⟨g, hg⟩ := hI.2
    refine ⟨hkeeps.step hI hok h hc hi hy, ?_⟩
    rcases hst.net with ⟨-, hturns⟩ | ⟨pool, via, ph, provision, gifts, hf, -⟩
    · exact (hw.turns hg hturns).1
    · exact hw.born hf.toBorn fun hs hne => hf.live_other (hf.idle hs) hne

/-- Waiting is consistent all along a run from the empty store. Halves are on record under their own
channels. A service is the only one of its process, wherever it has been moved to; its pool is that
of the process, and the process has the channel that it waits on, of the type on record. As long as
it is there its process can do nothing, and a step that takes it away returns what it had left to
do. -/
theorem suspension_consistent (settings : Settings) (ids : Supply) (calls : List Call)
    (hy : ((start settings ids).final calls).store.Young) {e : Engine}
    (he : e ∈ (start settings ids).moments calls) :
    (∀ z half, e.store.halves.get? z = some half → half.channel = z) ∧
    ∀ z svc, e.store.halves.get? z = some (.service svc) →
      (∀ w svc', e.store.halves.get? w = some (.service svc') → svc'.process = svc.process →
        w = z) ∧
      e.store.poolOf? svc.process = some svc.pool ∧
      (∃ ep, (e.store.channelsOf svc.process).get? svc.via = some ep ∧
        ep.channel = svc.endpoint.channel ∧ ep.type = svc.endpoint.type) ∧
      (∀ others pool term, Request.step others ⟨pool, svc.process, term⟩ e =
        .error (if pool = svc.pool then .suspended svc.process z
          else .foreignProcess svc.process pool) { e with ids := e.ids.afterFresh }) ∧
      ∀ spec next e', Request.step .none spec e = .ok next e' →
        e.store.Resumes e'.store spec.term svc next := by
  have hstart : ((start settings ids).Valid ∧
      ∃ g, (start settings ids).store.net.Agrees Endpoint.type g) ∧
        (start settings ids).store.net.Waits :=
    ⟨agrees_start settings ids _, nofun, nofun, nofun⟩
  obtain ⟨⟨hv, -⟩, hw⟩ := keeps_waits.moments calls hstart (fun _ _ => trivial) hy e he
  refine ⟨fun z half hz => hv.sound.halves hz, fun z svc hz => ⟨?_, hv.sound.owners hz, ?_, ?_, ?_⟩⟩
  · intro w svc' hw' hp
    exact hw.single (Store.service_net_eq_some.2 hw') (Store.service_net_eq_some.2 hz) hp
  · obtain ⟨ep, hep, hch, htype⟩ := hw.bound (Store.service_net_eq_some.2 hz)
    exact ⟨ep, (Store.channelsOf_get? ..).trans hep, hch, htype⟩
  · intro others pool term
    simp only [Request.step, Request.derive, Request.bind_apply, Request.drawFresh_apply,
      Request.read_apply, Store.suspended_of_service hv.sound hw hz]
  · intro spec next e' h
    obtain ⟨m, hd, hc, -⟩ := step_eq_ok h
    exact Store.resumes_of_step hv.sound hw hd hc hz

/-- The function waits for its argument, and the relay forwards. -/
def rerouted : List Call :=
  homing [⟨.nth 16, .nth 24, .recv "x" "a" (.wait "a" (.close "x"))⟩,
    ⟨.nth 17, .nth 27, .fwd "x" "y"⟩]

/-- The service of the function has come to the channel of the relay, which the function does not
have. The function still waits on its own channel, until the caller sends the argument. -/
theorem suspension_consistent_rerouted :
    let e := (start {} ⟨0⟩).final rerouted
    ∃ svc, e.store.halves.get? (.nth 26) = some (.service svc) ∧ svc.process = .nth 24 ∧
      (∃ ep, (e.store.channelsOf (.nth 24)).get? svc.via = some ep ∧
        ep.channel = svc.endpoint.channel ∧ ep.channel ≠ .nth 26) ∧
      (∀ term, Request.step .none ⟨.nth 16, .nth 24, term⟩ e =
        .error (.suspended (.nth 24) (.nth 26)) { e with ids := e.ids.afterFresh }) ∧
      ∃ next e', Request.step .none ⟨.nth 18, .nth 30, .send "y" "v"⟩ e = .ok next e' ∧
        e.store.Resumes e'.store (.send "y" "v") svc next := by
  intro e
  have hy : e.store.Young := Store.young_of_values (by decide +kernel)
  have hsome : (e.store.net.service (.nth 26)).map (fun svc => (svc.process, svc.pool,
      decide (svc.endpoint.channel ≠ .nth 26))) = some (.nth 24, .nth 16, true) := by decide +kernel
  obtain ⟨svc, hsvc, hfields⟩ := Option.map_eq_some_iff.1 hsome
  obtain ⟨hprocess, hfields⟩ := Prod.mk.inj hfields
  obtain ⟨hpool, hch⟩ := Prod.mk.inj hfields
  have hz := Store.service_net_eq_some.1 hsvc
  have he : e ∈ (start {} ⟨0⟩).moments rerouted := List.mem_append_left _ (mem_states_final _ _)
  obtain ⟨-, -, ⟨ep, hep, hepch, -⟩, hstep, hresumes⟩ :=
    (suspension_consistent {} ⟨0⟩ rerouted hy he).2 (.nth 26) svc hz
  rw [hprocess] at hep hstep
  have hok : (match Request.step .none ⟨.nth 18, .nth 30, .send "y" "v"⟩ e with
    | .ok _ _ => true
    | .error _ _ => false) = true := by decide +kernel
  refine ⟨svc, hz, hprocess, ⟨ep, hep, hepch, hepch ▸ of_decide_eq_true hch⟩, fun term => ?_, ?_⟩
  · rw [hstep, if_pos hpool.symm]
  · cases hsend : Request.step .none ⟨.nth 18, .nth 30, .send "y" "v"⟩ e with
    | ok next e' => exact ⟨next, e', rfl, hresumes _ next e' hsend⟩
    | error err e' => simp [hsend] at hok

end Engine

end Rendezvous
