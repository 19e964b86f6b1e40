import Rendezvous.Proofs.Forest
import Rendezvous.Proofs.Net
import Rendezvous.Proofs.Typed

/-!
# Nets that grow like trees

`Net.Ends` lists the ends of channels in a net: a client end and a provider end for each channel
that is in use. A process that waits holds its end where its service has got to, and the caller
holds the client ends of processes that it has created and not yet used.

A net is `Rooted` if its ends make a forest, pools on record lie in the territory of their
channels, and no two processes share a pool. Turns keep it so (`Rooted.turn`), and so do new
processes, as long as their pool is new to all others (`Rooted.founds`, `Rooted.creates`).
-/

namespace Rendezvous

namespace Net

variable {D : Id → TypeNode → Prop} {n n' : Net} {F : Id → Prop} {A : Id → Set Id} {c : Id}

/-- Which side of which channel is where, if the caller has the client ends of `F`. -/
inductive Ends (n : Net) (F : Id → Prop) : Side → Place → Id → Prop
  | bound {σ : Side} {p : Id} {ph : Sym} {e : Endpoint} (h : n.live p ph = some e)
    (hidle : ∀ {z : Id} {svc : Service}, n.service z = some svc →
      ¬ (svc.process = p ∧ svc.via = ph))
    (hσ : σ = .provider ↔ n.home p = some e.pool) : Ends n F σ (.bound p ph) e.channel
  | waiting {σ : Side} {z : Id} {svc : Service} (h : n.service z = some svc)
    (hσ : σ = .provider ↔ svc.endpoint.pool = svc.pool) :
    Ends n F σ (.bound svc.process svc.via) z
  | value {z : Id} {m : Message} {v : Endpoint} (h : n.message z = some m)
    (hv : m.payload.value? = some v) : Ends n F .client (.value z) v.channel
  | cont {σ : Side} {z : Id} {m : Message} {k : Endpoint} (h : n.message z = some m)
    (hk : m.payload.cont? = some k) (hσ : σ = .client ↔ m.ByProvider) :
    Ends n F σ (.cont z) k.channel
  | front {σ : Side} {z : Id} {m : Message} (h : n.message z = some m)
    (hσ : σ = .provider ↔ m.ByProvider) : Ends n F σ (.front z) z
  | source {y x : Id} (h : n.forward y = some x) : Ends n F .client (.source y) y
  | target {y x : Id} (h : n.forward y = some x) : Ends n F .provider (.target y) x
  | outside {c : Id} (h : F c) : Ends n F .client (.outside c) c

/-- A process has its pool as its core. -/
def core (n : Net) : Node → Set Id
  | .process p => {π | n.home p = some π}
  | _ => ∅

/-- The ends of a net make a forest with territories `A`. -/
structure Rooted (n : Net) (F : Id → Prop) (A : Id → Set Id) : Prop where
  forest : Forest (n.Ends F) n.core A
  /-- Pools on record are behind their channels. -/
  live : ∀ {p : Id} {ph : Sym} {e : Endpoint}, n.live p ph = some e → e.pool ∈ A e.channel
  value : ∀ {z : Id} {m : Message} {v : Endpoint}, n.message z = some m →
    m.payload.value? = some v → v.pool ∈ A v.channel
  cont : ∀ {z : Id} {m : Message} {k : Endpoint}, n.message z = some m →
    m.payload.cont? = some k → k.pool ∈ A k.channel
  /-- Forwards lead up. -/
  strict : ∀ {y x : Id}, n.forward y = some x → ∃ π ∈ A x, π ∉ A y
  /-- Territories are of pools that somebody lives in. -/
  settled : ∀ {c π : Id}, π ∈ A c → ∃ p, n.home p = some π
  alone : ∀ {p q π : Id}, n.home p = some π → n.home q = some π → p = q
  /-- A process waits for one thing at a time. -/
  lone : ∀ {z w : Id} {svc svc' : Service}, n.service z = some svc → n.service w = some svc' →
    svc.process = svc'.process → z = w

/-! ## Ends of a process -/

theorem Ends.provider {p : Id} {ph : Sym} {e : Endpoint} (h : n.live p ph = some e)
    (hidle : n.Idle p) (hp : n.home p = some e.pool) :
    n.Ends F .provider (.bound p ph) e.channel :=
  .bound h (fun hs hsvc => hidle hs hsvc.1) ⟨fun _ => hp, fun _ => rfl⟩

theorem Ends.client {p : Id} {ph : Sym} {e : Endpoint} (h : n.live p ph = some e)
    (hidle : n.Idle p) (hp : n.home p ≠ some e.pool) :
    n.Ends F .client (.bound p ph) e.channel :=
  .bound h (fun hs hsvc => hidle hs hsvc.1) ⟨nofun, fun h => absurd h hp⟩

/-- What an idle process holds under a placeholder. -/
theorem Ends.exists_live {σ : Side} {p d : Id} {ph : Sym} (h : n.Ends F σ (.bound p ph) d)
    (hidle : n.Idle p) : ∃ e, n.live p ph = some e ∧ e.channel = d ∧
      (σ = .provider ↔ n.home p = some e.pool) := by
  generalize hP : Place.bound p ph = P at h
  cases h with
  | bound h _ hσ =>
    cases hP
    exact ⟨_, h, rfl, hσ⟩
  | waiting h _ =>
    cases hP
    exact absurd rfl (hidle h)
  | _ => cases hP

namespace Rooted

variable {p π x y z : Id} {via : Sym} {m : Message} {svc : Service}

/-! ## Turns without a new channel -/

theorem await (hr : n.Rooted F A) {ep : Endpoint} {handler : Handler}
    (hhome : n.home p = some π) (hbound : n.live p via = some ep) (hidle : n.Idle p)
    (hfree : n.service ep.channel = none) :
    ({ n with
      service := Function.update n.service ep.channel
        (some ⟨ep.channel, π, p, via, ep, handler⟩) } : Net).Rooted F A := by
  refine { hr with forest := hr.forest.mono ?_, lone := ?_ }
  · intro σ P d hP
    cases hP with
    | bound h hsvc hσ =>
      refine .bound h (fun {w svc} hs => hsvc (z := w) ?_) hσ
      show Function.update n.service ep.channel _ w = some svc
      rw [Function.update_of_ne, hs]
      rintro rfl
      rw [hfree] at hs
      cases hs
    | waiting h hσ =>
      rcases update_eq_some h with ⟨rfl, hnew⟩ | ⟨-, hold⟩
      · cases hnew
        refine .bound hbound (fun hs hsvc => hidle hs hsvc.1) (hσ.trans ?_)
        rw [hhome, Option.some_inj]
        exact eq_comm
      · exact .waiting hold hσ
    | value h hv => exact .value h hv
    | cont h hk hσ => exact .cont h hk hσ
    | front h hσ => exact .front h hσ
    | source h => exact .source h
    | target h => exact .target h
    | outside h => exact .outside h
  · intro z w svc svc' hs hs' heq
    rcases update_eq_some hs with ⟨rfl, hnew⟩ | ⟨-, hold⟩ <;>
      rcases update_eq_some hs' with ⟨rfl, hnew'⟩ | ⟨-, hold'⟩
    · rfl
    · cases hnew
      exact absurd heq.symm (hidle hold')
    · cases hnew'
      exact absurd heq (hidle hold)
    · exact hr.lone hold hold' heq

/-- Where an end was before the process `p` forwarded. -/
inductive Relayed (p : Id) (via target : Sym) (y : Id) : Place → Place → Prop
  | source : Relayed p via target y (.source y) (.bound p target)
  | target : Relayed p via target y (.target y) (.bound p via)
  | same {P : Place} (h : P.node ≠ .forward y) (hvia : P ≠ .bound p via)
    (htarget : P ≠ .bound p target) : Relayed p via target y P P

theorem relay (hr : n.Rooted F A) {target : Sym} {x y : Endpoint} (hhome : n.home p = some π)
    (hx : n.live p via = some x) (hxp : x.pool = π) (hy : n.live p target = some y)
    (hyp : y.pool ≠ π) (hidle : n.Idle p) :
    ({ n with
      live := n.live.acted p via none (some target)
      forward := Function.update n.forward y.channel (some x.channel) } : Net).Rooted F A := by
  have hX : n.Ends F .provider (.bound p via) x.channel := by
    refine .provider hx hidle ?_
    rw [hhome, hxp]
  have hY : n.Ends F .client (.bound p target) y.channel := by
    refine .client hy hidle ?_
    rw [hhome]
    exact fun h => hyp (Option.some.inj h).symm
  have hne : via ≠ target := by
    rintro rfl
    cases hx.symm.trans hy
    exact hyp hxp
  refine { hr with forest := hr.forest.split (Relayed p via target y.channel) ?_ ?_ ?_ ?_,
                   live := ?_, strict := ?_ }
  · intro σ P d hP
    cases hP with
    | bound h hsvc hσ =>
      rcases acted_eq_some h with ⟨-, -, hnext⟩ | ⟨hkept, hold⟩
      · cases hnext
      · refine ⟨_, .bound hold hsvc hσ, .same nofun ?_ ?_⟩
        · rintro ⟨⟩
          exact (hkept rfl).1 rfl
        · rintro ⟨⟩
          exact (hkept rfl).2 rfl
    | waiting h hσ =>
      refine ⟨_, .waiting h hσ, .same nofun ?_ ?_⟩
      · exact fun heq => hidle h (Place.bound.inj heq).1
      · exact fun heq => hidle h (Place.bound.inj heq).1
    | value h hv => exact ⟨_, .value h hv, .same nofun nofun nofun⟩
    | cont h hk hσ => exact ⟨_, .cont h hk hσ, .same nofun nofun nofun⟩
    | front h hσ => exact ⟨_, .front h hσ, .same nofun nofun nofun⟩
    | source h =>
      rcases update_eq_some h with ⟨rfl, -⟩ | ⟨hw, hold⟩
      · exact ⟨_, hY, .source⟩
      · exact ⟨_, .source hold, .same (fun heq => hw (Node.forward.inj heq)) nofun nofun⟩
    | target h =>
      rcases update_eq_some h with ⟨rfl, hnew⟩ | ⟨hw, hold⟩
      · cases hnew
        exact ⟨_, hX, .target⟩
      · exact ⟨_, .target hold, .same (fun heq => hw (Node.forward.inj heq)) nofun nofun⟩
    | outside h => exact ⟨_, .outside h, .same nofun nofun nofun⟩
  · rintro P' Q' P (_ | _ | ⟨hn, hvia, htarget⟩) hQ
    · cases hQ with
      | source => rfl
      | target => exact absurd rfl hne
      | same hn' hvia' htarget' => exact absurd rfl htarget'
    · cases hQ with
      | source => exact absurd rfl hne
      | target => rfl
      | same hn' hvia' htarget' => exact absurd rfl hvia'
    · cases hQ with
      | source => exact absurd rfl htarget
      | target => exact absurd rfl hvia
      | same => rfl
  · -- a forward holds what one process held
    rintro P' Q' P Q (_ | _ | ⟨hn, hvia, htarget⟩) (_ | _ | ⟨hn', hvia', htarget'⟩) heq
    · rfl
    · rfl
    · exact absurd heq.symm hn'
    · rfl
    · rfl
    · exact absurd heq.symm hn'
    · exact absurd heq hn
    · exact absurd heq hn
    · exact heq
  · rintro P' P (_ | _ | _)
    · exact Set.empty_subset _
    · exact Set.empty_subset _
    · exact fun _ hρ => hρ
  · intro q ph e h
    rcases acted_eq_some h with ⟨-, -, hnext⟩ | ⟨-, hold⟩
    · cases hnext
    · exact hr.live hold
  · intro y' x' h
    rcases update_eq_some h with ⟨rfl, hnew⟩ | ⟨-, hold⟩
    · cases hnew
      exact ⟨π, hr.forest.own hX hhome, Set.disjoint_left.1 (hr.forest.clear hY) hhome⟩
    · exact hr.strict hold

/-- Where an end was before a message moved from `y` to `x`. -/
inductive Carried (x y : Id) : Place → Place → Prop
  | value : Carried x y (.value x) (.value y)
  | cont : Carried x y (.cont x) (.cont y)
  | front : Carried x y (.front x) (.target y)
  | same {P : Place} (hx : P.node ≠ .message x) (hy : P.node ≠ .message y)
    (hf : P.node ≠ .forward y) : Carried x y P P

theorem carry (hr : n.Rooted F A) (hf : n.forward y = some x) (hm : n.message y = some m) :
    ({ n with
      forward := Function.update n.forward y none
      message := Function.update (Function.update n.message y none) x
        (some { m with channel := x }) } : Net).Rooted F A := by
  have hsource : n.Ends F .client (.source y) y := .source hf
  -- the forward has the client end, so the message is the provider's
  have hby : m.ByProvider := by
    by_contra hby
    have hfront : n.Ends F .client (.front y) y := .front hm ⟨nofun, fun h => absurd h hby⟩
    cases hr.forest.unique hfront hsource
  have hfront : n.Ends F .provider (.front y) y := .front hm ⟨fun _ => hby, fun _ => rfl⟩
  have hmove : ∀ {z : Id} {m' : Message},
      Function.update (Function.update n.message y none) x (some { m with channel := x }) z =
        some m' →
      (z = x ∧ m'.payload = m.payload ∧ m'.pool = m.pool) ∨
        (z ≠ x ∧ z ≠ y ∧ n.message z = some m') := by
    intro z m' h
    rcases moved_eq_some h with ⟨rfl, rfl⟩ | hold
    · exact .inl ⟨rfl, rfl, rfl⟩
    · exact .inr hold
  have hby' : ∀ {m' : Message}, m'.payload = m.payload → m'.pool = m.pool →
      (m'.ByProvider ↔ m.ByProvider) := by
    intro m' hpayload hpool
    unfold Message.ByProvider
    rw [hpayload, hpool]
  refine { hr with forest := hr.forest.cut (Carried x y) hfront hsource (.message x)
                     ?_ ?_ ?_ ?_ (Set.empty_subset _),
                   value := ?_, cont := ?_, strict := ?_ }
  · intro σ P d hP
    cases hP with
    | bound h hsvc hσ => exact ⟨_, .bound h hsvc hσ, .same nofun nofun nofun⟩
    | waiting h hσ => exact ⟨_, .waiting h hσ, .same nofun nofun nofun⟩
    | value h hv =>
      rcases hmove h with ⟨rfl, hpayload, -⟩ | ⟨hx, hy, hold⟩
      · exact ⟨_, .value hm (hpayload ▸ hv), .value⟩
      · exact ⟨_, .value hold hv, .same (fun heq => hx (Node.message.inj heq))
          (fun heq => hy (Node.message.inj heq)) nofun⟩
    | cont h hk hσ =>
      rcases hmove h with ⟨rfl, hpayload, hpool⟩ | ⟨hx, hy, hold⟩
      · exact ⟨_, .cont hm (hpayload ▸ hk) (hσ.trans (hby' hpayload hpool)), .cont⟩
      · exact ⟨_, .cont hold hk hσ, .same (fun heq => hx (Node.message.inj heq))
          (fun heq => hy (Node.message.inj heq)) nofun⟩
    | front h hσ =>
      rcases hmove h with ⟨rfl, hpayload, hpool⟩ | ⟨hx, hy, hold⟩
      · cases hσ.2 ((hby' hpayload hpool).2 hby)
        exact ⟨_, .target hf, .front⟩
      · exact ⟨_, .front hold hσ, .same (fun heq => hx (Node.message.inj heq))
          (fun heq => hy (Node.message.inj heq)) nofun⟩
    | source h =>
      obtain ⟨hy, hold⟩ := erased_eq_some h
      exact ⟨_, .source hold, .same nofun nofun fun heq => hy (Node.forward.inj heq)⟩
    | target h =>
      obtain ⟨hy, hold⟩ := erased_eq_some h
      exact ⟨_, .target hold, .same nofun nofun fun heq => hy (Node.forward.inj heq)⟩
    | outside h => exact ⟨_, .outside h, .same nofun nofun nofun⟩
  · rintro P' Q' P (_ | _ | _ | ⟨-, hy, hf⟩) hQ
    · cases hQ with
      | value => rfl
      | same _ hy _ => exact absurd rfl hy
    · cases hQ with
      | cont => rfl
      | same _ hy _ => exact absurd rfl hy
    · cases hQ with
      | front => rfl
      | same _ _ hf => exact absurd rfl hf
    · cases hQ with
      | value => exact absurd rfl hy
      | cont => exact absurd rfl hy
      | front => exact absurd rfl hf
      | same => rfl
  · rintro P' P (_ | _ | _ | ⟨-, hy, hf⟩)
    · exact ⟨nofun, nofun⟩
    · exact ⟨nofun, nofun⟩
    · exact ⟨nofun, nofun⟩
    · refine ⟨?_, ?_⟩
      · rintro rfl
        exact hy rfl
      · rintro rfl
        exact hf rfl
  · rintro P' P (_ | _ | _ | ⟨hx, hy, hf⟩)
    · exact .inl ⟨rfl, .inl rfl⟩
    · exact .inl ⟨rfl, .inl rfl⟩
    · exact .inl ⟨rfl, .inr rfl⟩
    · exact .inr ⟨hx, rfl⟩
  · intro z m' v h hv
    rcases hmove h with ⟨-, hpayload, -⟩ | ⟨-, -, hold⟩
    · exact hr.value hm (hpayload ▸ hv)
    · exact hr.value hold hv
  · intro z m' k h hk
    rcases hmove h with ⟨-, hpayload, -⟩ | ⟨-, -, hold⟩
    · exact hr.cont hm (hpayload ▸ hk)
    · exact hr.cont hold hk
  · intro y' x' h
    obtain ⟨-, hold⟩ := erased_eq_some h
    exact hr.strict hold

/-- Where an end was before a service moved along the forward on `y`, which is used up. -/
inductive Ushered (y : Id) (Q : Place) : Place → Place → Prop
  | moved : Ushered y Q Q (.target y)
  | same {P : Place} (hf : P.node ≠ .forward y) (hQ : P ≠ Q) : Ushered y Q P P

theorem usher (hr : n.Rooted F A) (hf : n.forward y = some x) (hs : n.service y = some svc)
    (hfree : n.service x = none) :
    ({ n with
      forward := Function.update n.forward y none
      service := Function.update (Function.update n.service y none) x
        (some { svc with channel := x }) } : Net).Rooted F A := by
  have hsource : n.Ends F .client (.source y) y := .source hf
  -- the forward has the client end, so the service is the provider's
  have hside : svc.endpoint.pool = svc.pool := by
    by_contra hside
    have hwaiting : n.Ends F .client (.bound svc.process svc.via) y :=
      .waiting hs ⟨nofun, fun h => absurd h hside⟩
    cases hr.forest.unique hwaiting hsource
  have hwaiting : n.Ends F .provider (.bound svc.process svc.via) y :=
    .waiting hs ⟨fun _ => hside, fun _ => rfl⟩
  refine { hr with
    forest := hr.forest.cut (Ushered y (.bound svc.process svc.via)) hwaiting hsource
      (.process svc.process) ?_ ?_ ?_ ?_ Set.subset_union_left,
    strict := ?_, lone := ?_ }
  · intro σ P d hP
    cases hP with
    | @bound _ p ph e h hsvc hσ =>
      have hself : Function.update (Function.update n.service y none) x
          (some { svc with channel := x }) x = some { svc with channel := x } :=
        Function.update_self ..
      have hmoved : ¬ (svc.process = p ∧ svc.via = ph) :=
        fun heq => hsvc (z := x) hself heq
      refine ⟨_, .bound h (fun {w svc'} hw => ?_) hσ, .same nofun ?_⟩
      · by_cases hwy : w = y
        · subst hwy
          cases hs.symm.trans hw
          exact hmoved
        · refine hsvc (z := w) ?_
          show Function.update (Function.update n.service y none) x _ w = some svc'
          rw [Function.update_of_ne, Function.update_of_ne hwy, hw]
          rintro rfl
          rw [hfree] at hw
          cases hw
      · rintro ⟨⟩
        exact hmoved ⟨rfl, rfl⟩
    | waiting h hσ =>
      rcases moved_eq_some h with ⟨rfl, rfl⟩ | ⟨-, hy, hold⟩
      · cases hσ.2 hside
        exact ⟨_, .target hf, .moved⟩
      · refine ⟨_, .waiting hold hσ, .same nofun fun heq => ?_⟩
        exact hy (hr.lone hold hs (Place.bound.inj heq).1)
    | value h hv => exact ⟨_, .value h hv, .same nofun nofun⟩
    | cont h hk hσ => exact ⟨_, .cont h hk hσ, .same nofun nofun⟩
    | front h hσ => exact ⟨_, .front h hσ, .same nofun nofun⟩
    | source h =>
      obtain ⟨hy, hold⟩ := erased_eq_some h
      exact ⟨_, .source hold, .same (fun heq => hy (Node.forward.inj heq)) nofun⟩
    | target h =>
      obtain ⟨hy, hold⟩ := erased_eq_some h
      exact ⟨_, .target hold, .same (fun heq => hy (Node.forward.inj heq)) nofun⟩
    | outside h => exact ⟨_, .outside h, .same nofun nofun⟩
  · rintro P' Q' P (_ | ⟨hf, -⟩) hQ
    · cases hQ with
      | moved => rfl
      | same hf _ => exact absurd rfl hf
    · cases hQ with
      | moved => exact absurd rfl hf
      | same => rfl
  · rintro P' P (_ | ⟨hf, hQ⟩)
    · exact ⟨nofun, nofun⟩
    · refine ⟨hQ, ?_⟩
      rintro rfl
      exact hf rfl
  · rintro P' P (_ | ⟨hf, hQ⟩)
    · exact .inl ⟨rfl, .inr rfl⟩
    · by_cases hn : P'.node = .process svc.process
      · exact .inl ⟨hn, .inl hn⟩
      · exact .inr ⟨hn, rfl⟩
  · intro y' x' h
    obtain ⟨-, hold⟩ := erased_eq_some h
    exact hr.strict hold
  · intro z w svc₁ svc₂ h₁ h₂ heq
    rcases moved_eq_some h₁ with ⟨rfl, rfl⟩ | ⟨-, hy₁, hold₁⟩ <;>
      rcases moved_eq_some h₂ with ⟨rfl, rfl⟩ | ⟨-, hy₂, hold₂⟩
    · rfl
    · exact absurd (hr.lone hold₂ hs heq.symm) hy₂
    · exact absurd (hr.lone hold₁ hs heq) hy₁
    · exact hr.lone hold₁ hold₂ heq

/-- Where an end was before the forwards on `y` and `x` became one. -/
inductive Shortened (x y : Id) : Place → Place → Prop
  | source : Shortened x y (.source y) (.source y)
  | target : Shortened x y (.target y) (.target x)
  | same {P : Place} (hx : P.node ≠ .forward x) (hy : P.node ≠ .forward y) : Shortened x y P P

theorem shorten (hr : n.Rooted F A) {w : Id} (hf : n.forward y = some x)
    (hg : n.forward x = some w) (hne : x ≠ y) :
    ({ n with
      forward := Function.update (Function.update n.forward x none) y (some w) } : Net).Rooted
      F A := by
  have htarget : n.Ends F .provider (.target y) x := .target hf
  have hsource : n.Ends F .client (.source x) x := .source hg
  refine { hr with
    forest := hr.forest.cut (Shortened x y) htarget hsource (.forward y) ?_ ?_ ?_ ?_
      (Set.empty_subset _),
    strict := ?_ }
  · intro σ P d hP
    cases hP with
    | bound h hsvc hσ => exact ⟨_, .bound h hsvc hσ, .same nofun nofun⟩
    | waiting h hσ => exact ⟨_, .waiting h hσ, .same nofun nofun⟩
    | value h hv => exact ⟨_, .value h hv, .same nofun nofun⟩
    | cont h hk hσ => exact ⟨_, .cont h hk hσ, .same nofun nofun⟩
    | front h hσ => exact ⟨_, .front h hσ, .same nofun nofun⟩
    | source h =>
      rcases moved_eq_some h with ⟨rfl, -⟩ | ⟨hy, hx, hold⟩
      · exact ⟨_, .source hf, .source⟩
      · exact ⟨_, .source hold, .same (fun heq => hx (Node.forward.inj heq))
          fun heq => hy (Node.forward.inj heq)⟩
    | target h =>
      rcases moved_eq_some h with ⟨rfl, rfl⟩ | ⟨hy, hx, hold⟩
      · exact ⟨_, .target hg, .target⟩
      · exact ⟨_, .target hold, .same (fun heq => hx (Node.forward.inj heq))
          fun heq => hy (Node.forward.inj heq)⟩
    | outside h => exact ⟨_, .outside h, .same nofun nofun⟩
  · rintro P' Q' P (_ | _ | ⟨hx, hy⟩) hQ
    · cases hQ with
      | source => rfl
      | same _ hy => exact absurd rfl hy
    · cases hQ with
      | target => rfl
      | same hx _ => exact absurd rfl hx
    · cases hQ with
      | source => exact absurd rfl hy
      | target => exact absurd rfl hx
      | same => rfl
  · rintro P' P (_ | _ | ⟨hx, hy⟩)
    · exact ⟨nofun, fun heq => hne (Place.source.inj heq).symm⟩
    · exact ⟨fun heq => hne (Place.target.inj heq), nofun⟩
    · refine ⟨?_, ?_⟩
      · rintro rfl
        exact hy rfl
      · rintro rfl
        exact hx rfl
  · rintro P' P (_ | _ | ⟨hx, hy⟩)
    · exact .inl ⟨rfl, .inl rfl⟩
    · exact .inl ⟨rfl, .inr rfl⟩
    · exact .inr ⟨hy, rfl⟩
  · intro y' x' h
    rcases moved_eq_some h with ⟨rfl, rfl⟩ | ⟨-, -, hold⟩
    · -- the first forward goes up, and the second does not come down again
      obtain ⟨π, hπ, hnot⟩ := hr.strict hf
      exact ⟨π, hr.forest.nest (P := .source x) (Q := .target x) rfl hsource (.target hg) hπ, hnot⟩
    · exact hr.strict hold

/-! ## Meetings -/

/-- A message and a service on one channel are from its two sides. -/
theorem sides (hr : n.Rooted F A) (hm : n.message z = some m) (hs : n.service z = some svc) :
    m.ByProvider ∧ svc.endpoint.pool ≠ svc.pool ∧ n.Ends F .provider (.front z) z ∧
        n.Ends F .client (.bound svc.process svc.via) z ∨
      ¬ m.ByProvider ∧ svc.endpoint.pool = svc.pool ∧ n.Ends F .client (.front z) z ∧
        n.Ends F .provider (.bound svc.process svc.via) z := by
  by_cases hby : m.ByProvider <;> by_cases hside : svc.endpoint.pool = svc.pool
  · have hfront : n.Ends F .provider (.front z) z := .front hm ⟨fun _ => hby, fun _ => rfl⟩
    cases hr.forest.unique hfront (.waiting hs ⟨fun _ => hside, fun _ => rfl⟩)
  · exact .inl ⟨hby, hside, .front hm ⟨fun _ => hby, fun _ => rfl⟩,
      .waiting hs ⟨nofun, fun h => absurd h hside⟩⟩
  · exact .inr ⟨hby, hside, .front hm ⟨nofun, fun h => absurd h hby⟩,
      .waiting hs ⟨fun _ => hside, fun _ => rfl⟩⟩
  · have hfront : n.Ends F .client (.front z) z := .front hm ⟨nofun, fun h => absurd h hby⟩
    cases hr.forest.unique hfront (.waiting hs ⟨nofun, fun h => absurd h hside⟩)

/-- The pool of a consumer is not behind the channel that it is sent. -/
theorem pool_notMem_value (hr : n.Rooted F A) (hm : n.message z = some m)
    (hs : n.service z = some svc) (hw : n.home svc.process = some svc.pool) {v : Endpoint}
    (hv : m.payload.value? = some v) : svc.pool ∉ A v.channel := by
  have hvalue : n.Ends F .client (.value z) v.channel := .value hm hv
  rcases hr.sides hm hs with ⟨-, -, hfront, hwaiting⟩ | ⟨-, -, hfront, hwaiting⟩
  · intro hmem
    have hsub := hr.forest.nest (P := .value z) (Q := .front z) rfl hvalue hfront
    exact Set.disjoint_left.1 (hr.forest.clear hwaiting) hw (hsub hmem)
  · have hne : z ≠ v.channel := by
      intro heq
      rw [← heq] at hvalue
      cases hr.forest.unique hvalue hfront
    have hdisj := hr.forest.apart (P := .front z) (Q := .value z) rfl hne hfront hvalue
    exact Set.disjoint_left.1 hdisj (hr.forest.own hwaiting hw)

/-- The pool of a consumer is behind the channel that it goes on with exactly if it provides it. -/
theorem pool_mem_cont_iff (hr : n.Rooted F A) (hm : n.message z = some m)
    (hs : n.service z = some svc) (hw : n.home svc.process = some svc.pool) {k : Endpoint}
    (hk : m.payload.cont? = some k) : svc.pool ∈ A k.channel ↔ ¬ m.ByProvider := by
  rcases hr.sides hm hs with ⟨hby, -, hfront, hwaiting⟩ | ⟨hby, -, hfront, hwaiting⟩
  · have hcont : n.Ends F .client (.cont z) k.channel := .cont hm hk ⟨fun _ => hby, fun _ => rfl⟩
    have hsub := hr.forest.nest (P := .cont z) (Q := .front z) rfl hcont hfront
    refine iff_of_false (fun hmem => ?_) fun hnot => hnot hby
    exact Set.disjoint_left.1 (hr.forest.clear hwaiting) hw (hsub hmem)
  · have hcont : n.Ends F .provider (.cont z) k.channel :=
      .cont hm hk ⟨nofun, fun h => absurd h hby⟩
    have hsub := hr.forest.nest (P := .front z) (Q := .cont z) rfl hfront hcont
    exact iff_of_true (hsub (hr.forest.own hwaiting hw)) hby

/-- Bindings that come home do so to the pool of a consumer that provides the continuation. -/
theorem homeward_cases_of_sides (hr : n.Rooted F A) (hm : n.message z = some m)
    (hs : n.service z = some svc) (e : Endpoint) :
    svc.homeward m.payload e = e ∨ ¬ m.ByProvider ∧ ∃ k, m.payload.cont? = some k ∧
      e.channel = k.channel ∧ (svc.homeward m.payload e).pool = svc.pool := by
  rcases hr.sides hm hs with ⟨-, hside, -⟩ | ⟨hby, hside, -⟩
  · exact .inl (homeward_of_client hside ..)
  · rcases homeward_cases svc m.payload e with heq | ⟨k, hk, hch, heq⟩
    · exact .inl heq
    · refine .inr ⟨hby, k, hk, hch, ?_⟩
      rw [heq, continued_of_provider hside]

/-- Where an end was before the service on `z` was given the message there. -/
inductive Met (z : Id) (svc : Service) : Place → Place → Prop
  | cont : Met z svc (.bound svc.process svc.via) (.cont z)
  | value {ph : Sym} {term : Term} (h : svc.handler = .recv ph term) :
    Met z svc (.bound svc.process ph) (.value z)
  | same {P : Place} (hz : P.node ≠ .message z) (hvia : P ≠ .bound svc.process svc.via) :
    Met z svc P P

theorem Met.injective {P' Q' P : Place} (hP : Met z svc P' P) (hQ : Met z svc Q' P) :
    P' = Q' := by
  cases hP with
  | cont =>
    cases hQ with
    | cont => rfl
    | same hz => exact absurd rfl hz
  | value h =>
    cases hQ with
    | value h' => rw [(Handler.recv.inj (h.symm.trans h')).1]
    | same hz => exact absurd rfl hz
  | same hz =>
    cases hQ with
    | cont => exact absurd rfl hz
    | value => exact absurd rfl hz
    | same => rfl

/-- Every end after a meeting was an end before it. -/
theorem ends_of_met (hr : n.Rooted F A) (hm : n.message z = some m) (hs : n.service z = some svc)
    (hw : n.home svc.process = some svc.pool) {σ : Side} {P' : Place} {d : Id}
    (hP' : (n.met z m svc).Ends F σ P' d) : ∃ P, n.Ends F σ P d ∧ Met z svc P' P := by
  cases hP' with
  | @bound _ q ph e h hsvc hσ =>
    rcases met_eq_some h with ⟨k, rfl, rfl, hk, rfl⟩ | ⟨v, term, rfl, hh, hv, rfl⟩ |
      ⟨e₀, hne, hold, rfl⟩
    · -- the continuation, on the side of the consumer
      rw [(continued_channel svc k).1]
      refine ⟨_, .cont hm hk ?_, .cont⟩
      replace hσ : σ = .provider ↔ svc.pool = (Drafting.continued svc k).pool := by
        rw [hσ]
        show n.home svc.process = _ ↔ _
        rw [hw, Option.some_inj]
      rcases hr.sides hm hs with ⟨hby, hside, -⟩ | ⟨hby, hside, -⟩
      · rw [continued_of_client hside] at hσ
        have hpool : svc.pool ≠ k.pool := by
          intro heq
          exact (hr.pool_mem_cont_iff hm hs hw hk).1 (heq ▸ hr.cont hm hk) hby
        cases σ with
        | provider => exact absurd (hσ.1 rfl) hpool
        | client => exact ⟨fun _ => hby, fun _ => rfl⟩
      · rw [continued_of_provider hside] at hσ
        cases hσ.2 rfl
        exact ⟨nofun, fun h => absurd h hby⟩
    · -- what was received
      have hnot := hr.pool_notMem_value hm hs hw hv
      have hclient : n.home svc.process ≠ some (svc.homeward m.payload v).pool := by
        rw [hw]
        intro heq
        rcases hr.homeward_cases_of_sides hm hs v with hhome | ⟨hby, k, hk, hch, -⟩
        · rw [hhome] at heq
          exact hnot (Option.some.inj heq ▸ hr.value hm hv)
        · exact hnot (hch ▸ (hr.pool_mem_cont_iff hm hs hw hk).2 hby)
      rw [homeward_channel]
      cases σ with
      | provider => exact absurd (hσ.1 rfl) hclient
      | client => exact ⟨_, .value hm hv, .value hh⟩
    · have hidle : ∀ {w : Id} {svc' : Service}, n.service w = some svc' →
          ¬ (svc'.process = q ∧ svc'.via = ph) := by
        intro w svc' hw'
        by_cases hwz : w = z
        · subst hwz
          cases hs.symm.trans hw'
          exact fun heq => hne ⟨heq.1.symm, heq.2.symm⟩
        · refine hsvc (z := w) ?_
          show Function.update n.service z none w = some svc'
          rw [Function.update_of_ne hwz, hw']
      have hside : n.home q = some (svc.homeward m.payload e₀).pool ↔ n.home q = some e₀.pool := by
        rcases hr.homeward_cases_of_sides hm hs e₀ with hhome | ⟨hby, k, hk, hch, hpool⟩
        · rw [hhome]
        · -- the message has the provider end of the continuation, so this is the client end
          have hold' : n.home q ≠ some e₀.pool := by
            intro hq
            have hend : n.Ends F .provider (.bound q ph) e₀.channel :=
              .bound hold hidle ⟨fun _ => hq, fun _ => rfl⟩
            rw [hch] at hend
            cases hr.forest.unique hend (.cont hm hk ⟨nofun, fun h => absurd h hby⟩)
          refine iff_of_false (fun hq => ?_) hold'
          have hend : n.Ends F .client (.bound q ph) e₀.channel :=
            .bound hold hidle ⟨nofun, fun h => absurd h hold'⟩
          rw [hch] at hend
          rw [hpool] at hq
          exact Set.disjoint_left.1 (hr.forest.clear hend) hq
            ((hr.pool_mem_cont_iff hm hs hw hk).2 hby)
      rw [homeward_channel]
      refine ⟨_, .bound hold hidle (hσ.trans hside), .same nofun ?_⟩
      exact fun heq => hne ⟨(Place.bound.inj heq).1, (Place.bound.inj heq).2⟩
  | waiting h hσ =>
    obtain ⟨hwz, hold⟩ := erased_eq_some h
    refine ⟨_, .waiting hold hσ, .same nofun fun heq => ?_⟩
    exact hwz (hr.lone hold hs (Place.bound.inj heq).1)
  | value h hv =>
    obtain ⟨hwz, hold⟩ := erased_eq_some h
    exact ⟨_, .value hold hv, .same (fun heq => hwz (Node.message.inj heq)) nofun⟩
  | cont h hk hσ =>
    obtain ⟨hwz, hold⟩ := erased_eq_some h
    exact ⟨_, .cont hold hk hσ, .same (fun heq => hwz (Node.message.inj heq)) nofun⟩
  | front h hσ =>
    obtain ⟨hwz, hold⟩ := erased_eq_some h
    exact ⟨_, .front hold hσ, .same (fun heq => hwz (Node.message.inj heq)) nofun⟩
  | source h => exact ⟨_, .source h, .same nofun nofun⟩
  | target h => exact ⟨_, .target h, .same nofun nofun⟩
  | outside h => exact ⟨_, .outside h, .same nofun nofun⟩

theorem meet (hr : n.Rooted F A) (hm : n.message z = some m) (hs : n.service z = some svc)
    (hw : n.home svc.process = some svc.pool) : (n.met z m svc).Rooted F A := by
  have hforest : ∀ {P₁ P₂ : Place}, n.Ends F .provider P₁ z → n.Ends F .client P₂ z →
      P₁ = .front z ∧ P₂ = .bound svc.process svc.via ∨
        P₁ = .bound svc.process svc.via ∧ P₂ = .front z →
      Forest ((n.met z m svc).Ends F) n.core A := by
    intro P₁ P₂ h₁ h₂ hP
    refine hr.forest.cut (Met z svc) h₁ h₂ (.process svc.process) (hr.ends_of_met hm hs hw)
      Met.injective ?_ ?_ ?_
    · rintro P' P (_ | _ | ⟨hz, hvia⟩)
      · rcases hP with ⟨rfl, rfl⟩ | ⟨rfl, rfl⟩ <;> exact ⟨nofun, nofun⟩
      · rcases hP with ⟨rfl, rfl⟩ | ⟨rfl, rfl⟩ <;> exact ⟨nofun, nofun⟩
      · have hfront : P' ≠ .front z := by
          rintro rfl
          exact hz rfl
        rcases hP with ⟨rfl, rfl⟩ | ⟨rfl, rfl⟩
        · exact ⟨hfront, hvia⟩
        · exact ⟨hvia, hfront⟩
    · -- the message comes to the process
      have hmessage : Node.message z = P₁.node ∨ Node.message z = P₂.node := by
        rcases hP with ⟨rfl, -⟩ | ⟨-, rfl⟩
        · exact .inl rfl
        · exact .inr rfl
      have hprocess : Node.process svc.process = P₁.node ∨ Node.process svc.process = P₂.node := by
        rcases hP with ⟨-, rfl⟩ | ⟨rfl, -⟩
        · exact .inr rfl
        · exact .inl rfl
      rintro P' P (_ | _ | ⟨hz, hvia⟩)
      · exact .inl ⟨rfl, hmessage⟩
      · exact .inl ⟨rfl, hmessage⟩
      · by_cases hn : P'.node = .process svc.process
        · exact .inl ⟨hn, hn ▸ hprocess⟩
        · exact .inr ⟨hn, rfl⟩
    · rcases hP with ⟨-, rfl⟩ | ⟨rfl, -⟩
      · exact Set.subset_union_right
      · exact Set.subset_union_left
  have hhome : ∀ {e : Endpoint}, e.pool ∈ A e.channel →
      (svc.homeward m.payload e).pool ∈ A (svc.homeward m.payload e).channel := by
    intro e he
    rw [homeward_channel]
    rcases hr.homeward_cases_of_sides hm hs e with heq | ⟨hby, k, hk, hch, hpool⟩
    · rw [heq]
      exact he
    · rw [hpool, hch]
      exact (hr.pool_mem_cont_iff hm hs hw hk).2 hby
  refine ⟨?_, ?_, ?_, ?_, hr.strict, hr.settled, hr.alone, ?_⟩
  · rcases hr.sides hm hs with ⟨-, -, hfront, hwaiting⟩ | ⟨-, -, hfront, hwaiting⟩
    · exact hforest hfront hwaiting (.inl ⟨rfl, rfl⟩)
    · exact hforest hwaiting hfront (.inr ⟨rfl, rfl⟩)
  · intro q ph e h
    rcases met_eq_some h with ⟨k, -, -, hk, rfl⟩ | ⟨v, term, -, -, hv, rfl⟩ | ⟨e₀, -, hold, rfl⟩
    · rcases hr.sides hm hs with ⟨-, hside, -⟩ | ⟨hby, hside, -⟩
      · rw [continued_of_client hside]
        exact hr.cont hm hk
      · rw [continued_of_provider hside]
        exact (hr.pool_mem_cont_iff hm hs hw hk).2 hby
    · exact hhome (hr.value hm hv)
    · exact hhome (hr.live hold)
  · intro w m' v h hv
    obtain ⟨-, hold⟩ := erased_eq_some h
    exact hr.value hold hv
  · intro w m' k h hk
    obtain ⟨-, hold⟩ := erased_eq_some h
    exact hr.cont hold hk
  · intro w w' svc₁ svc₂ h₁ h₂ heq
    obtain ⟨-, hold₁⟩ := erased_eq_some h₁
    obtain ⟨-, hold₂⟩ := erased_eq_some h₂
    exact hr.lone hold₁ hold₂ heq

/-! ## Messages -/

/-- Where an end was before `p` left a message on `z`, other than those of the new channel. -/
inductive Emitted (p : Id) (via : Sym) (given : Option Sym) (z : Id) : Place → Place → Prop
  | front : Emitted p via given z (.front z) (.bound p via)
  | value {ph : Sym} (h : given = some ph) (hne : ph ≠ via) :
    Emitted p via given z (.value z) (.bound p ph)
  | same {P : Place} (hz : P.node ≠ .message z) (hvia : P ≠ .bound p via)
    (hgiven : ∀ ph, given = some ph → P ≠ .bound p ph) : Emitted p via given z P P

theorem Emitted.injective {given : Option Sym} {P' Q' P : Place}
    (hP : Emitted p via given z P' P) (hQ : Emitted p via given z Q' P) : P' = Q' := by
  cases hP with
  | front =>
    cases hQ with
    | front => rfl
    | value _ hne => exact absurd rfl hne
    | same _ hvia => exact absurd rfl hvia
  | value h hne =>
    cases hQ with
    | front => exact absurd rfl hne
    | value => rfl
    | same _ _ hgiven => exact absurd rfl (hgiven _ h)
  | same hz hvia hgiven =>
    cases hQ with
    | front => exact absurd rfl hvia
    | value h => exact absurd rfl (hgiven _ h)
    | same => rfl

section Emit

variable {ep : Endpoint} {payload : Payload} {given : Option Sym}

/-- The provider of a channel leaves a message as such. -/
theorem byProvider_of_emits (he : n.Emits D p π via ep payload given c) :
    (⟨ep.channel, π, p, payload⟩ : Message).ByProvider ↔ ep.pool = π := by
  obtain ⟨node, -, hfits, hside⟩ := he.fits
  exact (byProvider_iff hfits hside he.cont).trans hside.symm

/-- Every end on an old channel was an end before the message was left. -/
theorem ends_of_emitted (he : n.Emits D p π via ep payload given c) (hidle : n.Idle p)
    {σ : Side} {P' : Place} {d : Id} (hP' : (n.emitted p π via ep payload given).Ends F σ P' d)
    (hd : d ≠ c) : ∃ P, n.Ends F σ P d ∧ Emitted p via given ep.channel P' P := by
  have hkept : ∀ {w : Id}, w ≠ ep.channel → Node.message w ≠ .message ep.channel :=
    fun hw heq => hw (Node.message.inj heq)
  cases hP' with
  | bound h hsvc hσ =>
    rcases acted_eq_some h with ⟨-, -, hnext⟩ | ⟨hold, h⟩
    · exact absurd (he.cont hnext).1 hd
    · refine ⟨_, .bound h hsvc hσ, .same nofun ?_ ?_⟩
      · rintro ⟨⟩
        exact (hold rfl).1 rfl
      · rintro ph hg ⟨⟩
        exact (hold rfl).2 hg
  | waiting h hσ =>
    refine ⟨_, .waiting h hσ, .same nofun ?_ ?_⟩
    · exact fun heq => hidle h (Place.bound.inj heq).1
    · exact fun ph _ heq => hidle h (Place.bound.inj heq).1
  | value h hv =>
    rcases update_eq_some h with ⟨rfl, hnew⟩ | ⟨hw, hold⟩
    · cases hnew
      obtain ⟨ph, hg, hne, hl, hpool⟩ := he.value hv
      refine ⟨_, .client hl hidle ?_, .value hg hne⟩
      rw [he.home]
      exact fun heq => hpool (Option.some.inj heq).symm
    · exact ⟨_, .value hold hv, .same (hkept hw) nofun nofun⟩
  | cont h hk hσ =>
    rcases update_eq_some h with ⟨rfl, hnew⟩ | ⟨hw, hold⟩
    · cases hnew
      exact absurd (he.cont hk).1 hd
    · exact ⟨_, .cont hold hk hσ, .same (hkept hw) nofun nofun⟩
  | front h hσ =>
    rcases update_eq_some h with ⟨rfl, hnew⟩ | ⟨hw, hold⟩
    · cases hnew
      refine ⟨_, .bound he.bound (fun hs hsvc => hidle hs hsvc.1) (hσ.trans ?_), .front⟩
      rw [byProvider_of_emits he, he.home, Option.some_inj]
      exact eq_comm
    · exact ⟨_, .front hold hσ, .same (hkept hw) nofun nofun⟩
  | source h => exact ⟨_, .source h, .same nofun nofun nofun⟩
  | target h => exact ⟨_, .target h, .same nofun nofun nofun⟩
  | outside h => exact ⟨_, .outside h, .same nofun nofun nofun⟩

/-- The ends of the new channel: the process keeps its side, and the message has the other. -/
theorem ends_of_emitted_new (he : n.Emits D p π via ep payload given c) (hc : n.Unused c)
    (hF : ¬ F c) {σ : Side} {P' : Place}
    (hP' : (n.emitted p π via ep payload given).Ends F σ P' c) :
    P' = .bound p via ∧ (σ = .provider ↔ ep.pool = π) ∨
      P' = .cont ep.channel ∧ (σ = .client ↔ ep.pool = π) := by
  generalize hch : c = d at hP'
  cases hP' with
  | bound h hsvc hσ =>
    rcases acted_eq_some h with ⟨rfl, rfl, hnext⟩ | ⟨-, h⟩
    · refine .inl ⟨rfl, hσ.trans ?_⟩
      show n.home _ = _ ↔ _
      rw [he.home, (he.cont hnext).2, Option.some_inj]
      exact eq_comm
    · exact absurd hch.symm (hc.live h)
  | waiting h hσ => exact absurd hch.symm (hc.service h)
  | value h hv =>
    rcases update_eq_some h with ⟨rfl, hnew⟩ | ⟨-, hold⟩
    · cases hnew
      obtain ⟨ph, -, -, hl, -⟩ := he.value hv
      exact absurd hch.symm (hc.live hl)
    · exact absurd hch.symm (hc.value hold hv)
  | cont h hk hσ =>
    rcases update_eq_some h with ⟨rfl, hnew⟩ | ⟨-, hold⟩
    · cases hnew
      exact .inr ⟨rfl, hσ.trans (byProvider_of_emits he)⟩
    · exact absurd hch.symm (hc.cont hold hk)
  | front h hσ =>
    rcases update_eq_some h with ⟨rfl, -⟩ | ⟨-, hold⟩
    · exact absurd hch.symm (hc.live he.bound)
    · exact absurd hch.symm (hc.message hold)
  | source h => exact absurd hch.symm (hc.source h)
  | target h => exact absurd hch.symm (hc.target h)
  | outside h =>
    subst hch
    exact absurd h hF

/-- A process that provides its channel provides the new one as well, which the message holds. -/
theorem sprouts_of_provider (hr : n.Rooted F A) (he : n.Emits D p π via ep payload given c)
    (hc : n.Unused c) (hF : ¬ F c) (hidle : n.Idle p) (hpool : ep.pool = π) :
    Forest.Sprouts (n.Ends F) ((n.emitted p π via ep payload given).Ends F)
      (Emitted p via given ep.channel) c (.process p) (.bound p via) (.cont ep.channel) := by
  have hvia : n.Ends F .provider (.bound p via) ep.channel := by
    refine .provider he.bound hidle ?_
    rw [he.home, hpool]
  refine ⟨nofun, ends_of_emitted he hidle, Emitted.injective, ?_, ?_, ?_, ?_⟩
  · rintro P' P (_ | _ | ⟨hz, -, -⟩)
    · exact .inl ⟨.inr rfl, rfl⟩
    · exact .inl ⟨.inr rfl, rfl⟩
    · by_cases hp : P'.node = .process p
      · exact .inl ⟨.inl hp, hp⟩
      · exact .inr ⟨hp, hz, rfl⟩
  · intro P' d hP'
    constructor
    · rintro rfl
      rcases ends_of_emitted_new he hc hF hP' with ⟨rfl, -⟩ | ⟨-, hσ⟩
      · rfl
      · cases hσ.2 hpool
    · -- nothing else is provided by the process
      intro hn
      by_contra hd
      obtain ⟨P, hP, hRP⟩ := ends_of_emitted he hidle hP' hd
      cases hRP with
      | front => cases hn
      | value => cases hn
      | same _ hne _ =>
        have hde : d = ep.channel := hr.forest.single (Q := .bound p via) hn hP hvia
        rw [hde] at hP
        exact hne (hr.forest.unique hP hvia)
  · intro P' hP'
    rcases ends_of_emitted_new he hc hF hP' with ⟨rfl, -⟩ | ⟨-, hσ⟩
    · rfl
    · cases hσ.2 hpool
  · intro P' hP'
    rcases ends_of_emitted_new he hc hF hP' with ⟨-, hσ⟩ | ⟨rfl, -⟩
    · cases hσ.2 hpool
    · rfl

/-- The message of a client provides the new channel, which the process holds. -/
theorem sprouts_of_client (he : n.Emits D p π via ep payload given c) (hc : n.Unused c)
    (hF : ¬ F c) (hidle : n.Idle p) (hpool : ep.pool ≠ π) :
    Forest.Sprouts (n.Ends F) ((n.emitted p π via ep payload given).Ends F)
      (Emitted p via given ep.channel) c (.process p) (.cont ep.channel) (.bound p via) := by
  refine ⟨nofun, ends_of_emitted he hidle, Emitted.injective, ?_, ?_, ?_, ?_⟩
  · rintro P' P (_ | _ | ⟨hz, -, -⟩)
    · exact .inl ⟨.inl rfl, rfl⟩
    · exact .inl ⟨.inl rfl, rfl⟩
    · by_cases hp : P'.node = .process p
      · exact .inl ⟨.inr hp, hp⟩
      · exact .inr ⟨hz, hp, rfl⟩
  · intro P' d hP'
    constructor
    · rintro rfl
      rcases ends_of_emitted_new he hc hF hP' with ⟨-, hσ⟩ | ⟨rfl, -⟩
      · exact absurd (hσ.1 rfl) hpool
      · rfl
    · -- the message is the client's, so it provides nothing but the new channel
      intro hn
      by_contra hd
      obtain ⟨P, hP, hRP⟩ := ends_of_emitted he hidle hP' hd
      cases hRP with
      | front =>
        obtain ⟨e, hl, -, hσ⟩ := hP.exists_live hidle
        cases he.bound.symm.trans hl
        have hhome := hσ.1 rfl
        rw [he.home] at hhome
        exact hpool (Option.some.inj hhome).symm
      | value =>
        cases hP'
      | same hz => exact hz hn
  · intro P' hP'
    rcases ends_of_emitted_new he hc hF hP' with ⟨-, hσ⟩ | ⟨rfl, -⟩
    · exact absurd (hσ.1 rfl) hpool
    · rfl
  · intro P' hP'
    rcases ends_of_emitted_new he hc hF hP' with ⟨rfl, -⟩ | ⟨-, hσ⟩
    · rfl
    · exact absurd (hσ.1 rfl) hpool

/-- With the territory of the new channel, the ends make a forest again. The process that provides
its channel provides the new one as well; otherwise the message does. -/
theorem forest_emitted (hr : n.Rooted F A) (he : n.Emits D p π via ep payload given c)
    (hc : n.Unused c) (hF : ¬ F c) (hidle : n.Idle p) :
    ∃ N, (N = .process p ∧ ep.pool = π ∨ N = .message ep.channel ∧ ep.pool ≠ π) ∧
      Forest ((n.emitted p π via ep payload given).Ends F) n.core (Function.update A c
        (Forest.territory ((n.emitted p π via ep payload given).Ends F) n.core A N)) := by
  by_cases hpool : ep.pool = π
  · refine ⟨.process p, .inl ⟨rfl, hpool⟩, ?_⟩
    exact hr.forest.sprout (hr.sprouts_of_provider he hc hF hidle hpool)
      (fun _ _ _ _ hρ => hρ) (fun _ hρ => hρ) (Set.empty_subset _) (Set.disjoint_empty _)
  · refine ⟨.message ep.channel, .inr ⟨rfl, hpool⟩, ?_⟩
    exact hr.forest.sprout (sprouts_of_client he hc hF hidle hpool)
      (fun _ _ _ _ hρ => hρ) (Set.empty_subset _) (fun _ hρ => hρ) (Set.empty_disjoint _)

theorem emit (hr : n.Rooted F A) (he : n.Emits D p π via ep payload given c) (hc : n.Unused c)
    (hF : ¬ F c) (hidle : n.Idle p) :
    ∃ A', (n.emitted p π via ep payload given).Rooted F A' := by
  obtain ⟨N, hN, hforest⟩ := hr.forest_emitted he hc hF hidle
  have hA : ∀ {T : Set Id} {d : Id}, d ≠ c → Function.update A c T d = A d :=
    fun hd => Function.update_of_ne hd ..
  -- the pool of the new channel is on record with it
  have hk : ∀ {k : Endpoint}, payload.cont? = some k → k.pool ∈ Function.update A c
      (Forest.territory ((n.emitted p π via ep payload given).Ends F) n.core A N) k.channel := by
    intro k hk
    rw [(he.cont hk).1, (he.cont hk).2, Function.update_self]
    rcases hN with ⟨rfl, hpool⟩ | ⟨rfl, hpool⟩
    · refine .inl ?_
      rw [hpool]
      exact he.home
    · refine .inr ⟨.front ep.channel, ep.channel, rfl, ?_, hr.live he.bound⟩
      refine .front (Function.update_self ..) ⟨nofun, fun hby => ?_⟩
      exact absurd ((byProvider_of_emits he).1 hby) hpool
  refine ⟨_, hforest, ?_, ?_, ?_, ?_, ?_, hr.alone, hr.lone⟩
  · intro q ph e h
    rcases acted_eq_some h with ⟨-, -, hnext⟩ | ⟨-, hold⟩
    · exact hk hnext
    · rw [hA (hc.live hold)]
      exact hr.live hold
  · intro z m v h hv
    rcases update_eq_some h with ⟨rfl, hnew⟩ | ⟨-, hold⟩
    · cases hnew
      obtain ⟨ph, -, -, hl, -⟩ := he.value hv
      rw [hA (hc.live hl)]
      exact hr.live hl
    · rw [hA (hc.value hold hv)]
      exact hr.value hold hv
  · intro z m k h hcont
    rcases update_eq_some h with ⟨rfl, hnew⟩ | ⟨-, hold⟩
    · cases hnew
      exact hk hcont
    · rw [hA (hc.cont hold hcont)]
      exact hr.cont hold hcont
  · intro y x hf
    rw [hA (hc.target hf), hA (hc.source hf)]
    exact hr.strict hf
  · intro d ρ hρ
    by_cases hd : d = c
    · rw [hd, Function.update_self] at hρ
      rcases hρ with hρ | ⟨P, u, -, -, hρ⟩
      · rcases hN with ⟨rfl, -⟩ | ⟨rfl, -⟩
        · exact ⟨p, hρ⟩
        · cases hρ
      · exact hr.settled hρ
    · rw [hA hd] at hρ
      exact hr.settled hρ

end Emit

/-- A turn keeps a net rooted; the new channel gets a territory. -/
theorem turn (hr : n.Rooted F A) (hF : ¬ F c)
    (hw : ∀ {z : Id} {svc : Service}, n.service z = some svc → n.home svc.process = some svc.pool)
    (ht : Turn D c n n') : ∃ A', n'.Rooted F A' := by
  cases ht with
  | emit he hc hidle hfree => exact hr.emit he hc hF hidle
  | await hhome hbound hnode hfits hside hidle hfree =>
    exact ⟨A, hr.await hhome hbound hidle hfree⟩
  | relay hhome hx hxp hy hyp hnx hny hshape hidle hfree =>
    exact ⟨A, hr.relay hhome hx hxp hy hyp hidle⟩
  | carry hf hm hfree => exact ⟨A, hr.carry hf hm⟩
  | usher hf hs hfree => exact ⟨A, hr.usher hf hs hfree⟩
  | shorten hf hg hne => exact ⟨A, hr.shorten hf hg hne⟩
  | meet hm hs hreply => exact ⟨A, hr.meet hm hs (hw hs)⟩

end Rooted

end Net

end Rendezvous
