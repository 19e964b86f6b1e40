import Rendezvous.Proofs.Accepted
import Rendezvous.Proofs.Line

/-!
# Stations along a line

The stations of a `Line` are processes: the two outer ones act on the channels at the ends of the
line, and the relays in between submit a forward each. `Ready` says that every station is ready to
take its step and that nothing is pending on the line.

`At` is what the store is like once some of the stations have taken their steps, in whatever order:
what is pending on the line is what `Stage` says, the stations that have acted are bound as their own
steps left them, and everything else is as it was. `At.exists_plan` is the step: every station that
has not acted can act, and either others are still to come (`Parts`) or it is the last, and the two
halves come together (`Unites`).
-/

namespace Rendezvous

/-! ## Lines -/

/-- Stations in a line, from `0` to `relays + 1`, with a channel from each to the next. -/
structure Line where
  relays : ℕ
  process : ℕ → Id
  /-- Channel `i`, which station `i` provides and station `i + 1` holds. -/
  endpoint : ℕ → Endpoint
  /-- The placeholder of station `i` for channel `i`. -/
  out : ℕ → Sym
  /-- The placeholder of station `i + 1` for channel `i`. -/
  into : ℕ → Sym
  /-- The pool of the last station. -/
  far : Id
  /-- What the outer stations submit. -/
  first : Term
  last : Term

namespace Line

/-- The name of a channel. -/
def channel (l : Line) (i : ℕ) : Id := (l.endpoint i).channel

/-- Where a station lives. -/
def pool (l : Line) (i : ℕ) : Id := if i = l.relays + 1 then l.far else (l.endpoint i).pool

/-- What a station submits. -/
def term (l : Line) : ℕ → Term
  | 0 => l.first
  | i + 1 => if i = l.relays then l.last else .fwd (l.out (i + 1)) (l.into i)

/-- The step of a station. -/
def spec (l : Line) (i : ℕ) : StepSpec := ⟨l.pool i, l.process i, l.term i⟩

/-- The two outer stations, in either order. -/
def Ends (l : Line) (p c : ℕ) : Prop := p = 0 ∧ c = l.relays + 1 ∨ p = l.relays + 1 ∧ c = 0

/-- The channel that an outer station acts on. -/
def edge (l : Line) (i : ℕ) : Endpoint := l.endpoint (i - 1)

/-- Every station is ready to take its step, and nothing is pending on the line. -/
structure Ready (l : Line) (s : Store) : Prop where
  processes : Set.InjOn l.process {i | i ≤ l.relays + 1}
  channels : Set.InjOn l.channel {i | i ≤ l.relays}
  provided : ∀ i ≤ l.relays, s.live (l.process i) (l.out i) = some (l.endpoint i)
  held : ∀ i ≤ l.relays, s.live (l.process (i + 1)) (l.into i) = some (l.endpoint i)
  free : ∀ i ≤ l.relays, s.halves.get? (l.channel i) = none
  first_offers : l.first.offers = true
  first_via : l.first.via = l.out 0
  last_offers : l.last.offers = true
  last_via : l.last.via = l.into l.relays
  /-- One of the outer stations produces, and the other one consumes. -/
  dual : l.first.handler?.isSome ≠ l.last.handler?.isSome
  accepted : ∀ i ≤ l.relays + 1, s.Accepts (l.spec i)
  /-- What is sent is not provided from where the consumer lives. -/
  apart : ∀ {p c : ℕ} {via value : Sym} {e : Endpoint}, l.Ends p c → l.term p = .send via value →
    s.live (l.process p) value = some e → e.pool ≠ l.pool c

variable {l : Line} {s : Store}

theorem term_zero (l : Line) : l.term 0 = l.first := rfl

theorem term_last (l : Line) : l.term (l.relays + 1) = l.last := if_pos rfl

theorem term_relay {i : ℕ} (hi : i < l.relays) :
    l.term (i + 1) = .fwd (l.out (i + 1)) (l.into i) := if_neg (Nat.ne_of_lt hi)

theorem pool_last (l : Line) : l.pool (l.relays + 1) = l.far := if_pos rfl

theorem pool_of_le {i : ℕ} (hi : i ≤ l.relays) : l.pool i = (l.endpoint i).pool :=
  if_neg (by omega)

theorem edge_zero (l : Line) : l.edge 0 = l.endpoint 0 := rfl

theorem edge_last (l : Line) : l.edge (l.relays + 1) = l.endpoint l.relays := rfl

namespace Ready

/-- An outer station acts on the channel at its end of the line. -/
theorem edge (h : l.Ready s) {i : ℕ} (hi : i = 0 ∨ i = l.relays + 1) :
    (l.term i).offers = true ∧ s.live (l.process i) (l.term i).via = some (l.edge i) := by
  rcases hi with rfl | rfl
  · rw [term_zero, h.first_via]
    exact ⟨h.first_offers, h.provided 0 (Nat.zero_le _)⟩
  · rw [term_last, h.last_via]
    exact ⟨h.last_offers, h.held l.relays le_rfl⟩

end Ready

/-- What the stations see, and what the outer ones offer, for every channel that they may draw. -/
structure Offering (l : Line) (s : Store) where
  cfg : ℕ → Configuration
  env : ℕ → Env
  own : ℕ → Id → List Mark
  half : ℕ → Id → Half
  admits : ∀ i ≤ l.relays + 1, s.Admits (l.spec i) (cfg i) (env i)
  offers : ∀ i, i = 0 ∨ i = l.relays + 1 → ∀ k : Id,
    Offers (env i) (cfg i) ⟨k, k, k⟩ (l.term i) (l.edge i) (own i k) (half i k)

theorem Ready.exists_offering (h : l.Ready s) (hk : s.Keyed) : Nonempty (l.Offering s) := by
  have hready := h.accepted
  have : Nonempty Configuration := ⟨(hready 0 (Nat.zero_le _)).choose⟩
  choose! cfg env hadm using hready
  have hoffers : ∀ i, i = 0 ∨ i = l.relays + 1 → ∀ k : Id, ∃ own half,
      Offers (env i) (cfg i) ⟨k, k, k⟩ (l.term i) (l.edge i) own half := by
    intro i hi k
    obtain ⟨hterm, hlive⟩ := h.edge hi
    have ha := hadm i (by omega)
    obtain ⟨ctx, hcheck⟩ := ha.checked
    rw [← ha.pool] at hcheck
    obtain ⟨ep, own, half, ho⟩ := exists_offers ⟨k, k, k⟩ hterm hcheck
    have hep := (Store.channel_of_offers ho).1
    rw [(Store.reads_configuration hk ha.configuration).channels] at hep
    cases hep.symm.trans hlive
    exact ⟨own, half, ho⟩
  have : Nonempty Half := ⟨(hoffers 0 (.inl rfl) default).choose_spec.choose⟩
  choose! own half ho using hoffers
  exact ⟨cfg, env, own, half, hadm, ho⟩

namespace Offering

variable (o : l.Offering s)

theorem reads (hk : s.Keyed) {i : ℕ} (hi : i ≤ l.relays + 1) : s.Reads (l.process i) (o.cfg i) :=
  Store.reads_configuration hk (o.admits i hi).configuration

theorem cfg_process (hk : s.Keyed) {i : ℕ} (hi : i ≤ l.relays + 1) :
    (o.cfg i).process = l.process i := (o.reads hk hi).process

theorem cfg_pool {i : ℕ} (hi : i ≤ l.relays + 1) : (o.cfg i).pool = l.pool i := (o.admits i hi).pool

theorem exists_pool (o : l.Offering s) (hk : s.Keyed) {i : ℕ} (hi : i ≤ l.relays + 1) :
    s.poolOf? (l.process i) = some (l.pool i) ∧ ∃ pool, s.pools.get? (l.pool i) = some pool := by
  have hr := o.reads hk hi
  have hmember := hr.member
  obtain ⟨pool, hpool, -⟩ := hr.rev
  rw [o.cfg_pool hi] at hmember hpool
  exact ⟨hmember, pool, hpool⟩

/-- A relay knows what the types of its two channels stand for, and that they are equal. -/
theorem relay_types (h : l.Ready s) (hk : s.Keyed) {i : ℕ} (hi : i < l.relays) :
    ∃ r r', (o.env (i + 1)).resolve (l.endpoint (i + 1)).type = .ok r ∧
      (o.env (i + 1)).resolve (l.endpoint i).type = .ok r' ∧
      (o.env (i + 1)).eqType (l.endpoint (i + 1)).type (l.endpoint i).type = .ok true := by
  have ha := o.admits (i + 1) (by omega)
  have hr := o.reads hk (i := i + 1) (by omega)
  have hcheck := ha.checked
  rw [show (l.spec (i + 1)).term = _ from term_relay hi] at hcheck
  obtain ⟨x, y, id, node, hx, -, hy, -, -, hres, heq⟩ := joins_of_checkStep.1 hcheck
  rw [hr.channels, h.provided (i + 1) (by omega)] at hx
  rw [hr.channels, h.held i (by omega)] at hy
  cases hx
  cases hy
  obtain ⟨r', hr'⟩ := (o.env (i + 1)).resolve_of_eqType heq hres
  exact ⟨_, r', hres, hr', heq⟩

/-- All channels of the line have types of one shape, and the outer stations offer what goes with
it. -/
theorem exists_faces (h : l.Ready s) (hk : s.Keyed) :
    ∃ node, (∀ k, (o.half 0 k).Faces node .provider) ∧
      (∀ k, (o.half (l.relays + 1) k).Faces node (Context.sideFrom l.far (l.endpoint l.relays))) ∧
      ∀ i ≤ l.relays, ∃ node', s.decls.Denotes (l.endpoint i).type node' ∧ node.SameShape node' := by
  have hfaces : ∀ i, i = 0 ∨ i = l.relays + 1 → ∀ k, ∃ node,
      s.decls.Denotes (l.edge i).type node ∧
        (o.half i k).Faces node (Context.sideFrom (l.pool i) (l.edge i)) := by
    intro i hi k
    have ha := o.admits i (by omega)
    obtain ⟨ctx, hcheck⟩ := ha.checked
    rw [← ha.pool] at hcheck
    rw [← o.cfg_pool (i := i) (by omega)]
    exact Store.faces_of_offers (o.reads hk (by omega)) (Registry.within_load ha.load) hcheck
      (o.offers i hi k)
  obtain ⟨node, hnode, -⟩ := hfaces (l.relays + 1) (.inr rfl) default
  have hall : ∀ i ≤ l.relays, ∃ node', s.decls.Denotes (l.endpoint i).type node' ∧
      node.SameShape node' := by
    intro i hi
    induction hi using Nat.decreasingInduction with
    | self => exact ⟨node, hnode, .refl node⟩
    | of_succ i hi ih =>
      obtain ⟨node', hnode', hshape⟩ := ih
      obtain ⟨r, r', -, -, heq⟩ := o.relay_types h hk hi
      have hw := Registry.within_load (o.admits (i + 1) (by omega)).load
      obtain ⟨node'', hnode'', hshape'⟩ := Env.sameShape_of_eqType hw heq hnode'
      exact ⟨node'', hnode'', hshape.trans hshape'⟩
  refine ⟨node, fun k => ?_, fun k => ?_, hall⟩
  · obtain ⟨node', hnode', hf⟩ := hfaces 0 (.inl rfl) k
    obtain ⟨node'', hnode'', hshape⟩ := hall 0 (Nat.zero_le _)
    cases hnode'.unique hnode''
    rw [edge_zero, sideFrom_eq_provider.2 (pool_of_le (Nat.zero_le _)).symm] at hf
    exact hf.congr hshape.symm
  · obtain ⟨node', hnode', hf⟩ := hfaces (l.relays + 1) (.inr rfl) k
    cases hnode'.unique hnode
    rw [pool_last, edge_last] at hf
    exact hf

/-- The last station is a client: as a provider it would do what the first one does. -/
theorem client (o : l.Offering s) (h : l.Ready s) (hk : s.Keyed) : (l.endpoint l.relays).pool ≠ l.far := by
  intro hpool
  obtain ⟨node, hfirst, hlast, -⟩ := o.exists_faces h hk
  rw [sideFrom_eq_provider.2 hpool] at hlast
  have hsame := (hfirst default).service?_eq (hlast default)
  rw [service?_of_offers (o.offers 0 (.inl rfl) default),
    service?_of_offers (o.offers _ (.inr rfl) default), term_zero, term_last] at hsame
  exact h.dual hsame

/-- The outer stations offer what goes with the one shape, from either side. -/
theorem exists_shape (h : l.Ready s) (hk : s.Keyed) :
    ∃ node, (∀ k, (o.half 0 k).Faces node .provider) ∧
      (∀ k, (o.half (l.relays + 1) k).Faces node .client) ∧
      ∀ i ≤ l.relays, ∃ node', s.decls.Denotes (l.endpoint i).type node' ∧ node.SameShape node' := by
  have hfaces := o.exists_faces h hk
  rw [sideFrom_eq_client.2 (o.client h hk)] at hfaces
  exact hfaces

/-- What a station changes in its own bindings, with `drawn i` the channel that station `i` draws. -/
def marks (o : l.Offering s) (drawn : ℕ → Id) (i : ℕ) : List Mark :=
  if i = 0 ∨ i = l.relays + 1 then o.own i (drawn i)
  else Drafting.handedOver (o.cfg i) (l.out i) (l.into (i - 1)) (l.endpoint i) (l.endpoint (i - 1))

theorem marks_outer {i : ℕ} (hi : i = 0 ∨ i = l.relays + 1) (drawn : ℕ → Id) :
    o.marks drawn i = o.own i (drawn i) := if_pos hi

theorem marks_relay {i : ℕ} (hi : i < l.relays) (drawn : ℕ → Id) :
    o.marks drawn (i + 1) = Drafting.handedOver (o.cfg (i + 1)) (l.out (i + 1)) (l.into i)
      (l.endpoint (i + 1)) (l.endpoint i) := if_neg (by omega)

theorem mem_marks (hk : s.Keyed) {drawn : ℕ → Id} {i : ℕ} (hi : i ≤ l.relays + 1) {k : Mark}
    (h : k ∈ o.marks drawn i) : k.process = l.process i ∧ k.pool = l.pool i := by
  rw [← o.cfg_process hk hi, ← o.cfg_pool hi]
  unfold marks at h
  split at h
  · next hout => exact Store.mem_own_of_offers (o.offers i hout _) h
  · exact Store.mem_handedOver h

theorem pool_half {i : ℕ} (hi : i = 0 ∨ i = l.relays + 1) (k : Id) :
    (o.half i k).pool = l.pool i := by
  rw [← o.cfg_pool (i := i) (by omega)]
  have ho := o.offers i hi k
  generalize o.half i k = half at ho
  generalize o.own i k = own at ho
  generalize l.term i = term at ho
  cases ho <;> rfl

theorem channel_half {i : ℕ} (hi : i = 0 ∨ i = l.relays + 1) (k : Id) :
    (o.half i k).channel = (l.edge i).channel := (Store.channel_of_offers (o.offers i hi k)).2.1

theorem movedTo_half_ne {i : ℕ} (hi : i = 0 ∨ i = l.relays + 1) (k c : Id) (f : Forward) :
    (o.half i k).movedTo c ≠ .forward f := by
  have hfor := (Store.channel_of_offers (o.offers i hi k)).2.2
  cases hhalf : o.half i k with
  | forward =>
    rw [hhalf] at hfor
    cases hfor
  | _ => nofun

/-- The half of the last station as it waits on its channel. -/
def waiting (o : l.Offering s) (k : Id) : Half :=
  (o.half (l.relays + 1) k).movedTo (l.channel l.relays)

end Offering

/-! ## Along the line -/

/-- The bindings once the stations of `done` have made their own changes. -/
structure Bound {s₀ : Store} (o : l.Offering s₀) (drawn : ℕ → Id) (done : Set ℕ) (v : Live) :
    Prop where
  others : ∀ p ph, (∀ i ≤ l.relays + 1, i ∈ done → p ≠ l.process i) → v p ph = s₀.live p ph
  acted : ∀ i ≤ l.relays + 1, i ∈ done → ∀ ph,
    v (l.process i) ph = s₀.live.after (o.marks drawn i) (l.process i) ph

/-- The store once the stations of `done` have taken their steps, not all of them. -/
structure At {s₀ : Store} (o : l.Offering s₀) (drawn : ℕ → Id) (done : Set ℕ) (s : Store) : Prop where
  keyed : s.Keyed
  decls : s.decls = s₀.decls
  members : s.members = s₀.members
  pools : ∀ {q : Id} {pool : Pool}, s₀.pools.get? q = some pool →
    ∃ pool', s.pools.get? q = some pool'
  stage : Stage l.channel l.relays (o.half 0 (drawn 0)) (o.waiting (drawn (l.relays + 1))) done
    s.halves.get?
  elsewhere : ∀ c, (∀ i ≤ l.relays, c ≠ l.channel i) → s.halves.get? c = s₀.halves.get? c
  channels : ∀ i ≤ l.relays + 1, i ∉ done →
    s.channelsOf (l.process i) = s₀.channelsOf (l.process i)
  bound : Bound o drawn done s.live
  bumped : ∀ i ≤ l.relays + 1, i ∈ done →
    ∃ pool, s.pools.get? (l.pool i) = some pool ∧ 0 < pool.rev.value

namespace Bound

variable {s₀ : Store} {o : l.Offering s₀} {drawn : ℕ → Id} {done : Set ℕ} {j : ℕ} {v : Live}

/-- A station that has not acted is bound as in the beginning. -/
theorem of_new (h : l.Ready s₀) (hb : Bound o drawn done v) (hj : j ≤ l.relays + 1) (hnew : j ∉ done)
    (ph : Sym) : v (l.process j) ph = s₀.live (l.process j) ph := by
  refine hb.others _ ph fun i hi hdone heq => ?_
  obtain rfl := h.processes hj hi heq
  exact hnew hdone

/-- One more station makes its changes. -/
theorem next (h : l.Ready s₀) (hk : s₀.Keyed) (hb : Bound o drawn done v) (hj : j ≤ l.relays + 1)
    (hnew : j ∉ done) : Bound o drawn (insert j done) (v.after (o.marks drawn j)) := by
  refine ⟨fun p ph hp => ?_, fun i hi hin ph => ?_⟩
  · rw [Live.after_of_ne, hb.others p ph fun i hi hdone => hp i hi (.inr hdone)]
    intro k hkm heq
    rw [(o.mem_marks hk hj hkm).1] at heq
    exact hp j hj (.inl rfl) heq.symm
  · by_cases hij : i = j
    · subst hij
      exact Live.after_congr (hb.of_new h hi hnew) ph
    · rw [Live.after_of_ne, hb.acted i hi (hin.resolve_left hij) ph]
      intro k hkm heq
      rw [(o.mem_marks hk hj hkm).1] at heq
      exact hij (h.processes hi hj heq.symm)

end Bound

namespace At

variable {s₀ s' : Store} {o : l.Offering s₀} {drawn : ℕ → Id} {done : Set ℕ} {j : ℕ} {pl : Plan}
  {m : Change} {cfg : Configuration}

/-- Before anybody has acted. -/
theorem start (h : l.Ready s₀) (hk : s₀.Keyed) (o : l.Offering s₀) (drawn : ℕ → Id) :
    At o drawn ∅ s₀ where
  keyed := hk
  decls := rfl
  members := rfl
  pools hq := ⟨_, hq⟩
  stage := stage_empty h.free
  elsewhere _ _ := rfl
  channels _ _ _ := rfl
  bound := ⟨fun _ _ _ => rfl, fun _ _ hd => absurd hd (Set.notMem_empty _)⟩
  bumped _ _ hd := absurd hd (Set.notMem_empty _)

/-- What stations draw that have not acted does not matter. -/
theorem redraw {drawn' : ℕ → Id} (hat : At o drawn done s) (hd : ∀ i ∈ done, drawn' i = drawn i) :
    At o drawn' done s where
  __ := hat
  stage := hat.stage.congr (fun h => by rw [hd 0 h]) fun h => by rw [hd _ h]
  bound := by
    refine ⟨hat.bound.others, fun i hi hin ph => ?_⟩
    rw [hat.bound.acted i hi hin ph, Offering.marks, Offering.marks, hd i hin]

/-- A station that has not acted sees of itself what it saw in the beginning. -/
theorem keeps (h : l.Ready s₀) (hk : s₀.Keyed) (hat : At o drawn done s) (hj : j ≤ l.relays + 1)
    (hnew : j ∉ done) : s₀.Keeps s (l.process j) := by
  refine ⟨hat.decls, hat.members, hat.pools, hat.channels j hj hnew, fun z svc hz => ?_⟩
  have hleft : ∀ {i k c}, i = 0 ∨ i = l.relays + 1 → i ∈ done →
      (o.half i k).movedTo c = .service svc → svc.process ≠ l.process j := by
    intro i k c hi hdone hhalf
    have hprocess : svc.process = l.process i := by
      have ho := o.offers i hi k
      cases hh : o.half i k with
      | service left =>
        rw [hh] at ho hhalf
        obtain ⟨_, -, rfl, -⟩ := service_of_offers ho
        cases hhalf
        exact o.cfg_process hk (by omega)
      | _ =>
        rw [hh] at hhalf
        cases hhalf
    rw [hprocess]
    intro heq
    obtain rfl := h.processes (show i ≤ l.relays + 1 by omega) hj heq
    exact hnew hdone
  by_cases hon : ∃ i ≤ l.relays, z = l.channel i
  · obtain ⟨i, hi, rfl⟩ := hon
    rcases hat.stage.pending_cases hi with hn | ⟨hf, hd⟩ | ⟨hf, hd⟩ | ⟨f, hf⟩
    · cases hn.symm.trans hz
    · exact hleft (.inl rfl) hd (Option.some.inj (hf.symm.trans hz))
    · exact hleft (.inr rfl) hd (Option.some.inj (hf.symm.trans hz))
    · cases hf.symm.trans hz
  · rw [hat.elsewhere z fun i hi heq => hon ⟨i, hi, heq⟩] at hz
    exact (o.reads hk hj).idle.1 (o.admits j hj).idle z svc hz

/-- The pools of all stations that have acted have moved on. -/
theorem bumped_next (hat : At o drawn done s) (hcfg : cfg.pool = l.pool j) (hd : pl.Drafts cfg m)
    (hpools : pl.pools = []) (hc : s.commit m = .ok s') :
    ∀ i ≤ l.relays + 1, i ∈ insert j done →
      ∃ pool, s'.pools.get? (l.pool i) = some pool ∧ 0 < pool.rev.value := by
  rintro i hi (rfl | hdone)
  · rw [← hcfg]
    exact Store.bumped_of_drafts hd (hd.pools.trans hpools) hc
  · obtain ⟨pool, hpool, hpos⟩ := hat.bumped i hi hdone
    obtain ⟨pool', hpool', hle⟩ := Store.ages_of_commit hc hpool
    exact ⟨pool', hpool', Nat.lt_of_lt_of_le hpos hle⟩

/-- A station has acted, and nothing has come home. -/
theorem next (h : l.Ready s₀) (hk : s₀.Keyed) (hat : At o drawn done s) (hj : j ≤ l.relays + 1)
    (hnew : j ∉ done) (hcfg : cfg.pool = l.pool j) (hd : pl.Drafts cfg m)
    (hmarks : pl.marks = o.marks drawn j) (hhomes : pl.homes = []) (hmembers : pl.members = [])
    (hpools : pl.pools = []) (hc : s.commit m = .ok s') (hy : s'.Young)
    (hstage : Stage l.channel l.relays (o.half 0 (drawn 0)) (o.waiting (drawn (l.relays + 1)))
      (insert j done) (runSlots pl.slots s.halves.get?))
    (helse : ∀ c, (∀ i ≤ l.relays, c ≠ l.channel i) →
      runSlots pl.slots s.halves.get? c = s.halves.get? c) :
    At o drawn (insert j done) s' := by
  have hcommits : s.Commits s' pl := by
    refine Store.commits_of_sized hd.toFills hc (Store.sized_of_fills hd.toFills hpools hc hy)
      (by simp [hpools]) fun _ _ _ _ hhome => ?_
    rw [hhomes] at hhome
    obtain ⟨home, hmem, -⟩ := hhome
    cases hmem
  have hlive : s'.live = s.live.after (o.marks drawn j) := by
    rw [hcommits.live, hhomes, hmarks]
    rfl
  have hhalves : s'.halves.get? = runSlots pl.slots s.halves.get? := by
    rw [hcommits.halves, get?_foldl_applySlot]
  refine ⟨hat.keyed.commit hc, hcommits.decls.trans hat.decls, ?_, fun hq => ?_,
    hhalves ▸ hstage, fun c hout => ?_, fun i hi hnot => ?_, hlive ▸ hat.bound.next h hk hj hnew,
    hat.bumped_next hcfg hd hpools hc⟩
  · rw [hcommits.members, hmembers]
    exact hat.members
  · obtain ⟨pool, hpool⟩ := hat.pools hq
    obtain ⟨pool', hpool', -⟩ := hcommits.pools hpool
    exact ⟨pool', hpool'⟩
  · rw [hhalves, helse c hout]
    exact hat.elsewhere c hout
  · rw [← hat.channels i hi fun hdone => hnot (.inr hdone)]
    refine Store.channelsOf_commit hd.toFills hc hhomes ?_
    rw [hmarks]
    intro k hkm heq
    rw [(o.mem_marks hk hj hkm).1] at heq
    exact hnot (.inl (h.processes hi hj heq.symm))

/-- What a station that has not acted sees now. -/
theorem exists_admits (h : l.Ready s₀) (hk : s₀.Keyed) (hat : At o drawn done s)
    (hj : j ≤ l.relays + 1) (hnew : j ∉ done) :
    ∃ cfg, s.Admits (l.spec j) cfg (o.env j) ∧ s.Reads (l.process j) cfg ∧
      cfg.process = (o.cfg j).process ∧ cfg.pool = (o.cfg j).pool ∧
      cfg.channels = (o.cfg j).channels := by
  obtain ⟨cfg, ha, hprocess, hpool, hchannels⟩ :=
    (o.admits j hj).keeps hat.keyed (hat.keeps h hk hj hnew)
  exact ⟨cfg, ha, Store.reads_configuration hat.keyed ha.configuration, hprocess, hpool, hchannels⟩

end At

/-- The plan of a step that leaves the two halves apart. -/
structure Parts {s₀ : Store} (o : l.Offering s₀) (drawn : ℕ → Id) (done : Set ℕ) (j : ℕ)
    (pending : Id → Option Half) (pl : Plan) : Prop where
  gap : ∃ i ≤ l.relays + 1, i ∉ insert j done
  next : pl.next = none
  marks : pl.marks = o.marks drawn j
  homes : pl.homes = []
  stage : Stage l.channel l.relays (o.half 0 (drawn 0)) (o.waiting (drawn (l.relays + 1)))
    (insert j done) (runSlots pl.slots pending)

/-- The plan of a step that brings the two halves together. -/
structure Unites {s₀ : Store} (o : l.Offering s₀) (drawn : ℕ → Id) (done : Set ℕ) (j : ℕ)
    (pending : Id → Option Half) (pl : Plan) (payload : Payload) (svc : Service) (term : Term) :
    Prop where
  all : ∀ i ≤ l.relays + 1, i ∈ insert j done
  next : pl.next = some ⟨svc.pool, svc.process, term⟩
  marks : pl.marks = o.marks drawn j ++ svc.marks payload
  homes : pl.homes = svc.homes payload
  clear : ∀ i ≤ l.relays, runSlots pl.slots pending (l.channel i) = none

/-- The plan of a step that goes through. -/
structure Goes {s₀ : Store} (o : l.Offering s₀) (j : ℕ) (s : Store) (cfg : Configuration)
    (fresh : Fresh) (pl : Plan) : Prop where
  admits : s.Admits (l.spec j) cfg (o.env j)
  moves : Moves (o.env j) cfg fresh (l.term j) pl
  members : pl.members = []
  pools : pl.pools = []
  known : ∀ k ∈ pl.marks, ∃ rev, cfg.revOf? k.pool = some rev
  fit : Store.SlotsFit s.halves pl.slots
  elsewhere : ∀ c, (∀ i ≤ l.relays, c ≠ l.channel i) →
    runSlots pl.slots s.halves.get? c = s.halves.get? c

/-- What is off the line is not passed on it. -/
theorem Trail.off {pending : Id → Option Half} {i e : ℕ} {passed : List Id}
    (ht : Trail pending l.channel i e passed) (he : e ≤ l.relays) {c : Id}
    (hc : ∀ i ≤ l.relays, c ≠ l.channel i) : c ∉ passed ∧ c ≠ l.channel e := by
  refine ⟨fun hmem => ?_, hc e he⟩
  obtain ⟨m, -, hm, heq⟩ := ht.between c hmem
  exact hc m (by omega) heq

theorem known_of_marks {s₀ : Store} {o : l.Offering s₀} {drawn : ℕ → Id} {j : ℕ}
    {cfg : Configuration} (hk : s₀.Keyed) (hj : j ≤ l.relays + 1) (hcfg : cfg.pool = l.pool j)
    {k : Mark} (hkm : k ∈ o.marks drawn j) : ∃ rev, cfg.revOf? k.pool = some rev := by
  rw [(o.mem_marks hk hj hkm).2, ← hcfg]
  exact Store.revOf?_own cfg

theorem known_of_meets {s₀ : Store} {o : l.Offering s₀} {a b : Id} {cfg : Configuration}
    {m : Message} {svc : Service} (hmeets : (o.half 0 a).Meets (o.half (l.relays + 1) b) m svc)
    (hnear : ∃ rev, cfg.revOf? (l.pool 0) = some rev)
    (hfar : ∃ rev, cfg.revOf? (l.pool (l.relays + 1)) = some rev) {k : Mark}
    (hkm : k ∈ svc.marks m.payload) : ∃ rev, cfg.revOf? k.pool = some rev := by
  rw [(Net.mem_serviceMarks hkm).2]
  rw [← o.pool_half (.inl rfl) a] at hnear
  rw [← o.pool_half (.inr rfl) b] at hfar
  rcases hmeets.halves with ⟨-, hs⟩ | ⟨hs, -⟩
  · rw [hs] at hfar
    exact hfar
  · rw [hs] at hnear
    exact hnear

namespace At

variable {s₀ s' : Store} {o : l.Offering s₀} {drawn : ℕ → Id} {done : Set ℕ} {j : ℕ} {fresh : Fresh}
  {m : Message} {svc : Service} {term : Term} {cfg : Configuration}

/-- The pool of an outer station is known to whom its half is in reach of. -/
theorem known_of_pending (hk : s₀.Keyed) (hat : At o drawn done s) {p : Id} (hr : s.Reads p cfg)
    {ph : Sym} {e : Endpoint} (he : s.live p ph = some e) {x : Id}
    (hx : Along s.halves.get? e.channel x) {i : ℕ} (hi : i = 0 ∨ i = l.relays + 1) {k c : Id}
    (hhalf : s.halves.get? x = some ((o.half i k).movedTo c)) :
    ∃ rev, cfg.revOf? (l.pool i) = some rev := by
  obtain ⟨-, pool, hpool⟩ := o.exists_pool hk (i := i) (by omega)
  obtain ⟨pool', hpool'⟩ := hat.pools hpool
  rw [← o.pool_half hi k, ← Half.pool_movedTo c] at hpool' ⊢
  exact ⟨_, hr.known he hx hhalf hpool'⟩

/-- The half of the first station comes to station `j`, off the channels `before`, and goes past the
stations that have acted behind it. It waits for one that has not, or meets the other half. -/
theorem exists_joins (h : l.Ready s₀) (hat : At o drawn done s) (hj : j ≤ l.relays) (hnew : j ∉ done)
    (hall : ∀ m < j, m ∈ done) {e : ℕ} (hrun : Run done l.relays j e) {passed : List Id}
    (ht : Trail s.halves.get? l.channel j e passed) (before : List Id)
    (hbefore : ∀ x ∈ before, ∃ m < j, x = l.channel m)
    (hclear : ∀ m < j, l.channel m ∉ before → s.halves.get? (l.channel m) = none)
    (hmeets : (o.half 0 (drawn 0)).Meets (o.half (l.relays + 1) (drawn (l.relays + 1))) m svc)
    (hreply : svc.reply m.payload = some term) (c : Id) :
    ∃ jd, Joins (l.channel e) ((o.half 0 (drawn 0)).movedTo c) (s.halves.get? (l.channel e)) jd ∧
      (∀ k ∈ jd.marks, k ∈ svc.marks m.payload ∧
        s.halves.get? (l.channel e) = some (o.waiting (drawn (l.relays + 1)))) ∧
      ∀ slots, slots = (passed ++ before).map SlotOp.take ++ jd.slots →
        (∀ x, (∀ i ≤ l.relays, x ≠ l.channel i) →
          runSlots slots s.halves.get? x = s.halves.get? x) ∧
        (Parts o drawn done j s.halves.get?
            ⟨jd.next, o.marks drawn j ++ jd.marks, slots, jd.homes, [], []⟩ ∨
          Unites o drawn done j s.halves.get?
            ⟨jd.next, o.marks drawn j ++ jd.marks, slots, jd.homes, [], []⟩ m.payload svc term) := by
  have hen := hrun.bound
  have hje := hrun.le
  -- what is off the line is not touched, and of what lies from `j` on only the trail is
  have hoff : ∀ {x}, (∀ i ≤ l.relays, x ≠ l.channel i) → x ≠ l.channel e ∧ x ∉ passed ++ before := by
    intro x hx
    refine ⟨hx e hen, fun hmem => ?_⟩
    rcases List.mem_append.1 hmem with hmem | hmem
    · exact (ht.off hen hx).1 hmem
    · obtain ⟨m, hm, heq⟩ := hbefore x hmem
      exact hx m (by omega) heq
  have hahead : ∀ {i}, j ≤ i → i ≤ l.relays → l.channel i ∉ passed → l.channel i ∉ passed ++ before := by
    intro i hi hin hp hmem
    rcases List.mem_append.1 hmem with hmem | hmem
    · exact hp hmem
    · obtain ⟨m, hm, heq⟩ := hbefore _ hmem
      have := h.channels (show i ≤ l.relays from hin) (show m ≤ l.relays by omega) heq
      omega
  have hne : ∀ {i}, i ≤ l.relays → i ≠ e → l.channel i ≠ l.channel e :=
    fun hi hie heq => hie (h.channels hi hen heq)
  -- behind it nothing is left
  have hbehind : ∀ {i}, i < j → ∀ v, (if l.channel i = l.channel e then v else
      if l.channel i ∈ passed ++ before then none else s.halves.get? (l.channel i)) = none := by
    intro i hi v
    rw [if_neg (hne (by omega) (by omega))]
    split
    · rfl
    · next hnot => exact hclear i hi fun hmem => hnot (List.mem_append_right _ hmem)
  have htrail : ∀ {x}, x ∈ passed → ∀ v, (if x = l.channel e then v else
      if x ∈ passed ++ before then none else s.halves.get? x) = none := by
    intro x hx v
    obtain ⟨i, -, hi, rfl⟩ := ht.between x hx
    rw [if_neg (hne (by omega) (by omega)), if_pos (List.mem_append_left _ hx)]
  rcases hat.stage.pending_of_run hnew hrun with ⟨hnone, hnot⟩ | ⟨hsome, rfl, hdone⟩
  · refine ⟨⟨none, [], [.put ((o.half 0 (drawn 0)).movedTo (l.channel e))], []⟩, ?_, nofun,
      fun slots hslots => ?_⟩
    · rw [hnone, ← Half.movedTo_movedTo c (l.channel e)]
      exact .wait
    have hrun' : ∀ x, runSlots slots s.halves.get? x = _ := fun x => by
      rw [hslots, runSlots_put, Half.channel_movedTo]
    refine ⟨fun x hx => ?_, .inl ⟨?_, rfl, List.append_nil _, rfl, ?_⟩⟩
    · rw [hrun', if_neg (hoff hx).1, if_neg (hoff hx).2]
    · refine ⟨e + 1, by omega, ?_⟩
      rintro (heq | hd)
      · omega
      · rcases Nat.eq_or_lt_of_le hen with rfl | hlt
        · exact hnot ⟨rfl, hd⟩
        · exact hrun.last hlt hd
    · refine hat.stage.arrive h.channels hj hnew hall hrun ht hnone ?_ (fun i hi => ?_)
        (fun x hx => ?_) fun i hi hin hp hie => ?_
      · rw [hrun', if_pos rfl]
      · rw [hrun']
        exact hbehind hi _
      · rw [hrun']
        exact htrail hx _
      · rw [hrun', if_neg (hne hin hie), if_neg (hahead hi hin hp)]
  · refine ⟨svc.served (l.channel l.relays) m.payload term, ?_, fun k hk => ⟨hk, hsome⟩,
      fun slots hslots => ?_⟩
    · rw [hsome]
      exact (hmeets.joins_moved hreply (l.channel l.relays) c (l.channel l.relays)).1
    have hrun' : ∀ x, runSlots slots s.halves.get? x = _ := fun x => by
      rw [hslots, Service.served, runSlots_take]
    refine ⟨fun x hx => ?_, .inr ⟨fun i hi => ?_, rfl, rfl, rfl, ?_⟩⟩
    · rw [hrun', if_neg (hoff hx).1, if_neg (hoff hx).2]
    · rcases Nat.lt_trichotomy i j with hlt | heq | hgt
      · exact .inr (hall i hlt)
      · exact .inl heq
      · rcases Nat.eq_or_lt_of_le hi with rfl | hlt
        · exact .inr hdone
        · exact .inr (hrun.acted i hgt (by omega))
    · refine Trail.clear (fun i hi => ?_) ht (fun x hx => ?_) ?_ fun i hi hin hp => ?_
      · rw [hrun']
        exact hbehind hi _
      · rw [hrun']
        exact htrail hx _
      · rw [hrun', if_pos rfl]
      · rw [hrun', if_neg (hne (by omega) (by omega)), if_neg (hahead hi (by omega) hp)]

/-- The pools of both outer stations are known to whom the two halves come together. -/
theorem known_of_joins (hk : s₀.Keyed) (hj : j ≤ l.relays + 1) (hcfg : cfg.pool = l.pool j)
    (hmeets : (o.half 0 (drawn 0)).Meets (o.half (l.relays + 1) (drawn (l.relays + 1))) m svc)
    {marks : List Mark}
    (hmarks : ∀ k ∈ marks, k ∈ svc.marks m.payload ∧
      (∃ rev, cfg.revOf? (l.pool 0) = some rev) ∧
      ∃ rev, cfg.revOf? (l.pool (l.relays + 1)) = some rev) :
    ∀ k ∈ o.marks drawn j ++ marks, ∃ rev, cfg.revOf? k.pool = some rev := by
  intro k hkm
  rcases List.mem_append.1 hkm with hkm | hkm
  · exact known_of_marks hk hj hcfg hkm
  · obtain ⟨hmem, hnear, hfar⟩ := hmarks k hkm
    exact known_of_meets hmeets hnear hfar hmem

/-- The first station acts. -/
theorem exists_plan_first (h : l.Ready s₀) (hk : s₀.Keyed) (hat : At o drawn done s)
    (hnew : 0 ∉ done) (hdrawn : fresh.channel = drawn 0)
    (hmeets : (o.half 0 (drawn 0)).Meets (o.half (l.relays + 1) (drawn (l.relays + 1))) m svc)
    (hreply : svc.reply m.payload = some term) :
    ∃ cfg pl, Goes o 0 s cfg fresh pl ∧ (Parts o drawn done 0 s.halves.get? pl ∨
      Unites o drawn done 0 s.halves.get? pl m.payload svc term) := by
  obtain ⟨cfg, ha, hr, hprocess, hpool, hchannels⟩ := hat.exists_admits h hk (Nat.zero_le _) hnew
  have ho := (o.offers 0 (.inl rfl) (drawn 0)).congr hprocess hpool hchannels hdrawn
  rw [← o.marks_outer (.inl rfl) drawn] at ho
  have hlive : s.live (l.process 0) (l.term 0).via = some (l.endpoint 0) :=
    (hat.bound.of_new h (Nat.zero_le _) hnew _).trans (h.edge (.inl rfl)).2
  have hcfg : cfg.pool = l.pool 0 := hpool.trans (o.cfg_pool (Nat.zero_le _))
  obtain ⟨e, hrun⟩ := exists_run done (Nat.zero_le l.relays)
  obtain ⟨passed, ht⟩ := hat.stage.trail 0 e hnew hrun
  have hland : cfg.landing? (l.edge 0).channel =
      some ⟨passed, l.channel e, s.halves.get? (l.channel e)⟩ :=
    (hr.landing?_eq_some_iff hlive).2 ⟨ht.leads, rfl⟩
  obtain ⟨jd, hjd, hmarks, hpl⟩ := hat.exists_joins h (Nat.zero_le _) hnew nofun hrun ht [] nofun
    nofun hmeets hreply (o.half 0 (drawn 0)).channel
  rw [Half.movedTo_channel] at hjd
  obtain ⟨helse, hends⟩ := hpl _ (by rw [List.append_nil])
  refine ⟨cfg, _, ⟨ha, .offer ho hland hjd, rfl, rfl, ?_, Store.slotsFit_offer ht.leads hjd, helse⟩,
    hends⟩
  refine known_of_joins hk (Nat.zero_le _) hcfg hmeets fun k hkm => ?_
  obtain ⟨hmem, hsome⟩ := hmarks k hkm
  exact ⟨hmem, hcfg ▸ Store.revOf?_own cfg,
    hat.known_of_pending hk hr hlive ht.leads.along (.inr rfl) hsome⟩

/-- The last station acts. -/
theorem exists_plan_last (h : l.Ready s₀) (hk : s₀.Keyed) (hat : At o drawn done s)
    (hnew : l.relays + 1 ∉ done) (hdrawn : fresh.channel = drawn (l.relays + 1))
    (hmeets : (o.half 0 (drawn 0)).Meets (o.half (l.relays + 1) (drawn (l.relays + 1))) m svc)
    (hreply : svc.reply m.payload = some term) :
    ∃ cfg pl, Goes o (l.relays + 1) s cfg fresh pl ∧
      (Parts o drawn done (l.relays + 1) s.halves.get? pl ∨
        Unites o drawn done (l.relays + 1) s.halves.get? pl m.payload svc term) := by
  obtain ⟨cfg, ha, hr, hprocess, hpool, hchannels⟩ := hat.exists_admits h hk le_rfl hnew
  have ho := (o.offers _ (.inr rfl) (drawn (l.relays + 1))).congr hprocess hpool hchannels hdrawn
  rw [← o.marks_outer (.inr rfl) drawn] at ho
  have hlive : s.live (l.process (l.relays + 1)) (l.term (l.relays + 1)).via =
      some (l.endpoint l.relays) :=
    (hat.bound.of_new h le_rfl hnew _).trans (h.edge (.inr rfl)).2
  have hcfg : cfg.pool = l.pool (l.relays + 1) := hpool.trans (o.cfg_pool le_rfl)
  have hself : o.waiting (drawn (l.relays + 1)) = o.half (l.relays + 1) (drawn (l.relays + 1)) := by
    have hchannel := o.channel_half (.inr rfl) (drawn (l.relays + 1))
    rw [edge_last] at hchannel
    rw [Offering.waiting, channel, ← hchannel, Half.movedTo_channel]
  have hleads : ∀ {pending}, s.halves.get? (l.channel l.relays) = pending →
      (∀ f, pending ≠ some (.forward f)) →
      Leads s.halves.get? (l.channel l.relays) [] (l.channel l.relays) := by
    rintro pending rfl hfor
    exact .stay hfor
  have hland : Leads s.halves.get? (l.channel l.relays) [] (l.channel l.relays) →
      cfg.landing? (l.edge (l.relays + 1)).channel =
        some ⟨[], l.channel l.relays, s.halves.get? (l.channel l.relays)⟩ :=
    fun hl => (hr.landing?_eq_some_iff hlive).2 ⟨hl, rfl⟩
  have hne : ∀ {i}, i < l.relays → l.channel i ≠ l.channel l.relays := by
    intro i hi heq
    have := h.channels (show i ≤ l.relays by omega) (show l.relays ≤ l.relays from le_rfl) heq
    omega
  by_cases hgap : ∃ i ≤ l.relays, i ∉ done
  · have hnone := hat.stage.fallow l.relays le_rfl hnew hgap
    have hl := hleads hnone nofun
    have hjd : Joins (l.channel l.relays) (o.half (l.relays + 1) (drawn (l.relays + 1)))
        (s.halves.get? (l.channel l.relays))
        ⟨none, [], [.put (o.waiting (drawn (l.relays + 1)))], []⟩ := by
      rw [hnone]
      exact .wait
    have hslots : ∀ x, runSlots [.put (o.waiting (drawn (l.relays + 1)))] s.halves.get? x =
        if x = l.channel l.relays then some (o.waiting (drawn (l.relays + 1)))
        else s.halves.get? x := by
      intro x
      rw [← Half.channel_movedTo (l.channel l.relays) (o.half (l.relays + 1) (drawn (l.relays + 1)))]
      exact Function.update_apply ..
    refine ⟨cfg, _, ⟨ha, .offer ho (hland hl) hjd, rfl, rfl, fun k hkm => ?_,
      Store.slotsFit_offer hl hjd, fun x hx => ?_⟩, .inl ⟨?_, rfl, List.append_nil _, rfl, ?_⟩⟩
    · rw [List.append_nil] at hkm
      exact known_of_marks hk le_rfl hcfg hkm
    · exact (hslots x).trans (if_neg (hx l.relays le_rfl))
    · obtain ⟨i, hi, hnot⟩ := hgap
      exact ⟨i, by omega, fun hmem => hnot (hmem.resolve_left (by omega))⟩
    · refine hat.stage.wait hnew hgap (o.movedTo_half_ne (.inr rfl) _ _) ?_ fun i hi => ?_
      · exact (hslots _).trans (if_pos rfl)
      · exact (hslots _).trans (if_neg (hne hi))
  · have hall : ∀ i ≤ l.relays, i ∈ done := fun i hi => by_contra fun hnot => hgap ⟨i, hi, hnot⟩
    have hsome := hat.stage.front l.relays le_rfl hall hnew
    have hl := hleads hsome fun f hf => o.movedTo_half_ne (.inl rfl) _ _ f (Option.some.inj hf)
    have hjd : Joins (l.channel l.relays) (o.half (l.relays + 1) (drawn (l.relays + 1)))
        (s.halves.get? (l.channel l.relays)) (svc.served (l.channel l.relays) m.payload term) := by
      rw [hsome, ← hself]
      exact (hmeets.joins_moved hreply (l.channel l.relays) _ _).2
    have hslots : ∀ x, runSlots [.take (l.channel l.relays)] s.halves.get? x =
        if x = l.channel l.relays then none else s.halves.get? x := fun x => Function.update_apply ..
    refine ⟨cfg, _, ⟨ha, .offer ho (hland hl) hjd, rfl, rfl, ?_, Store.slotsFit_offer hl hjd,
      fun x hx => ?_⟩, .inr ⟨fun i hi => ?_, rfl, rfl, rfl, fun i hi => ?_⟩⟩
    · refine known_of_joins hk le_rfl hcfg hmeets fun k hkm => ?_
      exact ⟨hkm, hat.known_of_pending hk hr hlive .here (.inl rfl) hsome,
        hcfg ▸ Store.revOf?_own cfg⟩
    · exact (hslots x).trans (if_neg (hx l.relays le_rfl))
    · rcases Nat.eq_or_lt_of_le hi with rfl | hlt
      · exact .inl rfl
      · exact .inr (hall i (by omega))
    · refine (hslots _).trans ?_
      rcases Nat.eq_or_lt_of_le hi with rfl | hlt
      · exact if_pos rfl
      · rw [if_neg (hne hlt)]
        exact hat.stage.spent i hi fun k hk => hall k (by omega)

/-- A relay acts. It leaves a forward where nothing has come yet, and moves on what has. -/
theorem exists_plan_relay (h : l.Ready s₀) (hk : s₀.Keyed) (hat : At o drawn done s) {i : ℕ}
    (hi : i < l.relays) (hnew : i + 1 ∉ done)
    (hmeets : (o.half 0 (drawn 0)).Meets (o.half (l.relays + 1) (drawn (l.relays + 1))) m svc)
    (hreply : svc.reply m.payload = some term) :
    ∃ cfg pl, Goes o (i + 1) s cfg fresh pl ∧ (Parts o drawn done (i + 1) s.halves.get? pl ∨
      Unites o drawn done (i + 1) s.halves.get? pl m.payload svc term) := by
  have hj : i + 1 ≤ l.relays + 1 := by omega
  obtain ⟨cfg, ha, hr, hprocess, hpool, hchannels⟩ := hat.exists_admits h hk hj hnew
  have hcfg : cfg.pool = l.pool (i + 1) := hpool.trans (o.cfg_pool hj)
  have hxlive : s.live (l.process (i + 1)) (l.out (i + 1)) = some (l.endpoint (i + 1)) :=
    (hat.bound.of_new h hj hnew _).trans (h.provided (i + 1) (by omega))
  have hylive : s.live (l.process (i + 1)) (l.into i) = some (l.endpoint i) :=
    (hat.bound.of_new h hj hnew _).trans (h.held i (by omega))
  have hx := (hr.channels _).trans hxlive
  have hy := (hr.channels _).trans hylive
  have hmarks : Drafting.handedOver cfg (l.out (i + 1)) (l.into i) (l.endpoint (i + 1))
      (l.endpoint i) = o.marks drawn (i + 1) := by
    rw [o.marks_relay hi, Drafting.handedOver, Drafting.handedOver, Configuration.mark,
      Configuration.mark, Configuration.mark, Configuration.mark, hprocess, hpool]
  obtain ⟨e, hrun⟩ := exists_run done (show i + 1 ≤ l.relays from hi)
  have hen := hrun.bound
  have hie := hrun.le
  obtain ⟨passed, ht⟩ := hat.stage.trail (i + 1) e hnew hrun
  have hland : cfg.landing? (l.endpoint (i + 1)).channel =
      some ⟨passed, l.channel e, s.halves.get? (l.channel e)⟩ :=
    (hr.landing?_eq_some_iff hxlive).2 ⟨ht.leads, rfl⟩
  have hpassed : l.channel i ∉ passed := ht.notMem h.channels hen (by omega) (.inl (by omega))
  by_cases hgap : ∃ m ≤ i, m ∉ done
  · have hnone := hat.stage.fallow i (by omega) hnew hgap
    have hslots := runSlots_put passed s.halves.get?
      (.forward ⟨(l.endpoint i).channel, cfg.pool, cfg.process, l.channel e⟩)
    have hmove : Moves (o.env (i + 1)) cfg fresh (.fwd (l.out (i + 1)) (l.into i)) _ :=
      .relay hx hy hland ((hr.get?_halves hylive).trans hnone)
    rw [← term_relay hi] at hmove
    refine ⟨cfg, _, ⟨ha, hmove, rfl, rfl, fun k hkm => ?_, Store.slotsFit_relay ht.leads hnone rfl,
      fun x hx => ?_⟩, .inl ⟨?_, rfl, hmarks, rfl, ?_⟩⟩
    · rw [hmarks] at hkm
      exact known_of_marks hk hj hcfg hkm
    · exact (hslots x).trans ((if_neg (hx i (by omega))).trans (if_neg (ht.off hen hx).1))
    · obtain ⟨m, hm, hnot⟩ := hgap
      exact ⟨m, by omega, fun hmem => hnot (hmem.resolve_left (by omega))⟩
    · refine hat.stage.hop h.channels hi hnew hgap hrun ht rfl ((hslots _).trans (if_pos rfl))
        (fun x hx => ?_) fun x hx hne => ?_
      · refine (hslots x).trans ((if_neg ?_).trans (if_pos hx))
        rintro rfl
        exact hpassed hx
      · exact (hslots x).trans ((if_neg hne).trans (if_neg hx))
  · have hall : ∀ m < i + 1, m ∈ done :=
      fun m hm => by_contra fun hnot => hgap ⟨m, Nat.le_of_lt_succ hm, hnot⟩
    have hleft := hat.stage.front i (by omega) (fun m hm => hall m (by omega)) hnew
    have hspent : ∀ m < i + 1, l.channel m ∉ [l.channel i] → s.halves.get? (l.channel m) = none := by
      intro m hm hne
      have hmi : m ≠ i := by
        rintro rfl
        exact hne (List.mem_singleton_self _)
      exact hat.stage.spent m (by omega) fun k hk => hall k (by omega)
    obtain ⟨jd, hjd, hjoined, hpl⟩ := hat.exists_joins h hi hnew hall hrun ht _
      (fun x hx => ⟨i, by omega, List.mem_singleton.1 hx⟩) hspent hmeets hreply (l.channel i)
    obtain ⟨helse, hends⟩ := hpl _ rfl
    -- what comes has the direction of the channel's type, which is that of all types on the line
    obtain ⟨-, ⟨id, node⟩, -, hres, -⟩ := o.relay_types h hk hi
    have hown : Drafting.ownDirection node.polarity ((o.half 0 (drawn 0)).movedTo (l.channel i)) =
        true := by
      obtain ⟨shape, hfirst, -, hshapes⟩ := o.exists_shape h hk
      obtain ⟨node', hnode', hshape⟩ := hshapes i (by omega)
      cases hnode'.unique (Env.denotes_of_resolve (Registry.within_load (o.admits _ hj).load) hres)
      rw [Half.ownDirection_movedTo]
      exact ((hfirst (drawn 0)).congr hshape).ownDirection
    have hmove : Moves (o.env (i + 1)) cfg fresh (.fwd (l.out (i + 1)) (l.into i)) _ :=
      .redirect hx hy hland ((hr.get?_halves hylive).trans hleft) hres hown hjd
    have hne : l.channel e ≠ l.channel i := by
      intro heq
      have := h.channels (show e ≤ l.relays from hen) (show i ≤ l.relays by omega) heq
      omega
    have hfit := Store.slotsFit_redirect ht.leads hleft hpassed hne hjd
    rw [← term_relay hi, hmarks] at hmove
    rw [List.map_append, List.append_assoc] at helse hends
    refine ⟨cfg, _, ⟨ha, hmove, rfl, rfl, ?_, hfit, helse⟩, hends⟩
    refine known_of_joins hk hj hcfg hmeets fun k hkm => ?_
    obtain ⟨hmem, hsome⟩ := hjoined k hkm
    exact ⟨hmem, hat.known_of_pending hk hr hylive .here (.inl rfl) hleft,
      hat.known_of_pending hk hr hxlive ht.leads.along (.inr rfl) hsome⟩

/-- Every station that has not acted can act. -/
theorem exists_plan (h : l.Ready s₀) (hk : s₀.Keyed) (hat : At o drawn done s)
    (hj : j ≤ l.relays + 1) (hnew : j ∉ done) (hdrawn : fresh.channel = drawn j)
    (hmeets : (o.half 0 (drawn 0)).Meets (o.half (l.relays + 1) (drawn (l.relays + 1))) m svc)
    (hreply : svc.reply m.payload = some term) :
    ∃ cfg pl, Goes o j s cfg fresh pl ∧ (Parts o drawn done j s.halves.get? pl ∨
      Unites o drawn done j s.halves.get? pl m.payload svc term) := by
  rcases Nat.eq_zero_or_pos j with rfl | hpos
  · exact hat.exists_plan_first h hk hnew hdrawn hmeets hreply
  obtain ⟨i, rfl⟩ : ∃ i, j = i + 1 := ⟨j - 1, by omega⟩
  rcases Nat.eq_or_lt_of_le (Nat.le_of_succ_le_succ hj) with rfl | hlt
  · exact hat.exists_plan_last h hk hnew hdrawn hmeets hreply
  · exact hat.exists_plan_relay h hk hlt hnew hmeets hreply

end At

end Line

end Rendezvous
