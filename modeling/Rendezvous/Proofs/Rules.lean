import Mathlib.Tactic.Choose
import Rendezvous.Proofs.Tables
import Rendezvous.Typing

/-!
# The rules of the checker

`Checks` are the typing rules, one for each kind of term: `Checks env Γ term Δ` says that the term
is accepted in context `Γ` and that `Δ` remains of it. The rules are put together from what they
share:

- `Enters`: the channel that a term acts on, with its side and what its type stands for;
- `Advances`: a channel that goes on with another type;
- `Sends` and `Selects`: the connective by which one side sends a channel or picks a label. The
  other side receives and branches by the same connective;
- `Endows`: what an instance of a signature is given.

The main statement is `checkAs_eq_ok_iff`: the checker accepts what the rules accept, with the same
context remaining. What an accepted term is like is read off the rules from then on.
-/

namespace Rendezvous

/-! ## Computations with a state -/

section

variable {ε σ α β : Type} {s s' : σ}

theorem estate_bind_eq_ok {x : EStateM ε σ α} {f : α → EStateM ε σ β} {b : β} :
    (x >>= f) s = .ok b s' ↔ ∃ a t, x s = .ok a t ∧ f a t = .ok b s' := by
  show (match x s with
    | .ok a t => f a t
    | .error e t => .error e t) = .ok b s' ↔ _
  cases x s with
  | error e t => exact ⟨fun h => (nomatch h), fun ⟨_, _, h, _⟩ => (nomatch h)⟩
  | ok a t =>
    constructor
    · intro h
      exact ⟨a, t, rfl, h⟩
    · rintro ⟨_, _, h, hf⟩
      cases h
      exact hf

theorem estate_pure_eq_ok {a b : α} :
    (pure a : EStateM ε σ α) s = .ok b s' ↔ b = a ∧ s' = s :=
  ⟨fun h => by cases h; exact ⟨rfl, rfl⟩, fun ⟨h, h'⟩ => by rw [h, h']; rfl⟩

theorem estate_get_eq_ok {t : σ} : (get : EStateM ε σ σ) s = .ok t s' ↔ t = s ∧ s' = s :=
  ⟨fun h => by cases h; exact ⟨rfl, rfl⟩, fun ⟨h, h'⟩ => by rw [h, h']; rfl⟩

end

theorem Checking.ofExcept_eq_ok {α : Type} {x : Except Error α} {a : α} {ctx ctx' : Context} :
    Checking.ofExcept x ctx = .ok a ctx' ↔ x = .ok a ∧ ctx' = ctx := by
  cases x with
  | error e => exact ⟨fun h => (nomatch h), fun h => (nomatch h.1)⟩
  | ok b =>
    refine estate_pure_eq_ok.trans ⟨fun h => ⟨by rw [h.1], h.2⟩, fun h => ⟨?_, h.2⟩⟩
    cases h.1
    rfl

/-- The other side of a channel. -/
def Side.dual : Side → Side
  | .provider => .client
  | .client => .provider

namespace Context

variable {env : Env} {Γ Δ : Context} {u : Unit}

/-! ## Instances

The channel of an instance is not entered: it is new. What follows is checked with it. -/

theorem checkAs_call {via : Sym} {sig : Id} {values : List Sym} {cont : Term} :
    checkAs env (.call via sig values cont) none =
      instantiate env via sig values >>= fun _ => checkAs env cont none := by
  rw [checkAs]

theorem checkAs_spawn {via : Sym} {sig : Id} {values : List Sym} {pool : Id} {cont : Term} :
    checkAs env (.spawn via sig values pool cont) none =
      instantiate env via sig values >>= fun _ => checkAs env cont none := by
  rw [checkAs]

/-! ## Parts of the rules -/

/-- What a placeholder is bound to on one side. -/
def bound? (ctx : Context) : Side → Sym → Option Id
  | .provider, ph => ctx.liabilities.get? ph
  | .client, ph => ctx.assets.get? ph

/-- The context without a placeholder on one side. -/
def without (ctx : Context) : Side → Sym → Context
  | .provider, ph => { ctx with liabilities := ctx.liabilities.erase ph }
  | .client, ph => { ctx with assets := ctx.assets.erase ph }

/-- The context with a placeholder bound on one side. -/
def adding (Γ : Context) : Side → Sym → Id → Context
  | .provider, ph, type => { Γ with liabilities := Γ.liabilities.insert ph type }
  | .client, ph, type => { Γ with assets := Γ.assets.insert ph type }

/-- A term acts on the channel of `via`, which is on this side of the context. -/
structure Enters (env : Env) (Γ : Context) (via : Sym) (side : Side) (type : Id) (node : TypeNode) :
    Prop where
  side_eq : Γ.sideOf? via = some side
  type_eq : Γ.bound? side via = some type
  node_eq : ∃ id, env.resolve type = .ok (id, node)

/-- A channel goes on with type `next`. -/
inductive Advances (env : Env) (Γ : Context) (via : Sym) (side : Side) (node : TypeNode) (next : Id) :
    Context → Prop
  | mk {type : Id} (he : Γ.Enters env via side type node)
    (hfree : (Γ.without side via).sideOf? via = none) :
    Advances env Γ via side node next ((Γ.without side via).adding side via next)

/-- The connective by which a side sends a channel of type `value` and goes on with `next`. -/
inductive Sends : Side → TypeNode → Id → Id → Prop
  | tensor {value next : Id} : Sends .provider (.tensor value next) value next
  | lolli {value next : Id} : Sends .client (.lolli value next) value next

/-- The connective by which a side picks a label. -/
inductive Selects : Side → TypeNode → Table Sym Id → Prop
  | plus {choices : Table Sym Id} : Selects .provider (.plus choices) choices
  | with {choices : Table Sym Id} : Selects .client (.with choices) choices

/-- One held channel is given away for each parameter, of an equal type. -/
inductive Gives (env : Env) : Context → List (Sym × Parameter) → Context → Prop
  | nil {Γ : Context} : Gives env Γ [] Γ
  | cons {Γ Δ : Context} {value : Sym} {parameter : Parameter} {rest : List (Sym × Parameter)}
    {want got : Id} (hwant : env.rootOf parameter.type = .ok want)
    (hgot : Γ.assets.get? value = some got) (heq : env.eqType want got = .ok true)
    (hrest : Gives env (Γ.without .client value) rest Δ) :
    Gives env Γ ((value, parameter) :: rest) Δ

/-- An instance of a signature is given what it needs, and its channel is held. -/
inductive Endows (env : Env) (Γ : Context) (via : Sym) (sigId : Id) (values : List Sym) :
    Context → Prop
  | mk {sig : Signature} {type : Id} {Γ' : Context} (hsig : env.sig sigId = .ok sig)
    (harity : values.length = sig.receptions.length)
    (hgives : Γ.Gives env (values.zip sig.receptions) Γ')
    (htype : env.rootOf sig.provision.type = .ok type) (hfree : Γ'.sideOf? via = none) :
    Endows env Γ via sigId values (Γ'.adding .client via type)

end Context

open Context (Enters Advances Sends Selects Gives Endows)

/-! ## The rules -/

/-- The term is accepted in the first context, and the second remains. -/
inductive Checks (env : Env) : Context → Term → Context → Prop
  | close {Γ : Context} {via : Sym} {type : Id} (he : Γ.Enters env via .provider type .one)
    (hdone : (Γ.without .provider via).isEmpty = true) :
    Checks env Γ (.close via) (Γ.without .provider via)
  | wait {Γ Δ : Context} {via : Sym} {cont : Term} {type : Id}
    (he : Γ.Enters env via .client type .one) (hc : Checks env (Γ.without .client via) cont Δ) :
    Checks env Γ (.wait via cont) Δ
  | send {Γ : Context} {via value : Sym} {σ : Side} {node : TypeNode} {type want got next : Id}
    (he : Γ.Enters env via σ type node) (hs : Sends σ node want next)
    (hgot : (Γ.without σ via).assets.get? value = some got) (heq : env.eqType want got = .ok true)
    (hfree : ((Γ.without σ via).without .client value).sideOf? via = none) :
    Checks env Γ (.send via value) (((Γ.without σ via).without .client value).adding σ via next)
  | recv {Γ Γ' Δ : Context} {via value : Sym} {cont : Term} {σ : Side} {node : TypeNode}
    {got next : Id} (hs : Sends σ.dual node got next) (ha : Γ.Advances env via σ node next Γ')
    (hfree : Γ'.sideOf? value = none) (hc : Checks env (Γ'.adding .client value got) cont Δ) :
    Checks env Γ (.recv via value cont) Δ
  | lab {Γ Δ : Context} {via label : Sym} {σ : Side} {node : TypeNode} {choices : Table Sym Id}
    {next : Id} (hs : Selects σ node choices) (hlabel : choices.get? label = some next)
    (ha : Γ.Advances env via σ node next Δ) : Checks env Γ (.lab via label) Δ
  | case {Γ : Context} {via : Sym} {conts : List (Sym × Term)} {σ : Side} {node : TypeNode}
    {type : Id} {choices : Table Sym Id} {next : Sym × Term → Id} {Γ' Δ : Sym × Term → Context}
    (he : Γ.Enters env via σ type node) (hs : Selects σ.dual node choices)
    (hlabels : ∀ label, label ∈ choices.keys ↔ label ∈ conts.map Prod.fst)
    (hlabel : ∀ e ∈ conts, choices.get? e.1 = some (next e))
    (ha : ∀ e ∈ conts, Γ.Advances env via σ node (next e) (Γ' e))
    (hc : ∀ e ∈ conts, Checks env (Γ' e) e.2 (Δ e)) :
    Checks env Γ (.case via conts) (Γ.without σ via)
  | fwd {Γ : Context} {via target : Sym} {type got : Id} {node : TypeNode}
    (he : Γ.Enters env via .provider type node)
    (howed : (Γ.without .provider via).liabilities.isEmpty = true)
    (hgot : Γ.assets.get? target = some got) (heq : env.eqType type got = .ok true)
    (hdone : ((Γ.without .provider via).without .client target).isEmpty = true) :
    Checks env Γ (.fwd via target) ((Γ.without .provider via).without .client target)
  | call {Γ Γ' Δ : Context} {via : Sym} {sig : Id} {values : List Sym} {cont : Term}
    (hi : Γ.Endows env via sig values Γ') (hc : Checks env Γ' cont Δ) :
    Checks env Γ (.call via sig values cont) Δ
  | spawn {Γ Γ' Δ : Context} {via : Sym} {sig : Id} {values : List Sym} {pool : Id} {cont : Term}
    (hi : Γ.Endows env via sig values Γ') (hc : Checks env Γ' cont Δ) :
    Checks env Γ (.spawn via sig values pool cont) Δ
  | acquire {Γ Δ : Context} {via : Sym} {next : Id}
    (ha : Γ.Advances env via .client (.up next) next Δ) : Checks env Γ (.acquire via) Δ
  | accept {Γ Γ' Δ : Context} {via : Sym} {cont : Term} {next : Id}
    (ha : Γ.Advances env via .provider (.up next) next Γ') (hc : Checks env Γ' cont Δ) :
    Checks env Γ (.accept via cont) Δ
  | detach {Γ Δ : Context} {via : Sym} {next : Id}
    (ha : Γ.Advances env via .provider (.down next) next Δ) : Checks env Γ (.detach via) Δ
  | release {Γ Γ' Δ : Context} {via : Sym} {cont : Term} {next : Id}
    (ha : Γ.Advances env via .client (.down next) next Γ') (hc : Checks env Γ' cont Δ) :
    Checks env Γ (.release via cont) Δ

namespace Context

/-! ## Operations on contexts -/

variable {env : Env} {Γ Δ : Context} {u : Unit}

theorem take_eq_ok {side : Side} {ph : Sym} {type : Id} :
    take side ph Γ = .ok type Δ ↔
      Γ.bound? side ph = some type ∧ Δ = Γ.without side ph := by
  cases side with
  | provider =>
    unfold take takeLiability bound? without
    simp only [estate_bind_eq_ok, estate_get_eq_ok]
    cases hg : Γ.liabilities.get? ph with
    | none =>
      refine ⟨?_, fun h => (nomatch h.1)⟩
      rintro ⟨_, _, ⟨rfl, rfl⟩, h⟩
      rw [hg] at h
      cases h
    | some t =>
      constructor
      · rintro ⟨_, _, ⟨rfl, rfl⟩, h⟩
        rw [hg] at h
        cases h
        exact ⟨rfl, rfl⟩
      · rintro ⟨h, rfl⟩
        cases h
        refine ⟨_, _, ⟨rfl, rfl⟩, ?_⟩
        rw [hg]
        rfl
  | client =>
    unfold take takeAsset bound? without
    simp only [estate_bind_eq_ok, estate_get_eq_ok]
    cases hg : Γ.assets.get? ph with
    | none =>
      refine ⟨?_, fun h => (nomatch h.1)⟩
      rintro ⟨_, _, ⟨rfl, rfl⟩, h⟩
      rw [hg] at h
      cases h
    | some t =>
      constructor
      · rintro ⟨_, _, ⟨rfl, rfl⟩, h⟩
        rw [hg] at h
        cases h
        exact ⟨rfl, rfl⟩
      · rintro ⟨h, rfl⟩
        cases h
        refine ⟨_, _, ⟨rfl, rfl⟩, ?_⟩
        rw [hg]
        rfl

/-- A term enters its channel on the side where it is bound. -/
theorem enter_eq_ok {via : Sym} {side : Side} {type : Id} {node : TypeNode} :
    enter env none via Γ = .ok (side, type, node) Δ ↔
      Γ.sideOf? via = some side ∧ Γ.bound? side via = some type ∧
        Δ = Γ.without side via ∧ ∃ id, env.resolve type = .ok (id, node) := by
  have hside : ∀ {side' Δ'}, actingSide none via Γ = .ok side' Δ' ↔
      Γ.sideOf? via = some side' ∧ Δ' = Γ := by
    intro side' Δ'
    unfold actingSide
    simp only [estate_bind_eq_ok, estate_get_eq_ok]
    cases hs : Γ.sideOf? via with
    | none =>
      refine ⟨?_, fun h => (nomatch h.1)⟩
      rintro ⟨_, _, ⟨rfl, rfl⟩, h⟩
      rw [hs] at h
      cases h
    | some t =>
      constructor
      · rintro ⟨_, _, ⟨rfl, rfl⟩, h⟩
        rw [hs] at h
        cases h
        exact ⟨rfl, rfl⟩
      · rintro ⟨h, rfl⟩
        cases h
        refine ⟨_, _, ⟨rfl, rfl⟩, ?_⟩
        rw [hs]
        rfl
  unfold enter
  simp only [estate_bind_eq_ok, hside, take_eq_ok, Checking.ofExcept_eq_ok, estate_pure_eq_ok,
    Prod.mk.injEq]
  constructor
  · rintro ⟨_, _, ⟨hs, rfl⟩, _, _, ⟨hb, rfl⟩, p, _, ⟨hr, rfl⟩, ⟨rfl, rfl, rfl⟩, rfl⟩
    exact ⟨hs, hb, rfl, p.1, hr⟩
  · rintro ⟨hs, hb, rfl, id, hr⟩
    exact ⟨side, Γ, ⟨hs, rfl⟩, type, _, ⟨hb, rfl⟩, (id, node), _, ⟨hr, rfl⟩, ⟨rfl, rfl, rfl⟩, rfl⟩

theorem demand_eq_ok {want got : Id} {u : Unit} :
    demand env want got Γ = .ok u Δ ↔ env.eqType want got = .ok true ∧ Δ = Γ := by
  unfold demand
  simp only [estate_bind_eq_ok, Checking.ofExcept_eq_ok]
  constructor
  · rintro ⟨b, _, ⟨hb, rfl⟩, h⟩
    cases b with
    | true =>
      cases h
      exact ⟨hb, rfl⟩
    | false => cases h
  · rintro ⟨hb, rfl⟩
    exact ⟨true, Δ, ⟨hb, rfl⟩, rfl⟩

theorem takeAsset_eq_ok {ph : Sym} {type : Id} :
    takeAsset ph Γ = .ok type Δ ↔
      Γ.assets.get? ph = some type ∧ Δ = Γ.without .client ph := by
  show take .client ph Γ = .ok type Δ ↔ _
  exact take_eq_ok

/-- What is given away is held and of the type that is wanted. -/
theorem giveValue_eq_ok {value : Sym} {want : Id} {u : Unit} :
    giveValue env value want Γ = .ok u Δ ↔
      ∃ got, Γ.assets.get? value = some got ∧ env.eqType want got = .ok true ∧
        Δ = Γ.without .client value := by
  unfold giveValue
  simp only [estate_bind_eq_ok, takeAsset_eq_ok, demand_eq_ok]
  constructor
  · rintro ⟨got, _, ⟨hg, rfl⟩, he, rfl⟩
    exact ⟨got, hg, he, rfl⟩
  · rintro ⟨got, hg, he, rfl⟩
    exact ⟨got, _, ⟨hg, rfl⟩, he, rfl⟩

theorem put_eq_ok {side : Side} {ph : Sym} {type : Id} :
    put side ph type Γ = .ok u Δ ↔ Γ.sideOf? ph = none ∧ Δ = Γ.adding side ph type := by
  unfold put
  simp only [estate_bind_eq_ok, estate_get_eq_ok]
  constructor
  · rintro ⟨_, _, ⟨rfl, rfl⟩, h⟩
    cases hs : Context.sideOf? _ ph with
    | some side' =>
      rw [hs] at h
      cases h
    | none =>
      rw [hs] at h
      cases side <;> cases h <;> exact ⟨rfl, rfl⟩
  · rintro ⟨hs, rfl⟩
    refine ⟨Γ, Γ, ⟨rfl, rfl⟩, ?_⟩
    rw [hs]
    cases side <;> rfl

theorem pick_eq_ok_iff {side : Side} {via label : Sym} {choices : Table Sym Id} :
    pick side via label choices Γ = .ok u Δ ↔
      ∃ next, choices.get? label = some next ∧ Γ.sideOf? via = none ∧
        Δ = Γ.adding side via next := by
  unfold pick
  cases choices.get? label with
  | none => exact ⟨fun h => (nomatch h), fun ⟨_, h, _⟩ => (nomatch h)⟩
  | some next => simp [put_eq_ok]

theorem matchLabels_eq_ok_iff {choices : Table Sym Id} {labels : List Sym} :
    matchLabels choices labels Γ = .ok u Δ ↔
      (∀ label, label ∈ choices.keys ↔ label ∈ labels) ∧ Δ = Γ := by
  unfold matchLabels
  constructor
  · intro h
    split at h
    · next hboth =>
      obtain ⟨hmissing, hredundant⟩ := Bool.and_eq_true_iff.1 hboth
      rw [List.isEmpty_iff, List.filter_eq_nil_iff] at hmissing hredundant
      cases h
      refine ⟨fun label => ⟨fun hl => by simpa using hmissing label hl, fun hl => ?_⟩, rfl⟩
      have hc := hredundant label hl
      simp only [Bool.not_eq_true', Bool.not_eq_false] at hc
      exact (Table.mem_keys_iff _).2 ((Table.contains_eq_true_iff _).1 hc)
    · cases h
  · rintro ⟨h, rfl⟩
    rw [if_pos]
    · rfl
    · rw [Bool.and_eq_true_iff, List.isEmpty_iff, List.isEmpty_iff, List.filter_eq_nil_iff,
        List.filter_eq_nil_iff]
      refine ⟨fun label hl => by simpa using (h label).1 hl, fun label hl => ?_⟩
      have hcon := (choices.contains_eq_true_iff).2 ((choices.mem_keys_iff).1 ((h label).2 hl))
      simp [hcon]

theorem onCopy_eq_ok {c : Checking Unit} :
    onCopy c Γ = .ok u Δ ↔ (∃ Θ, c Γ = .ok () Θ) ∧ Δ = Γ := by
  unfold onCopy
  simp only [estate_bind_eq_ok, estate_get_eq_ok]
  constructor
  · rintro ⟨_, _, ⟨rfl, rfl⟩, h⟩
    cases hc : c.run _ with
    | ok v Θ =>
      rw [hc] at h
      cases h
      exact ⟨⟨Θ, hc⟩, rfl⟩
    | error err Θ =>
      rw [hc] at h
      cases h
  · rintro ⟨⟨Θ, hc⟩, rfl⟩
    refine ⟨Δ, Δ, ⟨rfl, rfl⟩, ?_⟩
    rw [EStateM.run, hc]
    rfl

theorem giveValues_eq_ok_iff {pairs : List (Sym × Parameter)} :
    giveValues env pairs Γ = .ok u Δ ↔ Γ.Gives env pairs Δ := by
  induction pairs generalizing Γ with
  | nil =>
    refine estate_pure_eq_ok.trans ⟨?_, ?_⟩
    · rintro ⟨-, rfl⟩
      exact .nil
    · intro h
      cases h
      exact ⟨rfl, rfl⟩
  | cons pair rest ih =>
    obtain ⟨value, parameter⟩ := pair
    rw [giveValues]
    simp only [estate_bind_eq_ok, Checking.ofExcept_eq_ok, giveValue_eq_ok, ih]
    constructor
    · rintro ⟨want, _, ⟨hwant, rfl⟩, _, _, ⟨got, hgot, heq, rfl⟩, hrest⟩
      exact .cons hwant hgot heq hrest
    · intro h
      cases h with
      | cons hwant hgot heq hrest =>
        exact ⟨_, _, ⟨hwant, rfl⟩, (), _, ⟨_, hgot, heq, rfl⟩, hrest⟩

theorem instantiate_eq_ok_iff {via : Sym} {sigId : Id} {values : List Sym} :
    instantiate env via sigId values Γ = .ok u Δ ↔ Γ.Endows env via sigId values Δ := by
  unfold instantiate
  rw [estate_bind_eq_ok]
  constructor
  · rintro ⟨sig, _, hget, hrest⟩
    obtain ⟨hsig, rfl⟩ := Checking.ofExcept_eq_ok.1 hget
    dsimp only at hrest
    by_cases harity : values.length = sig.receptions.length
    · rw [if_neg (fun hn => hn harity)] at hrest
      simp only [estate_bind_eq_ok, giveValues_eq_ok_iff, Checking.ofExcept_eq_ok, put_eq_ok] at hrest
      obtain ⟨_, _, hgives, type, _, ⟨htype, rfl⟩, hfree, rfl⟩ := hrest
      exact .mk hsig harity hgives htype hfree
    · rw [if_pos harity] at hrest
      obtain ⟨_, _, hthrow, -⟩ := estate_bind_eq_ok.1 hrest
      cases hthrow
  · rintro ⟨hsig, harity, hgives, htype, hfree⟩
    refine ⟨_, Γ, Checking.ofExcept_eq_ok.2 ⟨hsig, rfl⟩, ?_⟩
    dsimp only
    rw [if_neg (fun hn => hn harity)]
    simp only [estate_bind_eq_ok, giveValues_eq_ok_iff, Checking.ofExcept_eq_ok, put_eq_ok]
    exact ⟨(), _, hgives, _, _, ⟨htype, rfl⟩, hfree, rfl⟩

theorem finish_eq_ok : finish Γ = .ok u Δ ↔ Γ.isEmpty = true ∧ Δ = Γ := by
  unfold finish
  simp only [estate_bind_eq_ok, estate_get_eq_ok]
  constructor
  · rintro ⟨_, _, ⟨rfl, rfl⟩, h⟩
    split at h
    · next he =>
      cases h
      exact ⟨he, rfl⟩
    · cases h
  · rintro ⟨he, rfl⟩
    exact ⟨_, _, ⟨rfl, rfl⟩, by rw [if_pos he]; rfl⟩

/-- A forward joins what is owed with all that is held, of equal types. -/
theorem joinWith_eq_ok {want : Id} {target : Sym} :
    joinWith env want target Γ = .ok u Δ ↔
      Γ.liabilities.isEmpty = true ∧
        (∃ got, Γ.assets.get? target = some got ∧ env.eqType want got = .ok true) ∧
        (Γ.without .client target).isEmpty = true ∧ Δ = Γ.without .client target := by
  have hrest : (takeAsset target >>= fun got => finish >>= fun _ => demand env want got) Γ =
      .ok u Δ ↔ (∃ got, Γ.assets.get? target = some got ∧ env.eqType want got = .ok true) ∧
        (Γ.without .client target).isEmpty = true ∧ Δ = Γ.without .client target := by
    simp only [estate_bind_eq_ok, takeAsset_eq_ok, finish_eq_ok, demand_eq_ok]
    constructor
    · rintro ⟨got, _, ⟨hg, rfl⟩, _, _, ⟨he, rfl⟩, heq, rfl⟩
      exact ⟨⟨got, hg, heq⟩, he, rfl⟩
    · rintro ⟨⟨got, hg, heq⟩, he, rfl⟩
      exact ⟨got, _, ⟨hg, rfl⟩, (), _, ⟨he, rfl⟩, heq, rfl⟩
  unfold joinWith
  rw [estate_bind_eq_ok]
  constructor
  · rintro ⟨_, _, hget, h⟩
    obtain ⟨rfl, rfl⟩ := estate_get_eq_ok.1 hget
    split at h
    · obtain ⟨_, _, h, -⟩ := estate_bind_eq_ok.1 h
      cases h
    · next hl => exact ⟨by simpa using hl, hrest.1 h⟩
  · rintro ⟨hl, h⟩
    refine ⟨Γ, Γ, rfl, ?_⟩
    rw [if_neg (by simp [hl])]
    exact hrest.2 h

/-- Entering a channel takes it out of the context. -/
theorem enter_bind_eq_ok {via : Sym} {f : Side × Id × TypeNode → Checking Unit} :
    (enter env none via >>= f) Γ = .ok u Δ ↔
      ∃ side type node, Γ.Enters env via side type node ∧
        f (side, type, node) (Γ.without side via) = .ok u Δ := by
  rw [estate_bind_eq_ok]
  constructor
  · rintro ⟨⟨side, type, node⟩, _, he, h⟩
    obtain ⟨hs, ht, rfl, hn⟩ := enter_eq_ok.1 he
    exact ⟨side, type, node, ⟨hs, ht, hn⟩, h⟩
  · rintro ⟨side, type, node, ⟨hs, ht, hn⟩, h⟩
    exact ⟨(side, type, node), _, enter_eq_ok.2 ⟨hs, ht, rfl, hn⟩, h⟩

/-- Entering a channel and binding it again. -/
theorem advances_iff {via : Sym} {side : Side} {node : TypeNode} {next : Id} :
    Γ.Advances env via side node next Δ ↔
      ∃ type, Γ.Enters env via side type node ∧
        put side via next (Γ.without side via) = .ok () Δ := by
  simp only [put_eq_ok]
  constructor
  · rintro ⟨he, hfree⟩
    exact ⟨_, he, hfree, rfl⟩
  · rintro ⟨type, he, hfree, rfl⟩
    exact .mk he hfree

/-! ## The checker -/

theorem checkAs_close {via : Sym} :
    checkAs env (.close via) none Γ = .ok u Δ ↔
      ∃ type, Γ.Enters env via .provider type .one ∧
        finish (Γ.without .provider via) = .ok u Δ := by
  rw [checkAs]
  refine enter_bind_eq_ok.trans ⟨?_, ?_⟩
  · rintro ⟨side, type, node, he, h⟩
    cases side <;> cases node <;> first | exact ⟨type, he, h⟩ | cases h
  · rintro ⟨type, he, h⟩
    exact ⟨_, _, _, he, h⟩

theorem checkAs_wait {via : Sym} {cont : Term} :
    checkAs env (.wait via cont) none Γ = .ok u Δ ↔
      ∃ type, Γ.Enters env via .client type .one ∧
        checkAs env cont none (Γ.without .client via) = .ok u Δ := by
  rw [checkAs]
  refine enter_bind_eq_ok.trans ⟨?_, ?_⟩
  · rintro ⟨side, type, node, he, h⟩
    cases side <;> cases node <;> first | exact ⟨type, he, h⟩ | cases h
  · rintro ⟨type, he, h⟩
    exact ⟨_, _, _, he, h⟩

theorem checkAs_send {via value : Sym} :
    checkAs env (.send via value) none Γ = .ok u Δ ↔
      ∃ side type node want next, Γ.Enters env via side type node ∧ Sends side node want next ∧
        (giveValue env value want >>= fun _ => put side via next) (Γ.without side via) =
          .ok u Δ := by
  rw [checkAs]
  refine enter_bind_eq_ok.trans ⟨?_, ?_⟩
  · rintro ⟨side, type, node, he, h⟩
    cases side <;> cases node <;> first
      | exact ⟨_, type, _, _, _, he, .tensor, h⟩
      | exact ⟨_, type, _, _, _, he, .lolli, h⟩
      | cases h
  · rintro ⟨side, type, node, want, next, he, hs, h⟩
    cases hs <;> exact ⟨_, _, _, he, h⟩

theorem checkAs_recv {via value : Sym} {cont : Term} :
    checkAs env (.recv via value cont) none Γ = .ok u Δ ↔
      ∃ side type node got next, Γ.Enters env via side type node ∧
        Sends side.dual node got next ∧
        (put side via next >>= fun _ => put .client value got >>= fun _ => checkAs env cont none)
          (Γ.without side via) = .ok u Δ := by
  rw [checkAs]
  refine enter_bind_eq_ok.trans ⟨?_, ?_⟩
  · rintro ⟨side, type, node, he, h⟩
    cases side <;> cases node <;> first
      | exact ⟨_, type, _, _, _, he, .tensor, h⟩
      | exact ⟨_, type, _, _, _, he, .lolli, h⟩
      | cases h
  · rintro ⟨side, type, node, got, next, he, hs, h⟩
    cases side <;> cases hs <;> exact ⟨_, _, _, he, h⟩

theorem checkAs_lab {via label : Sym} :
    checkAs env (.lab via label) none Γ = .ok u Δ ↔
      ∃ side type node choices, Γ.Enters env via side type node ∧ Selects side node choices ∧
        pick side via label choices (Γ.without side via) = .ok u Δ := by
  rw [checkAs]
  refine enter_bind_eq_ok.trans ⟨?_, ?_⟩
  · rintro ⟨side, type, node, he, h⟩
    cases side <;> cases node <;> first
      | exact ⟨_, type, _, _, he, .plus, h⟩
      | exact ⟨_, type, _, _, he, .with, h⟩
      | cases h
  · rintro ⟨side, type, node, choices, he, hs, h⟩
    cases hs <;> exact ⟨_, _, _, he, h⟩

theorem checkAs_case {via : Sym} {conts : List (Sym × Term)} :
    checkAs env (.case via conts) none Γ = .ok u Δ ↔
      ∃ side type node choices, Γ.Enters env via side type node ∧
        Selects side.dual node choices ∧
        (matchLabels choices (conts.map Prod.fst) >>= fun _ =>
          checkBranches env side via choices conts) (Γ.without side via) = .ok u Δ := by
  rw [checkAs]
  refine enter_bind_eq_ok.trans ⟨?_, ?_⟩
  · rintro ⟨side, type, node, he, h⟩
    cases side <;> cases node <;> first
      | exact ⟨_, type, _, _, he, .plus, h⟩
      | exact ⟨_, type, _, _, he, .with, h⟩
      | cases h
  · rintro ⟨side, type, node, choices, he, hs, h⟩
    cases side <;> cases hs <;> exact ⟨_, _, _, he, h⟩

theorem checkAs_fwd {via target : Sym} :
    checkAs env (.fwd via target) none Γ = .ok u Δ ↔
      ∃ type node, Γ.Enters env via .provider type node ∧
        joinWith env type target (Γ.without .provider via) = .ok u Δ := by
  rw [checkAs]
  refine enter_bind_eq_ok.trans ⟨?_, ?_⟩
  · rintro ⟨side, type, node, he, h⟩
    cases side with
    | provider => exact ⟨type, node, he, h⟩
    | client => cases h
  · rintro ⟨type, node, he, h⟩
    exact ⟨_, _, _, he, h⟩

theorem checkAs_acquire {via : Sym} :
    checkAs env (.acquire via) none Γ = .ok u Δ ↔
      ∃ next, Γ.Advances env via .client (.up next) next Δ := by
  simp only [advances_iff]
  rw [checkAs]
  refine enter_bind_eq_ok.trans ⟨?_, ?_⟩
  · rintro ⟨side, type, node, he, h⟩
    cases side <;> cases node <;> first | exact ⟨_, type, he, h⟩ | cases h
  · rintro ⟨next, type, he, h⟩
    exact ⟨_, _, _, he, h⟩

theorem checkAs_accept {via : Sym} {cont : Term} :
    checkAs env (.accept via cont) none Γ = .ok u Δ ↔
      ∃ next Γ', Γ.Advances env via .provider (.up next) next Γ' ∧
        checkAs env cont none Γ' = .ok u Δ := by
  simp only [advances_iff]
  rw [checkAs]
  refine enter_bind_eq_ok.trans ⟨?_, ?_⟩
  · rintro ⟨side, type, node, he, h⟩
    cases side <;> cases node <;> first | cases h | skip
    obtain ⟨_, Γ', hput, hc⟩ := estate_bind_eq_ok.1 h
    exact ⟨_, Γ', ⟨type, he, hput⟩, hc⟩
  · rintro ⟨next, Γ', ⟨type, he, hput⟩, hc⟩
    exact ⟨_, _, _, he, estate_bind_eq_ok.2 ⟨(), Γ', hput, hc⟩⟩

theorem checkAs_detach {via : Sym} :
    checkAs env (.detach via) none Γ = .ok u Δ ↔
      ∃ next, Γ.Advances env via .provider (.down next) next Δ := by
  simp only [advances_iff]
  rw [checkAs]
  refine enter_bind_eq_ok.trans ⟨?_, ?_⟩
  · rintro ⟨side, type, node, he, h⟩
    cases side <;> cases node <;> first | exact ⟨_, type, he, h⟩ | cases h
  · rintro ⟨next, type, he, h⟩
    exact ⟨_, _, _, he, h⟩

theorem checkAs_release {via : Sym} {cont : Term} :
    checkAs env (.release via cont) none Γ = .ok u Δ ↔
      ∃ next Γ', Γ.Advances env via .client (.down next) next Γ' ∧
        checkAs env cont none Γ' = .ok u Δ := by
  simp only [advances_iff]
  rw [checkAs]
  refine enter_bind_eq_ok.trans ⟨?_, ?_⟩
  · rintro ⟨side, type, node, he, h⟩
    cases side <;> cases node <;> first | cases h | skip
    obtain ⟨_, Γ', hput, hc⟩ := estate_bind_eq_ok.1 h
    exact ⟨_, Γ', ⟨type, he, hput⟩, hc⟩
  · rintro ⟨next, Γ', ⟨type, he, hput⟩, hc⟩
    exact ⟨_, _, _, he, estate_bind_eq_ok.2 ⟨(), Γ', hput, hc⟩⟩

/-- The branches of a case are accepted, each in the context that it starts from. -/
def ChecksAll (env : Env) (Γ : Context) (side : Side) (via : Sym) (choices : Table Sym Id)
    (conts : List (Sym × Term)) : Prop :=
  ∀ e ∈ conts, ∃ next Δ, choices.get? e.1 = some next ∧ Γ.sideOf? via = none ∧
    Checks env (Γ.adding side via next) e.2 Δ

/-- The rule for a case, with branches that have been checked one after the other. -/
theorem checks_case_iff {via : Sym} {conts : List (Sym × Term)} :
    Checks env Γ (.case via conts) Δ ↔
      ∃ side type node choices, Γ.Enters env via side type node ∧ Selects side.dual node choices ∧
        (∀ label, label ∈ choices.keys ↔ label ∈ conts.map Prod.fst) ∧
        ChecksAll env (Γ.without side via) side via choices conts ∧ Δ = Γ.without side via := by
  constructor
  · intro h
    cases h with
    | @case _ _ _ σ node type choices next Γ' Δ he hs hlabels hlabel ha hc =>
      refine ⟨σ, type, node, choices, he, hs, hlabels, fun e hmem => ?_, rfl⟩
      have hbranch := hc e hmem
      obtain ⟨-, -, hput⟩ := advances_iff.1 (ha e hmem)
      obtain ⟨hfree, hΓ'⟩ := put_eq_ok.1 hput
      rw [hΓ'] at hbranch
      exact ⟨next e, Δ e, hlabel e hmem, hfree, hbranch⟩
  · rintro ⟨side, type, node, choices, he, hs, hlabels, hall, rfl⟩
    choose! next Δ hlabel hfree hc using hall
    exact .case he hs hlabels hlabel (fun e hmem => .mk he (hfree e hmem)) hc

mutual

/-- The checker accepts a term exactly by the rules. -/
theorem checkAs_eq_ok_iff : ∀ (term : Term) {Γ Δ : Context},
    checkAs env term none Γ = .ok () Δ ↔ Checks env Γ term Δ
  | .close via, Γ, Δ => by
    rw [checkAs_close]
    simp only [finish_eq_ok]
    constructor
    · rintro ⟨type, he, hdone, rfl⟩
      exact .close he hdone
    · rintro ⟨he, hdone⟩
      exact ⟨_, he, hdone, rfl⟩
  | .wait via cont, Γ, Δ => by
    rw [checkAs_wait]
    simp only [checkAs_eq_ok_iff cont]
    constructor
    · rintro ⟨type, he, hc⟩
      exact .wait he hc
    · rintro (_ | ⟨he, hc⟩)
      exact ⟨_, he, hc⟩
  | .send via value, Γ, Δ => by
    rw [checkAs_send]
    simp only [estate_bind_eq_ok, giveValue_eq_ok, put_eq_ok]
    constructor
    · rintro ⟨side, type, node, want, next, he, hs, _, _, ⟨got, hgot, heq, rfl⟩, hfree, rfl⟩
      exact .send he hs hgot heq hfree
    · intro h
      cases h with
      | send he hs hgot heq hfree =>
        exact ⟨_, _, _, _, _, he, hs, (), _, ⟨_, hgot, heq, rfl⟩, hfree, rfl⟩
  | .recv via value cont, Γ, Δ => by
    rw [checkAs_recv]
    simp only [estate_bind_eq_ok, checkAs_eq_ok_iff cont]
    constructor
    · rintro ⟨side, type, node, got, next, he, hs, _, Γ', hput, _, Γ'', hvalue, hc⟩
      obtain ⟨hfree, rfl⟩ := put_eq_ok.1 hvalue
      exact .recv hs (advances_iff.2 ⟨type, he, hput⟩) hfree hc
    · intro h
      cases h with
      | recv hs ha hfree hc =>
        obtain ⟨type, he, hput⟩ := advances_iff.1 ha
        exact ⟨_, type, _, _, _, he, hs, (), _, hput, (), _, put_eq_ok.2 ⟨hfree, rfl⟩, hc⟩
  | .lab via label, Γ, Δ => by
    rw [checkAs_lab]
    simp only [pick_eq_ok_iff]
    constructor
    · rintro ⟨side, type, node, choices, he, hs, next, hlabel, hfree, rfl⟩
      exact .lab hs hlabel (.mk he hfree)
    · intro h
      cases h with
      | lab hs hlabel ha =>
        obtain ⟨he, hfree⟩ := ha
        exact ⟨_, _, _, _, he, hs, _, hlabel, hfree, rfl⟩
  | .case via conts, Γ, Δ => by
    rw [checkAs_case, checks_case_iff]
    simp only [estate_bind_eq_ok, matchLabels_eq_ok_iff]
    constructor
    · rintro ⟨side, type, node, choices, he, hs, _, _, ⟨hlabels, rfl⟩, hb⟩
      obtain ⟨hall, rfl⟩ := (checkBranches_eq_ok_iff conts).1 hb
      exact ⟨side, type, node, choices, he, hs, hlabels, hall, rfl⟩
    · rintro ⟨side, type, node, choices, he, hs, hlabels, hall, rfl⟩
      exact ⟨side, type, node, choices, he, hs, (), _, ⟨hlabels, rfl⟩,
        (checkBranches_eq_ok_iff conts).2 ⟨hall, rfl⟩⟩
  | .fwd via target, Γ, Δ => by
    rw [checkAs_fwd]
    simp only [joinWith_eq_ok]
    constructor
    · rintro ⟨type, node, he, howed, ⟨got, hgot, heq⟩, hdone, rfl⟩
      exact .fwd he howed hgot heq hdone
    · intro h
      cases h with
      | fwd he howed hgot heq hdone =>
        exact ⟨_, _, he, howed, ⟨_, hgot, heq⟩, hdone, rfl⟩
  | .call via sig values cont, Γ, Δ => by
    rw [checkAs_call]
    simp only [estate_bind_eq_ok, instantiate_eq_ok_iff, checkAs_eq_ok_iff cont]
    constructor
    · rintro ⟨_, Γ', hi, hc⟩
      exact .call hi hc
    · intro h
      cases h with
      | call hi hc => exact ⟨(), _, hi, hc⟩
  | .spawn via sig values pool cont, Γ, Δ => by
    rw [checkAs_spawn]
    simp only [estate_bind_eq_ok, instantiate_eq_ok_iff, checkAs_eq_ok_iff cont]
    constructor
    · rintro ⟨_, Γ', hi, hc⟩
      exact .spawn hi hc
    · intro h
      cases h with
      | spawn hi hc => exact ⟨(), _, hi, hc⟩
  | .acquire via, Γ, Δ => by
    rw [checkAs_acquire]
    constructor
    · rintro ⟨next, ha⟩
      exact .acquire ha
    · intro h
      cases h with
      | acquire ha => exact ⟨_, ha⟩
  | .accept via cont, Γ, Δ => by
    rw [checkAs_accept]
    simp only [checkAs_eq_ok_iff cont]
    constructor
    · rintro ⟨next, Γ', ha, hc⟩
      exact .accept ha hc
    · intro h
      cases h with
      | accept ha hc => exact ⟨_, _, ha, hc⟩
  | .detach via, Γ, Δ => by
    rw [checkAs_detach]
    constructor
    · rintro ⟨next, ha⟩
      exact .detach ha
    · intro h
      cases h with
      | detach ha => exact ⟨_, ha⟩
  | .release via cont, Γ, Δ => by
    rw [checkAs_release]
    simp only [checkAs_eq_ok_iff cont]
    constructor
    · rintro ⟨next, Γ', ha, hc⟩
      exact .release ha hc
    · intro h
      cases h with
      | release ha hc => exact ⟨_, _, ha, hc⟩

theorem checkBranches_eq_ok_iff : ∀ (conts : List (Sym × Term)) {Γ Δ : Context} {side : Side}
    {via : Sym} {choices : Table Sym Id},
    checkBranches env side via choices conts Γ = .ok () Δ ↔
      ChecksAll env Γ side via choices conts ∧ Δ = Γ
  | [], Γ, Δ, side, via, choices => by
    rw [checkBranches]
    refine estate_pure_eq_ok.trans ⟨?_, ?_⟩
    · rintro ⟨-, rfl⟩
      exact ⟨nofun, rfl⟩
    · rintro ⟨-, rfl⟩
      exact ⟨rfl, rfl⟩
  | (label, cont) :: rest, Γ, Δ, side, via, choices => by
    rw [checkBranches]
    simp only [estate_bind_eq_ok, onCopy_eq_ok, pick_eq_ok_iff, checkAs_eq_ok_iff cont]
    constructor
    · rintro ⟨_, _, ⟨⟨Θ, _, _, ⟨next, hlabel, hfree, rfl⟩, hc⟩, rfl⟩, hrest⟩
      obtain ⟨hall, rfl⟩ := (checkBranches_eq_ok_iff rest).1 hrest
      exact ⟨List.forall_mem_cons.2 ⟨⟨next, Θ, hlabel, hfree, hc⟩, hall⟩, rfl⟩
    · rintro ⟨hall, rfl⟩
      obtain ⟨⟨next, Θ, hlabel, hfree, hc⟩, hall⟩ := List.forall_mem_cons.1 hall
      exact ⟨(), Δ, ⟨⟨Θ, (), _, ⟨next, hlabel, hfree, rfl⟩, hc⟩, rfl⟩,
        (checkBranches_eq_ok_iff rest).2 ⟨hall, rfl⟩⟩

end

end Context

section

variable {pool : Id} {env : Env} {cfg : Configuration} {term : Term}

theorem checkStep_eq_ok {ctx : Context} :
    checkStep pool env cfg term = .ok ctx ↔
      Context.checkAs env term none (.ofChannels pool cfg.channels) = .ok () ctx := by
  unfold checkStep Context.check EStateM.run
  cases Context.checkAs env term none (.ofChannels pool cfg.channels) with
  | ok u c =>
    refine ⟨fun h => ?_, fun h => ?_⟩
    · cases h
      rfl
    · cases h
      rfl
  | error e c => exact ⟨fun h => (nomatch h), fun h => (nomatch h)⟩

/-- A term is accepted as the next action of a process by the rules. -/
theorem checkStep_eq_ok_iff {Δ : Context} :
    checkStep pool env cfg term = .ok Δ ↔
      Checks env (.ofChannels pool cfg.channels) term Δ :=
  checkStep_eq_ok.trans (Context.checkAs_eq_ok_iff term)

end

end Rendezvous
