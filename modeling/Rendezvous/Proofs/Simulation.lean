import Rendezvous.Proofs.Loaded
import Rendezvous.Proofs.Rules
import Rendezvous.Proofs.Typed

/-!
# Checking up to equality of types

A term that is accepted in a context is accepted in every context that has the same placeholders for
types that are the same, also where another environment is consulted (`Checks.related`), and what
remains of the two contexts is the same again. So the order of a context does not matter to
`Context.check`, nor which of several equal types a placeholder has (`check_respects_eqType`). The
rules look at types in three ways only: they resolve them, they compare them, and they take the
types of a signature. `Env.Follows` says that a second environment answers all three as the first
does, up to a relation of types; closed environments of one registry follow each other on the types
that the second has (`Env.follows`).
-/

namespace Rendezvous

open Context (Enters Advances Sends Selects Gives Endows)

variable {R : Id → Id → Prop}

/-! ## Related contexts -/

namespace Context

variable {Γ Γ' Δ : Context}

/-- The same placeholders on the same sides, for related types. -/
def Related (R : Id → Id → Prop) (Γ Γ' : Context) : Prop :=
  ∀ side ph, Option.Rel R (Γ.bound? side ph) (Γ'.bound? side ph)

theorem bound?_adding (Γ : Context) (σ side : Side) (via ph : Sym) (type : Id) :
    (Γ.adding σ via type).bound? side ph =
      if side = σ ∧ ph = via then some type else Γ.bound? side ph := by
  cases σ <;> cases side <;> simp [adding, bound?, Table.get?_insert]

namespace Related

theorem without (h : Related R Γ Γ') (σ : Side) (via : Sym) :
    Related R (Γ.without σ via) (Γ'.without σ via) := by
  intro side ph
  rw [bound?_without, bound?_without]
  split
  · exact .none
  · exact h side ph

theorem adding (h : Related R Γ Γ') {a b : Id} (hab : R a b) (σ : Side) (via : Sym) :
    Related R (Γ.adding σ via a) (Γ'.adding σ via b) := by
  intro side ph
  rw [bound?_adding, bound?_adding]
  split
  · exact .some hab
  · exact h side ph

/-- Whether something is bound does not depend on types. -/
theorem isSome_bound? (h : Related R Γ Γ') (side : Side) (ph : Sym) :
    (Γ'.bound? side ph).isSome = (Γ.bound? side ph).isSome :=
  (rel_isSome (h side ph)).symm

theorem exists_bound? (h : Related R Γ Γ') (side : Side) {ph : Sym} {type : Id}
    (hb : Γ.bound? side ph = some type) : ∃ type', Γ'.bound? side ph = some type' ∧ R type type' :=
  rel_some (h side ph) hb

theorem sideOf?_eq (h : Related R Γ Γ') (ph : Sym) : Γ'.sideOf? ph = Γ.sideOf? ph := by
  have hprovider : Γ'.liabilities.contains ph = Γ.liabilities.contains ph :=
    h.isSome_bound? .provider ph
  have hclient : Γ'.assets.contains ph = Γ.assets.contains ph := h.isSome_bound? .client ph
  unfold sideOf?
  rw [hprovider, hclient]

theorem bound?_eq_none (h : Related R Γ Γ') (side : Side) (hnone : ∀ ph, Γ.bound? side ph = none)
    (ph : Sym) : Γ'.bound? side ph = none := by
  have hsome := h.isSome_bound? side ph
  rw [hnone ph] at hsome
  simpa using hsome

theorem liabilities_isEmpty (h : Related R Γ Γ') (hΓ : Γ.liabilities.isEmpty = true) :
    Γ'.liabilities.isEmpty = true :=
  (Table.isEmpty_iff _).2 (h.bound?_eq_none .provider ((Table.isEmpty_iff _).1 hΓ))

theorem isEmpty (h : Related R Γ Γ') (hΓ : Γ.isEmpty = true) : Γ'.isEmpty = true := by
  obtain ⟨ha, hl⟩ := Bool.and_eq_true_iff.1 hΓ
  exact Bool.and_eq_true_iff.2
    ⟨(Table.isEmpty_iff _).2 (h.bound?_eq_none .client ((Table.isEmpty_iff _).1 ha)),
      h.liabilities_isEmpty hl⟩

end Related

end Context

/-! ## Related nodes -/

/-- Alike nodes are sent by alike. -/
theorem Context.Sends.alike {σ : Side} {m n : TypeNode} {value next : Id}
    (h : Sends σ m value next) (ha : m.Alike R n) :
    ∃ value' next', Sends σ n value' next' ∧ R value value' ∧ R next next' := by
  cases h with
  | tensor =>
    cases ha with
    | tensor hv hc => exact ⟨_, _, .tensor, hv, hc⟩
  | lolli =>
    cases ha with
    | lolli hv hc => exact ⟨_, _, .lolli, hv, hc⟩

theorem Context.Selects.alike {σ : Side} {m n : TypeNode} {choices : Table Sym Id}
    (h : Selects σ m choices) (ha : m.Alike R n) :
    ∃ choices', Selects σ n choices' ∧
      ∀ label, Option.Rel R (choices.get? label) (choices'.get? label) := by
  cases h with
  | plus =>
    cases ha with
    | plus h => exact ⟨_, .plus, h⟩
  | «with» =>
    cases ha with
    | «with» h => exact ⟨_, .with, h⟩

/-! ## Environments that agree -/

/-- The second environment answers for related types as the first does, and it knows the signatures
in `G`. -/
structure Env.Follows (env env' : Env) (R : Id → Id → Prop) (G : Id → Prop) : Prop where
  stands : ∀ {a b : Id} {m : TypeNode}, R a b → env.Stands a m → ∃ n, env'.Stands b n ∧ m.Alike R n
  eqType : ∀ {a b a' b' : Id}, R a a' → R b b' → env.eqType a b = .ok true →
    env'.eqType a' b' = .ok true
  sig : ∀ {id : Id} {sig : Signature}, G id → env.sig id = .ok sig → env'.sig id = .ok sig ∧
    ∀ p ∈ sig.parameters, ∀ {type}, env.rootOf p.type = .ok type →
      env'.rootOf p.type = .ok type ∧ R type type

/-- What two closed environments have from one registry, they agree on. -/
theorem Env.follows {r : Registry} {env env' : Env} (hw : env.Within r) (hw' : env'.Within r)
    (hc' : env'.Closed) :
    env.Follows env' (fun a b => Same r.Denotes a b ∧ b ∈ env'.types.keys)
      (· ∈ env'.sigs.keys) where
  stands := by
    rintro a b m ⟨hab, hb⟩ ⟨id, hm⟩
    obtain ⟨n, hn, halike⟩ := hab.unfold r.functional_denotes (denotes_of_resolve hw hm)
    have hn := (stands_iff hc' hw' hb).2 hn
    exact ⟨n, hn, halike.imp fun _ hc h => ⟨h, hn.children hc' _ hc⟩⟩
  eqType := by
    rintro a b a' b' ⟨ha, ha'⟩ ⟨hb, hb'⟩ h
    refine (eqType_iff hc' hw' ha' hb').2 ?_
    have hab : Same r.Denotes a b := same_denotes_of_eqType hw h
    exact (ha.symm.trans r.functional_denotes hab).trans r.functional_denotes hb
  sig := by
    intro id sig hid hsig
    obtain ⟨sig', hsig'⟩ := (Table.mem_keys_iff _).1 hid
    cases (hw'.sigs hsig').symm.trans (hw.sigs (sig_eq_ok.1 hsig))
    refine ⟨sig_eq_ok.2 hsig', fun p hp type htype => ?_⟩
    obtain ⟨decl, hd, hroot⟩ := hw.names (rootOf_eq_ok.1 htype)
    obtain ⟨o, ho⟩ := (Table.mem_keys_iff _).1 (hc'.parameter hsig' p hp)
    obtain ⟨decl', hd', rfl⟩ := hw'.names ho
    cases hd.symm.trans hd'
    rw [hroot] at ho
    exact ⟨rootOf_eq_ok.2 ho, .refl _ _, (hc'.root ho).resolve_right nofun⟩

/-! ## Related checks -/

section

variable {env env' : Env} {G : Id → Prop} {Γ Γ' Δ : Context}

theorem Context.Enters.related (hf : env.Follows env' R G) (hΓ : Γ.Related R Γ') {via : Sym}
    {σ : Side} {type : Id} {node : TypeNode} (h : Γ.Enters env via σ type node) :
    ∃ type' node', Γ'.Enters env' via σ type' node' ∧ R type type' ∧ node.Alike R node' := by
  obtain ⟨type', hb, hR⟩ := hΓ.exists_bound? σ h.type_eq
  obtain ⟨node', hn, halike⟩ := hf.stands hR h.node_eq
  exact ⟨type', node', ⟨(hΓ.sideOf?_eq via).trans h.side_eq, hb, hn⟩, hR, halike⟩

/-- A channel may go on with any related type. -/
theorem Context.Advances.related (hf : env.Follows env' R G) (hΓ : Γ.Related R Γ') {via : Sym}
    {σ : Side} {node : TypeNode} {next : Id} (h : Γ.Advances env via σ node next Δ) :
    ∃ node', node.Alike R node' ∧ ∀ {next'}, R next next' →
      ∃ Δ', Γ'.Advances env' via σ node' next' Δ' ∧ Δ.Related R Δ' := by
  obtain ⟨he, hfree⟩ := h
  obtain ⟨type', node', he', -, halike⟩ := he.related hf hΓ
  refine ⟨node', halike, fun hR => ⟨_, .mk he' ?_, (hΓ.without σ via).adding hR σ via⟩⟩
  rw [(hΓ.without σ via).sideOf?_eq, hfree]

theorem Context.Gives.related (hf : env.Follows env' R G) {pairs : List (Sym × Parameter)}
    (hroots : ∀ e ∈ pairs, ∀ {type}, env.rootOf e.2.type = .ok type →
      env'.rootOf e.2.type = .ok type ∧ R type type)
    (h : Γ.Gives env pairs Δ) (hΓ : Γ.Related R Γ') :
    ∃ Δ', Γ'.Gives env' pairs Δ' ∧ Δ.Related R Δ' := by
  induction h generalizing Γ' with
  | nil => exact ⟨Γ', .nil, hΓ⟩
  | @cons Γ Δ value parameter rest want got hwant hgot heq hrest ih =>
    obtain ⟨hwant', hR⟩ := hroots _ List.mem_cons_self hwant
    obtain ⟨got', hgot', hR'⟩ := hΓ.exists_bound? .client hgot
    obtain ⟨Δ', hΔ', hrel⟩ := ih (fun e he => hroots e (List.mem_cons_of_mem _ he))
      (hΓ.without .client value)
    exact ⟨Δ', .cons hwant' hgot' (hf.eqType hR hR' heq) hΔ', hrel⟩

theorem Context.Endows.related (hf : env.Follows env' R G) (hΓ : Γ.Related R Γ') {via : Sym}
    {sigId : Id} {values : List Sym} (hG : G sigId) (h : Γ.Endows env via sigId values Δ) :
    ∃ Δ', Γ'.Endows env' via sigId values Δ' ∧ Δ.Related R Δ' := by
  obtain ⟨hsig, harity, hgives, htype, hfree⟩ := h
  obtain ⟨hsig', hroots⟩ := hf.sig hG hsig
  obtain ⟨Θ, hgives', hrel⟩ := hgives.related hf (fun e he _ htype =>
    hroots e.2 (List.mem_cons_of_mem _ (List.of_mem_zip he).2) htype) hΓ
  obtain ⟨htype', hR⟩ := hroots _ List.mem_cons_self htype
  exact ⟨_, .mk hsig' harity hgives' htype' ((hrel.sideOf?_eq via).trans hfree),
    hrel.adding hR .client via⟩

/-- The branches of a case refer to what the case refers to. -/
theorem Term.mem_mentions_of_branch {conts : List (Sym × Term)} {e : Sym × Term} (he : e ∈ conts)
    {id : Id} (h : id ∈ e.2.mentions) : id ∈ mentionsOfBranches conts := by
  induction conts with
  | nil => cases he
  | cons c rest ih =>
    rw [mentionsOfBranches, List.mem_append]
    rcases List.mem_cons.1 he with rfl | he
    · exact .inl h
    · exact .inr (ih he)

/-- What is accepted in a context is accepted in every related one, and what remains is related. -/
theorem Checks.related (hf : env.Follows env' R G) {term : Term} (h : Checks env Γ term Δ)
    (hΓ : Γ.Related R Γ') (hG : ∀ id ∈ term.mentions, G id) :
    ∃ Δ', Checks env' Γ' term Δ' ∧ Δ.Related R Δ' := by
  -- related contexts have alike nodes at a channel, so the same rule applies to both
  induction h generalizing Γ' with
  | @close Γ via type he hdone =>
    obtain ⟨_, _, he', -, halike⟩ := he.related hf hΓ
    cases halike
    have hrel := hΓ.without .provider via
    exact ⟨_, .close he' (hrel.isEmpty hdone), hrel⟩
  | wait he _ ih =>
    obtain ⟨_, _, he', -, halike⟩ := he.related hf hΓ
    cases halike
    obtain ⟨Δ', hc, hrel⟩ := ih (hΓ.without _ _) hG
    exact ⟨Δ', .wait he' hc, hrel⟩
  | @send Γ via value σ node type want got next he hs hgot heq hfree =>
    obtain ⟨_, _, he', -, halike⟩ := he.related hf hΓ
    obtain ⟨want', next', hs', hwant, hnext⟩ := hs.alike halike
    obtain ⟨got', hgot', hR⟩ := (hΓ.without σ via).exists_bound? .client hgot
    have hrel := (hΓ.without σ via).without .client value
    exact ⟨_, .send he' hs' hgot' (hf.eqType hwant hR heq) ((hrel.sideOf?_eq via).trans hfree),
      hrel.adding hnext σ via⟩
  | @recv Γ Γ₁ Δ via value cont σ node got next hs ha hfree _ ih =>
    obtain ⟨node', halike, hadvance⟩ := ha.related hf hΓ
    obtain ⟨got', next', hs', hgot, hnext⟩ := hs.alike halike
    obtain ⟨Γ₁', ha', hΓ₁⟩ := hadvance hnext
    obtain ⟨Δ', hc, hrel⟩ := ih (hΓ₁.adding hgot .client value) hG
    exact ⟨Δ', .recv hs' ha' ((hΓ₁.sideOf?_eq value).trans hfree) hc, hrel⟩
  | lab hs hlabel ha =>
    obtain ⟨node', halike, hadvance⟩ := ha.related hf hΓ
    obtain ⟨choices', hs', hchoices⟩ := hs.alike halike
    obtain ⟨next', hlabel', hnext⟩ := rel_some (hchoices _) hlabel
    obtain ⟨Δ', ha', hrel⟩ := hadvance hnext
    exact ⟨Δ', .lab hs' hlabel' ha', hrel⟩
  | @case Γ via conts σ node type choices next Γ₁ Δ he hs hlabels hlabel ha _ ih =>
    obtain ⟨type', node', he', -, halike⟩ := he.related hf hΓ
    obtain ⟨choices', hs', hchoices⟩ := hs.alike halike
    have hkeys : ∀ label, label ∈ choices'.keys ↔ label ∈ choices.keys := by
      intro label
      rw [choices'.mem_keys_iff, choices.mem_keys_iff, ← choices'.contains_eq_true_iff,
        ← choices.contains_eq_true_iff, Table.contains, Table.contains, rel_isSome (hchoices label)]
    -- each branch has its own context, related to the one that it was accepted in
    refine ⟨_, Context.checks_case_iff.2 ⟨σ, type', node', choices', he', hs',
      fun label => (hkeys label).trans (hlabels label), fun e hmem => ?_, rfl⟩, hΓ.without σ via⟩
    obtain ⟨next', hlabel', hnext⟩ := rel_some (hchoices e.1) (hlabel e hmem)
    obtain ⟨-, -, hput⟩ := Context.advances_iff.1 (ha e hmem)
    obtain ⟨hfree, hΓ₁⟩ := Context.put_eq_ok.1 hput
    have hrel : (Γ₁ e).Related R ((Γ'.without σ via).adding σ via next') :=
      hΓ₁ ▸ (hΓ.without σ via).adding hnext σ via
    obtain ⟨Δ', hc, -⟩ := ih e hmem hrel fun id hid => hG id (Term.mem_mentions_of_branch hmem hid)
    exact ⟨next', Δ', hlabel', ((hΓ.without σ via).sideOf?_eq via).trans hfree, hc⟩
  | @fwd Γ via target type got node he howed hgot heq hdone =>
    obtain ⟨_, _, he', hR, -⟩ := he.related hf hΓ
    obtain ⟨got', hgot', hR'⟩ := hΓ.exists_bound? .client hgot
    have hrel := (hΓ.without .provider via).without .client target
    exact ⟨_, .fwd he' ((hΓ.without _ _).liabilities_isEmpty howed) hgot' (hf.eqType hR hR' heq)
      (hrel.isEmpty hdone), hrel⟩
  | call hi _ ih =>
    obtain ⟨Θ, hi', hΘ⟩ := hi.related hf hΓ (hG _ List.mem_cons_self)
    obtain ⟨Δ', hc, hrel⟩ := ih hΘ fun id hid => hG id (List.mem_cons_of_mem _ hid)
    exact ⟨Δ', .call hi' hc, hrel⟩
  | spawn hi _ ih =>
    obtain ⟨Θ, hi', hΘ⟩ := hi.related hf hΓ (hG _ List.mem_cons_self)
    obtain ⟨Δ', hc, hrel⟩ := ih hΘ fun id hid => hG id (List.mem_cons_of_mem _ hid)
    exact ⟨Δ', .spawn hi' hc, hrel⟩
  | acquire ha =>
    obtain ⟨node', halike, hadvance⟩ := ha.related hf hΓ
    cases halike with
    | up hc =>
      obtain ⟨Δ', ha', hrel⟩ := hadvance hc
      exact ⟨Δ', .acquire ha', hrel⟩
  | accept ha _ ih =>
    obtain ⟨node', halike, hadvance⟩ := ha.related hf hΓ
    cases halike with
    | up hc =>
      obtain ⟨Γ₁', ha', hΓ₁⟩ := hadvance hc
      obtain ⟨Δ', hcont, hrel⟩ := ih hΓ₁ hG
      exact ⟨Δ', .accept ha' hcont, hrel⟩
  | detach ha =>
    obtain ⟨node', halike, hadvance⟩ := ha.related hf hΓ
    cases halike with
    | down hc =>
      obtain ⟨Δ', ha', hrel⟩ := hadvance hc
      exact ⟨Δ', .detach ha', hrel⟩
  | release ha _ ih =>
    obtain ⟨node', halike, hadvance⟩ := ha.related hf hΓ
    cases halike with
    | down hc =>
      obtain ⟨Γ₁', ha', hΓ₁⟩ := hadvance hc
      obtain ⟨Δ', hcont, hrel⟩ := ih hΓ₁ hG
      exact ⟨Δ', .release ha' hcont, hrel⟩

/-! ## One environment -/

/-- An environment answers alike for types that compare equal. -/
theorem Env.follows_self (env : Env) :
    env.Follows env (fun a b => env.eqType a b = .ok true) fun _ => True where
  stands := by
    intro a b m hab hm
    obtain ⟨n, hn, halike⟩ := (same_of_eqType hab).unfold env.functional_stands hm
    exact ⟨n, hn, halike.mono eqType_eq_ok_true_iff.2⟩
  eqType ha hb hab :=
    env.equivalence_eqType.trans (env.equivalence_eqType.trans (env.equivalence_eqType.symm ha) hab)
      hb
  sig _ hsig := ⟨hsig, fun _ _ _ htype => ⟨htype, env.equivalence_eqType.refl _⟩⟩

namespace Context

theorem Related.symm (hR : ∀ {a b : Id}, R a b → R b a) (h : Γ.Related R Γ') : Γ'.Related R Γ :=
  fun side ph => rel_imp (rel_swap (h side ph)) fun _ _ => hR

/-- A check that succeeds in a context succeeds in every one that is the same up to equality. -/
theorem check_of_related {term : Term} (h : Γ.Related (fun a b => env.eqType a b = .ok true) Γ')
    (hc : check env term Γ = .ok () Δ) :
    ∃ Δ', check env term Γ' = .ok () Δ' ∧ Δ.Related (fun a b => env.eqType a b = .ok true) Δ' := by
  have hchecks : Checks env Γ term Δ := (checkAs_eq_ok_iff term).1 hc
  obtain ⟨Δ', hc', hrel⟩ := hchecks.related env.follows_self h fun _ _ => trivial
  exact ⟨Δ', (checkAs_eq_ok_iff term).2 hc', hrel⟩

/-- Checking does not depend on the order in which a context was filled, nor on which of several
equal types its placeholders have: a term is accepted in both contexts or in neither, and what
remains of them is again the same up to equality. -/
theorem check_respects_eqType (env : Env) (term : Term) {Γ Γ' : Context}
    (h : Γ.Related (fun a b => env.eqType a b = .ok true) Γ') :
    ((∃ Δ, check env term Γ = .ok () Δ) ↔ ∃ Δ', check env term Γ' = .ok () Δ') ∧
      ∀ Δ Δ', check env term Γ = .ok () Δ → check env term Γ' = .ok () Δ' →
        Δ.Related (fun a b => env.eqType a b = .ok true) Δ' := by
  refine ⟨⟨?_, ?_⟩, fun Δ Δ' hc hc' => ?_⟩
  · rintro ⟨Δ, hc⟩
    obtain ⟨Δ', hc', -⟩ := check_of_related h hc
    exact ⟨Δ', hc'⟩
  · rintro ⟨Δ', hc'⟩
    obtain ⟨Δ, hc, -⟩ := check_of_related (h.symm env.equivalence_eqType.symm) hc'
    exact ⟨Δ, hc⟩
  · obtain ⟨Θ, hΘ, hrel⟩ := check_of_related h hc
    cases hΘ.symm.trans hc'
    exact hrel

/-- Numbers, once as a node that lies below itself and once through a name, each with a unit. -/
def numerals : Env where
  types := .ofList [(⟨1⟩, .plus (.ofList [("zero", ⟨2⟩), ("succ", ⟨1⟩)])), (⟨2⟩, .one),
    (⟨3⟩, .plus (.ofList [("succ", ⟨4⟩), ("zero", ⟨5⟩)])), (⟨4⟩, .link ⟨"nat", by decide⟩),
    (⟨5⟩, .one)]
  names := .ofList [(⟨"nat", by decide⟩, some ⟨3⟩)]
  sigs := ∅

/-- Two contexts that were filled in different orders, with different nodes for the same types: a
unit is waited for, and a successor is offered. -/
theorem check_respects_eqType_numerals :
    let term : Term := .wait "x" (.lab "z" "succ")
    let Γ := (((∅ : Context).adding .client "x" ⟨2⟩).adding .client "y" ⟨1⟩).adding .provider "z" ⟨3⟩
    let Γ' := (((∅ : Context).adding .provider "z" ⟨1⟩).adding .client "y" ⟨4⟩).adding .client "x" ⟨5⟩
    Γ.Related (fun a b => numerals.eqType a b = .ok true) Γ' ∧
      ∃ Δ Δ', check numerals term Γ = .ok () Δ ∧ check numerals term Γ' = .ok () Δ' ∧
        Δ.Related (fun a b => numerals.eqType a b = .ok true) Δ' := by
  intro term Γ Γ'
  have heq : ∀ {a b}, (numerals.eqType a b).toOption = some true →
      numerals.eqType a b = .ok true := by
    intro a b h
    cases hab : numerals.eqType a b with
    | ok r => simpa [hab, Except.toOption] using h
    | error e => simp [hab, Except.toOption] at h
  have h : Γ.Related (fun a b => numerals.eqType a b = .ok true) Γ' := by
    rintro (_ | _) ph
    · by_cases hz : ph = "z"
      · subst hz
        exact .some (heq (by decide +kernel))
      · simpa [Γ, Γ', bound?_adding, hz] using .none
    · by_cases hx : ph = "x"
      · subst hx
        exact .some (heq (by decide +kernel))
      · by_cases hy : ph = "y"
        · subst hy
          exact .some (heq (by decide +kernel))
        · simpa [Γ, Γ', bound?_adding, hx, hy] using .none
  have hok : (EStateM.run' (check numerals term) Γ).isSome = true := by decide +kernel
  have hr := check_respects_eqType numerals term h
  refine ⟨h, ?_⟩
  cases hc : check numerals term Γ with
  | error e Δ =>
    delta EStateM.run' EStateM.run at hok
    rw [hc] at hok
    cases hok
  | ok u Δ =>
    obtain ⟨Δ', hc'⟩ := hr.1.1 ⟨Δ, hc⟩
    exact ⟨Δ, Δ', rfl, hc', hr.2 Δ Δ' hc hc'⟩

end Context

end

end Rendezvous
