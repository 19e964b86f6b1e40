import Rendezvous.Proofs.Replay
import Rendezvous.Proofs.Simulation

/-!
# Linear use along paths

A path through a term takes one branch at each case and ends at a term that nothing follows
(`Path`). `Context.pass` is what the checker does at one stage of a path before it goes on, and
`checkAs_eq_pass` splits the checker there, so `Context.passAll` is the check of a single path.

What a stage does to the placeholders is said once, in `Term.Uses`: a placeholder that is discharged
was bound on the side that the term acts on, one that is introduced was free and is an asset from
then on, and all others stay on their side. The account of a whole path follows by induction on it
(`passAll_balance`). The main statement is `check_uses_linearly`.
-/

namespace Rendezvous

/-! ## Paths -/

namespace Term

/-- What follows a term that goes on in one way. -/
def cont? : Term → Option Term
  | .wait _ cont | .recv _ _ cont | .call _ _ _ cont | .spawn _ _ _ _ cont | .accept _ cont
  | .release _ cont => some cont
  | .close _ | .send .. | .lab .. | .case .. | .fwd .. | .acquire _ | .detach _ => none

/-- Whether nothing follows a term. -/
def isLast : Term → Bool
  | .close _ | .send .. | .lab .. | .fwd .. | .acquire _ | .detach _ => true
  | .wait .. | .recv .. | .case .. | .call .. | .spawn .. | .accept .. | .release .. => false

/-- The placeholders that a term introduces. -/
def introduced : Term → List Sym
  | .recv _ value _ => [value]
  | .call via _ _ _ | .spawn via _ _ _ _ => [via]
  | .close _ | .wait .. | .send .. | .lab .. | .case .. | .fwd .. | .acquire _ | .accept ..
  | .detach _ | .release .. => []

/-- The placeholders that a term discharges, each with the side that it is on until then. -/
def discharged : Term → List (Side × Sym)
  | .close via => [(.provider, via)]
  | .wait via _ => [(.client, via)]
  | .send _ value => [(.client, value)]
  | .fwd via target => [(.provider, via), (.client, target)]
  | .call _ _ values _ | .spawn _ _ values _ _ => values.map fun value => (.client, value)
  | .recv .. | .lab .. | .case .. | .acquire _ | .accept .. | .detach _ | .release .. => []

/-- Whether a term leaves its process with nothing. -/
def isEnd : Term → Bool
  | .close _ | .fwd .. => true
  | _ => false

end Term

/-- A term on a path, with the label that is taken there if it is a case. -/
structure Waypoint where
  term : Term
  label? : Option Sym

/-- A way through a term: one branch at each case, down to a term that nothing follows. -/
inductive Path : Term → List Waypoint → Prop
  | last {term : Term} (h : term.isLast = true) : Path term [⟨term, none⟩]
  | next {term cont : Term} {path : List Waypoint} (h : term.cont? = some cont)
    (hp : Path cont path) : Path term (⟨term, none⟩ :: path)
  | branch {via label : Sym} {conts : List (Sym × Term)} {cont : Term} {path : List Waypoint}
    (h : (label, cont) ∈ conts) (hp : Path cont path) :
    Path (.case via conts) (⟨.case via conts, some label⟩ :: path)

namespace Path

theorem ne_nil {term : Term} {path : List Waypoint} (h : Path term path) : path ≠ [] := by
  cases h <;> exact List.cons_ne_nil _ _

/-- How often a placeholder is introduced on a path. -/
def introductions (path : List Waypoint) (ph : Sym) : Nat :=
  (path.flatMap fun w => w.term.introduced).count ph

/-- How often a placeholder is discharged on a path. -/
def discharges (path : List Waypoint) (ph : Sym) : Nat :=
  (path.flatMap fun w => w.term.discharged.map Prod.snd).count ph

theorem introductions_cons (w : Waypoint) (path : List Waypoint) (ph : Sym) :
    introductions (w :: path) ph = w.term.introduced.count ph + introductions path ph := by
  rw [introductions, List.flatMap_cons, List.count_append]
  rfl

theorem discharges_cons (w : Waypoint) (path : List Waypoint) (ph : Sym) :
    discharges (w :: path) ph =
      (w.term.discharged.map Prod.snd).count ph + discharges path ph := by
  rw [discharges, List.flatMap_cons, List.count_append]
  rfl

end Path

namespace Context

variable {env : Env} {Γ Γ' Δ : Context}

/-! ## The checker on a path -/

/-- What the checker does with a term before it goes on with what follows. At a case that is to
enter one of the branches, and at a term that nothing follows it is all there is to do. -/
def pass (env : Env) : Term → Option Sym → Checking Unit
  | .wait via _, _ => do
    match ← enter env none via with
    | (.client, _, .one) => pure ()
    | (side, _, node) => misfit .wait side node
  | .recv via value _, _ => do
    match ← enter env none via with
    | (.provider, _, .lolli got next) =>
      put .provider via next
      put .client value got
    | (.client, _, .tensor got next) =>
      put .client via next
      put .client value got
    | (side, _, node) => misfit .recv side node
  | .case via conts, some label => do
    match ← enter env none via with
    | (.provider, _, .with choices) =>
      matchLabels choices (conts.map Prod.fst)
      pick .provider via label choices
    | (.client, _, .plus choices) =>
      matchLabels choices (conts.map Prod.fst)
      pick .client via label choices
    | (side, _, node) => misfit .case side node
  | .call via sig values _, _ | .spawn via sig values _ _, _ => instantiate env via sig values
  | .accept via _, _ => do
    match ← enter env none via with
    | (.provider, _, .up next) => put .provider via next
    | (side, _, node) => misfit .accept side node
  | .release via _, _ => do
    match ← enter env none via with
    | (.client, _, .down next) => put .client via next
    | (side, _, node) => misfit .release side node
  | term, _ => checkAs env term none

/-- The check of a path, from its first term to its last. -/
def passAll (env : Env) : List Waypoint → Checking Unit
  | [] => pure ()
  | w :: path => do
    pass env w.term w.label?
    passAll env path

/-- Checking a term is to pass it and to check what follows. -/
theorem checkAs_eq_pass {term cont : Term} (h : term.cont? = some cont) (label? : Option Sym) :
    checkAs env term none = pass env term label? >>= fun _ => checkAs env cont none := by
  cases term <;> cases h <;> rw [checkAs, pass]
  case recv =>
    rw [bind_assoc]
    refine bind_congr fun ⟨side, type, node⟩ => ?_
    cases side <;> cases node
    case provider.lolli | client.tensor => exact (bind_assoc _ _ _).symm
    all_goals rfl
  all_goals
    rw [bind_assoc]
    refine bind_congr fun ⟨side, type, node⟩ => ?_
    cases side <;> cases node <;> rfl

theorem pass_last {term : Term} (h : term.isLast = true) (label? : Option Sym) :
    pass env term label? = checkAs env term none := by
  cases term <;> cases h <;> rfl

/-- Passing a case enters one branch. -/
theorem pass_case {via label : Sym} {conts : List (Sym × Term)} :
    pass env (.case via conts) (some label) Γ = .ok () Γ' ↔
      ∃ side type node choices next, Γ.Enters env via side type node ∧
        Selects side.dual node choices ∧
        (∀ label, label ∈ choices.keys ↔ label ∈ conts.map Prod.fst) ∧
        choices.get? label = some next ∧ (Γ.without side via).sideOf? via = none ∧
        Γ' = (Γ.without side via).adding side via next := by
  have hmatch : ∀ {side choices Θ}, (matchLabels choices (conts.map Prod.fst) >>= fun _ =>
      pick side via label choices) Θ = .ok () Γ' ↔
      ∃ next, (∀ label, label ∈ choices.keys ↔ label ∈ conts.map Prod.fst) ∧
        choices.get? label = some next ∧ Θ.sideOf? via = none ∧ Γ' = Θ.adding side via next := by
    intro side choices Θ
    simp only [estate_bind_eq_ok, matchLabels_eq_ok_iff, pick_eq_ok_iff]
    constructor
    · rintro ⟨_, _, ⟨hlabels, rfl⟩, next, hlabel, hfree, rfl⟩
      exact ⟨next, hlabels, hlabel, hfree, rfl⟩
    · rintro ⟨next, hlabels, hlabel, hfree, rfl⟩
      exact ⟨(), Θ, ⟨hlabels, rfl⟩, next, hlabel, hfree, rfl⟩
  rw [pass]
  refine enter_bind_eq_ok.trans ⟨?_, ?_⟩
  · rintro ⟨side, type, node, he, h⟩
    cases side <;> cases node <;> first
      | obtain ⟨next, hrest⟩ := hmatch.1 h; exact ⟨_, type, _, _, next, he, .plus, hrest⟩
      | obtain ⟨next, hrest⟩ := hmatch.1 h; exact ⟨_, type, _, _, next, he, .with, hrest⟩
      | cases h
  · rintro ⟨side, type, node, choices, next, he, hs, hrest⟩
    cases side <;> cases hs <;> exact ⟨_, type, _, he, hmatch.2 ⟨next, hrest⟩⟩

/-! ## Sides -/

/-- No placeholder is on both sides. -/
def OneSided (Γ : Context) : Prop :=
  ∀ ph, Γ.bound? .provider ph = none ∨ Γ.bound? .client ph = none

theorem sideOf?_eq (Γ : Context) (ph : Sym) :
    Γ.sideOf? ph =
      if (Γ.bound? .provider ph).isSome then some .provider
      else if (Γ.bound? .client ph).isSome then some .client
      else none := rfl

theorem sideOf?_eq_none_iff {ph : Sym} : Γ.sideOf? ph = none ↔ ∀ side, Γ.bound? side ph = none := by
  rw [sideOf?_eq]
  constructor
  · intro h side
    cases side <;> cases hp : Γ.bound? .provider ph <;> cases hc : Γ.bound? .client ph <;>
      simp_all
  · intro h
    simp [h]

theorem oneSided_ofChannels (pool : Id) (channels : Table Sym Endpoint) :
    (ofChannels pool channels).OneSided := by
  intro ph
  rw [bound?_ofChannels, bound?_ofChannels]
  cases channels.get? ph with
  | none => exact .inl rfl
  | some e => cases hs : sideFrom pool e <;> simp [Option.filter, hs]

namespace OneSided

/-- What is bound on a side is on that side. -/
theorem sideOf?_eq_some (h : Γ.OneSided) {side : Side} {ph : Sym} {type : Id}
    (hb : Γ.bound? side ph = some type) : Γ.sideOf? ph = some side := by
  have hone := h ph
  rw [sideOf?_eq]
  cases side <;> simp_all

theorem without (h : Γ.OneSided) (side : Side) (via : Sym) : (Γ.without side via).OneSided := by
  intro ph
  rw [bound?_without, bound?_without]
  refine (h ph).imp (fun hn => ?_) fun hn => ?_ <;>
  · rw [hn, ite_self]

theorem adding (h : Γ.OneSided) {side : Side} {via : Sym} (hfree : Γ.sideOf? via = none)
    (type : Id) : (Γ.adding side via type).OneSided := by
  intro ph
  have hnone := sideOf?_eq_none_iff.1 hfree
  rw [bound?_adding, bound?_adding]
  by_cases hph : ph = via
  · subst hph
    cases side <;> simp [hnone]
  · rw [if_neg fun hc => hph hc.2, if_neg fun hc => hph hc.2]
    exact h ph

/-- Taking a placeholder out frees it, and leaves the others on their sides. -/
theorem sideOf?_without (h : Γ.OneSided) {side : Side} {via : Sym} (hs : Γ.sideOf? via = some side)
    (ph : Sym) : (Γ.without side via).sideOf? ph = if ph = via then none else Γ.sideOf? ph := by
  rw [sideOf?_eq, bound?_without, bound?_without]
  by_cases hph : ph = via
  · subst hph
    rw [if_pos rfl]
    rw [sideOf?_eq] at hs
    have hone := h ph
    cases side <;> cases hp : Γ.bound? .provider ph <;> cases hc : Γ.bound? .client ph <;>
      simp_all
  · have hne : ∀ σ, ¬ (σ = side ∧ ph = via) := fun _ hc => hph hc.2
    rw [if_neg (hne .provider), if_neg (hne .client), if_neg hph, sideOf?_eq]

end OneSided

/-- Binding a free placeholder leaves the others on their sides. -/
theorem sideOf?_adding {side : Side} {via : Sym} (hfree : Γ.sideOf? via = none) (type : Id)
    (ph : Sym) :
    (Γ.adding side via type).sideOf? ph = if ph = via then some side else Γ.sideOf? ph := by
  rw [sideOf?_eq, bound?_adding, bound?_adding]
  by_cases hph : ph = via
  · subst hph
    have hnone := sideOf?_eq_none_iff.1 hfree
    cases side <;> simp [hnone]
  · have hne : ∀ σ, ¬ (σ = side ∧ ph = via) := fun _ hc => hph hc.2
    rw [if_neg (hne .provider), if_neg (hne .client), if_neg hph, sideOf?_eq]

/-- A channel that goes on stays on its side. -/
theorem OneSided.sideOf?_readding (h : Γ.OneSided) {side : Side} {via : Sym}
    (hs : Γ.sideOf? via = some side) (type : Id) (ph : Sym) :
    ((Γ.without side via).adding side via type).sideOf? ph = Γ.sideOf? ph := by
  have hfree : (Γ.without side via).sideOf? via = none := by
    rw [h.sideOf?_without hs, if_pos rfl]
  rw [sideOf?_adding hfree, h.sideOf?_without hs]
  by_cases hph : ph = via
  · rw [if_pos hph, hph, hs]
  · rw [if_neg hph, if_neg hph]

/-- A channel that goes on stays on its side, as all others do. -/
theorem OneSided.advances (h : Γ.OneSided) {side : Side} {via : Sym} {node : TypeNode} {next : Id}
    (ha : Γ.Advances env via side node next Δ) :
    Δ.OneSided ∧ ∀ ph, Δ.sideOf? ph = Γ.sideOf? ph := by
  obtain ⟨he, hfree⟩ := ha
  exact ⟨(h.without _ _).adding hfree _, h.sideOf?_readding he.side_eq _⟩

/-! ## What a term does to placeholders -/

/-- One for a placeholder that is bound. -/
def tally (Γ : Context) (ph : Sym) : Nat := if (Γ.sideOf? ph).isSome then 1 else 0

end Context

open Context (OneSided Enters Advances Sends Gives Endows)

/-- What passing a term does to the sides of placeholders. -/
structure Term.Uses (term : Term) (Γ Γ' : Context) : Prop where
  /-- What is discharged was bound, on the side of the discharge. -/
  discharged : ∀ side ph, (side, ph) ∈ term.discharged → Γ.sideOf? ph = some side
  once : (term.discharged.map Prod.snd).Nodup
  /-- What is introduced was free, or the term has just discharged it. -/
  introduced : ∀ ph ∈ term.introduced,
    Γ.sideOf? ph = none ∨ ph ∈ term.discharged.map Prod.snd
  /-- What is introduced becomes an asset, what is discharged is gone, and all else stays. -/
  sides : ∀ ph, Γ'.sideOf? ph =
    if ph ∈ term.introduced then some .client
    else if ph ∈ term.discharged.map Prod.snd then none
    else Γ.sideOf? ph

namespace Term

variable {env : Env} {Γ Γ' : Context} {term : Term}

theorem nodup_introduced (term : Term) : term.introduced.Nodup := by
  cases term <;> simp [introduced]

/-- What is introduced and what was bound is discharged or bound afterwards. -/
theorem Uses.balance (h : term.Uses Γ Γ') (ph : Sym) :
    Γ.tally ph + term.introduced.count ph =
      Γ'.tally ph + (term.discharged.map Prod.snd).count ph := by
  rw [term.nodup_introduced.count, h.once.count, Context.tally, Context.tally, h.sides]
  by_cases hd : ph ∈ term.discharged.map Prod.snd
  · have hbound : ∃ side, Γ.sideOf? ph = some side := by
      obtain ⟨⟨side, _⟩, hmem, rfl⟩ := List.mem_map.1 hd
      exact ⟨side, h.discharged side _ hmem⟩
    obtain ⟨side, hs⟩ := hbound
    by_cases hi : ph ∈ term.introduced <;> simp [hi, hd, hs]
  · by_cases hi : ph ∈ term.introduced
    · have hs := (h.introduced ph hi).resolve_right hd
      simp [hi, hd, hs]
    · simp [hi, hd]

/-- What a term does not discharge stays on its side. -/
theorem Uses.sideOf?_eq (h : term.Uses Γ Γ') {ph : Sym} {side : Side}
    (hs : Γ.sideOf? ph = some side) (hd : ph ∉ term.discharged.map Prod.snd) :
    Γ'.sideOf? ph = some side := by
  have hi : ph ∉ term.introduced := by
    intro hi
    have hfree := (h.introduced ph hi).resolve_right hd
    rw [hs] at hfree
    cases hfree
  rw [h.sides, if_neg hi, if_neg hd, hs]

/-- A term that introduces and discharges nothing leaves all placeholders where they are. -/
theorem uses_of_sides (hi : term.introduced = []) (hd : term.discharged = [])
    (h : ∀ ph, Γ'.sideOf? ph = Γ.sideOf? ph) : term.Uses Γ Γ' := by
  refine ⟨?_, ?_, ?_, ?_⟩ <;> simp [hi, hd, h]

/-- A term that discharges the channel it acts on. -/
theorem uses_of_without (hΓ : Γ.OneSided) {side : Side} {via : Sym}
    (hi : term.introduced = []) (hd : term.discharged = [(side, via)])
    (hs : Γ.sideOf? via = some side) : term.Uses Γ (Γ.without side via) := by
  refine ⟨?_, ?_, ?_, ?_⟩ <;> simp [hi, hd, hs, hΓ.sideOf?_without hs]

/-- Held channels that are given away are discharged one by one. -/
theorem gives_sides {pairs : List (Sym × Parameter)} (h : Γ.Gives env pairs Γ')
    (hΓ : Γ.OneSided) :
    Γ'.OneSided ∧ (∀ ph ∈ pairs.map Prod.fst, Γ.sideOf? ph = some .client) ∧
      (pairs.map Prod.fst).Nodup ∧
      ∀ ph, Γ'.sideOf? ph = if ph ∈ pairs.map Prod.fst then none else Γ.sideOf? ph := by
  induction h with
  | nil => exact ⟨hΓ, by simp, List.nodup_nil, by simp⟩
  | @cons Γ Δ value parameter rest want got hwant hgot heq hrest ih =>
    have hvalue : Γ.sideOf? value = some .client := hΓ.sideOf?_eq_some hgot
    obtain ⟨hΔ, hheld, hn, hsides⟩ := ih (hΓ.without .client value)
    have hwithout := hΓ.sideOf?_without hvalue
    have hnot : value ∉ rest.map Prod.fst := by
      intro hmem
      have hgone := hheld value hmem
      rw [hwithout, if_pos rfl] at hgone
      cases hgone
    refine ⟨hΔ, ?_, List.nodup_cons.2 ⟨hnot, hn⟩, fun ph => ?_⟩
    · rintro ph (_ | ⟨_, hph⟩)
      · exact hvalue
      · have hside := hheld ph hph
        rw [hwithout] at hside
        split at hside
        · cases hside
        · exact hside
    · have hiff : ph ∈ ((value, parameter) :: rest).map Prod.fst ↔
          ph = value ∨ ph ∈ rest.map Prod.fst := List.mem_cons
      rw [hsides, hwithout]
      by_cases hph : ph = value
      · rw [if_pos hph, if_pos (hiff.2 (.inl hph)), ite_self]
      · rw [if_neg hph]
        exact if_congr (by simp [hph]) rfl rfl

/-- An instance discharges what it is given, and its own channel is introduced. -/
theorem uses_of_endows {via : Sym} {sigId : Id} {values : List Sym} (hΓ : Γ.OneSided)
    (h : Γ.Endows env via sigId values Γ') (hi : term.introduced = [via])
    (hd : term.discharged = values.map fun value => (.client, value)) :
    term.Uses Γ Γ' ∧ Γ'.OneSided := by
  obtain ⟨-, harity, hgives, -, hfree⟩ := h
  obtain ⟨hΔ, hheld, hn, hsides⟩ := gives_sides hgives hΓ
  rw [List.map_fst_zip harity.le] at hheld hn hsides
  have hvalues : term.discharged.map Prod.snd = values := by
    rw [hd, List.map_map]
    exact List.map_id values
  refine ⟨⟨?_, hvalues ▸ hn, ?_, fun ph => ?_⟩, hΔ.adding hfree _⟩
  · rw [hd]
    intro side ph hmem
    obtain ⟨value, hvalue, h⟩ := List.mem_map.1 hmem
    cases h
    exact hheld _ hvalue
  · rw [hi, hvalues]
    intro ph hph
    rw [List.mem_singleton.1 hph]
    rw [hsides] at hfree
    by_cases hvia : via ∈ values
    · exact .inr hvia
    · rw [if_neg hvia] at hfree
      exact .inl hfree
  · rw [hi, hvalues, Context.sideOf?_adding hfree, hsides]
    exact if_congr List.mem_singleton.symm rfl rfl

/-- A channel that is sent is discharged, and the channel it is sent on goes on. -/
theorem uses_of_send {via value : Sym} {side : Side} {node : TypeNode} {type got next : Id}
    (hΓ : Γ.OneSided) (he : Γ.Enters env via side type node)
    (hgot : (Γ.without side via).assets.get? value = some got)
    (hfree : ((Γ.without side via).without .client value).sideOf? via = none) :
    (send via value).Uses Γ (((Γ.without side via).without .client value).adding side via next) ∧
      (((Γ.without side via).without .client value).adding side via next).OneSided := by
  have hwithout := hΓ.without side via
  have hvia := hΓ.sideOf?_without he.side_eq
  have hvalue : (Γ.without side via).sideOf? value = some .client :=
    hwithout.sideOf?_eq_some hgot
  have hne : value ≠ via := by
    rintro rfl
    rw [hvia, if_pos rfl] at hvalue
    cases hvalue
  have hheld : Γ.sideOf? value = some .client := by rw [← hvalue, hvia, if_neg hne]
  refine ⟨⟨?_, List.nodup_singleton _, nofun, fun ph => ?_⟩,
    (hwithout.without _ _).adding hfree _⟩
  · rintro _ _ (_ | ⟨_, ⟨⟩⟩)
    exact hheld
  · rw [Context.sideOf?_adding hfree, hwithout.sideOf?_without hvalue, hvia]
    by_cases hph : ph = via
    · subst hph
      simp [introduced, discharged, Ne.symm hne, he.side_eq]
    · simp [introduced, discharged, hph]

/-- A forward discharges both of its channels. -/
theorem uses_of_fwd {via target : Sym} {node : TypeNode} {type got : Id} (hΓ : Γ.OneSided)
    (he : Γ.Enters env via .provider type node) (hgot : Γ.assets.get? target = some got) :
    (fwd via target).Uses Γ ((Γ.without .provider via).without .client target) ∧
      ((Γ.without .provider via).without .client target).OneSided := by
  have hwithout := hΓ.without .provider via
  have hheld : Γ.sideOf? target = some .client := hΓ.sideOf?_eq_some hgot
  have hne : target ≠ via := by
    rintro rfl
    rw [he.side_eq] at hheld
    cases hheld
  have hvia := hΓ.sideOf?_without he.side_eq
  have htarget : (Γ.without .provider via).sideOf? target = some .client := by
    rw [hvia, if_neg hne, hheld]
  refine ⟨⟨?_, ?_, nofun, fun ph => ?_⟩, hwithout.without _ _⟩
  · rintro _ _ (_ | ⟨_, _ | ⟨_, ⟨⟩⟩⟩)
    · exact he.side_eq
    · exact hheld
  · simp [discharged, Ne.symm hne]
  · rw [hwithout.sideOf?_without htarget, hvia]
    by_cases hph : ph = via <;> by_cases hph' : ph = target <;>
      simp [introduced, discharged, hph, hph']

/-- A received channel is introduced, and the channel it comes from goes on. -/
theorem uses_of_recv {via value : Sym} {cont : Term} {side : Side} {node : TypeNode}
    {got next : Id} (hΓ : Γ.OneSided) {Δ : Context} (ha : Γ.Advances env via side node next Δ)
    (hfree : Δ.sideOf? value = none) :
    (recv via value cont).Uses Γ (Δ.adding .client value got) ∧
      (Δ.adding .client value got).OneSided := by
  obtain ⟨hΔ, hsides⟩ := hΓ.advances ha
  refine ⟨⟨nofun, List.nodup_nil, ?_, fun ph => ?_⟩, hΔ.adding hfree _⟩
  · intro ph hph
    rw [List.mem_singleton.1 hph, ← hsides]
    exact .inl hfree
  · rw [Context.sideOf?_adding hfree, hsides]
    exact (if_congr List.mem_singleton.symm rfl rfl).trans
      (if_congr Iff.rfl rfl (if_neg List.not_mem_nil).symm)

/-- A term on whose channel its process goes on introduces and discharges nothing. -/
theorem uses_of_advances {via : Sym} {side : Side} {node : TypeNode} {next : Id}
    (hΓ : Γ.OneSided) (ha : Γ.Advances env via side node next Γ') (hi : term.introduced = [])
    (hd : term.discharged = []) : term.Uses Γ Γ' ∧ Γ'.OneSided :=
  have ⟨hΓ', hsides⟩ := hΓ.advances ha
  ⟨uses_of_sides hi hd hsides, hΓ'⟩

end Term

/-- A waypoint on a path through a case says which branch is taken. -/
def Waypoint.Taken (w : Waypoint) : Prop := ∀ via conts, w.term = .case via conts → w.label?.isSome

theorem Path.taken {term : Term} {path : List Waypoint} (h : Path term path) :
    ∀ w ∈ path, w.Taken := by
  induction h with
  | last h =>
    intro w hw
    rw [List.mem_singleton.1 hw]
    rintro via conts rfl
    cases h
  | next h _ ih =>
    refine List.forall_mem_cons.2 ⟨?_, ih⟩
    rintro via conts rfl
    cases h
  | branch _ _ ih => exact List.forall_mem_cons.2 ⟨fun _ _ _ => rfl, ih⟩

namespace Context

/-! ## The account of a path -/

/-- A term that nothing follows is passed by the rules. -/
theorem checks_of_pass {term : Term} {label? : Option Sym} (hl : term.isLast = true)
    (h : pass env term label? Γ = .ok () Γ') : Checks env Γ term Γ' :=
  (checkAs_eq_ok_iff term).1 ((congrFun (pass_last hl label?) Γ).symm.trans h)

/-- What a term is passed with is used as the term says. -/
theorem uses_of_pass {w : Waypoint} (hw : w.Taken) (hΓ : Γ.OneSided)
    (h : pass env w.term w.label? Γ = .ok () Γ') : w.term.Uses Γ Γ' ∧ Γ'.OneSided := by
  obtain ⟨term, label?⟩ := w
  cases term with
  | close via =>
    obtain ⟨he, hdone⟩ := checks_of_pass rfl h
    exact ⟨Term.uses_of_without hΓ rfl rfl he.side_eq, hΓ.without _ _⟩
  | wait via cont =>
    rw [pass] at h
    obtain ⟨side, type, node, he, h⟩ := enter_bind_eq_ok.1 h
    cases side <;> cases node <;> cases h
    exact ⟨Term.uses_of_without hΓ rfl rfl he.side_eq, hΓ.without _ _⟩
  | send via value =>
    cases checks_of_pass rfl h with
    | send he hs hgot heq hfree => exact Term.uses_of_send hΓ he hgot hfree
  | recv via value cont =>
    rw [pass] at h
    obtain ⟨side, type, node, he, h⟩ := enter_bind_eq_ok.1 h
    cases side <;> cases node <;> first | cases h | skip
    all_goals
      obtain ⟨_, Δ, hvia, hvalue⟩ := estate_bind_eq_ok.1 h
      obtain ⟨hfree, rfl⟩ := put_eq_ok.1 hvalue
      exact Term.uses_of_recv hΓ (advances_iff.2 ⟨_, he, hvia⟩) hfree
  | lab via label =>
    cases checks_of_pass rfl h with
    | lab hs hlabel ha => exact Term.uses_of_advances hΓ ha rfl rfl
  | case via conts =>
    obtain ⟨label, rfl⟩ := Option.isSome_iff_exists.1 (hw via conts rfl)
    obtain ⟨side, type, node, choices, next, he, -, -, -, hfree, rfl⟩ := pass_case.1 h
    exact Term.uses_of_advances hΓ (.mk he hfree) rfl rfl
  | fwd via target =>
    cases checks_of_pass rfl h with
    | fwd he howed hgot heq hdone => exact Term.uses_of_fwd hΓ he hgot
  | call via sig values cont =>
    exact Term.uses_of_endows hΓ (instantiate_eq_ok_iff.1 h) rfl rfl
  | spawn via sig values pool cont =>
    exact Term.uses_of_endows hΓ (instantiate_eq_ok_iff.1 h) rfl rfl
  | acquire via =>
    cases checks_of_pass rfl h with
    | acquire ha => exact Term.uses_of_advances hΓ ha rfl rfl
  | accept via cont =>
    rw [pass] at h
    obtain ⟨side, type, node, he, h⟩ := enter_bind_eq_ok.1 h
    cases side <;> cases node <;> first | cases h | skip
    exact Term.uses_of_advances hΓ (advances_iff.2 ⟨_, he, h⟩) rfl rfl
  | detach via =>
    cases checks_of_pass rfl h with
    | detach ha => exact Term.uses_of_advances hΓ ha rfl rfl
  | release via cont =>
    rw [pass] at h
    obtain ⟨side, type, node, he, h⟩ := enter_bind_eq_ok.1 h
    cases side <;> cases node <;> first | cases h | skip
    exact Term.uses_of_advances hΓ (advances_iff.2 ⟨_, he, h⟩) rfl rfl

theorem passAll_cons {w : Waypoint} {path : List Waypoint} :
    passAll env (w :: path) Γ = .ok () Γ' ↔
      ∃ Δ, pass env w.term w.label? Γ = .ok () Δ ∧ passAll env path Δ = .ok () Γ' := by
  rw [passAll, estate_bind_eq_ok]
  exact ⟨fun ⟨_, Δ, h⟩ => ⟨Δ, h⟩, fun ⟨Δ, h⟩ => ⟨(), Δ, h⟩⟩

theorem passAll_append {path rest : List Waypoint} :
    passAll env (path ++ rest) Γ = .ok () Γ' ↔
      ∃ Δ, passAll env path Γ = .ok () Δ ∧ passAll env rest Δ = .ok () Γ' := by
  induction path generalizing Γ with
  | nil =>
    constructor
    · intro h
      exact ⟨Γ, rfl, h⟩
    · rintro ⟨_, ⟨⟩, h⟩
      exact h
  | cons w path ih =>
    rw [List.cons_append, passAll_cons]
    simp only [ih, passAll_cons]
    constructor
    · rintro ⟨Θ, hw, Δ, hpath, hrest⟩
      exact ⟨Δ, ⟨Θ, hw, hpath⟩, hrest⟩
    · rintro ⟨Δ, ⟨Θ, hw, hpath⟩, hrest⟩
      exact ⟨Θ, hw, Δ, hpath, hrest⟩

/-- Along a path that starts in `Γ`, the checker accepts each term in the context that the stages
before it leave, and of the last term it leaves `Θ`. -/
def Accepts (env : Env) (Γ : Context) (path : List Waypoint) (Θ : Context) : Prop :=
  ∀ before w after, path = before ++ w :: after →
    ∃ Γ₁ Δ, passAll env before Γ = .ok () Γ₁ ∧ check env w.term Γ₁ = .ok () Δ ∧
      (after = [] → Δ = Θ)

theorem Accepts.cons {w : Waypoint} {path : List Waypoint} {Θ : Context}
    (hw : check env w.term Γ = .ok () Δ) (hpass : pass env w.term w.label? Γ = .ok () Γ')
    (hne : path ≠ []) (h : Accepts env Γ' path Θ) : Accepts env Γ (w :: path) Θ := by
  intro before v after heq
  cases before with
  | nil =>
    obtain ⟨rfl, rfl⟩ := List.cons.inj heq
    exact ⟨Γ, Δ, rfl, hw, fun hnil => absurd hnil hne⟩
  | cons u before =>
    obtain ⟨rfl, hpath⟩ := List.cons.inj heq
    obtain ⟨Γ₁, Δ', hbefore, hv, hlast⟩ := h before v after hpath
    exact ⟨Γ₁, Δ', passAll_cons.2 ⟨Γ', hpass, hbefore⟩, hv, hlast⟩

/-- Each path of an accepted term is passed, and the checker agrees all the way. Where the path
takes no branch, what it leaves is what the whole check leaves. -/
theorem exists_passAll {term : Term} {path : List Waypoint} (hp : Path term path)
    (h : check env term Γ = .ok () Δ) :
    ∃ Θ, passAll env path Γ = .ok () Θ ∧ Accepts env Γ path Θ ∧
      ((∀ w ∈ path, w.label? = none) → Θ = Δ) := by
  induction hp generalizing Γ Δ with
  | last hl =>
    refine ⟨Δ, passAll_cons.2 ⟨Δ, (congrFun (pass_last hl none) Γ).trans h, rfl⟩, ?_, fun _ => rfl⟩
    intro before w after heq
    cases before with
    | nil =>
      cases heq
      exact ⟨Γ, Δ, rfl, h, fun _ => rfl⟩
    | cons _ before => cases before <;> cases heq
  | next hcont hp ih =>
    have hterm := h
    rw [check, checkAs_eq_pass hcont none] at h
    obtain ⟨_, Γ', hpass, hrest⟩ := estate_bind_eq_ok.1 h
    obtain ⟨Θ, hall, haccepts, hsame⟩ := ih hrest
    exact ⟨Θ, passAll_cons.2 ⟨Γ', hpass, hall⟩, .cons hterm hpass hp.ne_nil haccepts,
      fun hw => hsame (List.forall_mem_cons.1 hw).2⟩
  | @branch via label conts cont path hmem hp ih =>
    obtain ⟨side, type, node, choices, he, hs, hlabels, hall, -⟩ :=
      checks_case_iff.1 ((checkAs_eq_ok_iff _).1 h)
    obtain ⟨next, _, hlabel, hfree, hc⟩ := hall (label, cont) hmem
    obtain ⟨Θ, hrest, haccepts, -⟩ := ih ((checkAs_eq_ok_iff cont).2 hc)
    have hpass := pass_case.2 ⟨side, type, node, choices, next, he, hs, hlabels, hlabel, hfree, rfl⟩
    exact ⟨Θ, passAll_cons.2 ⟨_, hpass, hrest⟩, .cons h hpass hp.ne_nil haccepts,
      fun hw => nomatch (List.forall_mem_cons.1 hw).1⟩

/-- Nothing is left after a term that ends its process. -/
theorem isEmpty_of_isEnd {term : Term} {path : List Waypoint} (hp : Path term path)
    (h : passAll env path Γ = .ok () Γ') {w : Waypoint} (hw : path.getLast? = some w)
    (hend : w.term.isEnd = true) : Γ'.isEmpty = true := by
  induction hp generalizing Γ with
  | last hl =>
    cases hw
    obtain ⟨Δ, hpass, ⟨⟩⟩ := passAll_cons.1 h
    have hc := checks_of_pass hl hpass
    cases hc with
    | close _ hdone => exact hdone
    | fwd _ _ _ _ hdone => exact hdone
    | _ => cases hend
  | next _ hp ih | branch _ hp ih =>
    obtain ⟨Δ, -, hrest⟩ := passAll_cons.1 h
    refine ih hrest ?_
    cases hp <;> exact hw

section Runs

variable {path : List Waypoint}

theorem passAll_oneSided (hw : ∀ w ∈ path, w.Taken) (hΓ : Γ.OneSided)
    (h : passAll env path Γ = .ok () Γ') : Γ'.OneSided := by
  induction path generalizing Γ with
  | nil =>
    cases h
    exact hΓ
  | cons w path ih =>
    obtain ⟨Δ, hpass, hrest⟩ := passAll_cons.1 h
    rw [List.forall_mem_cons] at hw
    exact ih hw.2 (uses_of_pass hw.1 hΓ hpass).2 hrest

/-- What is introduced on a path and what was bound before it is discharged on it or bound
afterwards. -/
theorem passAll_balance (hw : ∀ w ∈ path, w.Taken) (hΓ : Γ.OneSided)
    (h : passAll env path Γ = .ok () Γ') (ph : Sym) :
    Γ.tally ph + Path.introductions path ph = Γ'.tally ph + Path.discharges path ph := by
  induction path generalizing Γ with
  | nil =>
    cases h
    rfl
  | cons w path ih =>
    obtain ⟨Δ, hpass, hrest⟩ := passAll_cons.1 h
    rw [List.forall_mem_cons] at hw
    obtain ⟨huses, hΔ⟩ := uses_of_pass hw.1 hΓ hpass
    have hone := huses.balance ph
    have hall := ih hw.2 hΔ hrest
    rw [Path.introductions_cons, Path.discharges_cons]
    omega

/-- A placeholder stays on its side until it is discharged. -/
theorem passAll_sideOf? (hw : ∀ w ∈ path, w.Taken) (hΓ : Γ.OneSided)
    (h : passAll env path Γ = .ok () Γ') {ph : Sym} {side : Side}
    (hs : Γ.sideOf? ph = some side) (hd : Path.discharges path ph = 0) :
    Γ'.sideOf? ph = some side := by
  induction path generalizing Γ with
  | nil =>
    cases h
    exact hs
  | cons w path ih =>
    obtain ⟨Δ, hpass, hrest⟩ := passAll_cons.1 h
    rw [List.forall_mem_cons] at hw
    obtain ⟨huses, hΔ⟩ := uses_of_pass hw.1 hΓ hpass
    rw [Path.discharges_cons, Nat.add_eq_zero_iff] at hd
    refine ih hw.2 hΔ hrest (huses.sideOf?_eq hs ?_) hd.2
    exact List.count_eq_zero.1 hd.1

end Runs

/-- A path on which every placeholder is used once: `Γ` is what its check starts with, and `Θ` is
what that leaves. -/
structure LinearUse (env : Env) (Γ : Context) (path : List Waypoint) (Θ : Context) : Prop where
  reached : passAll env path Γ = .ok () Θ
  accepted : Accepts env Γ path Θ
  /-- What was bound or introduced, less what was discharged, is what is bound at the end. -/
  balanced : ∀ ph, (Γ.tally ph : Int) + Path.introductions path ph - Path.discharges path ph =
    Θ.tally ph
  /-- A path that ends its process leaves nothing. -/
  emptied : ∀ w, path.getLast? = some w → w.term.isEnd = true → Θ.isEmpty = true
  /-- At each stage, what is introduced was free and becomes an asset, and what is discharged was
  bound on the side that the term acts on. -/
  used : ∀ before w after, path = before ++ w :: after →
    ∃ Γ₁ Γ₂, passAll env before Γ = .ok () Γ₁ ∧ pass env w.term w.label? Γ₁ = .ok () Γ₂ ∧
      w.term.Uses Γ₁ Γ₂
  /-- Between two stages a placeholder stays on its side, unless it is discharged in between. -/
  kept : ∀ before middle after, path = before ++ (middle ++ after) →
    ∃ Γ₁ Γ₂, passAll env before Γ = .ok () Γ₁ ∧ passAll env middle Γ₁ = .ok () Γ₂ ∧
      ∀ ph side, Γ₁.sideOf? ph = some side → Path.discharges middle ph = 0 →
        Γ₂.sideOf? ph = some side

/-- **An accepted term uses every placeholder once along each of its paths.** The check of the path
succeeds, and where the path takes no branch it leaves what the whole check leaves. -/
theorem check_uses_linearly {pool : Id} {channels : Table Sym Endpoint} {term : Term}
    {path : List Waypoint} (h : check env term (.ofChannels pool channels) = .ok () Δ)
    (hp : Path term path) :
    ∃ Θ, LinearUse env (.ofChannels pool channels) path Θ ∧
      ((∀ w ∈ path, w.label? = none) → Θ = Δ) := by
  have hΓ := oneSided_ofChannels pool channels
  obtain ⟨Θ, hall, haccepts, hsame⟩ := exists_passAll hp h
  refine ⟨Θ, ⟨hall, haccepts, fun ph => ?_, fun w => isEmpty_of_isEnd hp hall, ?_, ?_⟩, hsame⟩
  · have hbalance := passAll_balance hp.taken hΓ hall ph
    omega
  · rintro before w after rfl
    have htaken := hp.taken
    obtain ⟨Γ₁, hbefore, hrest⟩ := passAll_append.1 hall
    obtain ⟨Γ₂, hpass, -⟩ := passAll_cons.1 hrest
    have hone := passAll_oneSided (fun v hv => htaken v (List.mem_append_left _ hv)) hΓ hbefore
    exact ⟨Γ₁, Γ₂, hbefore, hpass,
      (uses_of_pass (htaken w (List.mem_append_right _ List.mem_cons_self)) hone hpass).1⟩
  · rintro before middle after rfl
    have htaken := hp.taken
    simp only [List.forall_mem_append] at htaken
    obtain ⟨hbeforeT, hmiddleT, -⟩ := htaken
    obtain ⟨Γ₁, hbefore, hrest⟩ := passAll_append.1 hall
    obtain ⟨Γ₂, hmiddle, -⟩ := passAll_append.1 hrest
    have hone := passAll_oneSided hbeforeT hΓ hbefore
    exact ⟨Γ₁, Γ₂, hbefore, hmiddle, fun ph side => passAll_sideOf? hmiddleT hone hmiddle⟩

/-- A server that offers gifts, a gift being a unit that comes with it, and a keeper of one unit. -/
def gifts : Env where
  types := .ofList [(⟨1⟩, .one), (⟨2⟩, .plus (.ofList [("end", ⟨1⟩), ("gift", ⟨3⟩)])),
    (⟨3⟩, .tensor ⟨1⟩ ⟨1⟩)]
  names := .ofList [(⟨"gifts.unit", by decide⟩, some ⟨1⟩)]
  sigs := .ofList [(⟨9⟩, ⟨⟨9⟩, ⟨"gifts.keeper", by decide⟩, ⟨"self", ⟨"gifts.unit", by decide⟩⟩,
    [⟨"kept", ⟨"gifts.unit", by decide⟩⟩], ⟨1⟩⟩)]

/-- The gift is introduced and discharged on one of the two paths through a case. -/
theorem check_uses_linearly_gifts :
    let kept : Term := .call "keeper" ⟨9⟩ ["gift"] (.wait "keeper" (.wait "server" (.close "self")))
    let given : Term := .recv "server" "gift" kept
    let term : Term := .case "server" [("end", .wait "server" (.close "self")), ("gift", given)]
    let path : List Waypoint := [⟨term, some "gift"⟩, ⟨given, none⟩, ⟨kept, none⟩,
      ⟨.wait "keeper" (.wait "server" (.close "self")), none⟩,
      ⟨.wait "server" (.close "self"), none⟩, ⟨.close "self", none⟩]
    let Γ := ofChannels ⟨7⟩ (.ofList [("self", ⟨⟨20⟩, ⟨1⟩, ⟨7⟩⟩), ("server", ⟨⟨21⟩, ⟨2⟩, ⟨8⟩⟩)])
    (∃ Δ, check gifts term Γ = .ok () Δ) ∧ Path term path ∧
      Path.introductions path "gift" = 1 ∧ Path.discharges path "gift" = 1 ∧
      ∃ Θ, LinearUse gifts Γ path Θ ∧ Θ.isEmpty = true := by
  intro kept given term path Γ
  have hp : Path term path :=
    .branch (by simp) <| .next rfl <| .next rfl <| .next rfl <| .next rfl <| .last rfl
  have hok : (EStateM.run' (check gifts term) Γ).isSome = true := by decide +kernel
  cases hc : check gifts term Γ with
  | error e Δ =>
    delta EStateM.run' EStateM.run at hok
    rw [hc] at hok
    cases hok
  | ok u Δ =>
    obtain ⟨Θ, hΘ, -⟩ := check_uses_linearly hc hp
    exact ⟨⟨Δ, rfl⟩, hp, by decide, by decide, Θ, hΘ, hΘ.emptied _ rfl rfl⟩

end Context

end Rendezvous
