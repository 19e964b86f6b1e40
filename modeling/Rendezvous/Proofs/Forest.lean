import Mathlib.Data.Set.Lattice
import Mathlib.Order.CompletePartialOrder
import Rendezvous.Error
import Rendezvous.Id
import Rendezvous.Name

/-!
# Forests

The ends of channels are held in places, and a place belongs to a node: a process, a message or a
forward. A node uses the channels whose client ends it holds, and provides those whose provider
ends it holds. `Forest` says that this makes a forest with channels as its edges. It does so by
giving every channel a territory, the pools that are behind it:

- whatever a node uses lies in the territory of what it provides, and any two channels that it
  uses have nothing in common;
- the core of a node, which is the pool of a process, lies in what it provides and in nothing that
  it uses.

The lemmas here are about how a forest may change: a node is split (`Forest.split`), two nodes that
share a channel become one (`Forest.cut`), a node gets a pool that is new (`Forest.extend`), and a
node becomes two that share a channel that is new (`Forest.sprout`).
-/

namespace Rendezvous

/-- Where the end of a channel can be. -/
inductive Place where
  | bound (process : Id) (ph : Sym)
  /-- The channel that the message on a channel sends. -/
  | value (channel : Id)
  /-- The channel that the message on a channel goes on with. -/
  | cont (channel : Id)
  /-- The channel that a message is pending on. -/
  | front (channel : Id)
  /-- The channel that a forward is pending on. -/
  | source (channel : Id)
  /-- The channel that the forward on a channel leads to. -/
  | target (channel : Id)
  /-- With the caller, for a process that is to be created. -/
  | outside (channel : Id)

/-- What holds ends of channels. -/
inductive Node where
  | process (p : Id)
  | message (channel : Id)
  | forward (channel : Id)
  | outside

/-- The node that a place belongs to. -/
def Place.node : Place → Node
  | .bound p _ => .process p
  | .value z | .cont z | .front z => .message z
  | .source y | .target y => .forward y
  | .outside _ => .outside

variable {E E' : Side → Place → Id → Prop} {core core' : Node → Set Id} {A : Id → Set Id}

/-- The ends `E` of channels with territories `A` make a forest. -/
structure Forest (E : Side → Place → Id → Prop) (core : Node → Set Id) (A : Id → Set Id) :
    Prop where
  /-- Each side of a channel is in one place. -/
  unique : ∀ {σ : Side} {P Q : Place} {c : Id}, E σ P c → E σ Q c → P = Q
  /-- A node provides one channel. -/
  single : ∀ {P Q : Place} {c d : Id}, P.node = Q.node → E .provider P c → E .provider Q d →
    c = d
  nest : ∀ {P Q : Place} {c d : Id}, P.node = Q.node → E .client P c → E .provider Q d →
    A c ⊆ A d
  apart : ∀ {P Q : Place} {c d : Id}, P.node = Q.node → c ≠ d → E .client P c → E .client Q d →
    Disjoint (A c) (A d)
  own : ∀ {P : Place} {c : Id}, E .provider P c → core P.node ⊆ A c
  clear : ∀ {P : Place} {c : Id}, E .client P c → Disjoint (core P.node) (A c)

namespace Forest

/-- Ends may move to other nodes, as long as no two come together that were apart. -/
theorem split (hf : Forest E core A) (R : Place → Place → Prop)
    (hfrom : ∀ {σ : Side} {P' : Place} {c : Id}, E' σ P' c → ∃ P, E σ P c ∧ R P' P)
    (hinj : ∀ {P' Q' P : Place}, R P' P → R Q' P → P' = Q')
    (hnode : ∀ {P' Q' P Q : Place}, R P' P → R Q' Q → P'.node = Q'.node → P.node = Q.node)
    (hcore : ∀ {P' P : Place}, R P' P → core P'.node ⊆ core P.node) : Forest E' core A := by
  refine ⟨?_, ?_, ?_, ?_, ?_, ?_⟩
  · intro σ P' Q' c hP' hQ'
    obtain ⟨P, hP, hRP⟩ := hfrom hP'
    obtain ⟨Q, hQ, hRQ⟩ := hfrom hQ'
    cases hf.unique hP hQ
    exact hinj hRP hRQ
  · intro P' Q' c d hn hP' hQ'
    obtain ⟨P, hP, hRP⟩ := hfrom hP'
    obtain ⟨Q, hQ, hRQ⟩ := hfrom hQ'
    exact hf.single (hnode hRP hRQ hn) hP hQ
  · intro P' Q' c d hn hP' hQ'
    obtain ⟨P, hP, hRP⟩ := hfrom hP'
    obtain ⟨Q, hQ, hRQ⟩ := hfrom hQ'
    exact hf.nest (hnode hRP hRQ hn) hP hQ
  · intro P' Q' c d hn hne hP' hQ'
    obtain ⟨P, hP, hRP⟩ := hfrom hP'
    obtain ⟨Q, hQ, hRQ⟩ := hfrom hQ'
    exact hf.apart (hnode hRP hRQ hn) hne hP hQ
  · intro P' c hP'
    obtain ⟨P, hP, hRP⟩ := hfrom hP'
    exact (hcore hRP).trans (hf.own hP)
  · intro P' c hP'
    obtain ⟨P, hP, hRP⟩ := hfrom hP'
    exact (hf.clear hP).mono_left (hcore hRP)

/-- A part of a forest is a forest. -/
theorem mono (hf : Forest E core A) (hsub : ∀ {σ : Side} {P : Place} {c : Id}, E' σ P c → E σ P c) :
    Forest E' core A := by
  refine hf.split Eq (fun hP => ⟨_, hsub hP, rfl⟩) ?_ ?_ ?_
  · rintro P' Q' P rfl rfl
    rfl
  · rintro P' Q' P Q rfl rfl hn
    exact hn
  · rintro P' P rfl
    exact fun _ hρ => hρ

/-- Two nodes that share channel `z` become one, and `z` is gone. What the first one uses lies in
the territory of `z`, and so in what the second one provides and apart from what it uses. -/
theorem cut (hf : Forest E core A) (R : Place → Place → Prop) {z : Id} {P₁ P₂ : Place}
    (h₁ : E .provider P₁ z) (h₂ : E .client P₂ z) (M : Node)
    (hfrom : ∀ {σ : Side} {P' : Place} {c : Id}, E' σ P' c → ∃ P, E σ P c ∧ R P' P)
    (hinj : ∀ {P' Q' P : Place}, R P' P → R Q' P → P' = Q')
    (hgone : ∀ {P' P : Place}, R P' P → P ≠ P₁ ∧ P ≠ P₂)
    (hnode : ∀ {P' P : Place}, R P' P → P'.node = M ∧ (P.node = P₁.node ∨ P.node = P₂.node) ∨
      P'.node ≠ M ∧ P'.node = P.node)
    (hcore : core M ⊆ core P₁.node ∪ core P₂.node) : Forest E' core A := by
  -- both ends of the channel are gone
  have hfrom : ∀ {σ : Side} {P' : Place} {c : Id}, E' σ P' c → c ≠ z ∧ ∃ P, E σ P c ∧ R P' P := by
    intro σ P' c hP'
    obtain ⟨P, hP, hRP⟩ := hfrom hP'
    refine ⟨?_, P, hP, hRP⟩
    rintro rfl
    cases σ with
    | provider => exact (hgone hRP).1 (hf.unique hP h₁)
    | client => exact (hgone hRP).2 (hf.unique hP h₂)
  -- a provider end in the new node was in the second of the two
  have hprovider : ∀ {P : Place} {c : Id}, E .provider P c → c ≠ z →
      P.node = P₁.node ∨ P.node = P₂.node → P.node = P₂.node := by
    rintro P c hP hc (hn | hn)
    · exact absurd (hf.single hn hP h₁) hc
    · exact hn
  refine ⟨?_, ?_, ?_, ?_, ?_, ?_⟩
  · intro σ P' Q' c hP' hQ'
    obtain ⟨-, P, hP, hRP⟩ := hfrom hP'
    obtain ⟨-, Q, hQ, hRQ⟩ := hfrom hQ'
    cases hf.unique hP hQ
    exact hinj hRP hRQ
  · intro P' Q' c d hn hP' hQ'
    obtain ⟨hcz, P, hP, hRP⟩ := hfrom hP'
    obtain ⟨hdz, Q, hQ, hRQ⟩ := hfrom hQ'
    rcases hnode hRP with ⟨hM, hP₁⟩ | ⟨hM, hPn⟩ <;> rcases hnode hRQ with ⟨hM', hQ₁⟩ | ⟨hM', hQn⟩
    · exact hf.single ((hprovider hP hcz hP₁).trans (hprovider hQ hdz hQ₁).symm) hP hQ
    · exact absurd (hn ▸ hM) hM'
    · exact absurd (hn ▸ hM') hM
    · exact hf.single (hPn.symm.trans (hn.trans hQn)) hP hQ
  · intro P' Q' c d hn hP' hQ'
    obtain ⟨hcz, P, hP, hRP⟩ := hfrom hP'
    obtain ⟨hdz, Q, hQ, hRQ⟩ := hfrom hQ'
    rcases hnode hRP with ⟨hM, hP₁⟩ | ⟨hM, hPn⟩ <;> rcases hnode hRQ with ⟨hM', hQ₁⟩ | ⟨hM', hQn⟩
    · have hQ₂ := hprovider hQ hdz hQ₁
      rcases hP₁ with hP₁ | hP₂
      · exact (hf.nest hP₁ hP h₁).trans (hf.nest hQ₂.symm h₂ hQ)
      · exact hf.nest (hP₂.trans hQ₂.symm) hP hQ
    · exact absurd (hn ▸ hM) hM'
    · exact absurd (hn ▸ hM') hM
    · exact hf.nest (hPn.symm.trans (hn.trans hQn)) hP hQ
  · intro P' Q' c d hn hne hP' hQ'
    obtain ⟨hcz, P, hP, hRP⟩ := hfrom hP'
    obtain ⟨hdz, Q, hQ, hRQ⟩ := hfrom hQ'
    rcases hnode hRP with ⟨hM, hP₁⟩ | ⟨hM, hPn⟩ <;> rcases hnode hRQ with ⟨hM', hQ₁⟩ | ⟨hM', hQn⟩
    · rcases hP₁ with hP₁ | hP₂ <;> rcases hQ₁ with hQ₁ | hQ₂
      · exact hf.apart (hP₁.trans hQ₁.symm) hne hP hQ
      · exact (hf.apart hQ₂.symm (Ne.symm hdz) h₂ hQ).mono_left (hf.nest hP₁ hP h₁)
      · exact (hf.apart hP₂ hcz hP h₂).mono_right (hf.nest hQ₁ hQ h₁)
      · exact hf.apart (hP₂.trans hQ₂.symm) hne hP hQ
    · exact absurd (hn ▸ hM) hM'
    · exact absurd (hn ▸ hM') hM
    · exact hf.apart (hPn.symm.trans (hn.trans hQn)) hne hP hQ
  · intro P' c hP'
    obtain ⟨hcz, P, hP, hRP⟩ := hfrom hP'
    rcases hnode hRP with ⟨hM, hP₁⟩ | ⟨-, hPn⟩
    · have hP₂ := hprovider hP hcz hP₁
      rw [hM]
      refine hcore.trans (Set.union_subset ?_ ?_)
      · exact (hf.own h₁).trans (hf.nest hP₂.symm h₂ hP)
      · exact hP₂ ▸ hf.own hP
    · rw [hPn]
      exact hf.own hP
  · intro P' c hP'
    obtain ⟨hcz, P, hP, hRP⟩ := hfrom hP'
    rcases hnode hRP with ⟨hM, hP₁ | hP₂⟩ | ⟨-, hPn⟩
    · rw [hM]
      refine Disjoint.mono_left hcore (Set.disjoint_union_left.2 ⟨hP₁ ▸ hf.clear hP, ?_⟩)
      exact (hf.clear h₂).mono_right (hf.nest hP₁ hP h₁)
    · rw [hM]
      refine Disjoint.mono_left hcore (Set.disjoint_union_left.2 ⟨?_, hP₂ ▸ hf.clear hP⟩)
      exact (hf.apart hP₂.symm (Ne.symm hcz) h₂ hP).mono_left (hf.own h₁)
    · rw [hPn]
      exact hf.clear hP

/-- Node `N` gets a pool that is new. Whatever has `N` behind it (`G`) has the pool behind it as
well. -/
theorem extend (hf : Forest E core A) {N : Node} {π : Id} (G : Id → Prop)
    (hA : ∀ c, π ∉ A c) (hcore : ∀ O, π ∉ core O)
    (hup : ∀ {c d : Id}, A c ⊆ A d → G c → G d)
    (hone : ∀ {c d : Id}, Disjoint (A c) (A d) → G c → ¬ G d)
    (hown : ∀ {P : Place} {c : Id}, P.node = N → E .provider P c → G c)
    (hclear : ∀ {P : Place} {c : Id}, P.node = N → E .client P c → ¬ G c) :
    Forest E (fun O => core O ∪ {ρ | ρ = π ∧ O = N}) (fun c => A c ∪ {ρ | ρ = π ∧ G c}) := by
  refine ⟨hf.unique, hf.single, ?_, ?_, ?_, ?_⟩
  · intro P Q c d hn hP hQ
    have hsub := hf.nest hn hP hQ
    exact Set.union_subset_union hsub fun ρ hρ => ⟨hρ.1, hup hsub hρ.2⟩
  · intro P Q c d hn hne hP hQ
    have hdisj := hf.apart hn hne hP hQ
    refine Set.disjoint_left.2 ?_
    rintro ρ (hρ | ⟨hρ, hG⟩) (hρ' | ⟨hρ', hG'⟩)
    · exact Set.disjoint_left.1 hdisj hρ hρ'
    · exact hA c (hρ' ▸ hρ)
    · exact hA d (hρ ▸ hρ')
    · exact hone hdisj hG hG'
  · intro P c hP
    refine Set.union_subset_union (hf.own hP) ?_
    rintro ρ ⟨hρ, hN⟩
    exact ⟨hρ, hown hN hP⟩
  · intro P c hP
    refine Set.disjoint_left.2 ?_
    rintro ρ (hρ | ⟨hρ, hN⟩) (hρ' | ⟨hρ', hG⟩)
    · exact Set.disjoint_left.1 (hf.clear hP) hρ hρ'
    · exact hcore _ (hρ' ▸ hρ)
    · exact hA c (hρ ▸ hρ')
    · exact hclear hN hP hG

/-- The territory of a new channel: what its provider uses, and its core. -/
def territory (E' : Side → Place → Id → Prop) (core' : Node → Set Id) (A : Id → Set Id) (N : Node) :
    Set Id :=
  core' N ∪ {ρ | ∃ P c, P.node = N ∧ E' .client P c ∧ ρ ∈ A c}

/-- The node `O` of `E` becomes two nodes of `E'`, which share a new channel `k`. The first one
provides it at `P₁`, and the second one holds it at `P₂`. `R` says where an end was before. -/
structure Sprouts (E E' : Side → Place → Id → Prop) (R : Place → Place → Prop) (k : Id) (O : Node)
    (P₁ P₂ : Place) : Prop where
  ne : P₁.node ≠ P₂.node
  /-- The ends of all other channels were there. -/
  old : ∀ {σ : Side} {P' : Place} {c : Id}, E' σ P' c → c ≠ k → ∃ P, E σ P c ∧ R P' P
  injective : ∀ {P' Q' P : Place}, R P' P → R Q' P → P' = Q'
  node : ∀ {P' P : Place}, R P' P →
    (P'.node = P₁.node ∨ P'.node = P₂.node) ∧ P.node = O ∨
      P'.node ≠ P₁.node ∧ P'.node ≠ P₂.node ∧ P'.node = P.node
  /-- Of the two, the first one provides nothing else, and nobody else provides the new channel. -/
  provides : ∀ {P' : Place} {c : Id}, E' .provider P' c → (c = k ↔ P'.node = P₁.node)
  provider : ∀ {P' : Place}, E' .provider P' k → P' = P₁
  client : ∀ {P' : Place}, E' .client P' k → P' = P₂

section Sprouts

variable {R : Place → Place → Prop} {k : Id} {O : Node} {P₁ P₂ : Place}

/-- Ends that are in one node were in one node. -/
theorem Sprouts.node_eq (h : Sprouts E E' R k O P₁ P₂) {P' Q' P Q : Place} (hRP : R P' P)
    (hRQ : R Q' Q) (hn : P'.node = Q'.node) : P.node = Q.node := by
  rcases h.node hRP with ⟨hP', hP⟩ | ⟨hP₁, hP₂, hP⟩ <;>
    rcases h.node hRQ with ⟨hQ', hQ⟩ | ⟨hQ₁, hQ₂, hQ⟩
  · rw [hP, hQ]
  · rcases hP' with hP' | hP'
    · exact absurd (hn.symm.trans hP') hQ₁
    · exact absurd (hn.symm.trans hP') hQ₂
  · rcases hQ' with hQ' | hQ'
    · exact absurd (hn.trans hQ') hP₁
    · exact absurd (hn.trans hQ') hP₂
  · rw [← hP, ← hQ, hn]

/-- What the second node has besides the new channel was in `O`. -/
theorem Sprouts.node_of_second (h : Sprouts E E' R k O P₁ P₂) {P' P : Place} (hRP : R P' P)
    (hn : P'.node = P₂.node) : P.node = O := by
  rcases h.node hRP with ⟨-, hO⟩ | ⟨-, hP₂, -⟩
  · exact hO
  · exact absurd hn hP₂

/-- What the first node uses is not new, and `O` used it. -/
theorem Sprouts.exists_of_first (h : Sprouts E E' R k O P₁ P₂) {P' : Place} {c : Id}
    (hP' : E' .client P' c) (hn : P'.node = P₁.node) :
    c ≠ k ∧ ∃ P, R P' P ∧ E .client P c ∧ P.node = O := by
  have hc : c ≠ k := by
    rintro rfl
    exact h.ne (hn.symm.trans (congrArg Place.node (h.client hP')))
  obtain ⟨P, hP, hRP⟩ := h.old hP' hc
  refine ⟨hc, P, hRP, hP, ?_⟩
  rcases h.node hRP with ⟨-, hO⟩ | ⟨hP₁, -⟩
  · exact hO
  · exact absurd hn hP₁

/-- The territory of the new channel lies in what `O` provided. -/
theorem territory_subset (hf : Forest E core A) (h : Sprouts E E' R k O P₁ P₂)
    (hcore₁ : core' P₁.node ⊆ core O) {Q : Place} {d : Id} (hQ : E .provider Q d)
    (hO : Q.node = O) : territory E' core' A P₁.node ⊆ A d := by
  rintro ρ (hρ | ⟨P', c, hn, hP', hρ⟩)
  · exact hf.own hQ (hO.symm ▸ hcore₁ hρ)
  · obtain ⟨-, P, -, hP, hPO⟩ := h.exists_of_first hP' hn
    exact hf.nest (hPO.trans hO.symm) hP hQ hρ

/-- What the second node uses besides the new channel has nothing in common with its territory. -/
theorem disjoint_territory (hf : Forest E core A) (h : Sprouts E E' R k O P₁ P₂)
    (hcore₁ : core' P₁.node ⊆ core O) {Q' : Place} {d : Id} (hQ' : E' .client Q' d) (hd : d ≠ k)
    (hn : Q'.node = P₂.node) : Disjoint (territory E' core' A P₁.node) (A d) := by
  obtain ⟨Q, hQ, hRQ⟩ := h.old hQ' hd
  have hO := h.node_of_second hRQ hn
  refine Set.disjoint_left.2 ?_
  rintro ρ (hρ | ⟨P', c, hn', hP', hρ⟩) hρ'
  · exact Set.disjoint_left.1 (hf.clear hQ) (hO.symm ▸ hcore₁ hρ) hρ'
  · obtain ⟨-, P, hRP, hP, hPO⟩ := h.exists_of_first hP' hn'
    have hcd : c ≠ d := by
      rintro rfl
      -- one client end in two nodes
      cases hf.unique hP hQ
      exact h.ne (hn'.symm.trans ((congrArg Place.node (h.injective hRP hRQ)).trans hn))
    exact Set.disjoint_left.1 (hf.apart (hPO.trans hO.symm) hcd hP hQ) hρ hρ'

/-- The core of the second node is not in the territory of the new channel. -/
theorem disjoint_core_territory (hf : Forest E core A) (h : Sprouts E E' R k O P₁ P₂)
    (hcore₂ : core' P₂.node ⊆ core O) (hcores : Disjoint (core' P₁.node) (core' P₂.node)) :
    Disjoint (core' P₂.node) (territory E' core' A P₁.node) := by
  refine Set.disjoint_left.2 ?_
  rintro ρ hρ (hρ' | ⟨P', c, hn, hP', hρ'⟩)
  · exact Set.disjoint_left.1 hcores hρ' hρ
  · obtain ⟨-, P, -, hP, hPO⟩ := h.exists_of_first hP' hn
    exact Set.disjoint_left.1 (hf.clear hP) (hPO.symm ▸ hcore₂ hρ) hρ'

/-- Where a node becomes two that share a new channel, there is a forest again, and the new channel
has its territory. -/
theorem sprout (hf : Forest E core A) (h : Sprouts E E' R k O P₁ P₂)
    (hcore : ∀ N, N ≠ P₁.node → N ≠ P₂.node → core' N ⊆ core N)
    (hcore₁ : core' P₁.node ⊆ core O) (hcore₂ : core' P₂.node ⊆ core O)
    (hcores : Disjoint (core' P₁.node) (core' P₂.node)) :
    Forest E' core' (Function.update A k (territory E' core' A P₁.node)) := by
  have hA : ∀ {c : Id}, c ≠ k →
      Function.update A k (territory E' core' A P₁.node) c = A c :=
    fun hc => Function.update_of_ne hc ..
  have hk : Function.update A k (territory E' core' A P₁.node) k = territory E' core' A P₁.node :=
    Function.update_self ..
  have hsub : ∀ {P' P : Place}, R P' P → core' P'.node ⊆ core P.node := by
    intro P' P hRP
    rcases h.node hRP with ⟨hP₁ | hP₂, hP⟩ | ⟨hP₁, hP₂, hP⟩
    · rw [hP₁, hP]
      exact hcore₁
    · rw [hP₂, hP]
      exact hcore₂
    · rw [← hP]
      exact hcore _ hP₁ hP₂
  refine ⟨?_, ?_, ?_, ?_, ?_, ?_⟩
  · intro σ P' Q' c hP' hQ'
    by_cases hc : c = k
    · subst hc
      cases σ with
      | provider => rw [h.provider hP', h.provider hQ']
      | client => rw [h.client hP', h.client hQ']
    · obtain ⟨P, hP, hRP⟩ := h.old hP' hc
      obtain ⟨Q, hQ, hRQ⟩ := h.old hQ' hc
      cases hf.unique hP hQ
      exact h.injective hRP hRQ
  · intro P' Q' c d hn hP' hQ'
    have hiff : c = k ↔ d = k := by
      rw [h.provides hP', h.provides hQ', hn]
    by_cases hc : c = k
    · rw [hc, hiff.1 hc]
    · obtain ⟨P, hP, hRP⟩ := h.old hP' hc
      obtain ⟨Q, hQ, hRQ⟩ := h.old hQ' (mt hiff.2 hc)
      exact hf.single (h.node_eq hRP hRQ hn) hP hQ
  · intro P' Q' c d hn hP' hQ'
    by_cases hd : d = k
    · have hn₁ := hn.trans ((h.provides hQ').1 hd)
      rw [hd, hk, hA (h.exists_of_first hP' hn₁).1]
      exact fun ρ hρ => .inr ⟨P', c, hn₁, hP', hρ⟩
    · obtain ⟨Q, hQ, hRQ⟩ := h.old hQ' hd
      rw [hA hd]
      by_cases hc : c = k
      · subst hc
        rw [hk]
        refine territory_subset hf h hcore₁ hQ (h.node_of_second hRQ (hn.symm.trans ?_))
        rw [h.client hP']
      · obtain ⟨P, hP, hRP⟩ := h.old hP' hc
        rw [hA hc]
        exact hf.nest (h.node_eq hRP hRQ hn) hP hQ
  · intro P' Q' c d hn hcd hP' hQ'
    by_cases hc : c = k
    · subst hc
      have hn₂ : Q'.node = P₂.node := by
        rw [← hn, h.client hP']
      rw [hk, hA (Ne.symm hcd)]
      exact disjoint_territory hf h hcore₁ hQ' (Ne.symm hcd) hn₂
    · by_cases hd : d = k
      · subst hd
        have hn₂ : P'.node = P₂.node := by
          rw [hn, h.client hQ']
        rw [hk, hA hc]
        exact (disjoint_territory hf h hcore₁ hP' hc hn₂).symm
      · obtain ⟨P, hP, hRP⟩ := h.old hP' hc
        obtain ⟨Q, hQ, hRQ⟩ := h.old hQ' hd
        rw [hA hc, hA hd]
        exact hf.apart (h.node_eq hRP hRQ hn) hcd hP hQ
  · intro P' c hP'
    by_cases hc : c = k
    · rw [hc, hk, (h.provides hP').1 hc]
      exact Set.subset_union_left
    · obtain ⟨P, hP, hRP⟩ := h.old hP' hc
      rw [hA hc]
      exact (hsub hRP).trans (hf.own hP)
  · intro P' c hP'
    by_cases hc : c = k
    · subst hc
      rw [hk, h.client hP']
      exact disjoint_core_territory hf h hcore₂ hcores
    · obtain ⟨P, hP, hRP⟩ := h.old hP' hc
      rw [hA hc]
      exact (hf.clear hP).mono_left (hsub hRP)

end Sprouts

end Forest

end Rendezvous
