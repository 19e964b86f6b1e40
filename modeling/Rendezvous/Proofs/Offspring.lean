import Rendezvous.Proofs.Linear
import Rendezvous.Proofs.Rooted

/-!
# New processes in a rooted net

A process that is founded or created keeps a net rooted, if nobody else lives in its pool. The new
pool joins the territory of whatever is above the founder, and what the new process is given is
behind the channel that it provides (`Rooted.born`). `Rooted.founds` and `Rooted.creates` are the
two cases: the client end of the new channel is with the founder, or with the caller.
-/

namespace Rendezvous

namespace Net

variable {n n' : Net} {F F' : Id → Prop} {A : Id → Set Id}

/-- The cores of other nodes are what they were. -/
theorem Born.core_subset {q pool : Id} {provision : Endpoint} (hb : n.Born n' q pool provision)
    {N : Node} (hN : N ≠ .process q) : n'.core N ⊆ n.core N := by
  intro ρ hρ
  cases N with
  | process p =>
    show n.home p = some ρ
    rw [← hb.home_of_ne fun h => hN (congrArg Node.process h)]
    exact hρ
  | _ => cases hρ

/-- Nobody shares a pool if nobody did, and the new process has one of its own. -/
theorem Born.alone {q pool : Id} {provision : Endpoint} (hb : n.Born n' q pool provision)
    (hempty : ∀ p, n.home p ≠ some pool)
    (halone : ∀ {p r π : Id}, n.home p = some π → n.home r = some π → p = r) {p r π : Id}
    (hp : n'.home p = some π) (hr : n'.home r = some π) : p = r := by
  by_cases hpq : p = q <;> by_cases hrq : r = q
  · rw [hpq, hrq]
  · rw [hpq, hb.home_self] at hp
    rw [hb.home_of_ne hrq, ← hp] at hr
    exact absurd hr (hempty r)
  · rw [hrq, hb.home_self] at hr
    rw [hb.home_of_ne hpq, ← hr] at hp
    exact absurd hp (hempty p)
  · rw [hb.home_of_ne hpq] at hp
    rw [hb.home_of_ne hrq] at hr
    exact halone hp hr

namespace Rooted

/-- A new process takes over some ends of node `O`, which gets the client end of the channel that
the process provides. `G` are the channels that have `O` behind them. -/
theorem born (hr : n.Rooted F A) {q pool : Id} {provision : Endpoint}
    (hb : n.Born n' q pool provision) {ph : Sym} {O : Node} {P₂ : Place}
    {R : Place → Place → Prop} (G : Id → Prop)
    (hsprouts : Forest.Sprouts (n.Ends F) (n'.Ends F') R provision.channel O (.bound q ph) P₂)
    (hO : P₂.node = O) (hempty : ∀ p, n.home p ≠ some pool)
    (hlive : ∀ {p : Id} {ph : Sym} {e : Endpoint}, n'.live p ph = some e →
      e = provision ∨ ∃ p' ph', n.live p' ph' = some e)
    (hup : ∀ {c d : Id}, A c ⊆ A d → G c → G d)
    (hone : ∀ {c d : Id}, Disjoint (A c) (A d) → G c → ¬ G d)
    (hown : ∀ {P : Place} {c : Id}, P.node = O → n.Ends F .provider P c → G c)
    (hclear : ∀ {P : Place} {c : Id}, P.node = O → n.Ends F .client P c → ¬ G c) :
    ∃ A', n'.Rooted F' A' := by
  have hA : ∀ c, pool ∉ A c := by
    intro c hmem
    obtain ⟨p, hp⟩ := hr.settled hmem
    exact hempty p hp
  have hcore : ∀ N, pool ∉ n.core N := by
    intro N hmem
    cases N with
    | process p => exact hempty p hmem
    | _ => cases hmem
  have hself : ∀ {ρ : Id}, ρ ∈ n'.core (.process q) ↔ ρ = pool := by
    intro ρ
    show n'.home q = some ρ ↔ _
    rw [hb.home_self, Option.some_inj]
    exact eq_comm
  have hmessage : ∀ {z : Id} {m : Message}, n'.message z = some m → n.message z = some m := by
    intro z m hm
    rwa [hb.message] at hm
  have hext := hr.forest.extend G hA hcore hup hone hown hclear
  have hcore₂ : n'.core P₂.node ⊆ n.core O := by
    rw [← hO]
    exact hb.core_subset (Ne.symm hsprouts.ne)
  have hforest : Forest (n'.Ends F') n'.core _ :=
    hext.sprout hsprouts
      (fun N hN _ => (hb.core_subset hN).trans Set.subset_union_left)
      (fun ρ hρ => .inr ⟨hself.1 hρ, rfl⟩)
      (hcore₂.trans Set.subset_union_left)
      (Set.disjoint_left.2 fun ρ hρ hρ' => hcore _ (hcore₂ (hself.1 hρ ▸ hρ')))
  -- channels that are not new keep what they have, and may get the new pool
  have hold : ∀ {T : Set Id} {c ρ : Id}, c ≠ provision.channel → ρ ∈ A c →
      ρ ∈ Function.update (fun c => A c ∪ {ρ | ρ = pool ∧ G c}) provision.channel T c := by
    intro T c ρ hc hρ
    rw [Function.update_of_ne hc]
    exact .inl hρ
  have hsettled : ∀ {c ρ : Id}, ρ ∈ A c ∪ {ρ | ρ = pool ∧ G c} → ∃ p, n'.home p = some ρ := by
    rintro c ρ (hρ | ⟨rfl, -⟩)
    · obtain ⟨p, hp⟩ := hr.settled hρ
      exact ⟨p, hb.home_of_home hp⟩
    · exact ⟨q, hb.home_self⟩
  refine ⟨_, hforest, ?_, ?_, ?_, ?_, ?_, ?_, ?_⟩
  · intro p h e hl
    rcases hlive hl with rfl | ⟨p', ph', hl'⟩
    · rw [Function.update_self, hb.pool_eq]
      exact .inl (hself.2 rfl)
    · exact hold (hb.unused.live hl') (hr.live hl')
  · intro z m v hm hv
    exact hold (hb.unused.value (hmessage hm) hv) (hr.value (hmessage hm) hv)
  · intro z m k hm hk
    exact hold (hb.unused.cont (hmessage hm) hk) (hr.cont (hmessage hm) hk)
  · intro y x hf
    rw [hb.forward] at hf
    obtain ⟨ρ, hρ, hnot⟩ := hr.strict hf
    refine ⟨ρ, hold (hb.unused.target hf) hρ, ?_⟩
    rw [Function.update_of_ne (hb.unused.source hf)]
    rintro (hmem | ⟨rfl, -⟩)
    · exact hnot hmem
    · exact hA x hρ
  · intro c ρ hρ
    by_cases hc : c = provision.channel
    · rw [hc, Function.update_self] at hρ
      rcases hρ with hρ | ⟨P, u, -, -, hρ⟩
      · exact ⟨q, hρ⟩
      · exact hsettled hρ
    · rw [Function.update_of_ne hc] at hρ
      exact hsettled hρ
  · exact hb.alone hempty hr.alone
  · intro z w svc svc' hs hs' heq
    rw [hb.service] at hs hs'
    exact hr.lone hs hs' heq

/-! ## Founders -/

section Founds

variable {p π q pool : Id} {via ph : Sym} {provision : Endpoint} {gifts : List Gift}

/-- Where an end was before `p` founded `q`. -/
inductive Founded (p : Id) (via : Sym) (q : Id) (gifts : List Gift) : Place → Place → Prop
  | given {g : Gift} (h : g ∈ gifts) :
    Founded p via q gifts (.bound q g.parameter.placeholder) (.bound p g.value)
  | same {P : Place} (hq : P.node ≠ .process q) (hvia : P ≠ .bound p via)
    (hg : ∀ g ∈ gifts, P ≠ .bound p g.value) : Founded p via q gifts P P

theorem Founded.injective (hnodup : (gifts.map Gift.value).Nodup) {P' Q' P : Place}
    (hP : Founded p via q gifts P' P) (hQ : Founded p via q gifts Q' P) : P' = Q' := by
  cases hP with
  | given hg =>
    generalize hP : Place.bound p _ = P at hQ
    cases hQ with
    | given hg' =>
      rw [List.inj_on_of_nodup_map hnodup hg hg' (Place.bound.inj hP).2]
    | same _ _ hkept => exact absurd hP.symm (hkept _ hg)
  | same _ _ hkept =>
    cases hQ with
    | given hg => exact absurd rfl (hkept _ hg)
    | same => rfl

theorem founder_ne (hf : n.Founds n' p π q pool via ph provision gifts) : p ≠ q := by
  rintro rfl
  cases hf.new.symm.trans hf.home

/-- Every end of an old channel was an end before. -/
theorem ends_of_founds (hf : n.Founds n' p π q pool via ph provision gifts)
    (hw : ∀ {z : Id} {svc : Service}, n.service z = some svc → n.home svc.process = some svc.pool)
    {σ : Side} {P' : Place} {d : Id} (hP' : n'.Ends F σ P' d) (hd : d ≠ provision.channel) :
    ∃ P, n.Ends F σ P d ∧ Founded p via q gifts P' P := by
  have hpq := founder_ne hf
  have hmessage : ∀ {z : Id} {m : Message}, n'.message z = some m → n.message z = some m := by
    intro z m hm
    rwa [hf.message] at hm
  have hforward : ∀ {y x : Id}, n'.forward y = some x → n.forward y = some x := by
    intro y x h
    rwa [hf.forward] at h
  cases hP' with
  | @bound _ r h e hl hsvc hσ =>
    rw [hf.service] at hsvc
    by_cases hrq : r = q
    · subst hrq
      rcases hf.live_new hl with ⟨-, rfl⟩ | ⟨g, hg, rfl, rfl⟩
      · exact absurd rfl hd
      · -- a gift, of which the giver was a client too
        obtain ⟨hgl, hgπ, hgpool⟩ := hf.given g hg
        rw [hf.home_self, Option.some_inj] at hσ
        cases σ with
        | provider => exact absurd (hσ.1 rfl).symm hgpool
        | client =>
          refine ⟨_, .client hgl hf.idle ?_, .given hg⟩
          rw [hf.home]
          exact fun heq => hgπ (Option.some.inj heq).symm
    · rw [hf.home_of_ne hrq] at hσ
      by_cases hrp : r = p
      · subst hrp
        rw [hf.live_giver] at hl
        split at hl
        · cases hl
          exact absurd rfl hd
        next hvia =>
        split at hl
        · cases hl
        next hgiven =>
        refine ⟨_, .bound hl hsvc hσ, .same (fun heq => hrq (Node.process.inj heq)) ?_ ?_⟩
        · rintro ⟨⟩
          exact hvia rfl
        · rintro g hg ⟨⟩
          exact hgiven (List.mem_map_of_mem hg)
      · rw [hf.live_other hrp hrq] at hl
        refine ⟨_, .bound hl hsvc hσ, .same (fun heq => hrq (Node.process.inj heq)) ?_ ?_⟩
        · exact fun heq => hrp (Place.bound.inj heq).1
        · exact fun g _ heq => hrp (Place.bound.inj heq).1
  | waiting hs hσ =>
    rw [hf.service] at hs
    refine ⟨_, .waiting hs hσ, .same ?_ ?_ ?_⟩
    · intro heq
      have hhome := hw hs
      rw [Node.process.inj heq, hf.new] at hhome
      cases hhome
    · exact fun heq => hf.idle hs (Place.bound.inj heq).1
    · exact fun g _ heq => hf.idle hs (Place.bound.inj heq).1
  | value h hv => exact ⟨_, .value (hmessage h) hv, .same nofun nofun nofun⟩
  | cont h hk hσ => exact ⟨_, .cont (hmessage h) hk hσ, .same nofun nofun nofun⟩
  | front h hσ => exact ⟨_, .front (hmessage h) hσ, .same nofun nofun nofun⟩
  | source h => exact ⟨_, .source (hforward h), .same nofun nofun nofun⟩
  | target h => exact ⟨_, .target (hforward h), .same nofun nofun nofun⟩
  | outside h => exact ⟨_, .outside h, .same nofun nofun nofun⟩

/-- The ends of the new channel are with the new process and its founder. -/
theorem ends_of_founds_new (hf : n.Founds n' p π q pool via ph provision gifts)
    (hF : ¬ F provision.channel) {σ : Side} {P' : Place}
    (hP' : n'.Ends F σ P' provision.channel) :
    P' = .bound q ph ∧ σ = .provider ∨ P' = .bound p via ∧ σ = .client := by
  have hpq := founder_ne hf
  have hu := hf.unused
  generalize hch : provision.channel = d at hP'
  cases hP' with
  | @bound _ r h e hl hsvc hσ =>
    by_cases hrq : r = q
    · subst hrq
      rcases hf.live_new hl with ⟨rfl, rfl⟩ | ⟨g, hg, rfl, rfl⟩
      · refine .inl ⟨rfl, hσ.2 ?_⟩
        rw [hf.home_self, hf.pool_eq]
      · exact absurd hch.symm (hu.live (hf.given g hg).1)
    · by_cases hrp : r = p
      · subst hrp
        rw [hf.home_of_ne hpq, hf.home] at hσ
        rw [hf.live_giver] at hl
        split at hl
        · next hvia =>
          cases hl
          subst hvia
          refine .inr ⟨rfl, ?_⟩
          cases σ with
          | provider =>
            refine absurd ?_ hf.elsewhere
            rw [← hf.pool_eq]
            exact (Option.some.inj (hσ.1 rfl)).symm
          | client => rfl
        · split at hl
          · cases hl
          · exact absurd hch.symm (hu.live hl)
      · rw [hf.live_other hrp hrq] at hl
        exact absurd hch.symm (hu.live hl)
  | waiting hs hσ =>
    rw [hf.service] at hs
    exact absurd hch.symm (hu.service hs)
  | value h hv =>
    rw [hf.message] at h
    exact absurd hch.symm (hu.value h hv)
  | cont h hk hσ =>
    rw [hf.message] at h
    exact absurd hch.symm (hu.cont h hk)
  | front h hσ =>
    rw [hf.message] at h
    exact absurd hch.symm (hu.message h)
  | source h =>
    rw [hf.forward] at h
    exact absurd hch.symm (hu.source h)
  | target h =>
    rw [hf.forward] at h
    exact absurd hch.symm (hu.target h)
  | outside h =>
    subst hch
    exact absurd h hF

/-- The founder becomes two nodes, and the new process provides the channel between them. -/
theorem sprouts_of_founds (hf : n.Founds n' p π q pool via ph provision gifts)
    (hF : ¬ F provision.channel)
    (hw : ∀ {z : Id} {svc : Service}, n.service z = some svc → n.home svc.process = some svc.pool) :
    Forest.Sprouts (n.Ends F) (n'.Ends F) (Founded p via q gifts) provision.channel (.process p)
      (.bound q ph) (.bound p via) := by
  refine ⟨fun heq => founder_ne hf (Node.process.inj heq).symm, ends_of_founds hf hw,
    Founded.injective hf.nodup, ?_, ?_, ?_, ?_⟩
  · rintro P' P (_ | ⟨hq, -, -⟩)
    · exact .inl ⟨.inl rfl, rfl⟩
    · by_cases hn : P'.node = .process p
      · exact .inl ⟨.inr hn, hn⟩
      · exact .inr ⟨hq, hn, rfl⟩
  · intro P' c hP'
    constructor
    · rintro rfl
      rcases ends_of_founds_new hf hF hP' with ⟨rfl, -⟩ | ⟨-, hσ⟩
      · rfl
      · cases hσ
    · -- the other channels of the new process are held, not provided
      intro hn
      by_contra hc
      obtain ⟨P, hP, hRP⟩ := ends_of_founds hf hw hP' hc
      cases hRP with
      | given hg =>
        obtain ⟨e, hl, -, hσ⟩ := hP.exists_live hf.idle
        obtain ⟨hgl, hgπ, -⟩ := hf.given _ hg
        cases hgl.symm.trans hl
        have hhome := hσ.1 rfl
        rw [hf.home] at hhome
        exact hgπ (Option.some.inj hhome).symm
      | same hq => exact hq hn
  · intro P' hP'
    rcases ends_of_founds_new hf hF hP' with ⟨rfl, -⟩ | ⟨-, hσ⟩
    · rfl
    · cases hσ
  · intro P' hP'
    rcases ends_of_founds_new hf hF hP' with ⟨-, hσ⟩ | ⟨rfl, -⟩
    · cases hσ
    · rfl

/-- An instance in a pool of its own keeps a net rooted. -/
theorem founds (hr : n.Rooted F A) (hf : n.Founds n' p π q pool via ph provision gifts)
    (hempty : ∀ r, n.home r ≠ some pool) (hF : ¬ F provision.channel)
    (hw : ∀ {z : Id} {svc : Service}, n.service z = some svc →
      n.home svc.process = some svc.pool) : ∃ A', n'.Rooted F A' := by
  refine hr.born hf.toBorn (fun c => π ∈ A c) (sprouts_of_founds hf hF hw) rfl hempty
    hf.live_of_live (fun hsub hG => hsub hG) (fun hdisj hG => Set.disjoint_left.1 hdisj hG) ?_ ?_
  · intro P c hn hP
    exact hr.forest.own hP (hn ▸ hf.home)
  · intro P c hn hP
    exact Set.disjoint_left.1 (hr.forest.clear hP) (hn ▸ hf.home)

end Founds

/-! ## Creations -/

section Creates

variable {q pool : Id} {ph : Sym} {provision : Endpoint} {receptions : List (Sym × Endpoint)}

/-- Where an end was before `q` was created. -/
inductive Endowed (q : Id) (receptions : List (Sym × Endpoint)) : Place → Place → Prop
  | received {h : Sym} {e : Endpoint} (hmem : (h, e) ∈ receptions) :
    Endowed q receptions (.bound q h) (.outside e.channel)
  | same {P : Place} (hq : P.node ≠ .process q)
    (hkept : ∀ r ∈ receptions, P ≠ .outside r.2.channel) : Endowed q receptions P P

theorem Endowed.injective (hnodup : (receptions.map fun r => r.2.channel).Nodup)
    {P' Q' P : Place} (hP : Endowed q receptions P' P) (hQ : Endowed q receptions Q' P) :
    P' = Q' := by
  cases hP with
  | received hmem =>
    generalize hP : Place.outside _ = P at hQ
    cases hQ with
    | received hmem' =>
      cases List.inj_on_of_nodup_map hnodup hmem hmem' (Place.outside.inj hP)
      rfl
    | same _ hkept => exact absurd hP.symm (hkept _ hmem)
  | same _ hkept =>
    cases hQ with
    | received hmem => exact absurd rfl (hkept _ hmem)
    | same => rfl

/-- Every end of an old channel was an end before. -/
theorem ends_of_creates (hc : n.Creates n' q pool ph provision receptions)
    (hw : ∀ {z : Id} {svc : Service}, n.service z = some svc → n.home svc.process = some svc.pool)
    (hheld : ∀ r ∈ receptions, F r.2.channel)
    (hF' : ∀ {d : Id}, F' d → d ≠ provision.channel → F d ∧ ∀ r ∈ receptions, d ≠ r.2.channel)
    {σ : Side} {P' : Place} {d : Id} (hP' : n'.Ends F' σ P' d) (hd : d ≠ provision.channel) :
    ∃ P, n.Ends F σ P d ∧ Endowed q receptions P' P := by
  have hmessage : ∀ {z : Id} {m : Message}, n'.message z = some m → n.message z = some m := by
    intro z m hm
    rwa [hc.message] at hm
  have hforward : ∀ {y x : Id}, n'.forward y = some x → n.forward y = some x := by
    intro y x h
    rwa [hc.forward] at h
  cases hP' with
  | @bound _ r h e hl hsvc hσ =>
    rw [hc.service] at hsvc
    by_cases hrq : r = q
    · subst hrq
      rcases hc.live_new hl with ⟨-, rfl⟩ | hmem
      · exact absurd rfl hd
      · rw [hc.home_self, Option.some_inj] at hσ
        cases σ with
        | provider => exact absurd (hσ.1 rfl).symm (hc.elsewhere _ hmem)
        | client => exact ⟨_, .outside (hheld _ hmem), .received hmem⟩
    · rw [hc.home_of_ne hrq] at hσ
      rw [hc.live_other hrq] at hl
      exact ⟨_, .bound hl hsvc hσ, .same (fun heq => hrq (Node.process.inj heq)) nofun⟩
  | waiting hs hσ =>
    rw [hc.service] at hs
    refine ⟨_, .waiting hs hσ, .same ?_ nofun⟩
    intro heq
    have hhome := hw hs
    rw [Node.process.inj heq, hc.new] at hhome
    cases hhome
  | value h hv => exact ⟨_, .value (hmessage h) hv, .same nofun nofun⟩
  | cont h hk hσ => exact ⟨_, .cont (hmessage h) hk hσ, .same nofun nofun⟩
  | front h hσ => exact ⟨_, .front (hmessage h) hσ, .same nofun nofun⟩
  | source h => exact ⟨_, .source (hforward h), .same nofun nofun⟩
  | target h => exact ⟨_, .target (hforward h), .same nofun nofun⟩
  | outside h =>
    obtain ⟨hF, hkept⟩ := hF' h hd
    exact ⟨_, .outside hF, .same nofun fun r hr heq => hkept r hr (Place.outside.inj heq)⟩

/-- The ends of the new channel are with the new process and the caller. -/
theorem ends_of_creates_new (hc : n.Creates n' q pool ph provision receptions) {σ : Side}
    {P' : Place} (hP' : n'.Ends F' σ P' provision.channel) :
    P' = .bound q ph ∧ σ = .provider ∨ P' = .outside provision.channel ∧ σ = .client := by
  have hu := hc.unused
  generalize hch : provision.channel = d at hP'
  cases hP' with
  | @bound _ r h e hl hsvc hσ =>
    by_cases hrq : r = q
    · subst hrq
      rcases hc.live_new hl with ⟨rfl, rfl⟩ | hmem
      · refine .inl ⟨rfl, hσ.2 ?_⟩
        rw [hc.home_self, hc.pool_eq]
      · obtain ⟨p, h', hl', -⟩ := hc.provided _ hmem
        exact absurd hch.symm (hu.live hl')
    · rw [hc.live_other hrq] at hl
      exact absurd hch.symm (hu.live hl)
  | waiting hs hσ =>
    rw [hc.service] at hs
    exact absurd hch.symm (hu.service hs)
  | value h hv =>
    rw [hc.message] at h
    exact absurd hch.symm (hu.value h hv)
  | cont h hk hσ =>
    rw [hc.message] at h
    exact absurd hch.symm (hu.cont h hk)
  | front h hσ =>
    rw [hc.message] at h
    exact absurd hch.symm (hu.message h)
  | source h =>
    rw [hc.forward] at h
    exact absurd hch.symm (hu.source h)
  | target h =>
    rw [hc.forward] at h
    exact absurd hch.symm (hu.target h)
  | outside h => exact .inr ⟨rfl, rfl⟩

/-- The caller becomes two nodes, and the new process provides the channel between them. -/
theorem sprouts_of_creates (hc : n.Creates n' q pool ph provision receptions)
    (hw : ∀ {z : Id} {svc : Service}, n.service z = some svc → n.home svc.process = some svc.pool)
    (hheld : ∀ r ∈ receptions, F r.2.channel)
    (hF' : ∀ {d : Id}, F' d → d ≠ provision.channel → F d ∧ ∀ r ∈ receptions, d ≠ r.2.channel) :
    Forest.Sprouts (n.Ends F) (n'.Ends F') (Endowed q receptions) provision.channel .outside
      (.bound q ph) (.outside provision.channel) := by
  refine ⟨nofun, ends_of_creates hc hw hheld hF', Endowed.injective hc.distinct, ?_, ?_, ?_, ?_⟩
  · rintro P' P (_ | ⟨hq, -⟩)
    · exact .inl ⟨.inl rfl, rfl⟩
    · by_cases hn : P'.node = .outside
      · exact .inl ⟨.inr hn, hn⟩
      · exact .inr ⟨hq, hn, rfl⟩
  · intro P' c hP'
    constructor
    · rintro rfl
      rcases ends_of_creates_new hc hP' with ⟨rfl, -⟩ | ⟨-, hσ⟩
      · rfl
      · cases hσ
    · intro hn
      by_contra hd
      obtain ⟨P, hP, hRP⟩ := ends_of_creates hc hw hheld hF' hP' hd
      cases hRP with
      | received hmem => cases hP
      | same hq => exact hq hn
  · intro P' hP'
    rcases ends_of_creates_new hc hP' with ⟨rfl, -⟩ | ⟨-, hσ⟩
    · rfl
    · cases hσ
  · intro P' hP'
    rcases ends_of_creates_new hc hP' with ⟨-, hσ⟩ | ⟨rfl, -⟩
    · cases hσ
    · rfl

/-- A process that is created in a pool of its own and receives channels that the caller has to
hand keeps a net rooted. -/
theorem creates (hr : n.Rooted F A) (hc : n.Creates n' q pool ph provision receptions)
    (hempty : ∀ r, n.home r ≠ some pool)
    (hw : ∀ {z : Id} {svc : Service}, n.service z = some svc → n.home svc.process = some svc.pool)
    (hheld : ∀ r ∈ receptions, F r.2.channel)
    (hF' : ∀ {d : Id}, F' d → d ≠ provision.channel → F d ∧ ∀ r ∈ receptions, d ≠ r.2.channel) :
    ∃ A', n'.Rooted F' A' := by
  refine hr.born hc.toBorn (fun _ => False) (sprouts_of_creates hc hw hheld hF') rfl hempty
    hc.live_of_live (fun _ hG => hG) (fun _ hG => hG.elim) ?_ (fun _ _ hG => hG)
  -- the caller provides nothing
  intro P c hn hP
  cases hP <;> cases hn

end Creates

end Rooted

end Net

end Rendezvous
