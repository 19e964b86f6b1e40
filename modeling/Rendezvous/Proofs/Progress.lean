import Rendezvous.Proofs.Rooted
import Rendezvous.Proofs.Steps

/-!
# Progress

In a net that is typed and rooted, a term that is accepted goes through. Forwards lead up, so every
action lands somewhere (`exists_leads`). Both sides of a channel are in one place each, so what is
pending there is of the other side (`side_ne`), and types make it the dual of what arrives
(`Half.Faces.meets`). A consumer is never sent a channel of its own pool, because one of the two is
behind the channel that they meet on, and the other is not.

`exists_transition` is the result for a store: the transition succeeds, and so does its commit.
-/

namespace Rendezvous

/-- A walk along forwards that lead up comes to an end. `seen` are channels below the one where it
is. -/
theorem exists_leads_from {halves : Table Id Half} {A : Id → Set Id}
    (hup : ∀ {x : Id} {f : Forward}, halves.get? x = some (.forward f) →
      A x ⊆ A f.target ∧ ∃ π ∈ A f.target, π ∉ A x) (c : Id) (seen : List Id)
    (hseen : ∀ x ∈ seen, ∃ π ∈ A c, π ∉ A x) : ∃ passed z, Leads halves.get? c passed z := by
  generalize hk : unseen halves.keys seen = k
  induction k using Nat.strongRecOn generalizing c seen with
  | _ k ih =>
    match hc : halves.get? c with
    | none => exact ⟨[], c, .stay fun f hf => nomatch hc.symm.trans hf⟩
    | some (.message m) => exact ⟨[], c, .stay fun f hf => nomatch hc.symm.trans hf⟩
    | some (.service svc) => exact ⟨[], c, .stay fun f hf => nomatch hc.symm.trans hf⟩
    | some (.forward f) =>
      obtain ⟨hsub, hstrict⟩ := hup hc
      have hnew : c ∉ seen := by
        intro hmem
        obtain ⟨π, hπ, hnot⟩ := hseen c hmem
        exact hnot hπ
      have hlt : unseen halves.keys (c :: seen) < k := by
        rw [← hk]
        exact unseen_cons_lt (Table.mem_keys_of_get?_eq_some hc) hnew
      have hbelow : ∀ x ∈ c :: seen, ∃ π ∈ A f.target, π ∉ A x := by
        intro x hx
        rcases List.mem_cons.1 hx with rfl | hx
        · exact hstrict
        · obtain ⟨π, hπ, hnot⟩ := hseen x hx
          exact ⟨π, hsub hπ, hnot⟩
      obtain ⟨passed, z, hl⟩ := ih _ hlt f.target (c :: seen) hbelow rfl
      exact ⟨c :: passed, z, .hop hc hl⟩

/-! ## What fits where -/

/-- A half goes with a connective as something from side `σ` of the channel. -/
inductive Half.Faces (node : TypeNode) (σ : Side) : Half → Prop
  | message {m : Message} (hfits : m.payload.Fits node)
    (hσ : σ = .provider ↔ node.polarity = .pos) : Faces node σ (.message m)
  | service {svc : Service} (hfits : svc.handler.Fits node)
    (hσ : σ = .provider ↔ node.polarity = .neg) : Faces node σ (.service svc)

/-- Two halves are a message and a service, in either order. -/
inductive Half.Meets : Half → Half → Message → Service → Prop
  | serve {m : Message} {svc : Service} : Meets (.message m) (.service svc) m svc
  | fetch {m : Message} {svc : Service} : Meets (.service svc) (.message m) m svc

theorem Half.Meets.joins {half half' : Half} {m : Message} {svc : Service} {term : Term} (z : Id)
    (h : half.Meets half' m svc) (hr : svc.reply m.payload = some term) :
    Joins z half (some half') (svc.served z m.payload term) := by
  cases h with
  | serve => exact .serve hr
  | fetch => exact .fetch hr

namespace Half.Faces

variable {node node' : TypeNode} {σ σ' : Side} {half half' : Half}

theorem congr (h : half.Faces node σ) (hs : node.SameShape node') : half.Faces node' σ := by
  cases h with
  | message hfits hσ => exact .message (hfits.congr hs) (hs.polarity_eq ▸ hσ)
  | service hfits hσ => exact .service (hfits.congr hs) (hs.polarity_eq ▸ hσ)

theorem side_eq {P : Prop} (hσ : σ = .provider ↔ P) (hσ' : σ' = .provider ↔ P) : σ = σ' := by
  have hiff := hσ.trans hσ'.symm
  cases σ with
  | provider => exact (hiff.1 rfl).symm
  | client =>
    cases σ' with
    | provider => cases hiff.2 rfl
    | client => rfl

/-- Halves from the two sides of a channel are dual, and the one takes the other, unless it is sent a
channel of its own pool. -/
theorem meets (h : half.Faces node σ) (h' : half'.Faces node σ') (hne : σ ≠ σ')
    (hv : ∀ {m svc v}, half.Meets half' m svc → m.payload.value? = some v → v.pool ≠ svc.pool) :
    ∃ m svc term, half.Meets half' m svc ∧ svc.reply m.payload = some term := by
  cases h with
  | message hfits hσ =>
    cases h' with
    | message _ hσ' => exact absurd (side_eq hσ hσ') hne
    | service hfits' _ =>
      obtain ⟨term, hreply⟩ := Service.reply_of_fits hfits hfits' fun v => hv .serve
      exact ⟨_, _, term, .serve, hreply⟩
  | service hfits hσ =>
    cases h' with
    | message hfits' _ =>
      obtain ⟨term, hreply⟩ := Service.reply_of_fits hfits' hfits fun v => hv .fetch
      exact ⟨_, _, term, .fetch, hreply⟩
    | service _ hσ' => exact absurd (side_eq hσ hσ') hne

/-- A half has come in the direction that the provider of its channel takes. -/
theorem ownDirection (h : half.Faces node .provider) :
    Drafting.ownDirection node.polarity half = true := by
  cases h with
  | message _ hσ =>
    rw [hσ.1 rfl]
    rfl
  | service _ hσ =>
    rw [hσ.1 rfl]
    rfl

end Half.Faces

/-- The pool whose channel a half carries, or from which it was left. -/
inductive Half.Concerns : Half → Id → Prop
  | value {m : Message} {v : Endpoint} (h : m.payload.value? = some v) : Concerns (.message m) v.pool
  | waiter {svc : Service} : Concerns (.service svc) svc.pool

/-- The half fits channel `z` as something from side `σ`. What it concerns is behind `z` exactly if it
is from the provider's side. -/
structure Half.Lies (D : Id → TypeNode → Prop) (τ : Id → Id) (A : Id → Set Id) (z : Id) (σ : Side)
    (half : Half) : Prop where
  faces : ∃ node, D (τ z) node ∧ half.Faces node σ
  behind : ∀ π, half.Concerns π → (π ∈ A z ↔ σ = .provider)

namespace Half.Lies

variable {D : Id → TypeNode → Prop} {τ : Id → Id} {A : Id → Set Id} {z w : Id} {σ σ' : Side}
  {half half' : Half}

/-- A half moves up to a channel of the same shape. -/
theorem up (h : half.Lies D τ A z .provider) (hsub : A z ⊆ A w)
    (hshape : ∀ node, D (τ z) node → ∃ node', D (τ w) node' ∧ node.SameShape node') :
    half.Lies D τ A w .provider := by
  obtain ⟨node, hnode, hfaces⟩ := h.faces
  obtain ⟨node', hnode', hs⟩ := hshape node hnode
  exact ⟨⟨node', hnode', hfaces.congr hs⟩,
    fun π hπ => iff_of_true (hsub ((h.behind π hπ).2 rfl)) rfl⟩

/-- Halves from the two sides of a channel are dual and meet. A consumer is not in the pool of what it
is sent from the other side. -/
theorem joins (hD : Net.Functional D) (h : half.Lies D τ A z σ) (h' : half'.Lies D τ A z σ')
    (hne : σ ≠ σ') : ∃ j, Joins z half (some half') j := by
  obtain ⟨node, hnode, hfaces⟩ := h.faces
  obtain ⟨node', hnode', hfaces'⟩ := h'.faces
  cases hD _ _ _ hnode hnode'
  obtain ⟨m, svc, term, hmeets, hreply⟩ := hfaces.meets hfaces' hne fun {m svc v} hmeets hv hpool => by
    cases hmeets with
    | serve =>
      have hσ' := h'.behind _ .waiter
      rw [← hpool] at hσ'
      exact hne (Faces.side_eq (h.behind _ (.value hv)).symm hσ'.symm)
    | fetch =>
      have hσ := h.behind _ .waiter
      rw [← hpool] at hσ
      exact hne (Faces.side_eq hσ.symm (h'.behind _ (.value hv)).symm)
  exact ⟨_, hmeets.joins z hreply⟩

/-- A half has come in the direction that the provider of its channel takes. -/
theorem ownDirection (hD : Net.Functional D) (h : half.Lies D τ A z .provider) {node : TypeNode}
    (hnode : D (τ z) node) : Drafting.ownDirection node.polarity half = true := by
  obtain ⟨node', hnode', hfaces⟩ := h.faces
  cases hD _ _ _ hnode hnode'
  exact hfaces.ownDirection

end Half.Lies

/-! ## Landing -/

namespace Store

variable {s : Store} {F : Id → Prop} {A : Id → Set Id} {τ : Id → Id} {c z p : Id} {ph : Sym}
  {passed : List Id} {σ : Side} {half : Half}

theorem sub_of_forward (hr : s.net.Rooted F A) {x : Id} {f : Forward}
    (hf : s.halves.get? x = some (.forward f)) : A x ⊆ A f.target := by
  have hnet : s.net.forward x = some f.target := forward_net_eq_some.2 ⟨f, hf, rfl⟩
  exact hr.forest.nest (P := .source x) (Q := .target x) rfl (.source hnet) (.target hnet)

/-- Every action lands somewhere. -/
theorem exists_landing (hr : s.net.Rooted F A) (c : Id) :
    ∃ passed z, Leads s.halves.get? c passed z := by
  refine exists_leads_from (A := A) (fun {x f} hf => ⟨sub_of_forward hr hf, ?_⟩) c [] nofun
  exact hr.strict (forward_net_eq_some.2 ⟨f, hf, rfl⟩)

theorem sub_of_leads (hr : s.net.Rooted F A) (hl : Leads s.halves.get? c passed z) :
    A c ⊆ A z := by
  induction hl with
  | stay => exact fun _ h => h
  | hop h _ ih => exact (sub_of_forward hr h).trans ih

theorem shape_of_leads (ht : s.net.Typed s.decls.Denotes τ)
    (hl : Leads s.halves.get? c passed z) (node : TypeNode) (hnode : s.decls.Denotes (τ c) node) :
    ∃ node', s.decls.Denotes (τ z) node' ∧ node.SameShape node' := by
  induction hl generalizing node with
  | stay => exact ⟨node, hnode, .refl node⟩
  | hop h _ ih =>
    obtain ⟨ny, nx, hny, hnx, hshape⟩ := ht.forward (forward_net_eq_some.2 ⟨_, h, rfl⟩)
    cases hnode.unique hny
    obtain ⟨node', hnode', hshape'⟩ := ih nx hnx
    exact ⟨node', hnode', hshape.trans hshape'⟩

theorem target_of_leads (hl : Leads s.halves.get? c passed z) {y : Id}
    (hy : s.net.forward y = some c) : ∃ y', s.net.forward y' = some z := by
  induction hl generalizing y with
  | stay => exact ⟨y, hy⟩
  | hop h _ ih => exact ih (forward_net_eq_some.2 ⟨_, h, rfl⟩)

/-- Only a provider is led past its channel, and a forward provides the channel where it lands. -/
theorem end_of_leads (hr : s.net.Rooted F A) (hend : s.net.Ends F σ (.bound p ph) c)
    (hl : Leads s.halves.get? c passed z) :
    z = c ∨ σ = .provider ∧ ∃ y, s.net.forward y = some z := by
  cases hl with
  | stay => exact .inl rfl
  | @hop _ f _ _ h hl =>
    have hf : s.net.forward c = some f.target := forward_net_eq_some.2 ⟨f, h, rfl⟩
    cases σ with
    | provider => exact .inr ⟨rfl, target_of_leads hl hf⟩
    | client => cases hr.forest.unique hend (.source hf)

/-- What is pending on a channel lies there, on the side of who left it. -/
theorem lies_of_pending (hr : s.net.Rooted F A) (ht : s.net.Typed s.decls.Denotes τ)
    (hz : s.halves.get? z = some half) (hfor : half.forward? = none) :
    ∃ σ P, s.net.Ends F σ P z ∧ half.Lies s.decls.Denotes τ A z σ ∧
      (P = .front z ∨ ∃ svc, half = .service svc ∧ P = .bound svc.process svc.via) := by
  cases half with
  | message m =>
    have hm := message_net_eq_some.2 hz
    obtain ⟨node, hnode, hfits, hby⟩ := ht.message hm
    by_cases hprov : m.ByProvider
    · have hfront : s.net.Ends F .provider (.front z) z :=
        .front hm ⟨fun _ => hprov, fun _ => rfl⟩
      refine ⟨_, _, hfront, ⟨⟨node, hnode, .message hfits ?_⟩, ?_⟩, .inl rfl⟩
      · exact iff_of_true rfl (hby.1 hprov)
      · rintro π ⟨hv⟩
        have hsub := hr.forest.nest (P := .value z) (Q := .front z) rfl (.value hm hv) hfront
        exact iff_of_true (hsub (hr.value hm hv)) rfl
    · have hfront : s.net.Ends F .client (.front z) z :=
        .front hm ⟨nofun, fun h => absurd h hprov⟩
      refine ⟨_, _, hfront, ⟨⟨node, hnode, .message hfits ?_⟩, ?_⟩, .inl rfl⟩
      · exact iff_of_false nofun fun hpos => hprov (hby.2 hpos)
      · rintro π (@⟨_, v, hv⟩)
        have hvalue : s.net.Ends F .client (.value z) v.channel := .value hm hv
        have hne : v.channel ≠ z := by
          intro heq
          rw [heq] at hvalue
          cases hr.forest.unique hvalue hfront
        have hdisj := hr.forest.apart (P := .value z) (Q := .front z) rfl hne hvalue hfront
        exact iff_of_false (Set.disjoint_left.1 hdisj (hr.value hm hv)) nofun
  | service svc =>
    have hs := service_net_eq_some.2 hz
    have hhome := ht.waiter hs
    obtain ⟨node, hnode, hfits, hside⟩ := ht.service hs
    by_cases hprov : svc.endpoint.pool = svc.pool
    · have hwaiting : s.net.Ends F .provider (.bound svc.process svc.via) z :=
        .waiting hs ⟨fun _ => hprov, fun _ => rfl⟩
      refine ⟨_, _, hwaiting, ⟨⟨node, hnode, .service hfits ?_⟩, ?_⟩, .inr ⟨svc, rfl, rfl⟩⟩
      · exact iff_of_true rfl (hside.1 hprov)
      · rintro π ⟨⟩
        exact iff_of_true (hr.forest.own hwaiting hhome) rfl
    · have hwaiting : s.net.Ends F .client (.bound svc.process svc.via) z :=
        .waiting hs ⟨nofun, fun h => absurd h hprov⟩
      refine ⟨_, _, hwaiting, ⟨⟨node, hnode, .service hfits ?_⟩, ?_⟩, .inr ⟨svc, rfl, rfl⟩⟩
      · exact iff_of_false nofun fun hneg => hprov (hside.2 hneg)
      · rintro π ⟨⟩
        exact iff_of_false (Set.disjoint_left.1 (hr.forest.clear hwaiting) hhome) nofun
  | forward f => cases hfor

/-- What an idle process finds where it lands is from the other side. -/
theorem side_ne (hr : s.net.Rooted F A) (hidle : s.net.Idle p)
    (hend : s.net.Ends F σ (.bound p ph) c) (hl : Leads s.halves.get? c passed z)
    (hz : s.halves.get? z = some half) {σ' : Side} {P : Place} (hP : s.net.Ends F σ' P z)
    (hplace : P = .front z ∨ ∃ svc, half = .service svc ∧ P = .bound svc.process svc.via) :
    σ ≠ σ' := by
  rintro rfl
  rcases end_of_leads hr hend hl with rfl | ⟨rfl, y, hy⟩
  · cases hr.forest.unique hend hP
    rcases hplace with heq | ⟨svc, rfl, heq⟩
    · cases heq
    · exact hidle (service_net_eq_some.2 hz) (Place.bound.inj heq).1.symm
  · cases hr.forest.unique (.target hy) hP
    rcases hplace with heq | ⟨svc, -, heq⟩ <;> cases heq

/-- A half that lies on a channel of an idle process, on its side, joins whatever is pending where
it lands. -/
theorem exists_joins_of_lies (hr : s.net.Rooted F A) (ht : s.net.Typed s.decls.Denotes τ)
    (hidle : s.net.Idle p) (hend : s.net.Ends F σ (.bound p ph) c)
    (hl : Leads s.halves.get? c passed z) (hlies : half.Lies s.decls.Denotes τ A c σ) :
    ∃ j, Joins z half (s.halves.get? z) j := by
  have hup : half.Lies s.decls.Denotes τ A z σ := by
    rcases end_of_leads hr hend hl with rfl | ⟨rfl, -⟩
    · exact hlies
    · exact hlies.up (sub_of_leads hr hl) (shape_of_leads ht hl)
  cases hz : s.halves.get? z with
  | none => exact ⟨_, .wait⟩
  | some half' =>
    have hfor : half'.forward? = none := by
      cases half' with
      | forward f => exact absurd hz (hl.last f)
      | _ => rfl
    obtain ⟨σ', P, hP, hlies', hplace⟩ := lies_of_pending hr ht hz hfor
    exact hup.joins s.decls.functional_denotes hlies' (side_ne hr hidle hend hl hz hP hplace)

/-! ## Offers -/

variable {cfg : Configuration} {env : Env} {ctx : Context} {fresh : Fresh} {term : Term}
  {ep : Endpoint} {own : List Mark}

/-- A channel of the acting process is in its hands, on the side that it sees. -/
theorem ends_of_channel (F : Id → Prop) (hreads : s.Reads p cfg) (hidle : s.net.Idle p)
    (hep : cfg.channels.get? ph = some ep) :
    s.net.live p ph = some ep ∧
      s.net.Ends F (Context.sideFrom cfg.pool ep) (.bound p ph) ep.channel := by
  have hlive : s.net.live p ph = some ep := by
    rw [← hep]
    exact (hreads.channels ph).symm
  refine ⟨hlive, .bound hlive (fun hs h => hidle hs h.1) ?_⟩
  have hhome : s.net.home p = some cfg.pool := hreads.member
  rw [sideFrom_eq_provider, hhome, Option.some_inj, eq_comm]

/-- What a process offers goes with the type of the channel that it acts on, from its own side. -/
theorem faces_of_offers (hreads : s.Reads p cfg) (hw : env.Within s.decls)
    (hcheck : checkStep cfg.pool env cfg term = .ok ctx)
    (ho : Offers env cfg fresh term ep own half) :
    ∃ node, s.decls.Denotes ep.type node ∧ half.Faces node (Context.sideFrom cfg.pool ep) := by
  obtain ⟨hep, -, hfor⟩ := channel_of_offers ho
  cases half with
  | message m =>
    obtain ⟨given, he, -, -⟩ := emits_of_offers hreads hw hcheck ho
    obtain ⟨node, hnode, hfits, hside⟩ := he.fits
    exact ⟨node, hnode, .message hfits (sideFrom_eq_provider.trans hside)⟩
  | service svc =>
    cases ho with
    | consume hh _ =>
      have hoffers : term.offers = true := by
        cases term <;> first | rfl | cases hh
      obtain ⟨id, node, -, -, hnode, hsuits, -⟩ := suits_of_reads hreads hw hcheck hoffers hep
      have hside := provides_iff_of_suits hsuits
      rw [hh] at hside
      exact ⟨node, hnode, .service (fits_of_suits hsuits hh) (sideFrom_eq_provider.trans hside)⟩
  | forward f => cases hfor

/-- What a process offers lies on the channel that it acts on, on its own side. -/
theorem lies_of_offers (hr : s.net.Rooted F A) (ht : s.net.Typed s.decls.Denotes τ)
    (hreads : s.Reads p cfg) (hw : env.Within s.decls) (hidle : s.net.Idle p)
    (hcheck : checkStep cfg.pool env cfg term = .ok ctx)
    (ho : Offers env cfg fresh term ep own half) :
    half.Lies s.decls.Denotes τ A ep.channel (Context.sideFrom cfg.pool ep) := by
  obtain ⟨hep, -, -⟩ := channel_of_offers ho
  obtain ⟨hlive, hend⟩ := ends_of_channel F hreads hidle hep
  have hhome : s.net.home p = some cfg.pool := hreads.member
  refine ⟨?_, fun π hπ => ?_⟩
  · obtain ⟨node, hnode, hfaces⟩ := faces_of_offers hreads hw hcheck ho
    rw [ht.live hlive] at hnode
    exact ⟨node, hnode, hfaces⟩
  cases hπ with
  | @value m v hv =>
    obtain ⟨given, he, -, -⟩ := emits_of_offers hreads hw hcheck ho
    obtain ⟨ph, -, hne, hval, hpool⟩ := he.value hv
    have hv' : s.net.Ends F .client (.bound p ph) v.channel := by
      refine .client hval hidle ?_
      rw [hhome]
      exact fun h => hpool (Option.some.inj h).symm
    have hmem := hr.live hval
    cases hσ : Context.sideFrom cfg.pool ep with
    | provider =>
      rw [hσ] at hend
      exact iff_of_true (hr.forest.nest (P := .bound p ph) (Q := .bound p term.via) rfl hv' hend hmem) rfl
    | client =>
      rw [hσ] at hend
      have hchannel : v.channel ≠ ep.channel := by
        intro heq
        rw [heq] at hv'
        exact hne (Place.bound.inj (hr.forest.unique hv' hend)).2
      have hdisj := hr.forest.apart (P := .bound p ph) (Q := .bound p term.via) rfl hchannel hv' hend
      exact iff_of_false (Set.disjoint_left.1 hdisj hmem) nofun
  | waiter =>
    cases ho with
    | consume =>
      cases hσ : Context.sideFrom cfg.pool ep with
      | provider =>
        rw [hσ] at hend
        exact iff_of_true (hr.forest.own hend hhome) rfl
      | client =>
        rw [hσ] at hend
        exact iff_of_false (Set.disjoint_left.1 (hr.forest.clear hend) hhome) nofun

end Store

/-- An accepted term that acts on one channel has something to offer there. -/
theorem exists_offers {env : Env} {cfg : Configuration} {ctx : Context} (fresh : Fresh)
    {term : Term} (hoffers : term.offers = true)
    (hcheck : checkStep cfg.pool env cfg term = .ok ctx) :
    ∃ ep own half, Offers env cfg fresh term ep own half := by
  obtain ⟨ep, id, node, hep, hnode, hsuits, hsend⟩ := suits_of_checkStep hoffers hcheck
  generalize Context.sideFrom cfg.pool ep = σ at hsuits
  cases hsuits with
  | close => exact ⟨_, _, _, .close hep⟩
  | send =>
    obtain ⟨-, given, hgiven, -⟩ := hsend _ _ rfl
    exact ⟨_, _, _, .send hep hnode .tensor hgiven⟩
  | supply =>
    obtain ⟨-, given, hgiven, -⟩ := hsend _ _ rfl
    exact ⟨_, _, _, .send hep hnode .lolli hgiven⟩
  | pick h => exact ⟨_, _, _, .pass hep hnode (.plus h)⟩
  | ask h => exact ⟨_, _, _, .pass hep hnode (.with h)⟩
  | acquire => exact ⟨_, _, _, .pass hep hnode .up⟩
  | detach => exact ⟨_, _, _, .pass hep hnode .down⟩
  | wait | recv | demand | case | answer | accept | release =>
    exact ⟨_, _, _, .consume rfl hep⟩

/-! ## Commits -/

namespace Store

variable {s : Store} {F : Id → Prop} {A : Id → Set Id} {τ : Id → Id} {p : Id}
  {cfg : Configuration} {env : Env} {ctx : Context} {fresh : Fresh} {term : Term} {pl : Plan}

theorem slotsFit_takes {passed : List Id} (hn : passed.Nodup) {halves : Table Id Half}
    (h : ∀ x ∈ passed, halves.contains x = true) : SlotsFit halves (passed.map SlotOp.take) := by
  induction passed generalizing halves with
  | nil => trivial
  | cons x rest ih =>
    obtain ⟨hx, hrest⟩ := List.nodup_cons.1 hn
    refine ⟨h x List.mem_cons_self, ih hrest fun y hy => ?_⟩
    have hne : y ≠ (SlotOp.take x).channel := by
      rintro rfl
      exact hx hy
    rw [contains_applySlot, if_neg hne]
    exact h y (List.mem_cons_of_mem _ hy)

theorem slotsFit_of_joins {halves : Table Id Half} {z : Id} {half : Half} {j : Joined}
    (h : Joins z half (halves.get? z) j) : SlotsFit halves j.slots := by
  generalize hz : halves.get? z = pending at h
  cases h with
  | wait =>
    refine ⟨?_, trivial⟩
    rw [SlotOp.channel, Half.channel_movedTo]
    exact halves.contains_eq_false_iff.2 hz
  | serve => exact ⟨halves.contains_eq_true_iff.2 ⟨_, hz⟩, trivial⟩
  | fetch => exact ⟨halves.contains_eq_true_iff.2 ⟨_, hz⟩, trivial⟩

/-- The forwards of a path are there to be used up, and nothing else is changed by that. -/
theorem slotsFit_landing {c : Id} {l : Landing} (hl : Leads s.halves.get? c l.passed l.channel)
    {ops : List SlotOp}
    (h : ∀ halves : Table Id Half, (∀ x, x ∉ l.passed → halves.get? x = s.halves.get? x) →
      SlotsFit halves ops) : SlotsFit s.halves (l.takes ++ ops) := by
  refine slotsFit_append.2 ⟨slotsFit_takes hl.nodup fun x hx => ?_, h _ fun x hx => ?_⟩
  · obtain ⟨f, hf⟩ := hl.forward_of_mem hx
    exact s.halves.contains_eq_true_iff.2 ⟨_, hf⟩
  · rw [get?_foldl_applySlot, runSlots_takes]
    exact if_neg hx

/-- What is offered fits where it lands. -/
theorem slotsFit_offer {c z : Id} {passed : List Id} (hl : Leads s.halves.get? c passed z)
    {half : Half} {j : Joined} (hj : Joins z half (s.halves.get? z) j) :
    SlotsFit s.halves ((⟨passed, z, s.halves.get? z⟩ : Landing).takes ++ j.slots) := by
  refine slotsFit_landing hl fun halves hkeep => ?_
  rw [← hkeep z hl.notMem] at hj
  exact slotsFit_of_joins hj

/-- A forward fits on a channel where nothing is pending. -/
theorem slotsFit_relay {c z : Id} {passed : List Id} (hl : Leads s.halves.get? c passed z)
    {f : Forward} {y : Id} (hy : s.halves.get? y = none) (hf : f.channel = y) :
    SlotsFit s.halves ((⟨passed, z, s.halves.get? z⟩ : Landing).takes ++ [.put (.forward f)]) := by
  subst hf
  have hynot : f.channel ∉ passed := by
    intro hmem
    obtain ⟨f, hf⟩ := hl.forward_of_mem hmem
    cases hy.symm.trans hf
  refine slotsFit_landing hl fun halves hkeep => ⟨halves.contains_eq_false_iff.2 ?_, trivial⟩
  rw [← hy]
  exact hkeep _ hynot

/-- A half is taken off a channel and fits where it is moved to. -/
theorem slotsFit_redirect {c z : Id} {passed : List Id} (hl : Leads s.halves.get? c passed z)
    {left : Half} {y : Id} (hy : s.halves.get? y = some left) (hynot : y ∉ passed) (hyz : z ≠ y)
    {j : Joined} (hj : Joins z left (s.halves.get? z) j) :
    SlotsFit s.halves ((⟨passed, z, s.halves.get? z⟩ : Landing).takes ++ (.take y :: j.slots)) := by
  refine slotsFit_landing hl fun halves hkeep => ⟨?_, ?_⟩
  · exact halves.contains_eq_true_iff.2 ⟨left, (hkeep _ hynot).trans hy⟩
  · have hz : (applySlot halves (.take y)).get? z = s.halves.get? z := by
      rw [get?_applySlot, ← hkeep z hl.notMem]
      exact Function.update_of_ne hyz _ _
    rw [← hz] at hj
    exact slotsFit_of_joins hj

/-- A plan that only touches known pools, and fits the halves that are there, is drafted and
committed. -/
theorem exists_commit (hreads : s.Reads p cfg)
    (hknown : ∀ k ∈ pl.marks, (∃ pool ∈ pl.pools, pool.id = k.pool) ∨
      ∃ rev, cfg.revOf? k.pool = some rev)
    (hnew : ∀ pool ∈ pl.pools, s.pools.get? pool.id = none) (hfit : SlotsFit s.halves pl.slots) :
    ∃ m s', pl.draft? cfg = some m ∧ s.commit m = .ok s' := by
  obtain ⟨m, hm⟩ := Plan.exists_draft? hknown
  have hd := Plan.drafts_of_draft? hm
  have hlocked : s.Locked m.locks := fun l hl => hreads.revOf (hd.locks l hl)
  refine ⟨m, s.apply m, hm, commit_eq_ok_iff.2 ⟨hlocked, ?_, ?_, rfl⟩⟩
  · rw [hd.pools]
    exact hnew
  · rw [hd.slots]
    exact hfit

/-- The pools of halves that are met on the way from a channel of the process are known. -/
theorem revOf?_of_half (hs : s.Sound) (hreads : s.Reads p cfg) {ph : Sym} {e : Endpoint}
    (he : s.live p ph = some e) {x : Id} (hx : Along s.halves.get? e.channel x) {half : Half}
    (hhalf : s.halves.get? x = some half) : ∃ rev, cfg.revOf? half.pool = some rev := by
  obtain ⟨pool, hpool⟩ := hs.members (hs.owners hhalf)
  exact ⟨_, hreads.known he hx hhalf hpool⟩

theorem revOf?_own (cfg : Configuration) : ∃ rev, cfg.revOf? cfg.pool = some rev :=
  ⟨cfg.rev, if_pos rfl⟩

/-- The pools that a move touches are new, or known if the one is that a spawn aims at. -/
theorem known_of_moves (hs : s.Sound) (hreads : s.Reads p cfg)
    (haim : ∀ via sig values pool cont, term = .spawn via sig values pool cont →
      ∃ rev, cfg.revOf? pool = some rev) (h : Moves env cfg fresh term pl) :
    ∀ k ∈ pl.marks, (∃ pool ∈ pl.pools, pool.id = k.pool) ∨
      ∃ rev, cfg.revOf? k.pool = some rev := by
  have hlive : ∀ {ph : Sym} {e : Endpoint}, cfg.channels.get? ph = some e →
      s.live p ph = some e := fun {ph _} he => (hreads.channels ph).symm.trans he
  have hown : ∀ {k : Mark}, k.process = cfg.process ∧ k.pool = cfg.pool →
      ∃ rev, cfg.revOf? k.pool = some rev := by
    rintro k ⟨-, hpool⟩
    rw [hpool]
    exact revOf?_own cfg
  have hjoin : ∀ {ph : Sym} {e : Endpoint} {l : Landing} {half : Half} {j : Joined} {k : Mark},
      cfg.channels.get? ph = some e → cfg.landing? e.channel = some l →
      (∀ svc, half = .service svc → ∃ rev, cfg.revOf? svc.pool = some rev) →
      Joins l.channel half l.half j → k ∈ j.marks → ∃ rev, cfg.revOf? k.pool = some rev := by
    intro ph e l half j k he hl hhalf hj hk
    obtain ⟨hleads, hpending⟩ := leads_of_landing hreads he hl
    obtain ⟨svc, hsvc, -, hpool⟩ := mem_marks_of_joins hj hk
    rw [hpool]
    rcases hsvc with hsvc | hsvc
    · exact hhalf svc hsvc
    · exact revOf?_of_half hs hreads (hlive he) hleads.along (hpending.symm.trans hsvc)
  intro k hk
  cases h with
  | @offer _ ep own half l j ho hl hj =>
    right
    rcases List.mem_append.1 hk with hk | hk
    · exact hown (mem_own_of_offers ho hk)
    · refine hjoin (channel_of_offers ho).1 hl ?_ hj hk
      rintro svc rfl
      cases ho
      exact revOf?_own cfg
  | relay => exact .inr (hown (mem_handedOver hk))
  | @redirect via target x y l left id node j hx hy hl hleft hnode hdir hj =>
    right
    rcases List.mem_append.1 hk with hk | hk
    · exact hown (mem_handedOver hk)
    · refine hjoin hx hl ?_ hj hk
      rintro svc rfl
      exact revOf?_of_half hs hreads (hlive hy) .here (hreads.sub hleft)
  | call hi =>
    refine (mem_marks_of_instance hk).symm.imp (fun hnew => ?_) hown
    exact ⟨_, List.mem_cons_self, hi.pool_eq.symm.trans hnew.2.symm⟩
  | spawn hi =>
    right
    rcases mem_marks_of_instance hk with hk | ⟨-, hpool⟩
    · exact hown hk
    · rw [hpool, hi.pool_eq]
      exact haim _ _ _ _ _ rfl

/-- A half that is offered goes through, whatever it finds where it lands. -/
theorem exists_moves_of_offers (hs : s.Sound) (hr : s.net.Rooted F A)
    (ht : s.net.Typed s.decls.Denotes τ) (hreads : s.Reads p cfg) (hw : env.Within s.decls)
    (hidle : cfg.waiting? = none) (hcheck : checkStep cfg.pool env cfg term = .ok ctx)
    (hoffers : term.offers = true) :
    ∃ pl, Moves env cfg fresh term pl ∧ ∃ m s', pl.draft? cfg = some m ∧ s.commit m = .ok s' := by
  have hidle' : s.net.Idle p := idle_of_waiting hreads hidle
  obtain ⟨ep, own, half, ho⟩ := exists_offers fresh hoffers hcheck
  obtain ⟨hep, -, -⟩ := channel_of_offers ho
  obtain ⟨hlive, hend⟩ := ends_of_channel F hreads hidle' hep
  obtain ⟨passed, z, hl⟩ := exists_landing hr ep.channel
  have hlies := lies_of_offers hr ht hreads hw hidle' hcheck ho
  obtain ⟨j, hj⟩ := exists_joins_of_lies hr ht hidle' hend hl hlies
  have hland : cfg.landing? ep.channel = some ⟨passed, z, s.halves.get? z⟩ :=
    (hreads.landing?_eq_some_iff hlive).2 ⟨hl, rfl⟩
  have hmoves := Moves.offer ho hland hj
  have hknown := known_of_moves hs hreads (by rintro _ _ _ _ _ rfl; cases hoffers) hmoves
  exact ⟨_, hmoves, exists_commit hreads hknown nofun (slotsFit_offer hl hj)⟩

/-- What the provider of a forwarded channel has left lies there as its provider's. -/
theorem lies_of_left (hr : s.net.Rooted F A) (ht : s.net.Typed s.decls.Denotes τ)
    (hidle : s.net.Idle p) {target : Sym} {y : Id} (hend : s.net.Ends F .client (.bound p target) y)
    {left : Half} (hleft : s.halves.get? y = some left) :
    left.Lies s.decls.Denotes τ A y .provider := by
  have hfor : left.forward? = none := by
    cases left with
    | forward f =>
      cases hr.forest.unique hend (.source (forward_net_eq_some.2 ⟨f, hleft, rfl⟩))
    | _ => rfl
  obtain ⟨σ, P, hP, hlies, hplace⟩ := lies_of_pending hr ht hleft hfor
  cases σ with
  | provider => exact hlies
  | client =>
    rcases hplace with rfl | ⟨svc, rfl, rfl⟩
    · cases hr.forest.unique hend hP
    · have hplace := Place.bound.inj (hr.forest.unique hend hP)
      exact absurd hplace.1.symm (hidle (service_net_eq_some.2 hleft))

/-- A forward goes through: what its target has left moves up, and joins what it finds. -/
theorem exists_moves_of_fwd (hs : s.Sound) (hr : s.net.Rooted F A)
    (ht : s.net.Typed s.decls.Denotes τ) (hreads : s.Reads p cfg) (hw : env.Within s.decls)
    (hidle : cfg.waiting? = none) {via target : Sym}
    (hcheck : checkStep cfg.pool env cfg (.fwd via target) = .ok ctx) :
    ∃ pl, Moves env cfg fresh (.fwd via target) pl ∧ ∃ m s', pl.draft? cfg = some m ∧
      s.commit m = .ok s' := by
  have hidle' : s.net.Idle p := idle_of_waiting hreads hidle
  obtain ⟨x, y, idx, nx, hx, hxp, hy, hyp, -, hnx, heq⟩ := joins_of_checkStep.1 ⟨ctx, hcheck⟩
  obtain ⟨hxlive, hxend⟩ := ends_of_channel F hreads hidle' hx
  obtain ⟨hylive, hyend⟩ := ends_of_channel F hreads hidle' hy
  rw [sideFrom_eq_provider.2 hxp] at hxend
  rw [sideFrom_eq_client.2 hyp] at hyend
  obtain ⟨passed, z, hl⟩ := exists_landing hr x.channel
  have hland : cfg.landing? x.channel = some ⟨passed, z, s.halves.get? z⟩ :=
    (hreads.landing?_eq_some_iff hxlive).2 ⟨hl, rfl⟩
  have hknown : ∀ {pl : Plan}, Moves env cfg fresh (.fwd via target) pl → ∀ k ∈ pl.marks,
      (∃ pool ∈ pl.pools, pool.id = k.pool) ∨ ∃ rev, cfg.revOf? k.pool = some rev :=
    fun h => known_of_moves hs hreads (by rintro _ _ _ _ _ ⟨⟩) h
  cases hleft : s.halves.get? y.channel with
  | none =>
    have hnone : cfg.halves.get? y.channel = none := (hreads.get?_halves hylive).trans hleft
    have hmoves : Moves env cfg fresh (.fwd via target) _ := .relay hx hy hland hnone
    exact ⟨_, hmoves, exists_commit hreads (hknown hmoves) nofun (slotsFit_relay hl hleft rfl)⟩
  | some left =>
    have hsome : cfg.halves.get? y.channel = some left := (hreads.get?_halves hylive).trans hleft
    obtain ⟨⟨idy, ny⟩, hny⟩ := env.resolve_of_eqType heq hnx
    have hlies := lies_of_left hr ht hidle' hyend hleft
    have hnode : s.decls.Denotes (τ y.channel) ny := by
      rw [← ht.live hylive]
      exact env.denotes_of_resolve hw hny
    have hup : left.Lies s.decls.Denotes τ A x.channel .provider := by
      refine hlies.up ?_ fun node hnode' => ?_
      · exact hr.forest.nest (P := .bound p target) (Q := .bound p via) rfl hyend hxend
      · obtain ⟨n, hn, hshape⟩ := env.sameShape_of_eqType hw heq (env.denotes_of_resolve hw hnx)
        rw [ht.live hylive] at hn
        cases hnode'.unique hn
        rw [← ht.live hxlive]
        exact ⟨nx, env.denotes_of_resolve hw hnx, hshape.symm⟩
    obtain ⟨j, hj⟩ := exists_joins_of_lies hr ht hidle' hxend hl hup
    have hynot : y.channel ∉ passed := by
      intro hmem
      obtain ⟨f, hf⟩ := hl.forward_of_mem hmem
      cases hleft.symm.trans hf
      obtain ⟨_, -, hfaces⟩ := hlies.faces
      cases hfaces
    have hyz : z ≠ y.channel := by
      rintro rfl
      rw [hleft] at hj
      cases hj
    have hmoves : Moves env cfg fresh (.fwd via target) _ := .redirect hx hy hland hsome hny
      (hlies.ownDirection s.decls.functional_denotes hnode) hj
    exact ⟨_, hmoves, exists_commit hreads (hknown hmoves) nofun
      (slotsFit_redirect hl hleft hynot hyz hj)⟩

/-- A new instance in a pool that is new goes through. -/
theorem exists_moves_of_call (hs : s.Sound) (hr : s.net.Rooted F A) (hreads : s.Reads p cfg)
    (hnew : s.pools.get? fresh.pool = none) {via : Sym} {sigId : Id} {values : List Sym}
    {cont : Term} (hcheck : checkStep cfg.pool env cfg (.call via sigId values cont) = .ok ctx) :
    ∃ pl, Moves env cfg fresh (.call via sigId values cont) pl ∧ ∃ m s', pl.draft? cfg = some m ∧
      s.commit m = .ok s' := by
  obtain ⟨⟨sig, type, hsig, harity, htype⟩, -, hgives⟩ := gives_of_checkStep (.inl rfl) hcheck
  -- a pool that is on record or lived in is not the new one
  have hold : ∀ {q π : Id}, s.poolOf? q = some π → π ≠ fresh.pool := by
    rintro q π hq rfl
    obtain ⟨pool, hpool⟩ := hs.members hq
    cases hnew.symm.trans hpool
  let gifts : List Gift := (values.zip sig.receptions).map fun pair =>
    ⟨pair.1, pair.2, (cfg.channels.get? pair.1).getD default⟩
  have hgiven : ∀ g ∈ gifts, cfg.channels.get? g.value = some g.endpoint ∧
      g.endpoint.pool ≠ fresh.pool := by
    intro g hg
    obtain ⟨⟨value, parameter⟩, hpair, rfl⟩ := List.mem_map.1 hg
    obtain ⟨e, he, -⟩ := hgives value (List.of_mem_zip hpair).1
    have hlive : s.net.live p value = some e := (hreads.channels value).symm.trans he
    obtain ⟨q, hq⟩ := hr.settled (hr.live hlive)
    rw [he]
    exact ⟨rfl, hold hq⟩
  have hi : Instantiates env cfg fresh sigId values fresh.pool
      ⟨sig, ⟨fresh.channel, type, fresh.pool⟩, gifts⟩ :=
    { sig := hsig
      arity := harity
      channel := rfl
      type := htype
      pool_eq := rfl
      elsewhere := (hold hreads.member).symm
      gifts := by
        rw [List.map_map]
        exact List.map_id _
      given := hgiven }
  have hmoves : Moves env cfg fresh (.call via sigId values cont) _ := .call hi
  have hknown := known_of_moves hs hreads (by rintro _ _ _ _ _ ⟨⟩) hmoves
  refine ⟨_, hmoves, exists_commit hreads hknown
    (fun pool hpool => ?_) trivial⟩
  obtain rfl := List.mem_singleton.1 hpool
  exact hnew

/-- In a store that is sound, typed and rooted, an accepted term goes through and its change is
committed, unless it spawns into a pool that exists. -/
theorem exists_transition (hs : s.Sound) (hr : s.net.Rooted F A)
    (ht : s.net.Typed s.decls.Denotes τ) (hreads : s.Reads p cfg) (hw : env.Within s.decls)
    (hidle : cfg.waiting? = none) (hcheck : checkStep cfg.pool env cfg term = .ok ctx)
    (hnew : s.pools.get? fresh.pool = none) (hop : term.operation ≠ .spawn) :
    ∃ next m s', transition env cfg fresh term = .ok (next, m) ∧ s.commit m = .ok s' := by
  have hmoves : ∃ pl, Moves env cfg fresh term pl ∧ ∃ m s', pl.draft? cfg = some m ∧
      s.commit m = .ok s' := by
    cases term with
    | fwd via target => exact exists_moves_of_fwd hs hr ht hreads hw hidle hcheck
    | call via sigId values cont => exact exists_moves_of_call hs hr hreads hnew hcheck
    | spawn => exact absurd rfl hop
    | _ => exact exists_moves_of_offers hs hr ht hreads hw hidle hcheck rfl
  obtain ⟨pl, hmove, m, s', hm, hc⟩ := hmoves
  exact ⟨_, m, s', transition_eq_ok_iff.2 ⟨pl, hmove, rfl, hm⟩, hc⟩

end Store

end Rendezvous
