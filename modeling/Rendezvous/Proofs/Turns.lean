import Rendezvous.Proofs.Effect
import Rendezvous.Proofs.Net

/-!
# Steps as runs of turns

A step that was checked and committed is a run of turns (`turns_of_moves`). What the process leaves
moves along the forwards that are there (`shift_along`, `shorten_along`), and where it ends it stays
or meets its dual (`turns_of_joins`).

A step that makes a new instance is no run of turns: `founds_of_moves` says what it does instead.
-/

namespace Rendezvous

open Relation (ReflTransGen)

/-! ## Halves as a function -/

/-- What an operation does to what is pending. -/
def SlotOp.run (op : SlotOp) (pending : Id → Option Half) : Id → Option Half :=
  match op with
  | .put half => Function.update pending half.channel (some half)
  | .take c => Function.update pending c none

/-- Operations in order. -/
def runSlots (ops : List SlotOp) (pending : Id → Option Half) : Id → Option Half :=
  ops.foldl (fun pending op => op.run pending) pending

theorem runSlots_append (ops ops' : List SlotOp) (pending : Id → Option Half) :
    runSlots (ops ++ ops') pending = runSlots ops' (runSlots ops pending) :=
  List.foldl_append ..

/-- Operations on other channels make no difference. -/
theorem runSlots_of_ne {ops : List SlotOp} {c : Id} (h : ∀ op ∈ ops, op.channel ≠ c)
    (pending : Id → Option Half) : runSlots ops pending c = pending c := by
  induction ops generalizing pending with
  | nil => rfl
  | cons op rest ih =>
    obtain ⟨hop, hrest⟩ := List.forall_mem_cons.1 h
    refine (ih hrest (op.run pending)).trans ?_
    cases op with
    | put half => exact Function.update_of_ne (Ne.symm hop) _ _
    | take x => exact Function.update_of_ne (Ne.symm hop) _ _

theorem get?_applySlot (halves : Table Id Half) (op : SlotOp) :
    (Store.applySlot halves op).get? = op.run halves.get? := by
  funext c
  cases op with
  | put half =>
    show (halves.insert half.channel half).get? c = _
    rw [Table.get?_insert, SlotOp.run, Function.update_apply]
  | take x =>
    show (halves.erase x).get? c = _
    rw [Table.get?_erase, SlotOp.run, Function.update_apply]

theorem get?_foldl_applySlot (ops : List SlotOp) (halves : Table Id Half) :
    (ops.foldl Store.applySlot halves).get? = runSlots ops halves.get? := by
  induction ops generalizing halves with
  | nil => rfl
  | cons op rest ih =>
    rw [List.foldl_cons, ih, get?_applySlot]
    rfl

/-- A function with nothing at the channels of a list. -/
def cleared {α : Type} (passed : List Id) (f : Id → Option α) : Id → Option α :=
  fun x => if x ∈ passed then none else f x

theorem runSlots_takes (l : Landing) (pending : Id → Option Half) :
    runSlots l.takes pending = cleared l.passed pending := by
  rw [Landing.takes]
  generalize l.passed = passed
  induction passed generalizing pending with
  | nil => rfl
  | cons x rest ih =>
    show runSlots (rest.map SlotOp.take) (Function.update pending x none) = _
    rw [ih]
    funext c
    simp only [cleared, List.mem_cons, Function.update_apply]
    grind

/-! ## Along forwards -/

/-- Something pending moves along a forward, which is used up. -/
inductive Shift {α : Type} (move : Id → α → α) :
    (Id → Option Id) × (Id → Option α) → (Id → Option Id) × (Id → Option α) → Prop
  | mk {f : Id → Option Id} {g : Id → Option α} {x y : Id} {a : α} (hf : f y = some x)
    (hg : g y = some a) (hfree : g x = none) :
    Shift move (f, g)
      (Function.update f y none, Function.update (Function.update g y none) x (some (move x a)))

/-- What is pending on a channel moves to the end of its path, and uses the path up. -/
theorem shift_along {α : Type} (move : Id → α → α) (hmove : ∀ x w a, move w (move x a) = move w a)
    {pending : Id → Option Half} {c z : Id} {passed : List Id} (h : Leads pending c passed z)
    {f : Id → Option Id} {g : Id → Option α} {a : α}
    (hf : ∀ x ∈ passed, f x = (pending x).bind Half.forward?) (hg : g c = some a)
    (ha : move c a = a) (hfree : ∀ x, x ∈ passed ∨ x = z → x ≠ c → g x = none) :
    ReflTransGen (Shift move) (f, g)
      (cleared passed f, Function.update (Function.update g c none) z (some (move z a))) := by
  induction h generalizing f g a with
  | stay _ =>
    have hf' : cleared [] f = f := funext fun x => if_neg (List.not_mem_nil)
    have hg' : ∀ d, g d = some a → Function.update (Function.update g d none) d (some a) = g := by
      intro d hd
      rw [Function.update_idem, ← hd, Function.update_eq_self]
    rw [ha, hf', hg' _ hg]
  | @hop c fw rest z hc hl ih =>
    have hne : c ∉ rest ∧ c ≠ z := by
      have hnd := (Leads.hop hc hl).nodup
      have hnm := (Leads.hop hc hl).notMem
      exact ⟨(List.nodup_cons.1 hnd).1, fun e => hnm (e ▸ List.mem_cons_self)⟩
    -- the first hop goes to `fw.target`, which is the next channel passed or the end
    have ht : fw.target ∈ rest ∨ fw.target = z := by
      cases hl with
      | stay _ => exact .inr rfl
      | hop _ _ => exact .inl List.mem_cons_self
    have htc : fw.target ≠ c := by
      rintro e
      rcases ht with ht | ht
      · exact hne.1 (e ▸ ht)
      · exact hne.2 (e ▸ ht)
    have hgt : g fw.target = none :=
      hfree _ (ht.imp (List.mem_cons_of_mem _) id) htc
    have hfc : f c = some fw.target := by
      rw [hf c List.mem_cons_self, hc]
      rfl
    refine .head (.mk hfc hg hgt) ?_
    have hlast := ih (f := Function.update f c none)
      (g := Function.update (Function.update g c none) fw.target (some (move fw.target a)))
      (a := move fw.target a) ?_ (Function.update_self ..) (hmove _ _ _) ?_
    · have hclear : cleared rest (Function.update f c none) = cleared (c :: rest) f := by
        funext x
        simp only [cleared, List.mem_cons, Function.update_apply]
        grind
      have hmoved : Function.update (Function.update (Function.update (Function.update g c none)
          fw.target (some (move fw.target a))) fw.target none) z (some (move z a)) =
          Function.update (Function.update g c none) z (some (move z a)) := by
        funext x
        simp only [Function.update_apply]
        grind
      rwa [hmove, hclear, hmoved] at hlast
    · intro x hx
      rw [Function.update_of_ne fun e : x = c => hne.1 (e ▸ hx)]
      exact hf x (List.mem_cons_of_mem _ hx)
    · intro x hx hxt
      have hxc : x ≠ c := by
        rintro rfl
        exact hx.elim hne.1 hne.2
      rw [Function.update_of_ne hxt, Function.update_of_ne hxc]
      exact hfree x (hx.imp (List.mem_cons_of_mem _) id) hxc

/-- The same for something that is new on its channel. -/
theorem shift_added {α : Type} (move : Id → α → α)
    (hmove : ∀ x w a, move w (move x a) = move w a) {pending : Id → Option Half} {c z : Id}
    {passed : List Id} (h : Leads pending c passed z) {f : Id → Option Id} {g : Id → Option α}
    {a : α} (hf : ∀ x ∈ passed, f x = (pending x).bind Half.forward?) (ha : move c a = a)
    (hfree : ∀ x, x ∈ passed ∨ x = z ∨ x = c → g x = none) :
    ReflTransGen (Shift move) (f, Function.update g c (some a))
      (cleared passed f, Function.update g z (some (move z a))) := by
  have hrun := shift_along move hmove h (g := Function.update g c (some a)) hf
    (Function.update_self ..) ha (fun x hx hne => by
      rw [Function.update_of_ne hne]
      exact hfree x (hx.imp_right .inl))
  have hg : Function.update (Function.update g c (some a)) c none = g := by
    rw [Function.update_idem, ← hfree c (.inr (.inr rfl)), Function.update_eq_self]
  rwa [hg] at hrun

namespace Net

variable {D : Id → TypeNode → Prop} {c : Id}

/-- A forward is led to the end of the path of its target, and uses the path up. -/
theorem shorten_along {pending : Id → Option Half} {x y z : Id} {passed : List Id}
    (h : Leads pending x passed z) {n : Net}
    (hf : ∀ w ∈ passed, n.forward w = (pending w).bind Half.forward?)
    (hy : n.forward y = some x) (hny : y ∉ passed) :
    ReflTransGen (Turn D c) n
      { n with forward := Function.update (cleared passed n.forward) y (some z) } := by
  induction h generalizing n with
  | @stay x _ =>
    have hf' : Function.update (cleared [] n.forward) y (some x) = n.forward := by
      funext w
      simp only [Function.update_apply, cleared, List.not_mem_nil, if_false]
      grind
    rw [hf']
  | @hop x fw rest z hx hl ih =>
    have hxr : x ∉ rest := (List.nodup_cons.1 (Leads.hop hx hl).nodup).1
    have hxy : x ≠ y := fun e => hny (e ▸ List.mem_cons_self)
    have hfx : n.forward x = some fw.target := by
      rw [hf x List.mem_cons_self, hx]
      rfl
    refine .head (.shorten hy hfx hxy) ?_
    have hlast := ih (n := { n with
      forward := Function.update (Function.update n.forward x none) y (some fw.target) })
      ?_ (Function.update_self ..) (fun hm => hny (List.mem_cons_of_mem _ hm))
    · have hclear : Function.update (cleared rest
          (Function.update (Function.update n.forward x none) y (some fw.target))) y (some z) =
          Function.update (cleared (x :: rest) n.forward) y (some z) := by
        funext w
        simp only [cleared, List.mem_cons, Function.update_apply]
        grind
      rwa [hclear] at hlast
    · intro w hw
      have hwx : w ≠ x := fun e => hxr (e ▸ hw)
      have hwy : w ≠ y := fun e => hny (e ▸ List.mem_cons_of_mem _ hw)
      show Function.update (Function.update n.forward x none) y (some fw.target) w = _
      rw [Function.update_of_ne hwy, Function.update_of_ne hwx]
      exact hf w (List.mem_cons_of_mem _ hw)

/-- A message or a service moves to the end of its path. -/
theorem settle (half : Half) {pending : Id → Option Half} {z : Id} {passed : List Id}
    (h : Leads pending half.channel passed z) {n : Net}
    (hf : ∀ w ∈ passed, n.forward w = (pending w).bind Half.forward?)
    (hfor : half.forward? = none)
    (hmsg : half.message?.isSome → ∀ w, w ∈ passed ∨ w = z ∨ w = half.channel →
      n.message w = none)
    (hsvc : half.service?.isSome → ∀ w, w ∈ passed ∨ w = z ∨ w = half.channel →
      n.service w = none) :
    ReflTransGen (Turn D c) (n.add half)
      (({ n with forward := cleared passed n.forward } : Net).add (half.movedTo z)) := by
  cases half with
  | message m =>
    have hrun := shift_added (fun x (m : Message) => { m with channel := x })
      (fun _ _ _ => rfl) (c := m.channel) (a := m) h hf rfl (hmsg rfl)
    refine hrun.lift (fun r => { n with forward := r.1, message := r.2 }) ?_
    rintro _ _ ⟨hfy, hgy, hfree⟩
    exact .carry (n := { n with forward := _, message := _ }) hfy hgy hfree
  | service svc =>
    have hrun := shift_added (fun x (svc : Service) => { svc with channel := x })
      (fun _ _ _ => rfl) (c := svc.channel) (a := svc) h hf rfl (hsvc rfl)
    refine hrun.lift (fun r => { n with forward := r.1, service := r.2 }) ?_
    rintro _ _ ⟨hfy, hgy, hfree⟩
    exact .usher (n := { n with forward := _, service := _ }) hfy hgy hfree
  | forward f => cases hfor

end Net

/-! ## Meeting -/

/-- A half moves along one new forward. -/
theorem Net.pass_along {D : Id → TypeNode → Prop} {c : Id} (left : Half) {n : Net} {z : Id}
    (hz : z ≠ left.channel) (hfor : left.forward? = none) (hf : n.forward left.channel = none)
    (hmsg : left.message?.isSome → ∀ w, w = z ∨ w = left.channel → n.message w = none)
    (hsvc : left.service?.isSome → ∀ w, w = z ∨ w = left.channel → n.service w = none) :
    ReflTransGen (Turn D c)
      { n.add left with forward := Function.update n.forward left.channel (some z) }
      (n.add (left.movedTo z)) := by
  let pending : Id → Option Half :=
    Function.update (fun _ => none) left.channel (some (.forward ⟨left.channel, z, z, z⟩))
  have hleads : Leads pending left.channel [left.channel] z := by
    refine .hop (f := ⟨left.channel, z, z, z⟩) (Function.update_self ..) (.stay fun f hp => ?_)
    rw [show pending z = none from Function.update_of_ne hz ..] at hp
    cases hp
  have hpending : (pending left.channel).bind Half.forward? = some z := by
    rw [show pending left.channel = _ from Function.update_self ..]
    rfl
  have hrun := settle (D := D) (c := c) left hleads
    (n := { n with forward := Function.update n.forward left.channel (some z) })
    (fun w hw => by
      rw [List.mem_singleton.1 hw, hpending]
      exact Function.update_self ..)
    hfor (fun h w hw => hmsg h w (hw.elim (fun hw => .inr (List.mem_singleton.1 hw)) id))
    (fun h w hw => hsvc h w (hw.elim (fun hw => .inr (List.mem_singleton.1 hw)) id))
  have hclear : cleared [left.channel] (Function.update n.forward left.channel (some z)) =
      n.forward := by
    funext w
    simp only [cleared, List.mem_singleton, Function.update_apply]
    grind
  rw [hclear] at hrun
  cases left with
  | message m => exact hrun
  | service svc => exact hrun
  | forward f => cases hfor

/-- Homes that a served channel gets are where its bindings point. -/
theorem foldl_rehomed_homes (svc : Service) (payload : Payload) (v : Live) :
    (svc.homes payload).foldl Live.rehomed v =
      fun p ph => (v p ph).map (svc.homeward payload) := by
  funext p ph
  rw [Service.homes]
  cases hk : payload.cont? with
  | none =>
    have hw : svc.homeward payload = id := by
      funext e
      simp [Service.homeward, hk]
    rw [hw, Option.map_id]
    rfl
  | some k =>
    by_cases hp : (Drafting.continued svc k).pool = k.pool
    · have hw : svc.homeward payload = id := by
        funext e
        simp [Service.homeward, hk, hp]
      rw [hw, Option.map_id]
      simp [Service.homeOf, hp]
    · have hc : (Drafting.continued svc k).channel = k.channel := by
        unfold Drafting.continued
        split <;> rfl
      have hw : svc.homeward payload =
          fun e => if e.channel = k.channel then Drafting.continued svc k else e := by
        funext e
        simp [Service.homeward, hk, hp]
      rw [hw]
      simp [Service.homeOf, hp, Live.rehomed, hc]

theorem bind_update {α : Type} (f : Half → Option α) (pending : Id → Option Half) (x : Id)
    (half : Option Half) :
    (fun w => (Function.update pending x half w).bind f) =
      Function.update (fun w => (pending w).bind f) x (half.bind f) := by
  funext w
  rw [Function.update_apply, Function.update_apply]
  split <;> rfl

/-- A field that is empty at a channel is not changed by emptying it there. -/
theorem update_none_bind {α : Type} {f : Half → Option α} {pending : Id → Option Half} {x : Id}
    (h : (pending x).bind f = none) :
    Function.update (fun w => (pending w).bind f) x none = fun w => (pending w).bind f :=
  Function.update_eq_self_iff.2 h.symm

namespace Net

variable {D : Id → TypeNode → Prop} {c : Id}

theorem add_ofPending (live : Live) (home : Id → Option Id) {pending : Id → Option Half}
    (half : Half) (h : pending half.channel = none) :
    (ofPending live pending home).add half =
      ofPending live (Function.update pending half.channel (some half)) home := by
  have hnone : ∀ {α : Type} (f : Half → Option α), (pending half.channel).bind f = none := by
    intro α f
    rw [h]
    rfl
  unfold ofPending
  simp only [bind_update]
  cases half with
  | message m =>
    exact Net.ext rfl rfl (update_none_bind (hnone _)).symm (update_none_bind (hnone _)).symm rfl
  | service svc =>
    exact Net.ext rfl (update_none_bind (hnone _)).symm rfl (update_none_bind (hnone _)).symm rfl
  | forward f =>
    exact Net.ext rfl (update_none_bind (hnone _)).symm (update_none_bind (hnone _)).symm rfl rfl

/-- A message and a service that meet leave nothing behind. -/
theorem met_ofPending (live : Live) {pending : Id → Option Half} (home : Id → Option Id)
    (half : Half) (m : Message) (svc : Service) (hf : half.forward? = none)
    (h : (pending half.channel).bind Half.forward? = none) :
    ((ofPending live pending home).add half).met half.channel m svc =
      ofPending ((svc.homes m.payload).foldl Live.rehomed (live.after (svc.marks m.payload)))
        (Function.update pending half.channel none) home := by
  unfold ofPending
  simp only [bind_update, foldl_rehomed_homes]
  cases half with
  | message _ =>
    exact Net.ext rfl (Function.update_idem ..) rfl (update_none_bind h).symm rfl
  | service _ =>
    exact Net.ext rfl rfl (Function.update_idem ..) (update_none_bind h).symm rfl
  | forward _ => cases hf

/-- A half that has come to its place stays there, or it meets its dual; then the continuation may
come home. -/
theorem eq_or_met_of_joins (live : Live) {pending : Id → Option Half} (home : Id → Option Id)
    {z : Id} {half : Half} {j : Joined} (h : Joins z half (pending z) j) {n n' : Net}
    (hn : n = (ofPending live pending home).add (half.movedTo z))
    (hn' : n' = ofPending (j.homes.foldl Live.rehomed (live.after j.marks))
      (runSlots j.slots pending) home) :
    n' = n ∨ ∃ m svc term, n.message z = some m ∧ n.service z = some svc ∧
      svc.reply m.payload = some term ∧ n' = n.met z m svc ∧ j.homes = svc.homes m.payload := by
  subst hn hn'
  generalize hp : pending z = there at h
  cases h with
  | wait =>
    have hch : (half.movedTo z).channel = z := half.channel_movedTo z
    rw [add_ofPending live home _ (by rw [hch, hp])]
    exact .inl rfl
  | @serve msg svc term hr =>
    have hs : (ofPending live pending home).service z = some svc := by
      show (pending z).bind Half.service? = some svc
      rw [hp]
      rfl
    have hf : (pending z).bind Half.forward? = none := by
      rw [hp]
      rfl
    have hnet := met_ofPending live home (Half.movedTo z (.message msg))
      { msg with channel := z } svc rfl hf
    exact .inr ⟨_, svc, term, Function.update_self .., hs, hr, hnet.symm, rfl⟩
  | @fetch msg svc term hr =>
    have hm : (ofPending live pending home).message z = some msg := by
      show (pending z).bind Half.message? = some msg
      rw [hp]
      rfl
    have hf : (pending z).bind Half.forward? = none := by
      rw [hp]
      rfl
    have hnet := met_ofPending live home (Half.movedTo z (.service svc)) msg
      { svc with channel := z } rfl hf
    exact .inr ⟨msg, _, term, hm, Function.update_self .., hr, hnet.symm, rfl⟩

theorem turns_of_joins {live : Live} {pending : Id → Option Half} {home : Id → Option Id} {z : Id}
    {half : Half} {j : Joined} (h : Joins z half (pending z) j) :
    ReflTransGen (Turn D c) ((ofPending live pending home).add (half.movedTo z))
      (ofPending (j.homes.foldl Live.rehomed (live.after j.marks)) (runSlots j.slots pending)
        home) := by
  rcases eq_or_met_of_joins live home h rfl rfl with heq | ⟨m, svc, term, hm, hs, hr, hmet, -⟩
  · rw [heq]
  · rw [hmet]
    exact .single (.meet hm hs hr)

end Net

/-! ## Entering -/

namespace Live

variable (v : Live) (p π : Id) (via other : Sym) (e given next : Endpoint)

theorem after_discard : v.after [⟨p, π, via, e, false⟩] = v.acted p via none none := by
  funext q ph
  simp only [after_cons, after_nil, marked, set, acted]
  grind

theorem after_advance :
    v.after [⟨p, π, via, e, false⟩, ⟨p, π, via, next, true⟩] = v.acted p via (some next) none := by
  funext q ph
  simp only [after_cons, after_nil, marked, set, acted]
  grind

theorem after_give :
    v.after [⟨p, π, other, given, false⟩, ⟨p, π, via, e, false⟩, ⟨p, π, via, next, true⟩] =
      v.acted p via (some next) (some other) := by
  funext q ph
  simp only [after_cons, after_nil, marked, set, acted]
  grind

theorem after_handOver :
    v.after [⟨p, π, via, e, false⟩, ⟨p, π, other, given, false⟩] =
      v.acted p via none (some other) := by
  funext q ph
  simp only [after_cons, after_nil, marked, set, acted]
  grind

end Live

namespace Store

variable {s s' : Store} {p : Id} {cfg : Configuration} {env : Env} {fresh : Fresh} {term : Term}
  {ctx : Context} {ep : Endpoint} {own : List Mark}

/-- The side of a channel that a term acts on is the one that the polarity of its type gives. -/
theorem provides_iff_of_suits {node : TypeNode} (h : Suits term (Context.sideFrom cfg.pool ep) node) :
    ep.pool = cfg.pool ↔ node.polarity = if term.handler? = none then .pos else .neg := by
  rw [← sideFrom_eq_provider]
  generalize Context.sideFrom cfg.pool ep = side at h ⊢
  cases h <;> simp [TypeNode.polarity, Term.handler?]

/-- A handler goes with the type that its term suits. -/
theorem fits_of_suits {side : Side} {node : TypeNode} {handler : Handler}
    (h : Suits term side node) (hh : term.handler? = some handler) : handler.Fits node := by
  cases h <;> cases hh
  · exact .one
  · exact .tensor
  · exact .lolli
  · next h => exact .plus fun label => (h label).1
  · next h => exact .with fun label => (h label).1
  · exact .up
  · exact .down

/-- What a process sees resolved is what its type stands for. -/
theorem suits_of_reads (hr : s.Reads p cfg) (hw : env.Within s.decls)
    (hcheck : checkStep cfg.pool env cfg term = .ok ctx) (ht : term.offers = true)
    (hep : cfg.channels.get? term.via = some ep) :
    ∃ id node, env.resolve ep.type = .ok (id, node) ∧ s.net.live p term.via = some ep ∧
      s.decls.Denotes ep.type node ∧ Suits term (Context.sideFrom cfg.pool ep) node ∧
      ∀ via value, term = .send via value →
        value ≠ via ∧ ∃ given, cfg.channels.get? value = some given ∧ given.pool ≠ cfg.pool := by
  obtain ⟨ep', id, node, hep', hres, hsuits, hvalue⟩ := suits_of_checkStep ht hcheck
  cases hep.symm.trans hep'
  have hlive : s.net.live p term.via = some ep := (hr.channels _).symm.trans hep
  exact ⟨id, node, hres, hlive, Env.denotes_of_resolve hw hres, hsuits, hvalue⟩

/-- An offered message is one that the process can emit. -/
theorem emits_of_offers (hr : s.Reads p cfg) (hw : env.Within s.decls)
    (hcheck : checkStep cfg.pool env cfg term = .ok ctx) {m : Message}
    (ho : Offers env cfg fresh term ep own (.message m)) :
    ∃ given, s.net.Emits s.decls.Denotes p cfg.pool term.via ep m.payload given fresh.channel ∧
      s.live.after own = s.live.acted p term.via m.payload.cont? given ∧
      m = ⟨ep.channel, cfg.pool, p, m.payload⟩ := by
  generalize hhalf : Half.message m = half at ho
  obtain rfl := hr.process
  cases ho with
  | @close via ep hep =>
    cases hhalf
    obtain ⟨id, node, -, hlive, hnode, hsuits, -⟩ := suits_of_reads hr hw hcheck rfl hep
    have hside := provides_iff_of_suits hsuits
    refine ⟨none, ⟨hr.member, hlive, ⟨node, hnode, ?_, hside⟩, (nomatch ·), (nomatch ·),
      fun _ => rfl⟩, Live.after_discard .., rfl⟩
    generalize Context.sideFrom cfg.pool ep = side at hsuits
    cases hsuits
    exact .close
  | @send via value ep given id type node hep hnode hc hv =>
    cases hhalf
    obtain ⟨id', node', hres, hlive, hden, hsuits, hvalue⟩ := suits_of_reads hr hw hcheck rfl hep
    cases hnode.symm.trans hres
    have hside := provides_iff_of_suits hsuits
    obtain ⟨hne, given', hv', hpool⟩ := hvalue via value rfl
    cases hv.symm.trans hv'
    refine ⟨some value, ⟨hr.member, hlive, ⟨node, hden, ?_, hside⟩, ?_, ?_, (nomatch ·)⟩,
      Live.after_give .., rfl⟩
    · cases hc
      · exact .tensor
      · exact .lolli
    · rintro k ⟨⟩
      exact ⟨rfl, rfl⟩
    · rintro v ⟨⟩
      exact ⟨value, rfl, hne, (hr.channels _).symm.trans hv, hpool⟩
  | @pass term ep id type node payload hep hnode hp =>
    cases hhalf
    have ht : term.offers = true := by cases hp <;> rfl
    obtain ⟨id', node', hres, hlive, hden, hsuits, -⟩ := suits_of_reads hr hw hcheck ht hep
    cases hnode.symm.trans hres
    have hside := provides_iff_of_suits hsuits
    have hcont : ∀ k, (payload k).cont? = some k ∧ (payload k).value? = none ∧
        (payload k).Fits node ∧ term.handler? = none := by
      intro k
      cases hp with
      | plus h => exact ⟨rfl, rfl, .plus (Table.mem_keys_of_get?_eq_some h), rfl⟩
      | «with» h => exact ⟨rfl, rfl, .with (Table.mem_keys_of_get?_eq_some h), rfl⟩
      | up => exact ⟨rfl, rfl, .up, rfl⟩
      | down => exact ⟨rfl, rfl, .down, rfl⟩
    obtain ⟨hk, hv, hfits, hh⟩ := hcont ⟨fresh.channel, type, ep.pool⟩
    rw [if_pos hh] at hside
    refine ⟨none, ⟨hr.member, hlive, ⟨node, hden, hfits, hside⟩, ?_, ?_, fun _ => rfl⟩, ?_, rfl⟩
    · intro k hk'
      cases hk.symm.trans hk'
      exact ⟨rfl, rfl⟩
    · intro v hv'
      cases hv.symm.trans hv'
    · rw [hk]
      exact Live.after_advance ..
  | consume => cases hhalf

theorem channel_of_offers {half : Half} (ho : Offers env cfg fresh term ep own half) :
    cfg.channels.get? term.via = some ep ∧ half.channel = ep.channel ∧ half.forward? = none := by
  cases ho with
  | close hep => exact ⟨hep, rfl, rfl⟩
  | send hep => exact ⟨hep, rfl, rfl⟩
  | pass hep => exact ⟨hep, rfl, rfl⟩
  | consume _ hep => exact ⟨hep, rfl, rfl⟩

theorem idle_of_waiting (hr : s.Reads p cfg) (hidle : cfg.waiting? = none) : s.net.Idle p := by
  intro z svc hz
  obtain ⟨half, hhalf, hsvc⟩ := Option.bind_eq_some_iff.1 hz
  have hservice : half = .service svc := by
    cases half <;> cases hsvc
    rfl
  exact hr.idle.1 hidle z svc (hservice ▸ hhalf)

/-- A process enters with what it offers. -/
theorem turn_of_offers (hr : s.Reads p cfg) (hw : env.Within s.decls)
    (hidle : cfg.waiting? = none) (hcheck : checkStep cfg.pool env cfg term = .ok ctx)
    (hu : s.net.Unused fresh.channel) {half : Half} (ho : Offers env cfg fresh term ep own half)
    (hmsg : half.message?.isSome → s.net.message ep.channel = none)
    (hsvc : half.service?.isSome → s.net.service ep.channel = none) :
    Net.Turn s.decls.Denotes fresh.channel s.net
      (({ s.net with live := s.live.after own } : Net).add half) := by
  cases half with
  | message m =>
    obtain ⟨given, hemits, hlive, hm⟩ := emits_of_offers hr hw hcheck ho
    have hturn := Net.Turn.emit hemits hu (idle_of_waiting hr hidle) (hmsg rfl)
    have hch : m.channel = ep.channel := congrArg Message.channel hm
    rw [Net.emitted, ← hm] at hturn
    rw [hlive, Net.add, hch]
    exact hturn
  | service svc =>
    cases ho with
    | @consume term ep handler hh hep =>
      have ht : term.offers = true := by cases term <;> first | rfl | cases hh
      obtain ⟨id, node, -, hlive, hden, hsuits, -⟩ := suits_of_reads hr hw hcheck ht hep
      have hside := provides_iff_of_suits hsuits
      rw [if_neg (by rw [hh]; simp)] at hside
      obtain rfl := hr.process
      exact .await hr.member hlive hden (fits_of_suits hsuits hh) hside
        (idle_of_waiting hr hidle) (hsvc rfl)
  | forward f => cases (channel_of_offers ho).2.2

end Store

/-- Nothing is in the way of a half that stays or meets its dual. -/
theorem free_of_joins {pending : Id → Option Half} {x z : Id} {passed : List Id} {half : Half}
    {j : Joined} (hl : Leads pending x passed z) (hj : Joins z half (pending z) j) (w : Id)
    (hw : w ∈ passed ∨ w = z ∨ w = x) :
    (half.message?.isSome → (pending w).bind Half.message? = none) ∧
      (half.service?.isSome → (pending w).bind Half.service? = none) := by
  have hend : (half.message?.isSome → (pending z).bind Half.message? = none) ∧
      (half.service?.isSome → (pending z).bind Half.service? = none) := by
    generalize pending z = there at hj
    cases hj with
    | wait => exact ⟨fun _ => rfl, fun _ => rfl⟩
    | serve _ => exact ⟨fun _ => rfl, (nomatch ·)⟩
    | fetch _ => exact ⟨(nomatch ·), fun _ => rfl⟩
  have hpassed : w ∈ passed → (pending w).bind Half.message? = none ∧
      (pending w).bind Half.service? = none := by
    intro hm
    obtain ⟨f, hf⟩ := hl.forward_of_mem hm
    rw [hf]
    exact ⟨rfl, rfl⟩
  have hstart : w = x → w ∈ passed ∨ w = z := by
    rintro rfl
    cases hl with
    | stay _ => exact .inr rfl
    | hop _ _ => exact .inl List.mem_cons_self
  rcases hw with hm | rfl | hx
  · exact ⟨fun _ => (hpassed hm).1, fun _ => (hpassed hm).2⟩
  · exact hend
  · rcases hstart hx with hm | rfl
    · exact ⟨fun _ => (hpassed hm).1, fun _ => (hpassed hm).2⟩
    · exact hend

/-- Using up forwards leaves messages and services alone. -/
theorem Net.cleared_ofPending {live : Live} {pending : Id → Option Half} {home : Id → Option Id}
    {passed : List Id} (h : ∀ x ∈ passed, ∃ f, pending x = some (.forward f)) :
    ({ ofPending live pending home with
        forward := cleared passed (ofPending live pending home).forward } : Net) =
      ofPending live (cleared passed pending) home := by
  have hnone : ∀ {α : Type} (f : Half → Option α), (∀ fw, f (.forward fw) = none) →
      (fun x => (pending x).bind f) = fun x => (cleared passed pending x).bind f := by
    intro α f hf
    funext x
    by_cases hx : x ∈ passed
    · obtain ⟨fw, hfw⟩ := h x hx
      rw [cleared, if_pos hx, hfw]
      exact hf fw
    · rw [cleared, if_neg hx]
  refine Net.ext rfl (hnone _ fun _ => rfl) (hnone _ fun _ => rfl) ?_ rfl
  funext x
  show cleared passed _ x = (cleared passed pending x).bind _
  by_cases hx : x ∈ passed
  · rw [cleared, cleared, if_pos hx, if_pos hx]
    rfl
  · rw [cleared, cleared, if_neg hx, if_neg hx]
    rfl

namespace Store

variable {s s' : Store} {p : Id} {cfg : Configuration} {env : Env} {fresh : Fresh} {term : Term}
  {ctx : Context} {ep : Endpoint} {own : List Mark}

/-- The net after a plan without new processes. -/
theorem net_of_commits {pl : Plan} (hc : s.Commits s' pl) (hm : pl.members = []) :
    s'.net = .ofPending (pl.homes.foldl Live.rehomed (s.live.after pl.marks))
      (runSlots pl.slots s.halves.get?) s.poolOf? := by
  have hmem : s'.members = s.members := by rw [hc.members, hm, List.foldl_nil]
  have hpool : s'.poolOf? = s.poolOf? := by
    funext p
    rw [poolOf?, hmem, poolOf?]
  rw [net, hc.live, hc.halves, get?_foldl_applySlot, hpool]

/-- Where forwards lead from a channel of the acting process. -/
theorem leads_of_landing (hr : s.Reads p cfg) {ph : Sym} (he : cfg.channels.get? ph = some ep)
    {l : Landing} (hl : cfg.landing? ep.channel = some l) :
    Leads s.halves.get? ep.channel l.passed l.channel ∧ l.half = s.halves.get? l.channel :=
  (hr.landing?_eq_some_iff ((hr.channels _).symm.trans he)).1 hl

/-- What a process offers moves to where it lands, and stays or meets its dual there. -/
theorem turns_of_offer (hr : s.Reads p cfg) (hw : env.Within s.decls)
    (hidle : cfg.waiting? = none) (hcheck : checkStep cfg.pool env cfg term = .ok ctx)
    (hu : s.net.Unused fresh.channel) {half : Half} {l : Landing} {j : Joined}
    (ho : Offers env cfg fresh term ep own half) (hl : cfg.landing? ep.channel = some l)
    (hj : Joins l.channel half l.half j)
    (hc : s.Commits s' ⟨j.next, own ++ j.marks, l.takes ++ j.slots, j.homes, [], []⟩) :
    ReflTransGen (Net.Turn s.decls.Denotes fresh.channel) s.net s'.net := by
  obtain ⟨hep, hch, hfor⟩ := channel_of_offers ho
  obtain ⟨hleads, hhalf⟩ := leads_of_landing hr hep hl
  rw [hhalf] at hj
  have hfree := fun w => free_of_joins hleads hj w
  have hpassed : ∀ x ∈ l.passed, ∃ f, s.halves.get? x = some (.forward f) :=
    fun x hx => hleads.forward_of_mem hx
  rw [net_of_commits hc rfl, Live.after_append, runSlots_append, runSlots_takes]
  have henter := turn_of_offers hr hw hidle hcheck hu ho
    (fun h => (hfree _ (.inr (.inr rfl))).1 h) (fun h => (hfree _ (.inr (.inr rfl))).2 h)
  have hsettle := Net.settle (D := s.decls.Denotes) (c := fresh.channel) half
    (n := .ofPending (s.live.after own) s.halves.get? s.poolOf?) (hch ▸ hleads)
    (fun w _ => rfl) hfor (fun h w hw => (hfree w (hch ▸ hw)).1 h)
    (fun h w hw => (hfree w (hch ▸ hw)).2 h)
  rw [Net.cleared_ofPending hpassed] at hsettle
  -- nothing changes at the landing itself when the forwards before it are used up
  have hend : cleared l.passed s.halves.get? l.channel = s.halves.get? l.channel :=
    if_neg hleads.notMem
  exact .head henter (hsettle.trans (Net.turns_of_joins (hend.symm ▸ hj)))

variable {via target : Sym} {x y : Endpoint}

/-- A forward that is accepted gives up its two channels. -/
theorem turn_of_fwd (c : Id) (hr : s.Reads p cfg) (hw : env.Within s.decls)
    (hidle : cfg.waiting? = none) (hcheck : checkStep cfg.pool env cfg (.fwd via target) = .ok ctx)
    (hx : cfg.channels.get? via = some x) (hy : cfg.channels.get? target = some y)
    (hfree : s.net.forward y.channel = none) :
    Net.Turn s.decls.Denotes c s.net { s.net with
      live := s.live.after (Drafting.handedOver cfg via target x y)
      forward := Function.update s.net.forward y.channel (some x.channel) } := by
  obtain ⟨x', y', id, node, hx', hxp, hy', hyp, -, hres, heq⟩ := joins_of_checkStep.1 ⟨ctx, hcheck⟩
  cases hx.symm.trans hx'
  cases hy.symm.trans hy'
  have hnx := Env.denotes_of_resolve hw hres
  obtain ⟨ny, hny, hshape⟩ := Env.sameShape_of_eqType hw heq hnx
  obtain rfl := hr.process
  have hlive : s.live.after (Drafting.handedOver cfg via target x y) =
      s.live.acted cfg.process via none (some target) := Live.after_handOver ..
  rw [hlive]
  exact .relay hr.member ((hr.channels _).symm.trans hx) hxp ((hr.channels _).symm.trans hy) hyp
    hnx hny hshape.symm (idle_of_waiting hr hidle) hfree

/-- The forward then leads to where its target leads. -/
theorem turns_of_fwd (c : Id) (hr : s.Reads p cfg) (hw : env.Within s.decls)
    (hidle : cfg.waiting? = none) (hcheck : checkStep cfg.pool env cfg (.fwd via target) = .ok ctx)
    (hx : cfg.channels.get? via = some x) (hy : cfg.channels.get? target = some y) {l : Landing}
    (hl : cfg.landing? x.channel = some l) (hfree : s.net.forward y.channel = none) :
    ReflTransGen (Net.Turn s.decls.Denotes c) s.net { s.net with
      live := s.live.after (Drafting.handedOver cfg via target x y)
      forward := Function.update (cleared l.passed s.net.forward) y.channel
        (some l.channel) } := by
  obtain ⟨hleads, -⟩ := leads_of_landing hr hx hl
  have hny : y.channel ∉ l.passed := by
    intro hm
    obtain ⟨f, hf⟩ := hleads.forward_of_mem hm
    have hsome : s.net.forward y.channel = some f.target := by
      show (s.halves.get? y.channel).bind Half.forward? = _
      rw [hf]
      rfl
    rw [hfree] at hsome
    cases hsome
  refine .head (turn_of_fwd c hr hw hidle hcheck hx hy hfree) ?_
  have hrun := Net.shorten_along (D := s.decls.Denotes) (c := c) (y := y.channel) hleads
    (n := { s.net with
      live := s.live.after (Drafting.handedOver cfg via target x y)
      forward := Function.update s.net.forward y.channel (some x.channel) })
    (fun w hw => Function.update_of_ne (fun e : w = y.channel => hny (e ▸ hw)) ..)
    (Function.update_self ..) hny
  have hupdate : Function.update
      (cleared l.passed (Function.update s.net.forward y.channel (some x.channel))) y.channel
      (some l.channel) =
      Function.update (cleared l.passed s.net.forward) y.channel (some l.channel) := by
    funext w
    simp only [cleared, Function.update_apply]
    grind
  rwa [hupdate] at hrun

/-- A forward stays where nothing is pending on the channel that is given away. -/
theorem turns_of_relay (hr : s.Reads p cfg) (hw : env.Within s.decls)
    (hidle : cfg.waiting? = none) (hcheck : checkStep cfg.pool env cfg (.fwd via target) = .ok ctx)
    (hx : cfg.channels.get? via = some x) (hy : cfg.channels.get? target = some y) {l : Landing}
    (hl : cfg.landing? x.channel = some l) (hnone : cfg.halves.get? y.channel = none)
    (hc : s.Commits s' ⟨none, Drafting.handedOver cfg via target x y,
      l.takes ++ [.put (.forward ⟨y.channel, cfg.pool, cfg.process, l.channel⟩)], [], [], []⟩) :
    ReflTransGen (Net.Turn s.decls.Denotes fresh.channel) s.net s'.net := by
  have hempty : s.halves.get? y.channel = none :=
    (hr.get?_halves ((hr.channels _).symm.trans hy)).symm.trans hnone
  have hfree : s.net.forward y.channel = none := by
    show (s.halves.get? y.channel).bind Half.forward? = none
    rw [hempty]
    rfl
  obtain ⟨hleads, -⟩ := leads_of_landing hr hx hl
  have hpassed : ∀ x ∈ l.passed, ∃ f, s.halves.get? x = some (.forward f) :=
    fun x hx => hleads.forward_of_mem hx
  have hrun := turns_of_fwd fresh.channel hr hw hidle hcheck hx hy hl hfree
  rw [net_of_commits hc rfl, runSlots_append, runSlots_takes]
  have hclear : cleared l.passed s.halves.get? y.channel = none := by
    rw [cleared, hempty, ite_self]
  have hput := Net.add_ofPending (s.live.after (Drafting.handedOver cfg via target x y))
    s.poolOf? (.forward ⟨y.channel, cfg.pool, cfg.process, l.channel⟩) hclear
  rw [← Net.cleared_ofPending hpassed] at hput
  exact hput ▸ hrun

/-- What the provider of the channel given away has left moves to where the forward leads. -/
theorem turns_of_redirect (hk : s.Keyed) (hr : s.Reads p cfg) (hw : env.Within s.decls)
    (hidle : cfg.waiting? = none) (hcheck : checkStep cfg.pool env cfg (.fwd via target) = .ok ctx)
    (hx : cfg.channels.get? via = some x) (hy : cfg.channels.get? target = some y) {l : Landing}
    (hl : cfg.landing? x.channel = some l) {left : Half} {j : Joined}
    (hleft : cfg.halves.get? y.channel = some left) (hfor : left.forward? = none)
    (hj : Joins l.channel left l.half j)
    (hc : s.Commits s' ⟨j.next, Drafting.handedOver cfg via target x y ++ j.marks,
      l.takes ++ (.take y.channel :: j.slots), j.homes, [], []⟩) :
    ReflTransGen (Net.Turn s.decls.Denotes fresh.channel) s.net s'.net := by
  have hthere : s.halves.get? y.channel = some left :=
    (hr.get?_halves ((hr.channels _).symm.trans hy)).symm.trans hleft
  have hch : left.channel = y.channel := hk.halves hthere
  obtain ⟨hleads, hhalf⟩ := leads_of_landing hr hx hl
  rw [hhalf] at hj
  have hpassed : ∀ x ∈ l.passed, ∃ f, s.halves.get? x = some (.forward f) :=
    fun x hx => hleads.forward_of_mem hx
  have hnotforward : ∀ f, s.halves.get? y.channel ≠ some (.forward f) := by
    rintro f hf
    cases hthere.symm.trans hf
    cases hfor
  have hyp : y.channel ∉ l.passed := fun hm => by
    obtain ⟨f, hf⟩ := hpassed _ hm
    exact hnotforward f hf
  -- the half cannot be joined with itself, so the forward leads elsewhere
  have hzy : l.channel ≠ y.channel := by
    intro e
    rw [e, hthere] at hj
    cases hj
  have hfree : s.net.forward y.channel = none := by
    show (s.halves.get? y.channel).bind Half.forward? = none
    rw [hthere]
    exact hfor
  have hrun := turns_of_fwd fresh.channel hr hw hidle hcheck hx hy hl hfree
  rw [net_of_commits hc rfl, Live.after_append, runSlots_append, runSlots_takes]
  generalize hL : s.live.after (Drafting.handedOver cfg via target x y) = live at hrun ⊢
  -- what is pending apart from the forwards passed and the half that moves
  obtain ⟨rest, hrest⟩ : ∃ rest, rest =
      Function.update (cleared l.passed s.halves.get?) y.channel none := ⟨_, rfl⟩
  have hry : rest y.channel = none := by
    rw [hrest, Function.update_self]
  have hrz : rest l.channel = s.halves.get? l.channel := by
    rw [hrest, Function.update_of_ne hzy, cleared, if_neg hleads.notMem]
  have hadd : (Net.ofPending live rest s.poolOf?).add left =
      .ofPending live (cleared l.passed s.halves.get?) s.poolOf? := by
    rw [Net.add_ofPending live s.poolOf? left (by rw [hch, hry]), hch, hrest,
      Function.update_idem, Function.update_eq_self_iff.2]
    rw [cleared, if_neg hyp, hthere]
  have hfree' := fun w hw => free_of_joins hleads hj w (.inr (.inl hw))
  have hnone : ∀ {α : Type} (f : Half → Option α), (rest y.channel).bind f = none := by
    intro α f
    rw [hry]
    rfl
  have hpass := Net.pass_along (D := s.decls.Denotes) (c := fresh.channel) left
    (n := .ofPending live rest s.poolOf?) (z := l.channel) (hch ▸ hzy) hfor (hch ▸ hnone _)
    (fun h w hw => by
      rcases hw with rfl | rfl
      · show (rest l.channel).bind Half.message? = none
        rw [hrz]
        exact (hfree' _ rfl).1 h
      · exact hch ▸ hnone _)
    (fun h w hw => by
      rcases hw with rfl | rfl
      · show (rest l.channel).bind Half.service? = none
        rw [hrz]
        exact (hfree' _ rfl).2 h
      · exact hch ▸ hnone _)
  have hstart : ({ s.net with
      live := live
      forward := Function.update (cleared l.passed s.net.forward) y.channel
        (some l.channel) } : Net) =
      { (Net.ofPending live rest s.poolOf?).add left with
        forward := Function.update (Net.ofPending live rest s.poolOf?).forward left.channel
          (some l.channel) } := by
    rw [hadd, ← Net.cleared_ofPending hpassed, hch]
    refine Net.ext rfl rfl rfl ?_ rfl
    funext w
    simp only [Net.ofPending, hrest, Function.update_apply, cleared, Store.net]
    grind
  have hslots : runSlots (.take y.channel :: j.slots) (cleared l.passed s.halves.get?) =
      runSlots j.slots rest := by
    rw [hrest]
    rfl
  rw [hslots]
  refine hrun.trans ?_
  rw [hstart]
  exact hpass.trans (Net.turns_of_joins (hrz.symm ▸ hj))

end Store

end Rendezvous
