import Mathlib.Tactic.Set
import Rendezvous.Proofs.Calls
import Rendezvous.Proofs.Steps

/-!
# Copies of a channel

`Store.copies` counts where a channel is held: the live bindings that name it, and the pending
messages that carry it as their value or as their continuation. A step moves copies around, and the
only ones that it makes are two of the channel that it has allocated.

The account is kept with sums over tables. A process that offers a half gives up as many copies as
the half carries (`weigh_offers`); where the half lands, its copies stay with it or go to a consumer
(`weigh_joins`); a new process gets what its founder gives away (`weigh_instance`); and bringing a
channel home makes no difference (`weigh_rehome_le`). The store may be any store: what a step needs
of it is read off its own configuration (`Sights`).
-/

namespace Rendezvous

/-! ## Counting -/

/-- One for an endpoint of channel `c`. -/
def Endpoint.copies (c : Id) (e : Endpoint) : Nat := if e.channel = c then 1 else 0

/-- How often a payload has a channel, as its value or as its continuation. -/
def Payload.copies (c : Id) (payload : Payload) : Nat :=
  payload.value?.elim 0 (Endpoint.copies c) + payload.cont?.elim 0 (Endpoint.copies c)

/-- How often a half has a channel to hand over. -/
def Half.copies (c : Id) : Half → Nat
  | .message m => m.payload.copies c
  | .service _ | .forward _ => 0

/-- How often a channel is held: by live bindings and by pending messages. -/
def Store.copies (s : Store) (c : Id) : Nat :=
  s.bindings.weigh (Endpoint.copies c) + s.halves.weigh (Half.copies c)

@[simp] theorem Half.copies_movedTo (c z : Id) (half : Half) :
    (half.movedTo z).copies c = half.copies c := by
  cases half <;> rfl

/-! ## Marks on a table of bindings -/

/-- Live bindings by process and placeholder. -/
abbrev Bindings := Table (Id × Sym) Endpoint

namespace Bindings

variable {c : Id} {t : Bindings}

/-- The effect of a mark. -/
def marked (t : Bindings) (k : Mark) : Bindings :=
  if k.isIntro then t.insert (k.process, k.placeholder) k.endpoint
  else t.erase (k.process, k.placeholder)

/-- The effect of marks, first to last. -/
def after (t : Bindings) (marks : List Mark) : Bindings := marks.foldl marked t

theorem after_append (t : Bindings) (marks marks' : List Mark) :
    t.after (marks ++ marks') = (t.after marks).after marks' :=
  List.foldl_append

theorem replay_stamped (t : Bindings) (k : Mark) {rev : Rev} (h : rev.Sized) :
    Store.replay t (k.stamped rev) = t.marked k := by
  cases hi : k.isIntro with
  | true =>
    have hpos : (k.stamped rev).isIntro = true := by
      simpa [Binding.isIntro, Mark.stamped, hi] using Rev.introStamp_pos h
    rw [Store.replay, if_pos hpos, marked, if_pos hi]
    rfl
  | false =>
    have hneg : ¬ (k.stamped rev).isIntro = true := by
      simpa [Binding.isIntro, Mark.stamped, hi] using Rev.consumeStamp_neg h
    rw [Store.replay, if_neg hneg, marked, if_neg (by simp [hi])]
    rfl

/-- Stamped entries do what their marks say. -/
theorem foldl_replay_stamped {marks : List Mark} {rev : Mark → Rev}
    (h : ∀ k ∈ marks, (rev k).Sized) (t : Bindings) :
    (marks.map fun k => k.stamped (rev k)).foldl Store.replay t = t.after marks := by
  induction marks generalizing t with
  | nil => rfl
  | cons k rest ih =>
    rw [List.map_cons, List.foldl_cons, replay_stamped t k (h k List.mem_cons_self)]
    exact ih (fun k' hk' => h k' (List.mem_cons_of_mem _ hk')) _

/-- Introducing a channel makes one copy at most. -/
theorem weigh_intro_le (t : Bindings) (p π : Id) (ph : Sym) (e : Endpoint) :
    (t.marked ⟨p, π, ph, e, true⟩).weigh (Endpoint.copies c) ≤
      t.weigh (Endpoint.copies c) + e.copies c :=
  t.weigh_insert_le (p, ph) e

theorem weigh_consume_le (t : Bindings) (p π : Id) (ph : Sym) (e : Endpoint) :
    (t.marked ⟨p, π, ph, e, false⟩).weigh (Endpoint.copies c) ≤ t.weigh (Endpoint.copies c) :=
  t.weigh_erase_le (p, ph)

/-- Consuming a placeholder gives up the copy that is bound to it. -/
theorem weigh_consume {p : Id} {ph : Sym} {e : Endpoint} (h : t.get? (p, ph) = some e) (π : Id) :
    (t.marked ⟨p, π, ph, e, false⟩).weigh (Endpoint.copies c) + e.copies c =
      t.weigh (Endpoint.copies c) := by
  have herase := t.weigh_erase (f := Endpoint.copies c) (p, ph)
  rw [h] at herase
  exact herase

theorem get?_consumed_of_ne {p q π : Id} {ph ph' : Sym} (h : (q, ph') ≠ (p, ph)) (e : Endpoint) :
    (t.marked ⟨p, π, ph, e, false⟩).get? (q, ph') = t.get? (q, ph') :=
  (t.get?_erase (p, ph) (q, ph')).trans (if_neg h)

theorem get?_introduced_of_ne {p q π : Id} {ph ph' : Sym} (h : (q, ph') ≠ (p, ph))
    (e : Endpoint) : (t.marked ⟨p, π, ph, e, true⟩).get? (q, ph') = t.get? (q, ph') :=
  (t.get?_insert (p, ph) (q, ph') e).trans (if_neg h)

end Bindings

/-! ## Offers and meetings -/

/-- A consumer gets the copies that its payload carries. -/
theorem weigh_serviceMarks_le (c : Id) (svc : Service) (payload : Payload) (t : Bindings) :
    (t.after (svc.marks payload)).weigh (Endpoint.copies c) ≤
      t.weigh (Endpoint.copies c) + payload.copies c := by
  have hcontinued : ∀ k, (Drafting.continued svc k).copies c = k.copies c := by
    intro k
    rw [Endpoint.copies, (Net.continued_channel svc k).1]
    rfl
  set t₁ := t.marked (svc.mark false svc.via svc.endpoint) with ht₁
  have h₁ : t₁.weigh (Endpoint.copies c) ≤ t.weigh (Endpoint.copies c) :=
    t.weigh_consume_le _ _ _ _
  -- the continuation is bound first, and then what is received
  set t₂ := t₁.after (payload.cont?.map fun next =>
    svc.mark true svc.via (Drafting.continued svc next)).toList with ht₂
  have h₂ : t₂.weigh (Endpoint.copies c) ≤
      t₁.weigh (Endpoint.copies c) + payload.cont?.elim 0 (Endpoint.copies c) := by
    cases hk : payload.cont? with
    | none => rw [ht₂, hk]; exact Nat.le_refl _
    | some k =>
      rw [ht₂, hk, Option.elim_some, ← hcontinued k]
      exact t₁.weigh_intro_le _ _ _ _
  have h₃ : (t₂.after (svc.received payload)).weigh (Endpoint.copies c) ≤
      t₂.weigh (Endpoint.copies c) + payload.value?.elim 0 (Endpoint.copies c) := by
    unfold Service.received
    split
    · exact t₂.weigh_intro_le _ _ _ _
    · exact Nat.le_add_right _ _
  have hafter : t.after (svc.marks payload) = t₂.after (svc.received payload) := by
    rw [Service.marks, ht₂, ht₁, ← Bindings.after_append]
    rfl
  rw [hafter, Payload.copies]
  omega

/-- Where a half lands, its copies stay with it or go to a consumer. -/
theorem weigh_joins (c : Id) {z : Id} {half : Half} {pending : Option Half} {j : Joined}
    (hj : Joins z half pending j) (t : Bindings) (halves : Table Id Half)
    (hp : ∀ half', pending = some half' → halves.get? z = some half') :
    (t.after j.marks).weigh (Endpoint.copies c) +
        (j.slots.foldl Store.applySlot halves).weigh (Half.copies c) ≤
      t.weigh (Endpoint.copies c) + halves.weigh (Half.copies c) + half.copies c := by
  cases hj with
  | wait =>
    have hput := halves.weigh_insert_le (f := Half.copies c) (half.movedTo z).channel
      (half.movedTo z)
    rw [Half.copies_movedTo] at hput
    rw [Nat.add_assoc]
    exact Nat.add_le_add_left hput _
  | serve =>
    rename_i msg svc term h
    have hmarks := weigh_serviceMarks_le c svc msg.payload t
    have htake := halves.weigh_erase_le (f := Half.copies c) z
    show (t.after (svc.marks msg.payload)).weigh _ + (halves.erase z).weigh _ ≤
      _ + msg.payload.copies c
    omega
  | fetch =>
    rename_i msg svc term h
    have hmarks := weigh_serviceMarks_le c svc msg.payload t
    have htake := halves.weigh_erase (f := Half.copies c) z
    rw [hp _ rfl] at htake
    have htake' : (halves.erase z).weigh (Half.copies c) + msg.payload.copies c =
        halves.weigh (Half.copies c) := htake
    show (t.after (svc.marks msg.payload)).weigh _ + (halves.erase z).weigh _ ≤ _ + 0
    omega

/-- What is read of a store for a step: the channels of the process as they are, and halves that
are there. -/
structure Store.Sights (s : Store) (cfg : Configuration) : Prop where
  channels : ∀ ph, cfg.channels.get? ph = s.bindings.get? (cfg.process, ph)
  halves : ∀ {x : Id} {half : Half}, cfg.halves.get? x = some half → s.halves.get? x = some half

/-- Offering a half gives up the copies that it carries, apart from those of the channel that is
new. -/
theorem weigh_offers (c : Id) {env : Env} {cfg : Configuration} {fresh : Fresh} {term : Term}
    {ep : Endpoint} {own : List Mark} {half : Half} {ctx : Context}
    (ho : Offers env cfg fresh term ep own half)
    (hcheck : checkStep cfg.pool env cfg term = .ok ctx) {t : Bindings}
    (ht : ∀ ph, cfg.channels.get? ph = t.get? (cfg.process, ph)) :
    (t.after own).weigh (Endpoint.copies c) + half.copies c ≤
      t.weigh (Endpoint.copies c) + 2 * if fresh.channel = c then 1 else 0 := by
  cases ho with
  | @close via ep hep =>
    have hgone := t.weigh_consume_le (c := c) cfg.process cfg.pool via ep
    exact Nat.le_trans hgone (Nat.le_add_right _ _)
  | @send via value ep given id type node hep hnode hc hv =>
    obtain ⟨-, -, -, -, -, -, hsend⟩ := suits_of_checkStep rfl hcheck
    have hne : value ≠ via := (hsend via value rfl).1
    rw [ht] at hep hv
    set next : Endpoint := ⟨fresh.channel, type, ep.pool⟩ with hnext
    have hgiven := Bindings.weigh_consume (c := c) hv cfg.pool
    set t₁ := t.marked ⟨cfg.process, cfg.pool, value, given, false⟩
    have hep₁ : t₁.get? (cfg.process, via) = some ep := by
      rw [Bindings.get?_consumed_of_ne fun h => hne (Prod.mk.inj h).2.symm]
      exact hep
    have hgone := t₁.weigh_consume_le (c := c) cfg.process cfg.pool via ep
    set t₂ := t₁.marked ⟨cfg.process, cfg.pool, via, ep, false⟩
    have hbound := t₂.weigh_intro_le (c := c) cfg.process cfg.pool via next
    have hfresh : next.copies c = if fresh.channel = c then 1 else 0 := rfl
    show (t₂.marked ⟨cfg.process, cfg.pool, via, next, true⟩).weigh _ +
      (given.copies c + next.copies c) ≤ _
    omega
  | @pass term ep id type node payload hep hnode hp =>
    set next : Endpoint := ⟨fresh.channel, type, ep.pool⟩ with hnext
    have hgone := t.weigh_consume_le (c := c) cfg.process cfg.pool term.via ep
    set t₁ := t.marked ⟨cfg.process, cfg.pool, term.via, ep, false⟩
    have hbound := t₁.weigh_intro_le (c := c) cfg.process cfg.pool term.via next
    have hfresh : next.copies c = if fresh.channel = c then 1 else 0 := rfl
    have hpayload : (payload next).copies c = next.copies c := by
      cases hp <;> exact Nat.zero_add _
    show (t₁.marked ⟨cfg.process, cfg.pool, term.via, next, true⟩).weigh _ +
      (payload next).copies c ≤ _
    omega
  | consume => exact Nat.le_add_right _ _

/-- A half that has come in a direction is no forward. -/
theorem Leads.notMem_of_ownDirection {g : Id → Option Half} {c y z : Id} {passed : List Id}
    {left : Half} {polarity : Polarity} (hl : Leads g c passed z) (hy : g y = some left)
    (hown : Drafting.ownDirection polarity left = true) : y ∉ passed := by
  intro hmem
  obtain ⟨f, hf⟩ := hl.forward_of_mem hmem
  cases hy.symm.trans hf
  cases polarity <;> cases hown

/-- Nothing joins what is pending on its own channel. -/
theorem Joins.channel_ne {g : Id → Option Half} {y z : Id} {left : Half} {j : Joined}
    (hj : Joins z left (g z) j) (hy : g y = some left) : z ≠ y := by
  rintro rfl
  rw [hy] at hj
  cases hj

/-- The forwards that a landing uses up weigh no less than nothing, and other halves stay. -/
theorem weigh_takes_le (f : Half → Nat) (l : Landing) (halves : Table Id Half) :
    (l.takes.foldl Store.applySlot halves).weigh f ≤ halves.weigh f ∧
      ∀ z, z ∉ l.passed → (l.takes.foldl Store.applySlot halves).get? z = halves.get? z := by
  constructor
  · refine Table.weigh_le_weigh fun z half hz => ⟨half, ?_, Nat.le_refl _⟩
    rw [get?_foldl_applySlot, runSlots_takes, cleared] at hz
    split at hz
    · cases hz
    · exact hz
  · intro z hz
    rw [get?_foldl_applySlot, runSlots_takes]
    exact if_neg hz

/-! ## Instances -/

/-- A gift moves from its giver to a process that is not the giver. -/
theorem weigh_gifts_le (c : Id) {cfg : Configuration} {q : Id} (hq : q ≠ cfg.process) (pool : Id)
    {gifts : List Gift} (hn : (gifts.map Gift.value).Nodup) {t : Bindings}
    (ht : ∀ g ∈ gifts, t.get? (cfg.process, g.value) = some g.endpoint) :
    (t.after (gifts.flatMap (Gift.marks cfg q pool))).weigh (Endpoint.copies c) ≤
      t.weigh (Endpoint.copies c) := by
  induction gifts generalizing t with
  | nil => exact Nat.le_refl _
  | cons g rest ih =>
    obtain ⟨hg, hrest⟩ := List.nodup_cons.1 hn
    have hgiven := Bindings.weigh_consume (c := c) (ht g List.mem_cons_self) cfg.pool
    set t₁ := t.marked ⟨cfg.process, cfg.pool, g.value, g.endpoint, false⟩ with ht₁
    have htaken := t₁.weigh_intro_le (c := c) q pool g.parameter.placeholder g.endpoint
    set t₂ := t₁.marked ⟨q, pool, g.parameter.placeholder, g.endpoint, true⟩ with ht₂
    have hothers : ∀ g' ∈ rest, t₂.get? (cfg.process, g'.value) = some g'.endpoint := by
      intro g' hg'
      have hne : g'.value ≠ g.value := fun h => hg (h ▸ List.mem_map_of_mem hg')
      rw [ht₂, Bindings.get?_introduced_of_ne fun h => hq (Prod.mk.inj h).1.symm, ht₁,
        Bindings.get?_consumed_of_ne fun h => hne (Prod.mk.inj h).2]
      exact ht g' (List.mem_cons_of_mem _ hg')
    have hafter := ih hrest hothers
    have hall : t.after ((g :: rest).flatMap (Gift.marks cfg q pool)) =
        t₂.after (rest.flatMap (Gift.marks cfg q pool)) := by
      rw [List.flatMap_cons, Bindings.after_append]
      rfl
    rw [hall]
    omega

/-- A new process gets what its founder gives away; the channel that it provides is held by the
two of them. -/
theorem weigh_instance (c : Id) {env : Env} {cfg : Configuration} {fresh : Fresh} {sig : Id}
    {values : List Sym} {pool : Id} {i : Instance}
    (hi : Instantiates env cfg fresh sig values pool i) (hn : values.Nodup)
    (hq : fresh.process ≠ cfg.process) (via : Sym) {t : Bindings}
    (ht : ∀ ph, cfg.channels.get? ph = t.get? (cfg.process, ph)) :
    (t.after (i.marks cfg fresh.process via)).weigh (Endpoint.copies c) ≤
      t.weigh (Endpoint.copies c) + 2 * if fresh.channel = c then 1 else 0 := by
  have hvalues : i.gifts.map Gift.value = values := by
    have hfst := congrArg (List.map Prod.fst) hi.gifts
    rwa [List.map_map, List.map_fst_zip (Nat.le_of_eq hi.arity)] at hfst
  have hfresh : i.provision.copies c = if fresh.channel = c then 1 else 0 := by
    rw [Endpoint.copies, hi.channel]
  have hown := t.weigh_intro_le (c := c) fresh.process i.provision.pool
    i.sig.provision.placeholder i.provision
  set t₁ := t.marked
    ⟨fresh.process, i.provision.pool, i.sig.provision.placeholder, i.provision, true⟩ with ht₁
  have hgiven : ∀ g ∈ i.gifts, t₁.get? (cfg.process, g.value) = some g.endpoint := by
    intro g hg
    rw [ht₁, Bindings.get?_introduced_of_ne fun h => hq (Prod.mk.inj h).1.symm, ← ht]
    exact (hi.given g hg).1
  have hgifts := weigh_gifts_le c hq i.provision.pool (hvalues ▸ hn) hgiven
  set t₂ := t₁.after (i.gifts.flatMap (Gift.marks cfg fresh.process i.provision.pool)) with ht₂
  have hheld := t₂.weigh_intro_le (c := c) cfg.process cfg.pool via i.provision
  have hall : t.after (i.marks cfg fresh.process via) =
      t₂.marked ⟨cfg.process, cfg.pool, via, i.provision, true⟩ := by
    rw [ht₂, ht₁]
    exact Bindings.after_append _ _ _
  rw [hall]
  omega

/-! ## Moves -/

/-- Giving two channels up makes no copies. -/
theorem weigh_handedOver_le (c : Id) (cfg : Configuration) (via target : Sym) (x y : Endpoint)
    (t : Bindings) :
    (t.after (Drafting.handedOver cfg via target x y)).weigh (Endpoint.copies c) ≤
      t.weigh (Endpoint.copies c) :=
  Nat.le_trans (Bindings.weigh_consume_le _ cfg.process cfg.pool target y)
    (t.weigh_consume_le cfg.process cfg.pool via x)

/-- A move makes no copies, apart from two of the channel that is new. -/
theorem weigh_moves (c : Id) {s : Store} {env : Env} {cfg : Configuration} {fresh : Fresh}
    {term : Term} {pl : Plan} {ctx : Context} (hs : s.Sights cfg)
    (hcheck : checkStep cfg.pool env cfg term = .ok ctx) (hq : fresh.process ≠ cfg.process)
    (h : Moves env cfg fresh term pl) :
    (Bindings.after s.bindings pl.marks).weigh (Endpoint.copies c) +
        (pl.slots.foldl Store.applySlot s.halves).weigh (Half.copies c) ≤
      s.copies c + 2 * if fresh.channel = c then 1 else 0 := by
  unfold Store.copies
  cases h with
  | @offer _ ep own half l j ho hl hj =>
    obtain ⟨hleads, hhalf⟩ := Configuration.landing?_eq_some_iff.1 hl
    have hown := weigh_offers c ho hcheck hs.channels
    obtain ⟨htakes, hstay⟩ := weigh_takes_le (Half.copies c) l s.halves
    have hjoin := weigh_joins c hj (Bindings.after s.bindings own) _ fun half' hhalf' => by
      rw [hstay _ hleads.notMem]
      exact hs.halves (hhalf ▸ hhalf')
    rw [Bindings.after_append, List.foldl_append]
    omega
  | @relay via target x y l hx hy hl hnone =>
    have hgone := weigh_handedOver_le c cfg via target x y s.bindings
    obtain ⟨htakes, -⟩ := weigh_takes_le (Half.copies c) l s.halves
    have hput := (l.takes.foldl Store.applySlot s.halves).weigh_insert_le (f := Half.copies c)
      y.channel (.forward ⟨y.channel, cfg.pool, cfg.process, l.channel⟩)
    rw [List.foldl_append]
    exact Nat.le_trans (Nat.add_le_add hgone (Nat.le_trans hput htakes)) (Nat.le_add_right _ _)
  | @redirect via target x y l left id node j hx hy hl hleft hnode hown hj =>
    obtain ⟨hleads, hhalf⟩ := Configuration.landing?_eq_some_iff.1 hl
    have hgone := weigh_handedOver_le c cfg via target x y s.bindings
    obtain ⟨htakes, hstay⟩ := weigh_takes_le (Half.copies c) l s.halves
    set halves := l.takes.foldl Store.applySlot s.halves
    have hne : l.channel ≠ y.channel := Joins.channel_ne (hhalf ▸ hj) hleft
    have htake := halves.weigh_erase (f := Half.copies c) y.channel
    rw [hstay _ (hleads.notMem_of_ownDirection hleft hown), hs.halves hleft,
      Option.elim_some] at htake
    have hjoin := weigh_joins c hj
      (Bindings.after s.bindings (Drafting.handedOver cfg via target x y))
      (halves.erase y.channel) fun half' hhalf' => by
        rw [Table.get?_erase, if_neg hne, hstay _ hleads.notMem]
        exact hs.halves (hhalf ▸ hhalf')
    rw [Bindings.after_append, List.foldl_append, List.foldl_cons]
    change _ + (j.slots.foldl Store.applySlot (halves.erase y.channel)).weigh _ ≤ _
    omega
  | @call via sig values cont i hi =>
    obtain ⟨-, hn, -⟩ := gives_of_checkStep (.inl rfl) hcheck
    have hinstance := weigh_instance c hi hn hq via hs.channels
    dsimp only [List.foldl_nil]
    omega
  | @spawn via sig values pool cont i hi =>
    obtain ⟨-, hn, -⟩ := gives_of_checkStep (.inr ⟨pool, rfl⟩) hcheck
    have hinstance := weigh_instance c hi hn hq via hs.channels
    dsimp only [List.foldl_nil]
    omega

/-- A pool that a move makes starts at the first revision. -/
theorem initial_of_moves {env : Env} {cfg : Configuration} {fresh : Fresh} {term : Term}
    {pl : Plan} (h : Moves env cfg fresh term pl) : ∀ pool ∈ pl.pools, pool.rev = .initial := by
  cases h with
  | call => exact List.forall_mem_singleton.2 rfl
  | _ => exact fun _ hp => nomatch hp

/-! ## Commits -/

/-- Bringing a channel home makes no copies: its bindings stay on it. -/
theorem weigh_rehome_le (c : Id) (home : Endpoint) (s : Store) :
    (s.rehome home).bindings.weigh (Endpoint.copies c) ≤ s.bindings.weigh (Endpoint.copies c) := by
  -- each entry that is added replaces a binding of the channel, or ends it
  suffices h : ∀ (bs : List Binding) (t : Bindings),
      (∀ b ∈ bs, b.endpoint = home ∧
        ∃ e, s.live b.process b.placeholder = some e ∧ e.channel = home.channel) →
      (∀ k e', t.get? k = some e' → ∃ e, s.bindings.get? k = some e ∧ e'.channel = e.channel) →
      ∀ k e', (bs.foldl Store.replay t).get? k = some e' →
        ∃ e, s.bindings.get? k = some e ∧ e'.channel = e.channel by
    refine Table.weigh_le_weigh fun k e' he' => ?_
    have hlog : (s.rehome home).bindings = (s.homecoming home).foldl Store.replay s.bindings :=
      List.foldl_append
    rw [hlog] at he'
    obtain ⟨e, he, hc⟩ := h (s.homecoming home) s.bindings
      (fun b hb => by
        obtain ⟨e, pool, hlive, hc, -, -, hend, -⟩ := Store.mem_homecoming.1 hb
        exact ⟨hend, e, hlive, hc⟩)
      (fun k e he => ⟨e, he, rfl⟩) k e' he'
    exact ⟨e, he, Nat.le_of_eq (by rw [Endpoint.copies, Endpoint.copies, hc])⟩
  intro bs
  induction bs with
  | nil => exact fun t _ ht => ht
  | cons b rest ih =>
    intro t hbs ht
    refine ih (Store.replay t b) (fun b' hb' => hbs b' (List.mem_cons_of_mem _ hb')) ?_
    rintro ⟨p, ph⟩ e' he'
    obtain ⟨hend, e, hlive, hc⟩ := hbs b List.mem_cons_self
    rw [Store.get?_replay, Live.entered, Live.set] at he'
    by_cases hk : p = b.process ∧ ph = b.placeholder
    · obtain ⟨rfl, rfl⟩ := hk
      rw [if_pos ⟨rfl, rfl⟩] at he'
      split at he'
      · cases he'
        exact ⟨e, hlive, by rw [hend, hc]⟩
      · cases he'
    · rw [if_neg hk] at he'
      exact ht (p, ph) e' he'

namespace Store

/-- The copies that the marks and slots of a plan leave are those that its change leaves. -/
theorem copies_apply_le (c : Id) {s : Store} {pl : Plan} {m : Change} (hd : pl.Fills m)
    (hrev : ∀ k ∈ pl.marks, ((m.stamp? k.pool).getD .initial).Sized) :
    (s.apply m).copies c ≤
      (Bindings.after s.bindings pl.marks).weigh (Endpoint.copies c) +
        (pl.slots.foldl applySlot s.halves).weigh (Half.copies c) := by
  have hhomes : ∀ (homes : List Endpoint) (s : Store),
      (homes.foldl rehome s).bindings.weigh (Endpoint.copies c) ≤
        s.bindings.weigh (Endpoint.copies c) := by
    intro homes
    induction homes with
    | nil => exact fun _ => Nat.le_refl _
    | cons home rest ih =>
      exact fun s => Nat.le_trans (ih (s.rehome home)) (weigh_rehome_le c home s)
  have hmarks : (s.log ++ m.bindings).foldl replay ∅ = Bindings.after s.bindings pl.marks := by
    rw [List.foldl_append, hd.bindings]
    exact Bindings.foldl_replay_stamped hrev s.bindings
  rw [copies, halves_apply, hd.slots, ← hmarks]
  exact Nat.add_le_add_right (hhomes m.homes _) _

/-- A stamp of a change that fits keeps its sign, if revisions have room for one more. -/
theorem sized_of_stamp? {s : Store} {m : Change} (hl : s.Locked m.locks)
    (hroom : ∀ {q : Id} {pool : Pool}, s.pools.get? q = some pool → pool.rev.value < 2 ^ 63 - 1)
    (hnew : ∀ pool ∈ m.pools, pool.rev = .initial) {p : Id} {rev : Rev}
    (h : m.stamp? p = some rev) : rev.Sized := by
  unfold Change.stamp? at h
  cases hf : m.locks.find? (·.pool = p) with
  | some lock =>
    rw [hf] at h
    cases h
    obtain ⟨pool, hpool, hrev⟩ := hl lock (List.mem_of_find?_eq_some hf)
    have hlt := hroom hpool
    rw [hrev] at hlt
    exact ⟨Nat.succ_pos _, Nat.lt_pred_iff.1 hlt⟩
  | none =>
    rw [hf] at h
    obtain ⟨pool, hpool, rfl⟩ := Option.map_eq_some_iff.1 h
    rw [hnew pool (List.mem_of_find?_eq_some hpool)]
    exact ⟨by decide, by decide⟩

/-- Halves that a store has. -/
def Has (s : Store) (halves : Table Id Half) : Prop :=
  ∀ {x : Id} {half : Half}, halves.get? x = some half → s.halves.get? x = some half

theorem Has.insert {s : Store} {halves : Table Id Half} {c : Id} {half : Half} (h : s.Has halves)
    (hc : s.halves.get? c = some half) : s.Has (halves.insert c half) := by
  intro x half' hx
  rw [Table.get?_insert] at hx
  split at hx
  · next heq =>
    cases hx
    rwa [heq]
  · exact h hx

/-- What is collected is there. -/
theorem Has.collect {s : Store} {home c : Id} {seen : Sighting} (h : s.Has seen.halves) :
    s.Has (s.collect home c seen).halves := by
  fun_induction Store.collect s home c seen with
  | case1 => exact h
  | case2 => exact h
  | case3 c seen hmem f hc _ more ih => exact ih (h.insert hc)
  | case4 c seen half hc => exact h.insert hc

/-- A configuration is read off the store. -/
theorem sights_configuration {s : Store} {p : Id} {cfg : Configuration}
    (h : s.configuration p = .ok cfg) :
    s.Sights cfg ∧ cfg.process = p ∧ ∃ member, s.members.get? p = some member := by
  unfold configuration at h
  cases hm : s.members.get? p with
  | none => rw [hm] at h; cases h
  | some member =>
    rw [hm] at h
    dsimp only at h
    cases hpool : s.pools.get? member.pool with
    | none => rw [hpool] at h; cases h
    | some pool =>
      rw [hpool] at h
      cases h
      refine ⟨⟨fun ph => channelsOf_get? s p ph, fun {x half} hx => ?_⟩, rfl, member, rfl⟩
      rw [get?_addOwnServices, Option.or_eq_some_iff] at hx
      rcases hx with hx | ⟨-, hx⟩
      · suffices h : ∀ (eps : List Endpoint) (seen : Sighting), s.Has seen.halves →
            s.Has (eps.foldl (fun seen ep => s.collect member.pool ep.channel seen) seen).halves
          from h _ ⟨∅, ∅⟩ (fun h => (nomatch h)) hx
        intro eps
        induction eps with
        | nil => exact fun _ h => h
        | cons ep rest ih => exact fun seen h => ih _ h.collect
      · exact (Option.filter_eq_some_iff.1 hx).1

theorem Sights.aim {s : Store} {cfg cfg' : Configuration} {term : Term} (h : s.Sights cfg)
    (ha : s.aim cfg term = .ok cfg') : s.Sights cfg' ∧ cfg'.process = cfg.process := by
  cases term with
  | spawn _ _ _ pool _ =>
    rw [Store.aim] at ha
    cases hp : s.pools.get? pool with
    | none => rw [hp] at ha; cases ha
    | some target =>
      rw [hp] at ha
      cases ha
      exact ⟨⟨h.channels, h.halves⟩, rfl⟩
  | _ =>
    cases ha
    exact ⟨h, rfl⟩

/-- A step that is derived and committed makes no copies, apart from two of the channel that it
allocates. -/
theorem copies_commit_le (c : Id) {s s' : Store} {fresh : Fresh} {spec : StepSpec}
    {next : Option StepSpec} {m : Change}
    (hroom : ∀ {q : Id} {pool : Pool}, s.pools.get? q = some pool → pool.rev.value < 2 ^ 63 - 1)
    (hprocess : s.members.get? fresh.process = none)
    (h : s.deriveStep fresh spec = .ok (next, m)) (hc : s.commit m = .ok s') :
    s'.copies c ≤ s.copies c + 2 * if fresh.channel = c then 1 else 0 := by
  obtain ⟨read, cfg, env, ctx, hread, hpool, -, haim, -, hcheck, htrans⟩ :=
    deriveStep_eq_ok_iff.1 h
  obtain ⟨pl, hmoves, -, hdraft⟩ := transition_eq_ok_iff.1 htrans
  obtain ⟨hsights, hproc, member, hmember⟩ := sights_configuration hread
  obtain ⟨hsights', hproc'⟩ := hsights.aim haim
  have hcheck' : checkStep cfg.pool env cfg spec.term = .ok ctx := by
    rw [(pool_aim haim).1, hpool]
    exact hcheck
  have hother : fresh.process ≠ cfg.process := by
    intro heq
    rw [hproc', hproc] at heq
    rw [heq, hmember] at hprocess
    cases hprocess
  have hfills := (Plan.drafts_of_draft? hdraft).toFills
  obtain ⟨hlocks, -, -, rfl⟩ := commit_eq_ok_iff.1 hc
  refine Nat.le_trans (copies_apply_le c hfills fun k hk => ?_)
    (weigh_moves c hsights' hcheck' hother hmoves)
  obtain ⟨rev, hrev⟩ := hfills.stamps k hk
  rw [hrev]
  exact sized_of_stamp? hlocks hroom (hfills.pools ▸ initial_of_moves hmoves) hrev

end Store

namespace Engine

/-- A step never duplicates a channel: of a channel that it has not allocated there are no more
copies than before, and of the one that it has allocated there are two at most. -/
theorem copies_step_le {e e' : Engine} {spec : StepSpec} {next : Option StepSpec}
    (hroom : ∀ {q : Id} {pool : Pool}, e.store.pools.get? q = some pool →
      pool.rev.value < 2 ^ 63 - 1)
    (hchannel : e.store.copies e.ids.fresh.channel = 0)
    (hprocess : e.store.members.get? e.ids.fresh.process = none)
    (h : Request.step .none spec e = .ok next e') (c : Id) :
    (c ≠ e.ids.fresh.channel → e'.store.copies c ≤ e.store.copies c) ∧
      (c = e.ids.fresh.channel → e'.store.copies c ≤ 2) := by
  obtain ⟨m, hd, hc, -⟩ := step_eq_ok h
  have hle := Store.copies_commit_le c hroom hprocess hd hc
  constructor
  · intro hne
    rwa [if_neg (Ne.symm hne)] at hle
  · rintro rfl
    rwa [hchannel, if_pos rfl] at hle

/-- A sender holds the channel of a closer, and provides a channel over which to send it. Ids are
numbered as the supply hands them out. -/
def beforeSend : List Call :=
  [.createType Small.unit .one,
    .createType Small.pair (.tensor (.link Small.unit) (.link Small.unit)),
    .createSig ⟨Small.closer, ⟨"x", Small.unit⟩, []⟩,
    .createSig ⟨Small.sender, ⟨"x", Small.pair⟩, [⟨"v", Small.unit⟩]⟩,
    .createPool none none, .createPool none none,
    .create ⟨.nth 8, .nth 6, ∅⟩,
    .create ⟨.nth 9, .nth 7, .ofList [("v", .nth 10)]⟩]

/-- The sender sends. -/
def sendStep : StepSpec := ⟨.nth 9, .nth 14, .send "x" "v"⟩

/-- Sending leaves the copies of the channel that is sent, and makes two of the one that the sender
goes on with. -/
theorem copies_step_le_send :
    ∃ next e', Request.step .none sendStep ((start {} ⟨0⟩).final beforeSend) = .ok next e' ∧
      (∀ c, c ≠ ((start {} ⟨0⟩).final beforeSend).ids.fresh.channel →
        e'.store.copies c ≤ ((start {} ⟨0⟩).final beforeSend).store.copies c) ∧
      e'.store.copies ((start {} ⟨0⟩).final beforeSend).ids.fresh.channel ≤ 2 := by
  have hroom : ∀ pool ∈ ((start {} ⟨0⟩).final beforeSend).store.pools.values,
      pool.rev.value < 2 ^ 63 - 1 := by
    decide +kernel
  obtain ⟨next, hnext⟩ := exists_of_returned? (r := Request.step .none sendStep
    ((start {} ⟨0⟩).final beforeSend)) (by decide +kernel)
  have hcopies := copies_step_le (fun hq => hroom _ (Table.mem_values_of_get?_eq_some hq))
    (by decide +kernel) (by decide +kernel) hnext
  exact ⟨next, _, hnext, fun c => (hcopies c).1, (hcopies _).2 rfl⟩

end Engine

end Rendezvous
