import Rendezvous.Proofs.Suspension

/-!
# What a process owes

A process is made to provide one channel, under the placeholder that its signature gives, and until
it has given everything up this is what it owes; all its other channels it holds. Nothing on record
says which is which. A channel counts as owed if the pool on record for it is the pool that the
process lives in, so that a channel that goes on in another pool may change sides.

- `Live.Owes` says that whoever has a channel at all owes exactly one, under a given placeholder.
  Acting keeps it (`Owes.acted`);
- so does a meeting that leaves every placeholder on its side (`Net.owes_met`);
- a new process owes what it provides, and its founder what it owed before (`Founds.owes`), as long
  as the founder owes something;
- `Half.Solvent` is what pending halves have to do with it.
-/

namespace Rendezvous

/-! ## Debts -/

namespace Live

variable {v : Live} {home : Id → Option Id} {o : Id → Option Sym}

/-- Whoever has a channel at all owes the one that `o` says, and holds the others. -/
structure Owes (v : Live) (home : Id → Option Id) (o : Id → Option Sym) : Prop where
  side : ∀ {p : Id} {ph : Sym} {e : Endpoint}, v p ph = some e →
    (home p = some e.pool ↔ o p = some ph)
  owed : ∀ {p : Id} {ph : Sym} {e : Endpoint}, v p ph = some e →
    ∃ ph₀ e₀, o p = some ph₀ ∧ v p ph₀ = some e₀

/-- A channel of another pool is not owed. -/
theorem Owes.ne_of_pool_ne (hv : v.Owes home o) {p π : Id} {ph : Sym} {e : Endpoint}
    (hp : home p = some π) (hl : v p ph = some e) (hne : e.pool ≠ π) : o p ≠ some ph :=
  fun h => hne (Option.some.inj (((hv.side hl).2 h).symm.trans hp))

/-- A process that acts on one channel goes on with it in the same pool, or has nothing left; what
it gives away it did not owe. -/
theorem Owes.acted (hv : v.Owes home o) {p π : Id} {via : Sym} {ep : Endpoint}
    {next : Option Endpoint} {given : Option Sym} (hp : home p = some π) (hvia : v p via = some ep)
    (hnext : ∀ k, next = some k → k.pool = ep.pool)
    (hgiven : ∀ ph, given = some ph → ∃ e, v p ph = some e ∧ e.pool ≠ π)
    (hlast : next = none → ∀ ph e, v p ph = some e → ph = via ∨ given = some ph) :
    (v.acted p via next given).Owes home o where
  side {q ph e} hl := by
    rcases Net.acted_eq_some hl with ⟨rfl, rfl, hk⟩ | ⟨-, hold⟩
    · rw [hnext e hk]
      exact hv.side hvia
    · exact hv.side hold
  owed {q ph e} hl := by
    by_cases hq : q = p
    · subst hq
      obtain ⟨ph₀, e₀, ho, hl₀⟩ := hv.owed hvia
      cases next with
      | none =>
        rcases Net.acted_eq_some hl with ⟨-, -, hk⟩ | ⟨hkept, hold⟩
        · cases hk
        · exact absurd (hlast rfl ph e hold) (not_or.2 (hkept rfl))
      | some k =>
        by_cases h₀ : ph₀ = via
        · exact ⟨ph₀, k, ho, by rw [Live.acted, if_pos rfl, if_pos h₀]⟩
        · have hkept : given ≠ some ph₀ := by
            intro hg
            obtain ⟨e', he', hne⟩ := hgiven ph₀ hg
            exact hv.ne_of_pool_ne hp he' hne ho
          exact ⟨ph₀, e₀, ho, by rw [Live.acted, if_pos rfl, if_neg h₀, if_neg hkept, hl₀]⟩
    · obtain ⟨ph₀, e₀, ho, hl₀⟩ := hv.owed ((Net.acted_of_ne hq ..).symm.trans hl)
      exact ⟨ph₀, e₀, ho, (Net.acted_of_ne hq ..).trans hl₀⟩

/-- Marks that introduce bindings take none away. -/
theorem exists_after_of_intros {marks : List Mark} (h : ∀ k ∈ marks, k.isIntro = true) {v : Live}
    {p : Id} {ph : Sym} {e : Endpoint} (hl : v p ph = some e) :
    ∃ e', v.after marks p ph = some e' := by
  induction marks generalizing v e with
  | nil => exact ⟨e, hl⟩
  | cons k rest ih =>
    obtain ⟨hk, hrest⟩ := List.forall_mem_cons.1 h
    rw [after_cons]
    by_cases hp : p = k.process ∧ ph = k.placeholder
    · obtain ⟨rfl, rfl⟩ := hp
      exact ih hrest (v := v.marked k) ((set_self ..).trans (if_pos hk))
    · exact ih hrest ((marked_of_ne hp).trans hl)

end Live

/-! ## Meetings -/

/-- A payload that nothing goes on after is taken by a service that waits for the end. -/
theorem Service.exists_wait_of_reply {svc : Service} {payload : Payload} {term : Term}
    (h : svc.reply payload = some term) (hk : payload.cont? = none) :
    ∃ cont, svc.handler = .wait cont := by
  cases payload with
  | close =>
    unfold reply at h
    cases hh : svc.handler with
    | wait cont => exact ⟨cont, rfl⟩
    | _ =>
      rw [hh] at h
      cases h
  | _ => cases hk

theorem isIntro_of_received {svc : Service} {payload : Payload} {k : Mark}
    (h : k ∈ svc.received payload) : k.isIntro = true := by
  unfold Service.received at h
  split at h
  · rw [List.mem_singleton.1 h]
    rfl
  · cases h

namespace Net

variable {n : Net} {o : Id → Option Sym} {z : Id} {m : Message} {svc : Service}

/-- A meeting takes one binding away at most, that of a channel that has come to its end. -/
theorem exists_met_of_live {q : Id} {ph : Sym} {e : Endpoint} (h : n.live q ph = some e)
    (hkept : q = svc.process → ph = svc.via → m.payload.cont? ≠ none) :
    ∃ e', (n.met z m svc).live q ph = some e' := by
  suffices hafter : ∃ e', n.live.after (svc.marks m.payload) q ph = some e' by
    obtain ⟨e', he'⟩ := hafter
    exact ⟨_, congrArg (Option.map _) he'⟩
  rw [Service.marks, Live.after_cons]
  by_cases hvia : q = svc.process ∧ ph = svc.via
  · obtain ⟨rfl, rfl⟩ := hvia
    cases hk : m.payload.cont? with
    | none => exact absurd hk (hkept rfl rfl)
    | some k =>
      rw [Option.map_some, Option.toList_some, List.singleton_append, Live.after_cons]
      exact Live.exists_after_of_intros (fun _ => isIntro_of_received) (Live.set_self ..)
  · refine Live.exists_after_of_intros (fun mark hmark => ?_) ((Live.marked_of_ne hvia).trans h)
    rcases List.mem_append.1 hmark with hcont | hreceived
    · obtain ⟨k, -, rfl⟩ := Option.map_eq_some_iff.1 (Option.mem_toList.1 hcont)
      rfl
    · exact isIntro_of_received hreceived

/-- A meeting keeps debts if every placeholder stays on its side. What is received is held, and a
channel is waited to end by whoever holds it. -/
theorem owes_met {term : Term} {ep : Endpoint} (hv : n.live.Owes n.home o)
    (hhome : n.home svc.process = some svc.pool) (hbound : n.live svc.process svc.via = some ep)
    (hr : svc.reply m.payload = some term)
    (hwait : ∀ cont, svc.handler = .wait cont → o svc.process ≠ some svc.via)
    (hapart : ∀ v k, m.payload.value? = some v → m.payload.cont? = some k →
      v.channel ≠ k.channel)
    (hsides : ∀ {q : Id} {ph : Sym} {e e' : Endpoint}, n.live q ph = some e →
      (n.met z m svc).live q ph = some e' → (n.home q = some e.pool ↔ n.home q = some e'.pool)) :
    (n.met z m svc).live.Owes n.home o where
  side {q ph e'} hl := by
    cases hold : n.live q ph with
    | some e => exact (hsides hold hl).symm.trans (hv.side hold)
    | none =>
      -- the placeholder was free, so it is that of what is received
      rcases met_eq_some hl with ⟨k, rfl, rfl, -⟩ | ⟨v, cont, rfl, -, hvalue, rfl⟩ |
        ⟨e₀, -, hthere, -⟩
      · cases hbound.symm.trans hold
      · have hstay : svc.homeward m.payload v = v := by
          rcases homeward_cases svc m.payload v with h | ⟨k, hk, hch, -⟩
          · exact h
          · exact absurd hch (hapart v k hvalue hk)
        have hne : v.pool ≠ svc.pool := Service.pool_ne_of_reply hr hvalue
        rw [hstay, hhome, Option.some_inj]
        refine iff_of_false (Ne.symm hne) fun ho => ?_
        obtain ⟨ph₀, e₀, ho₀, hl₀⟩ := hv.owed hbound
        cases ho.symm.trans ho₀
        cases hl₀.symm.trans hold
      · cases hthere.symm.trans hold
  owed {q ph e'} hl := by
    obtain ⟨ph₁, e₁, hl₁⟩ : ∃ ph₁ e₁, n.live q ph₁ = some e₁ := by
      rcases met_eq_some hl with ⟨k, rfl, -⟩ | ⟨v, cont, rfl, -⟩ | ⟨e₀, -, hthere, -⟩
      · exact ⟨_, _, hbound⟩
      · exact ⟨_, _, hbound⟩
      · exact ⟨_, _, hthere⟩
    obtain ⟨ph₀, e₀, ho, hl₀⟩ := hv.owed hl₁
    obtain ⟨e₂, hl₂⟩ : ∃ e₂, (n.met z m svc).live q ph₀ = some e₂ := by
      refine exists_met_of_live hl₀ ?_
      rintro rfl rfl hend
      obtain ⟨cont, hh⟩ := Service.exists_wait_of_reply hr hend
      exact hwait cont hh ho
    exact ⟨ph₀, e₂, ho, hl₂⟩

/-! ## New processes -/

/-- A new process owes what it provides, if what else it has is of other pools; those who were there
before have to keep what they owe. -/
theorem Born.owes {n' : Net} {q pool : Id} {ph : Sym} {provision : Endpoint}
    (hb : n.Born n' q pool provision) (hself : n'.live q ph = some provision)
    (hnew : ∀ {h : Sym} {e : Endpoint}, n'.live q h = some e →
      h = ph ∧ e = provision ∨ h ≠ ph ∧ e.pool ≠ pool)
    (hold : ∀ {r : Id} {h : Sym} {e : Endpoint}, r ≠ q → n'.live r h = some e →
      (n.home r = some e.pool ↔ o r = some h) ∧
        ∃ ph₀ e₀, o r = some ph₀ ∧ n'.live r ph₀ = some e₀) :
    n'.live.Owes n'.home (Function.update o q (some ph)) where
  side {r h e} hl := by
    by_cases hr : r = q
    · subst hr
      rw [hb.home_self, Function.update_self, Option.some_inj, Option.some_inj]
      rcases hnew hl with ⟨rfl, rfl⟩ | ⟨hne, hpool⟩
      · exact iff_of_true hb.pool_eq.symm rfl
      · exact iff_of_false (Ne.symm hpool) (Ne.symm hne)
    · rw [hb.home_of_ne hr, Function.update_of_ne hr]
      exact (hold hr hl).1
  owed {r h e} hl := by
    by_cases hr : r = q
    · subst hr
      exact ⟨ph, provision, Function.update_self .., hself⟩
    · obtain ⟨ph₀, e₀, ho, hl₀⟩ := (hold hr hl).2
      exact ⟨ph₀, e₀, (Function.update_of_ne hr ..).trans ho, hl₀⟩

/-- A process that founds another keeps what it owes: it gives away what it holds, and the channel
that it gets is a new one. -/
theorem Founds.owes {n' : Net} {p π q pool : Id} {via ph : Sym} {provision : Endpoint}
    {gifts : List Gift} (hf : n.Founds n' p π q pool via ph provision gifts)
    (hv : n.live.Owes n.home o) (hself : n'.live q ph = some provision)
    (hplaced : ∀ g ∈ gifts, g.parameter.placeholder ≠ ph) {h₁ : Sym} {e₁ : Endpoint}
    (hsome : n.live p h₁ = some e₁) (hfree : ∀ e, n.live p via = some e → e.pool ≠ π) :
    n'.live.Owes n'.home (Function.update o q (some ph)) := by
  obtain ⟨ph₀, e₀, ho, hl₀⟩ := hv.owed hsome
  have hvia : o p ≠ some via := by
    intro h
    obtain rfl : ph₀ = via := Option.some.inj (ho.symm.trans h)
    exact hv.ne_of_pool_ne hf.home hl₀ (hfree _ hl₀) h
  have hkept : n'.live p ph₀ = some e₀ := by
    rw [hf.live_giver, if_neg fun h : ph₀ = via => hvia (h ▸ ho), if_neg, hl₀]
    intro hmem
    obtain ⟨g, hg, rfl⟩ := List.mem_map.1 hmem
    obtain ⟨hgl, hne, -⟩ := hf.given g hg
    exact hv.ne_of_pool_ne hf.home hgl hne ho
  refine hf.toBorn.owes hself (fun {h e} hl => ?_) fun {r h e} hr hl => ?_
  · rcases hf.live_new hl with hprovision | ⟨g, hg, rfl, rfl⟩
    · exact .inl hprovision
    · exact .inr ⟨hplaced g hg, (hf.given g hg).2.2⟩
  · by_cases hrp : r = p
    · subst hrp
      refine ⟨?_, ph₀, e₀, ho, hkept⟩
      rw [hf.live_giver] at hl
      split at hl
      · next hh =>
        cases hl
        subst hh
        rw [hf.home, hf.pool_eq, Option.some_inj]
        exact iff_of_false (Ne.symm hf.elsewhere) hvia
      split at hl
      · cases hl
      · exact hv.side hl
    · rw [hf.live_other hrp hr] at hl ⊢
      exact ⟨hv.side hl, hv.owed hl⟩

theorem Creates.owes {n' : Net} {q pool : Id} {ph : Sym} {provision : Endpoint}
    {receptions : List (Sym × Endpoint)} (hc : n.Creates n' q pool ph provision receptions)
    (hv : n.live.Owes n.home o) (hself : n'.live q ph = some provision)
    (hplaced : ph ∉ receptions.map Prod.fst) :
    n'.live.Owes n'.home (Function.update o q (some ph)) := by
  refine hc.toBorn.owes hself (fun {h e} hl => ?_) fun {r h e} hr hl => ?_
  · rcases hc.live_new hl with hprovision | hmem
    · exact .inl hprovision
    · refine .inr ⟨?_, hc.elsewhere _ hmem⟩
      rintro rfl
      exact hplaced (List.mem_map_of_mem hmem)
  · rw [hc.live_other hr] at hl ⊢
    exact ⟨hv.side hl, hv.owed hl⟩

end Net

/-! ## Halves -/

namespace Half

/-- Serving this half takes nothing away that is owed: the end of a channel is waited for by whoever
holds it, and what a message hands over is not the channel that it goes on with. -/
def Solvent (o : Id → Option Sym) : Half → Prop
  | .message m => ∀ v k, m.payload.value? = some v → m.payload.cont? = some k →
    v.channel ≠ k.channel
  | .service svc => ∀ cont, svc.handler = .wait cont → o svc.process ≠ some svc.via
  | .forward _ => True

variable {o : Id → Option Sym} {half : Half}

theorem Solvent.movedTo (h : half.Solvent o) (z : Id) : (half.movedTo z).Solvent o := by
  cases half <;> exact h

/-- What is owed by others does not matter. -/
theorem Solvent.congr {o' : Id → Option Sym} (h : half.Solvent o)
    (ho : o' half.process = o half.process) : half.Solvent o' := by
  cases half with
  | message m => exact h
  | service svc => exact fun cont hh => ho ▸ h cont hh
  | forward f => trivial

end Half

end Rendezvous
