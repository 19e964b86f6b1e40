import Rendezvous.Proofs.Accepted
import Rendezvous.Proofs.Copies

/-!
# Stores built by store operations

`Store.Built` are the stores that store operations lead to from the empty one, whatever they write:
a change may bind and leave anything, also forwards in a circle. Little is known of such a store, but
its tables are filed under their own names (`Built.keyed`), and that is all that a configuration needs
to be a faithful part of the store.

Hence a step that can be derived can be committed right away (`Built.commit_derived`). Its locks are
revisions that were read off the store. It takes the forwards that it has passed, each of which is
there once, and only then touches the channel where it lands (`slotsFit_of_moves`).
-/

namespace Rendezvous

namespace Store

variable {s s' : Store}

/-- A store that store operations have built from the empty one. -/
inductive Built : Store → Prop
  | empty : Built ∅
  | commit {s s' : Store} {m : Change} (h : Built s) (hc : s.commit m = .ok s') : Built s'
  | addPool {s s' : Store} {pool : Pool} (h : Built s) (ha : s.addPool pool = .ok s') : Built s'
  | addLiability {s s' : Store} {l : Liability} {rev : Rev} (h : Built s)
    (ha : s.addLiability l rev = .ok s') : Built s'
  | declare {s : Store} (h : Built s) (r : Registry) : Built { s with decls := r }

theorem Keyed.addPool {pool : Pool} (hk : s.Keyed) (h : s.addPool pool = .ok s') : s'.Keyed := by
  unfold Store.addPool at h
  split at h
  · cases h
  · cases h
    refine ⟨fun {i q} hq => ?_, hk.halves⟩
    rw [Table.get?_insert] at hq
    split at hq
    · next hi =>
      cases hq
      exact hi.symm
    · exact hk.pools hq

theorem Keyed.addLiability {l : Liability} {rev : Rev} (hk : s.Keyed)
    (h : s.addLiability l rev = .ok s') : s'.Keyed := by
  obtain ⟨pool, hpool, rfl⟩ := get?_pools_addLiability h
  refine ⟨fun {i q} hq => ?_, hk.halves⟩
  rw [Table.get?_insert] at hq
  split at hq
  · next hi =>
    cases hq
    rw [hi, ← hk.pools hpool]
    rfl
  · exact hk.pools hq

/-- Whatever is written, it is filed under its own name. -/
theorem Built.keyed (h : s.Built) : s.Keyed := by
  induction h with
  | empty => exact ⟨nofun, nofun⟩
  | commit _ hc ih => exact ih.commit hc
  | addPool _ ha ih => exact ih.addPool ha
  | addLiability _ ha ih => exact ih.addLiability ha
  | declare _ _ ih => exact ⟨ih.pools, ih.halves⟩

end Store

namespace Engine

variable {e e' : Engine}

theorem Declares.built (h : e.Declares e') (hb : e.store.Built) : e'.store.Built := by
  cases h with
  | nothing hs => rwa [hs]
  | type _ hs => rw [hs]; exact hb.declare _
  | sig _ hs => rw [hs]; exact hb.declare _
  | pool ha => exact hb.addPool ha

theorem Event.built (h : e.Event e') (hb : e.store.Built) : e'.store.Built := by
  cases h with
  | declares h => exact h.built hb
  | addLiability ha => exact hb.addLiability ha
  | step _ hc => exact hb.commit hc

/-- Calls write to the store by store operations only. -/
theorem built_after (call : Call) (hb : e.store.Built) : (call.after e).store.Built := by
  rcases after_cases call e with ⟨c, ref, -, hcreate⟩ | ⟨-, hre⟩ | ⟨-, hevents⟩
  · obtain ⟨m, -, hc⟩ := (created_of_createProcess hcreate).committed
    exact hb.commit hc
  · cases hre with
    | nothing hs => rwa [hs]
    | type _ hs => rw [hs]; exact hb.declare _
  · generalize call.after e = e' at hevents
    induction hevents with
    | refl => exact hb
    | tail _ hevent ih => exact hevent.built ih

/-- Every store that a run of calls leads to is built by store operations. -/
theorem built_final (hb : e.store.Built) (calls : List Call) : (e.final calls).store.Built := by
  induction calls generalizing e with
  | nil => exact hb
  | cons call rest ih => exact ih (built_after call hb)

end Engine

namespace Store

/-! ## Committing what was derived -/

variable {s : Store} {p : Id} {cfg : Configuration} {env : Env} {fresh : Fresh}
  {spec : StepSpec} {next : Option StepSpec} {pl : Plan} {m : Change}

/-- What a move does to the halves of its configuration fits the halves of the store. -/
theorem slotsFit_of_moves (hr : s.Reads p cfg) {term : Term} (h : Moves env cfg fresh term pl) :
    SlotsFit s.halves pl.slots := by
  -- along forwards from a channel of its own, a configuration has all that the store has
  have hland : ∀ {ph : Sym} {e : Endpoint} {l : Landing}, cfg.channels.get? ph = some e →
      cfg.landing? e.channel = some l →
      Leads s.halves.get? e.channel l.passed l.channel ∧ l.half = s.halves.get? l.channel :=
    fun he hl => leads_of_landing hr he hl
  have hhalf : ∀ {ph : Sym} {e : Endpoint}, cfg.channels.get? ph = some e →
      cfg.halves.get? e.channel = s.halves.get? e.channel :=
    fun {ph e} he => hr.get?_halves ((hr.channels ph).symm.trans he)
  cases h with
  | @offer _ ep own half l j ho hl hj =>
    obtain ⟨hleads, hpending⟩ := hland (channel_of_offers ho).1 hl
    rw [hpending] at hj
    exact slotsFit_offer hleads hj
  | @relay via target x y l hx hy hl hnone =>
    obtain ⟨hleads, -⟩ := hland hx hl
    exact slotsFit_relay hleads ((hhalf hy).symm.trans hnone) rfl
  | @redirect via target x y l left id node j hx hy hl hleft hnode hown hj =>
    obtain ⟨hleads, hpending⟩ := hland hx hl
    rw [hhalf hy] at hleft
    rw [hpending] at hj
    exact slotsFit_redirect hleads hleft (hleads.notMem_of_ownDirection hleft hown)
      (hj.channel_ne hleft) hj
  | call => trivial
  | spawn => trivial

/-- The only pool that a move creates has a new id. -/
theorem new_of_moves (hfresh : s.pools.get? fresh.pool = none) {term : Term}
    (h : Moves env cfg fresh term pl) : ∀ pool ∈ pl.pools, s.pools.get? pool.id = none := by
  intro pool hpool
  rcases members_of_moves h with ⟨-, hnone⟩ | ⟨-, -, -, hid, -⟩
  · rw [hnone] at hpool
    cases hpool
  · rw [hid pool hpool]
    exact hfresh

/-- A step that was derived from a store commits there: its locks hold, the pool that it creates is
new, and each of its operations on halves finds what it needs. -/
theorem Built.commit_derived (h : s.Built) (hfresh : s.pools.get? fresh.pool = none)
    (hd : s.deriveStep fresh spec = .ok (next, m)) :
    s.Locked m.locks ∧ (∀ pool ∈ m.pools, s.pools.get? pool.id = none) ∧
      SlotsFit s.halves m.slots ∧ s.commit m = .ok (s.apply m) := by
  obtain ⟨cfg, env, pl, hderives, -, hdraft⟩ := exists_derives h.keyed hd
  have hfills := Plan.drafts_of_draft? hdraft
  have hlocked : s.Locked m.locks := fun l hl => hderives.reads.revOf (hfills.locks l hl)
  have hnew : ∀ pool ∈ m.pools, s.pools.get? pool.id = none := by
    rw [hfills.pools]
    exact new_of_moves hfresh hderives.moves
  have hfit : SlotsFit s.halves m.slots := by
    rw [hfills.slots]
    exact slotsFit_of_moves hderives.reads hderives.moves
  exact ⟨hlocked, hnew, hfit, commit_eq_ok_iff.2 ⟨hlocked, hnew, hfit, rfl⟩⟩

end Store

namespace Engine

/-- Forwards in a circle, from the channel that the sender is about to send. -/
def circle : Change :=
  let forward (c d : Nat) : SlotOp :=
    .put (.forward ⟨.nth c, .nth 9, .nth 14, .nth d⟩)
  { (∅ : Change) with slots := [forward 10 99, forward 99 10] }

/-- A sender whose channel to send is forwarded in a circle. -/
def circled : Store := ((start {} ⟨0⟩).final beforeSend).store.apply circle

/-- Sending commits although the forwards that it has to collect go round in a circle. -/
theorem commit_derived_circled :
    circled.Built ∧ ∃ next m,
      circled.deriveStep ⟨⟨100⟩, ⟨101⟩, ⟨102⟩⟩ sendStep = .ok (next, m) ∧
        circled.commit m = .ok (circled.apply m) := by
  have hcircle : ((start {} ⟨0⟩).final beforeSend).store.commit circle = .ok circled :=
    Store.commit_eq_ok_iff.2 ⟨nofun, nofun, ⟨by decide +kernel, by decide +kernel, trivial⟩, rfl⟩
  have hbuilt : circled.Built := (built_final .empty beforeSend).commit hcircle
  have hok : (circled.deriveStep ⟨⟨100⟩, ⟨101⟩, ⟨102⟩⟩ sendStep).isOk = true := by decide +kernel
  refine ⟨hbuilt, ?_⟩
  cases hd : circled.deriveStep ⟨⟨100⟩, ⟨101⟩, ⟨102⟩⟩ sendStep with
  | error err =>
    rw [hd] at hok
    cases hok
  | ok r => exact ⟨r.1, r.2, rfl, (hbuilt.commit_derived (by decide +kernel) hd).2.2.2⟩

end Engine

end Rendezvous
