import Rendezvous.Proofs.Runs

/-!
# One client end for each channel

`Store.clientEnds` counts the client ends of a channel in a store, as the services see it: live
bindings of processes in other pools than the endpoint names, and pending messages that have the
channel as their value or as a continuation for the client.

A channel has one client end at most all along a run exactly if no creation on the way binds its
process to a channel whose client end is in a message (`clientEnds_le_one_iff`). The creation only
asks whether a binding holds the channel, so nothing but the caller prevents that.
-/

namespace Rendezvous

open Relation (ReflTransGen)

/-- Whether a message sends a channel. -/
def Half.sends (c : Id) (half : Half) : Bool :=
  (half.message?.bind fun m => m.payload.value?).any fun v => v.channel = c

namespace Store

/-- Whether a message goes on with a channel, and its producer lives in the pool that provides it;
the client end is the one that the consumer will get. -/
def carries (s : Store) (c : Id) (half : Half) : Bool :=
  half.message?.any fun m =>
    m.payload.cont?.any fun k => k.channel = c && s.poolOf? m.process = some k.pool

/-- The client ends of a channel that are in messages. -/
def inFlight (s : Store) (c : Id) : Nat :=
  s.halves.values.countP (Half.sends c) + s.halves.values.countP (s.carries c)

/-- All client ends of a channel. -/
def clientEnds (s : Store) (c : Id) : Nat := (s.clients c).length + s.inFlight c

/-! ## Ends of a net -/

variable {s s' : Store} {c : Id}

/-- A channel is sent by the message on `z`. -/
theorem clientEnd_sent_iff {z : Id} {half : Half} (hz : s.halves.get? z = some half) :
    s.net.ClientEnd (.sent z) c ↔ half.sends c = true := by
  rw [Half.sends, Option.any_eq_true]
  constructor
  · rintro (_ | ⟨h, hv⟩)
    cases hz.symm.trans (message_net_eq_some.1 h)
    exact ⟨_, hv, decide_eq_true rfl⟩
  · rintro ⟨v, hv, hc⟩
    obtain ⟨m, hm, hv⟩ := Option.bind_eq_some_iff.1 hv
    cases Half.message?_eq_some.1 hm
    rw [← of_decide_eq_true hc]
    exact .sent (message_net_eq_some.2 hz) hv

/-- A channel is carried by the message on `z`. Who left the message lives in the pool on record. -/
theorem clientEnd_carried_iff (hs : s.Sound) {z : Id} {half : Half}
    (hz : s.halves.get? z = some half) :
    s.net.ClientEnd (.carried z) c ↔ s.carries c half = true := by
  have howner := hs.owners hz
  rw [carries, Option.any_eq_true]
  constructor
  · rintro (_ | _ | ⟨h, hk, hp⟩)
    cases hz.symm.trans (message_net_eq_some.1 h)
    refine ⟨_, rfl, Option.any_eq_true _ _ |>.2 ⟨_, hk, ?_⟩⟩
    rw [Bool.and_eq_true, decide_eq_true_iff, decide_eq_true_iff, hp]
    exact ⟨rfl, howner⟩
  · rintro ⟨m, hm, hc⟩
    cases Half.message?_eq_some.1 hm
    obtain ⟨k, hk, hc⟩ := (Option.any_eq_true _ _).1 hc
    rw [Bool.and_eq_true, decide_eq_true_iff, decide_eq_true_iff] at hc
    obtain ⟨rfl, hp⟩ := hc
    have hpool : k.pool = m.pool := Option.some.inj (hp.symm.trans howner)
    exact .carried (message_net_eq_some.2 hz) hk hpool

/-- A binding that does not provide its channel is a client end of it. -/
theorem clientEnd_bound_iff {b : (Id × Sym) × Endpoint} (hb : b ∈ s.bindings.entries) :
    s.net.ClientEnd (.bound b.1.1 b.1.2) c ↔
      (b.2.channel = c && !s.provides b.1.1 b.2) = true := by
  have hlive : s.live b.1.1 b.1.2 = some b.2 := (Table.mem_entries_iff _).1 hb
  rw [Bool.and_eq_true, decide_eq_true_iff, Bool.not_eq_true', provides, decide_eq_false_iff_not]
  constructor
  · rintro ⟨h, hp⟩
    cases hlive.symm.trans h
    exact ⟨rfl, hp⟩
  · rintro ⟨rfl, hp⟩
    exact .bound hlive hp

/-- Where the client ends of a channel are. -/
def holders (s : Store) (c : Id) : List Holder :=
  (s.bindings.entries.filter fun b => b.2.channel = c && !s.provides b.1.1 b.2).map
      (fun b => .bound b.1.1 b.1.2) ++
    (s.halves.entries.filter fun e => e.2.sends c).map (fun e => .sent e.1) ++
    (s.halves.entries.filter fun e => s.carries c e.2).map (fun e => .carried e.1)

theorem length_holders (s : Store) (c : Id) : (s.holders c).length = s.clientEnds c := by
  have hcount : ∀ p : Half → Bool, (s.halves.entries.filter fun e => p e.2).length =
      s.halves.values.countP p := by
    intro p
    rw [Table.values, List.countP_map, List.countP_eq_length_filter]
    rfl
  simp only [holders, clientEnds, inFlight, clients, List.length_append, List.length_map, hcount]
  omega

/-- Keys are distinct, so a filter of a table has every key once. -/
theorem nodup_map_filter {κ α β : Type} (t : Table κ α) (p : κ × α → Bool) {f : κ × α → β}
    (hf : ∀ a b : κ × α, f a = f b → a.1 = b.1) : ((t.entries.filter p).map f).Nodup := by
  have hkeys : ((t.entries.filter p).map Prod.fst).Nodup :=
    (List.filter_sublist.map Prod.fst).nodup t.nodup
  rw [List.Nodup, List.pairwise_map] at hkeys ⊢
  exact hkeys.imp fun hne heq => hne (hf _ _ heq)

theorem nodup_holders (s : Store) (c : Id) : (s.holders c).Nodup := by
  refine List.nodup_append.2 ⟨List.nodup_append.2 ⟨?_, ?_, ?_⟩, ?_, ?_⟩
  · refine nodup_map_filter _ _ fun a b h => ?_
    exact Prod.ext (Holder.bound.inj h).1 (Holder.bound.inj h).2
  · exact nodup_map_filter _ _ fun a b h => Holder.sent.inj h
  · intro x hx y hy
    obtain ⟨a, -, rfl⟩ := List.mem_map.1 hx
    obtain ⟨b, -, rfl⟩ := List.mem_map.1 hy
    exact nofun
  · exact nodup_map_filter _ _ fun a b h => Holder.carried.inj h
  · intro x hx y hy
    obtain ⟨b, -, rfl⟩ := List.mem_map.1 hy
    rcases List.mem_append.1 hx with hx | hx
    · obtain ⟨a, -, rfl⟩ := List.mem_map.1 hx
      exact nofun
    · obtain ⟨a, -, rfl⟩ := List.mem_map.1 hx
      exact nofun

/-- The holders of a store are the client ends of its net. -/
theorem mem_holders_iff (hs : s.Sound) {h : Holder} :
    h ∈ s.holders c ↔ s.net.ClientEnd h c := by
  have hhalf : ∀ {z : Id} {m : Message}, s.net.message z = some m →
      (z, Half.message m) ∈ s.halves.entries := by
    intro z m hm
    exact (Table.mem_entries_iff _).2 (message_net_eq_some.1 hm)
  rw [holders, List.mem_append, List.mem_append, List.mem_map, List.mem_map, List.mem_map]
  constructor
  · rintro ((⟨b, hb, rfl⟩ | ⟨e, he, rfl⟩) | ⟨e, he, rfl⟩)
    · obtain ⟨hmem, hb⟩ := List.mem_filter.1 hb
      exact (clientEnd_bound_iff hmem).2 hb
    · obtain ⟨hmem, he⟩ := List.mem_filter.1 he
      exact (clientEnd_sent_iff ((Table.mem_entries_iff _).1 hmem)).2 he
    · obtain ⟨hmem, he⟩ := List.mem_filter.1 he
      exact (clientEnd_carried_iff hs ((Table.mem_entries_iff _).1 hmem)).2 he
  · intro hend
    cases h with
    | bound p ph =>
      obtain ⟨e, hl⟩ : ∃ e, s.live p ph = some e := by
        cases hend with
        | bound h => exact ⟨_, h⟩
      have hmem : ((p, ph), e) ∈ s.bindings.entries := (Table.mem_entries_iff _).2 hl
      exact .inl (.inl ⟨_, List.mem_filter.2 ⟨hmem, (clientEnd_bound_iff hmem).1 hend⟩, rfl⟩)
    | sent z =>
      obtain ⟨m, hm⟩ : ∃ m, s.net.message z = some m := by
        cases hend with
        | sent h => exact ⟨_, h⟩
      have hmem := hhalf hm
      exact .inl (.inr ⟨_, List.mem_filter.2
        ⟨hmem, (clientEnd_sent_iff ((Table.mem_entries_iff _).1 hmem)).1 hend⟩, rfl⟩)
    | carried z =>
      obtain ⟨m, hm⟩ : ∃ m, s.net.message z = some m := by
        cases hend with
        | carried h => exact ⟨_, h⟩
      have hmem := hhalf hm
      exact .inr ⟨_, List.mem_filter.2
        ⟨hmem, (clientEnd_carried_iff hs ((Table.mem_entries_iff _).1 hmem)).1 hend⟩, rfl⟩

/-- A linear store has one client end at most for each channel. -/
theorem clientEnds_le_one (hs : s.Sound) (hl : s.net.Linear) (c : Id) : s.clientEnds c ≤ 1 := by
  rw [← length_holders]
  have hnodup := nodup_holders s c
  have hunique : ∀ h ∈ s.holders c, ∀ h' ∈ s.holders c, h = h' := by
    intro h hmem h' hmem'
    exact hl.unique ((mem_holders_iff hs).1 hmem) ((mem_holders_iff hs).1 hmem')
  match hh : s.holders c with
  | [] => exact Nat.zero_le _
  | [_] => exact Nat.le_refl _
  | h :: h' :: rest =>
    rw [hh] at hnodup hunique
    have heq := hunique h List.mem_cons_self h' (List.mem_cons_of_mem _ List.mem_cons_self)
    exact absurd (heq ▸ List.mem_cons_self) (List.nodup_cons.1 hnodup).1

/-- Two client ends are counted twice. -/
theorem one_lt_clientEnds (hs : s.Sound) {h h' : Holder} (hne : h ≠ h')
    (he : s.net.ClientEnd h c) (he' : s.net.ClientEnd h' c) : 1 < s.clientEnds c := by
  rw [← length_holders]
  have hmem := (mem_holders_iff hs).2 he
  have hmem' := (mem_holders_iff hs).2 he'
  match hh : s.holders c with
  | [] =>
    rw [hh] at hmem
    cases hmem
  | [x] =>
    rw [hh] at hmem hmem'
    exact absurd ((List.mem_singleton.1 hmem).trans (List.mem_singleton.1 hmem').symm) hne
  | _ :: _ :: rest =>
    show 1 < rest.length + 1 + 1
    omega

/-- A channel is in flight exactly if a message has its client end. -/
theorem inFlight_pos_iff (hs : s.Sound) : 0 < s.inFlight c ↔ s.net.InFlight c := by
  rw [inFlight, Nat.add_pos_iff_pos_or_pos, List.countP_pos_iff, List.countP_pos_iff]
  constructor
  · rintro (⟨half, hmem, h⟩ | ⟨half, hmem, h⟩)
    · obtain ⟨z, hz⟩ := (Table.mem_values_iff _).1 hmem
      exact ⟨z, .inl ((clientEnd_sent_iff hz).2 h)⟩
    · obtain ⟨z, hz⟩ := (Table.mem_values_iff _).1 hmem
      exact ⟨z, .inr ((clientEnd_carried_iff hs hz).2 h)⟩
  · rintro ⟨z, hend | hend⟩
    · obtain ⟨m, hm⟩ : ∃ m, s.net.message z = some m := by
        cases hend with
        | sent h => exact ⟨_, h⟩
      have hz := message_net_eq_some.1 hm
      exact .inl ⟨_, Table.mem_values_of_get?_eq_some hz, (clientEnd_sent_iff hz).1 hend⟩
    · obtain ⟨m, hm⟩ : ∃ m, s.net.message z = some m := by
        cases hend with
        | carried h => exact ⟨_, h⟩
      have hz := message_net_eq_some.1 hm
      exact .inr ⟨_, Table.mem_values_of_get?_eq_some hz, (clientEnd_carried_iff hs hz).1 hend⟩

end Store

/-! ## Runs -/

/-- A creation binds its process to a channel whose client end is in a message. -/
def Call.Intercepts (e : Engine) : Call → Prop
  | .create c => ∃ ref e', Request.createProcess c e = .ok ref e' ∧
      ∃ ph ep, (e'.store.channelsOf ref.process).get? ph = some ep ∧
        0 < e.store.inFlight ep.channel
  | _ => False

namespace Engine

variable {e e' : Engine}

/-- No creation of a run intercepts a channel. -/
def Clean (e : Engine) : List Call → Prop
  | [] => True
  | call :: rest => ¬ call.Intercepts e ∧ (call.after e).Clean rest

/-- Events keep a net linear. -/
theorem WellTyped.linear_event (hv : e.WellTyped) (hl : e.store.net.Linear) (h : e.Event e')
    (hy : e'.store.Young) : e'.store.net.Linear := by
  cases h with
  | declares h =>
    rw [h.net_eq]
    exact hl
  | addLiability h hi =>
    rw [(hv.addLiability h hi hy).2.1]
    exact hl
  | step h hc =>
    obtain ⟨pl, hst⟩ := hv.steps h hc hy
    obtain ⟨τ, ht⟩ := hv.typed
    rcases hst.net with ⟨-, hturns⟩ | ⟨pool, via, ph, provision, gifts, hf, -⟩
    · exact hl.turns e.store.decls.functional_denotes ht hturns
    · exact hl.founds hf

theorem WellTyped.linear_events (hv : e.WellTyped) (hl : e.store.net.Linear)
    (h : ReflTransGen Event e e') (hy : e'.store.Young) : e'.store.net.Linear := by
  induction h with
  | refl => exact hl
  | tail hevents hevent ih =>
    have hy' := hy.of_ages hevent.ages
    exact (hv.events hevents hy').linear_event (ih hy') hevent hy

/-- A creation makes a second client end exactly if it intercepts a channel. -/
theorem Valid.linear_created (hv : e.Valid) (hl : e.store.net.Linear) {c : Creation}
    {ref : ProcRef} (h : e.Created e' c ref) (hy : e'.store.Young) :
    (e'.store.net.Linear ∧ ∀ ph ep, (e'.store.channelsOf ref.process).get? ph = some ep →
        e.store.inFlight ep.channel = 0) ∨
      ∃ ph ep, (e'.store.channelsOf ref.process).get? ph = some ep ∧
        0 < e.store.inFlight ep.channel ∧ 1 < e'.store.clientEnds ep.channel := by
  obtain ⟨href, sig, provision, receptions, hcr⟩ := hv.creating h hy
  have hnew := hv.new e.fresh_lt.1
  subst href
  by_cases hfree : ∀ ph ep, e'.store.live e.ids.fresh.process ph = some ep →
      ¬ e.store.net.InFlight ep.channel
  · refine .inl ⟨hl.creates hcr.net fun hlive => hfree _ _ hlive, fun ph ep hlive => ?_⟩
    rw [Store.channelsOf_get?] at hlive
    have hnot := (not_congr (Store.inFlight_pos_iff hv.sound)).2 (hfree ph ep hlive)
    omega
  · -- the process was bound to a channel that some message has, and the message is still there
    simp only [not_forall, not_not] at hfree
    obtain ⟨ph, ep, hlive, hflight⟩ := hfree
    refine .inr ⟨ph, ep, ?_, (Store.inFlight_pos_iff hv.sound).2 hflight, ?_⟩
    · rw [Store.channelsOf_get?]
      exact hlive
    have hmessage : ∀ {z : Id} {m : Message}, e.store.net.message z = some m →
        e'.store.net.message z = some m := by
      intro z m hm
      rw [hcr.net.message]
      exact hm
    have hbound : e'.store.net.ClientEnd (.bound e.ids.fresh.process ph) ep.channel := by
      refine .bound hlive ?_
      rw [hcr.net.home_self]
      rcases hcr.net.live_new hlive with ⟨-, rfl⟩ | hmem
      · -- what it provides is new, so nothing of it is in flight
        obtain ⟨z, hend | hend⟩ := hflight
        · exact absurd hend (hcr.net.unused.not_clientEnd)
        · exact absurd hend (hcr.net.unused.not_clientEnd)
      · exact fun heq => hcr.net.elsewhere _ hmem (Option.some.inj heq).symm
    obtain ⟨z, hend | hend⟩ := hflight
    · refine Store.one_lt_clientEnds hcr.sound ?_ ?_ hbound (h := .sent z)
      · intro heq
        cases heq
      generalize ep.channel = c at hend
      cases hend with
      | sent hm hv => exact .sent (hmessage hm) hv
    · refine Store.one_lt_clientEnds hcr.sound ?_ ?_ hbound (h := .carried z)
      · intro heq
        cases heq
      generalize ep.channel = c at hend
      cases hend with
      | carried hm hk hp => exact .carried (hmessage hm) hk hp

/-- From a linear store on, channels have one client end at most exactly if the run is clean. -/
theorem clientEnds_le_one_iff_of_linear (calls : List Call)
    (hcalls : ∀ call ∈ calls, call.redefines = false) (hv : e.WellTyped)
    (hl : e.store.net.Linear) (hy : (e.final calls).store.Young) :
    (∀ e' ∈ e.states calls, ∀ c, e'.store.clientEnds c ≤ 1) ↔ e.Clean calls := by
  induction calls generalizing e with
  | nil =>
    refine ⟨fun _ => trivial, fun _ e' he' c => ?_⟩
    rw [List.mem_singleton.1 he']
    exact Store.clientEnds_le_one hv.sound hl c
  | cons call rest ih =>
    have hy' : (call.after e).store.Young := Store.Young.of_ages hy (ages_final rest _)
    obtain ⟨hcall, hrest⟩ := List.forall_mem_cons.1 hcalls
    have hv' := hv.after hcall hy'
    have hstates : (∀ e' ∈ e.states (call :: rest), ∀ c, e'.store.clientEnds c ≤ 1) ↔
        ∀ e' ∈ (call.after e).states rest, ∀ c, e'.store.clientEnds c ≤ 1 := by
      refine List.forall_mem_cons.trans ⟨And.right, fun h => ⟨?_, h⟩⟩
      exact fun c => Store.clientEnds_le_one hv.sound hl c
    rw [hstates]
    show _ ↔ ¬ call.Intercepts e ∧ (call.after e).Clean rest
    rcases after_cases call e with ⟨c, ref, rfl, hc⟩ | ⟨hredefines, -⟩ | ⟨hnone, hevents⟩
    · rcases hv.toValid.linear_created hl (created_of_createProcess hc) hy' with
        ⟨hl', hfree⟩ | ⟨ph, ep, hch, hflight, htwo⟩
      · rw [ih hrest hv' hl' hy]
        refine ⟨fun h => ⟨?_, h⟩, And.right⟩
        rintro ⟨ref', e', hc', ph, ep, hch, hflight⟩
        cases hc.symm.trans hc'
        have hzero := hfree ph ep hch
        omega
      · refine iff_of_false (fun hall => ?_) fun hclean => hclean.1 ⟨ref, _, hc, ph, ep, hch, hflight⟩
        have hle := hall _ (mem_states_head _ rest) ep.channel
        omega
    · exact absurd hredefines (by simp [hcall])
    · rw [ih hrest hv' (hv.linear_events hl hevents hy') hy]
      refine ⟨fun h => ⟨?_, h⟩, And.right⟩
      intro hint
      cases call with
      | create c =>
        obtain ⟨ref, e', hc, -⟩ := hint
        exact hnone c ref e' rfl hc
      | _ => exact hint

theorem linear_start (settings : Settings) (ids : Supply) :
    (start settings ids).store.net.Linear where
  unique h := by
    cases h with
    | bound h => cases h
    | sent h => cases h
    | carried h => cases h
  conts := nofun
  away := nofun

/-- Along a run from the empty store that gives no type another definition, a channel has one client
end at most in every engine exactly if no creation binds its process to a channel whose client end is
in flight. -/
theorem clientEnds_le_one_iff (settings : Settings) (ids : Supply) (calls : List Call)
    (hcalls : ∀ call ∈ calls, call.redefines = false)
    (hy : ((start settings ids).final calls).store.Young) :
    (∀ e ∈ (start settings ids).states calls, ∀ c, e.store.clientEnds c ≤ 1) ↔
      (start settings ids).Clean calls :=
  clientEnds_le_one_iff_of_linear calls hcalls (wellTyped_start settings ids)
    (linear_start settings ids) hy

/-- A sender gives away the channel of a closer. Before anybody has received it, a waiter is created
that holds the same channel. -/
def interception : List Call :=
  [.createType Small.unit .one,
    .createType Small.pair (.tensor (.link Small.unit) (.link Small.unit)),
    .createSig ⟨Small.closer, ⟨"x", Small.unit⟩, []⟩,
    .createSig ⟨Small.sender, ⟨"x", Small.pair⟩, [⟨"v", Small.unit⟩]⟩,
    .createSig ⟨Small.waiter, ⟨"self", Small.unit⟩, [⟨"y", Small.unit⟩]⟩,
    .createPool none none, .createPool none none, .createPool none none,
    .create ⟨.nth 9, .nth 6, ∅⟩,
    .create ⟨.nth 10, .nth 7, .ofList [("v", .nth 12)]⟩,
    .step ⟨.nth 10, .nth 16, .send "x" "v"⟩,
    .create ⟨.nth 11, .nth 8, .ofList [("y", .nth 12)]⟩]

/-- The run is not clean: the channel of the closer has two clients in the end. -/
theorem not_clean_interception : ¬ (start {} ⟨0⟩).Clean interception := by
  have hy : ((start {} ⟨0⟩).final interception).store.Young :=
    Store.young_of_values (by decide +kernel)
  intro hclean
  have hle := (clientEnds_le_one_iff {} ⟨0⟩ interception (by decide) hy).2 hclean _
    (mem_states_final _ _) (.nth 12)
  exact absurd hle (by decide +kernel)

end Engine

end Rendezvous
