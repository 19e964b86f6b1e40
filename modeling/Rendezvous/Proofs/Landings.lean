import Rendezvous.Proofs.Preservation

/-!
# Landing where the store says

A process sees forwards through its configuration, and an action of it lands where these lead. That
is where the forwards of the whole store lead (`Store.lands_as_stored`), whatever halves there are:
chains that run into each other are collected once and shown to the end from either side, and a
circle is collected once around and shown as a circle.

`Store.collectWithin` is the collecting of halves with a bound on the channels it comes to. Since
each of them but the last is new, a bound of one more than there are halves is never met
(`Store.collectWithin_eq_some`).
-/

namespace Rendezvous

namespace Store

open Drafting (land)

variable {s : Store} {p : Id} {cfg : Configuration}

/-! ## Bounded collecting -/

/-- Collects halves as `collect` does, coming to at most `looks` channels; nothing where there are
more on the way. -/
def collectWithin (s : Store) (home : Id) : Nat → Id → Sighting → Option Sighting
  | 0, _, _ => none
  | looks + 1, channel, seen =>
    match s.halves.get? channel with
    | none => some seen
    | some half =>
      if channel ∈ seen.halves.keys then
        some seen
      else
        let more : Sighting := ⟨seen.halves.insert channel half, s.notePeer home half seen.peers⟩
        match half with
        | .forward f => s.collectWithin home looks f.target more
        | _ => some more

/-- With a look for each half that was not seen, and one more, the bounded collecting gives the
answer. -/
theorem collectWithin_eq_some {home : Id} {looks : Nat} {c : Id} {seen : Sighting}
    (h : unseen s.halves.keys seen.halves.keys < looks) :
    s.collectWithin home looks c seen = some (s.collect home c seen) := by
  induction looks generalizing c seen with
  | zero => exact absurd h (Nat.not_lt_zero _)
  | succ looks ih =>
    fun_cases collect s home c seen with
    | case1 hnone => simp only [collectWithin, hnone]
    | case2 half hc hmem => simp only [collectWithin, hc, if_pos hmem]
    | case3 hmem f hc more =>
      simp only [collectWithin, hc, if_neg hmem]
      refine ih (Nat.lt_of_lt_of_le (unseen_lt (a := c) ?_ ?_ hmem ?_) (Nat.le_of_lt_succ h))
      · exact fun x hx => (Table.mem_keys_insert ..).2 (.inr hx)
      · exact Table.mem_keys_of_get?_eq_some hc
      · exact (Table.mem_keys_insert ..).2 (.inl rfl)
    | case4 half hc hmem more _ hn =>
      simp only [collectWithin, hc, if_neg hmem]
      cases half with
      | forward f => exact (hn f hc rfl HEq.rfl).elim
      | message | service => rfl

/-! ## Landing -/

/-- What a process holds is among its live bindings. -/
theorem Reads.exists_live (h : s.Reads p cfg) {ep : Endpoint} (hep : ep ∈ cfg.channels.values) :
    ∃ ph, s.live p ph = some ep := by
  obtain ⟨ph, hph⟩ := (Table.mem_values_iff _).1 hep
  exact ⟨ph, (h.channels ph).symm.trans hph⟩

/-- An action lands where the forwards of the store lead, and uses up those that it passes. -/
theorem Reads.land_of_leads (h : s.Reads p cfg) {ep : Endpoint} (hep : ep ∈ cfg.channels.values)
    {passed : List Id} {z : Id} (hl : Leads s.halves.get? ep.channel passed z) (d : Change) :
    land cfg ep.channel d =
      .ok ((z, s.halves.get? z), { d with slots := d.slots ++ passed.map .take }) := by
  obtain ⟨ph, hlive⟩ := h.exists_live hep
  have hlanding := (h.landing?_eq_some_iff hlive (l := ⟨passed, z, s.halves.get? z⟩)).2 ⟨hl, rfl⟩
  unfold land
  rw [hlanding]
  rfl

/-- An action lands nowhere where the forwards of the store have no end. -/
theorem Reads.land_of_not_leads (h : s.Reads p cfg) {ep : Endpoint}
    (hep : ep ∈ cfg.channels.values)
    (hl : ¬ ∃ passed z, Leads s.halves.get? ep.channel passed z) (d : Change) :
    land cfg ep.channel d = .error (.unexpectedVariant "message or service" "forward") := by
  obtain ⟨ph, hlive⟩ := h.exists_live hep
  have hnone : cfg.landing? ep.channel = none :=
    Option.eq_none_iff_forall_ne_some.2 fun l hsome =>
      hl ⟨_, _, ((h.landing?_eq_some_iff hlive).1 hsome).1⟩
  unfold land
  rw [hnone]
  rfl

/-- **A configuration shows every chain of forwards to its end.** In a store whose pools and halves
are filed under their own names, however its forwards run:

- collecting halves comes to an end, within one look for each half and one more;
- an action on a channel of the process lands exactly if the forwards of the store have an end, and
  it lands there, on the half that is pending in the store, if one is;
- it uses up exactly the forwards on the way, in order, and none of them twice;
- and the configuration knows the revision of each other pool that owns a half on the way. -/
theorem lands_as_stored (hk : s.Keyed) (h : s.configuration p = .ok cfg) :
    (∀ home c seen more, s.collectWithin home (s.halves.size + 1 + more) c seen =
      some (s.collect home c seen)) ∧
    ∀ ep ∈ cfg.channels.values,
      (∀ d, (∃ r, land cfg ep.channel d = .ok r) ↔
        ∃ passed z, Leads s.halves.get? ep.channel passed z) ∧
      (∀ d passed z, Leads s.halves.get? ep.channel passed z →
        passed.Nodup ∧ land cfg ep.channel d =
          .ok ((z, s.halves.get? z), { d with slots := d.slots ++ passed.map .take })) ∧
      (∀ d, (¬ ∃ passed z, Leads s.halves.get? ep.channel passed z) →
        land cfg ep.channel d = .error (.unexpectedVariant "message or service" "forward")) ∧
      ∀ x half pool, Along s.halves.get? ep.channel x → s.halves.get? x = some half →
        half.pool ≠ cfg.pool → s.pools.get? half.pool = some pool →
        cfg.peers.get? half.pool = some pool.rev := by
  have hr := reads_configuration hk h
  refine ⟨fun home c seen more => collectWithin_eq_some ?_, fun ep hep => ⟨fun d => ?_, ?_, ?_, ?_⟩⟩
  · have hle : unseen s.halves.keys seen.halves.keys ≤ s.halves.size :=
      Nat.le_trans List.countP_le_length (Nat.le_of_eq (List.length_map _))
    omega
  · constructor
    · rintro ⟨r, hland⟩
      refine Classical.byContradiction fun hnot => ?_
      cases hland.symm.trans (hr.land_of_not_leads hep hnot d)
    · rintro ⟨passed, z, hl⟩
      exact ⟨_, hr.land_of_leads hep hl d⟩
  · exact fun d passed z hl => ⟨hl.nodup, hr.land_of_leads hep hl d⟩
  · exact fun d hl => hr.land_of_not_leads hep hl d
  · intro x half pool hx hhalf hother hpool
    obtain ⟨ph, hlive⟩ := hr.exists_live hep
    have hknown := hr.known hlive hx hhalf hpool
    rwa [Configuration.revOf?, if_neg hother] at hknown

/-- Two chains that run into each other, the second not collected to its end again, and a circle. -/
theorem lands_as_stored_merged :
    let id (n : Nat) : Id := ⟨n⟩
    let ep (c : Nat) : Endpoint := ⟨id c, id 30, id 2⟩
    let forward (c pool target : Nat) : Id × Half :=
      (id c, .forward ⟨id c, id pool, id 6, id target⟩)
    let last : Half := .message ⟨id 13, id 3, id 7, .close⟩
    let s : Store := { (∅ : Store) with
      members := Table.ofList [(id 5, ⟨id 5, id 1, id 0⟩)]
      pools := Table.ofList [(id 1, ⟨id 1, none, none, ⟨7⟩⟩), (id 2, ⟨id 2, none, none, ⟨9⟩⟩),
        (id 3, ⟨id 3, none, none, ⟨4⟩⟩)]
      log := [⟨id 5, "a", ep 10, 2⟩, ⟨id 5, "b", ep 11, 3⟩, ⟨id 5, "c", ep 20, 4⟩]
      halves := ⟨[forward 10 2 12, forward 11 1 12, forward 12 2 13, (id 13, last),
        forward 20 2 21, forward 21 3 20], by decide⟩ }
    ∃ cfg, s.configuration (id 5) = .ok cfg ∧
      land cfg (id 10) ∅ = .ok ((id 13, some last),
        { (∅ : Change) with slots := [.take (id 10), .take (id 12)] }) ∧
      land cfg (id 11) ∅ = .ok ((id 13, some last),
        { (∅ : Change) with slots := [.take (id 11), .take (id 12)] }) ∧
      cfg.peers.get? (id 3) = some ⟨4⟩ ∧
      land cfg (id 20) ∅ = .error (.unexpectedVariant "message or service" "forward") := by
  intro id ep forward last s
  have hpools : ∀ e ∈ s.pools.entries, e.2.id = e.1 := by decide
  have hhalves : ∀ e ∈ s.halves.entries, e.2.channel = e.1 := by decide
  have hk : s.Keyed := ⟨fun hp => hpools _ ((Table.mem_entries_iff _).2 hp),
    fun hh => hhalves _ ((Table.mem_entries_iff _).2 hh)⟩
  have hmember : s.members.get? (id 5) = some ⟨id 5, id 1, id 0⟩ := by decide
  have hpool : s.pools.get? (id 1) = some ⟨id 1, none, none, ⟨7⟩⟩ := by decide
  have hhoused : s.Housed (id 5) (id 1) := ⟨by rw [poolOf?, hmember]; rfl, _, hpool⟩
  have hheld : ∀ c ∈ [10, 11, 20], ep c ∈ (s.channelsOf (id 5)).values := by decide
  have hpending : ∀ e ∈ [forward 10 2 12, forward 11 1 12, forward 12 2 13, (id 13, last),
      forward 20 2 21, forward 21 3 20], s.halves.get? e.1 = some e.2 :=
    fun _ he => (Table.mem_entries_iff _).1 he
  have h10 := hpending (forward 10 2 12) (by simp)
  have h11 := hpending (forward 11 1 12) (by simp)
  have h12 := hpending (forward 12 2 13) (by simp)
  have h13 := hpending (id 13, last) (by simp)
  have h20 := hpending (forward 20 2 21) (by simp)
  have h21 := hpending (forward 21 3 20) (by simp)
  have howner : s.pools.get? (id 3) = some ⟨id 3, none, none, ⟨4⟩⟩ := rfl
  clear_value s
  obtain ⟨cfg, hcfg, hhome, hchannels⟩ := hhoused.exists_configuration
  rw [← hchannels] at hheld
  obtain ⟨-, hlands⟩ := lands_as_stored hk hcfg
  obtain ⟨-, hfirst, -, hknown⟩ := hlands (ep 10) (hheld 10 (by decide))
  obtain ⟨-, hsecond, -⟩ := hlands (ep 11) (hheld 11 (by decide))
  obtain ⟨-, -, hcircle, -⟩ := hlands (ep 20) (hheld 20 (by decide))
  have hend : Leads s.halves.get? (id 12) [id 12] (id 13) :=
    .hop h12 (.stay fun f hf => by cases h13.symm.trans hf)
  have hcircular : ¬ ∃ passed z, Leads s.halves.get? (id 20) passed z := by
    rintro ⟨passed, z, hl⟩
    -- once around the circle, the way out would be longer by two
    have hlonger := congrArg List.length (hl.unique (.hop h20 (.hop h21 hl))).1
    simp only [List.length_cons] at hlonger
    omega
  refine ⟨cfg, hcfg, ?_, ?_, ?_, hcircle ∅ hcircular⟩
  · have hland := (hfirst ∅ _ _ (.hop h10 hend)).2
    rw [h13] at hland
    exact hland
  · have hland := (hsecond ∅ _ _ (.hop h11 hend)).2
    rw [h13] at hland
    exact hland
  · exact hknown (id 13) last _ (.hop h10 (.hop h12 .here)) h13 (by rw [hhome]; decide) howner

end Store

end Rendezvous
