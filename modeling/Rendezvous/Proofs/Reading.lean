import Rendezvous.Engine.Step
import Rendezvous.Proofs.Live
import Rendezvous.Proofs.Walk

/-!
# What a configuration tells of the store

A configuration is a part of the store: the channels of one process, the halves pending on them,
and the halves that forwards lead to from there. `Reads` says in what sense this part is enough.
Along the forwards from a channel of the process, the configuration and the store agree, so an
action lands in the one where it lands in the other; and the revision of every pool that owns a
half met on the way is known.

The main statement is `reads_configuration`; `Reads.aim` is the same for a configuration that also
knows the pool a term spawns into.
-/

namespace Rendezvous

namespace Store

/-- Pools and halves are filed under their own names. -/
structure Keyed (s : Store) : Prop where
  pools : ∀ {i : Id} {pool : Pool}, s.pools.get? i = some pool → pool.id = i
  halves : ∀ {c : Id} {h : Half}, s.halves.get? c = some h → h.channel = c

variable {s : Store}

/-! ## Collecting -/

/-- A channel has been dealt with: its half is among those seen, or it has none. -/
def Settled (s : Store) (seen : Sighting) (c : Id) : Prop :=
  c ∈ seen.halves.keys ∨ s.halves.get? c = none

/-- What has been seen is part of the store and goes on along forwards, except to `c`. -/
structure Sees (s : Store) (home : Id) (seen : Sighting) (c : Option Id) : Prop where
  sub : ∀ {x : Id} {h : Half}, seen.halves.get? x = some h → s.halves.get? x = some h
  closed : ∀ {x : Id} {f : Forward}, seen.halves.get? x = some (.forward f) →
    some f.target = c ∨ s.Settled seen f.target
  known : ∀ {x : Id} {h : Half} {pool : Pool}, seen.halves.get? x = some h → h.pool ≠ home →
    s.pools.get? h.pool = some pool → seen.peers.get? h.pool = some pool.rev
  peers : ∀ {q : Id} {r : Rev}, seen.peers.get? q = some r →
    ∃ pool, s.pools.get? q = some pool ∧ pool.rev = r

theorem get?_notePeer (hk : s.Keyed) {home : Id} {half : Half} {peers : Table Id Rev} (q : Id) :
    (s.notePeer home half peers).get? q =
      if q = half.pool ∧ half.pool ≠ home ∧ (s.pools.get? half.pool).isSome then
        (s.pools.get? half.pool).map Pool.rev
      else peers.get? q := by
  unfold notePeer
  by_cases hhome : half.pool = home
  · rw [if_pos hhome, if_neg (fun h => h.2.1 hhome)]
  · rw [if_neg hhome]
    cases hpool : s.pools.get? half.pool with
    | none => simp
    | some pool =>
      dsimp only
      rw [hk.pools hpool, Table.get?_insert]
      simp [hhome]

/-- Seeing one more half, whose forward goes on from there. -/
theorem Sees.insert (hk : s.Keyed) {home c : Id} {seen : Sighting} {half : Half}
    (h : s.Sees home seen (some c)) (hc : s.halves.get? c = some half)
    {next : Option Id} (hnext : ∀ f, half = .forward f → some f.target = next) :
    s.Sees home ⟨seen.halves.insert c half, s.notePeer home half seen.peers⟩ next := by
  have hsettled : ∀ x, some x = some c ∨ s.Settled seen x →
      s.Settled ⟨seen.halves.insert c half, s.notePeer home half seen.peers⟩ x := by
    rintro x (hx | hx | hx)
    · exact .inl ((Table.mem_keys_insert ..).2 (.inl (Option.some.inj hx)))
    · exact .inl ((Table.mem_keys_insert ..).2 (.inr hx))
    · exact .inr hx
  refine ⟨fun {x h'} hx => ?_, fun {x f} hx => ?_, fun {x h' pool} hx hne hp => ?_,
    fun {q r} hq => ?_⟩
  · rw [Table.get?_insert] at hx
    by_cases hxc : x = c
    · rw [if_pos hxc] at hx
      cases hx
      rw [hxc, hc]
    · rw [if_neg hxc] at hx
      exact h.sub hx
  · rw [Table.get?_insert] at hx
    by_cases hxc : x = c
    · rw [if_pos hxc] at hx
      exact .inl (hnext f (Option.some.inj hx))
    · rw [if_neg hxc] at hx
      exact .inr (hsettled _ (h.closed hx))
  · rw [Table.get?_insert] at hx
    rw [get?_notePeer hk]
    by_cases hsame : h'.pool = half.pool
    · rw [hsame] at hp hne ⊢
      rw [if_pos ⟨rfl, hne, by rw [hp]; rfl⟩, hp, Option.map_some]
    · rw [if_neg fun hcond => hsame hcond.1]
      by_cases hxc : x = c
      · rw [if_pos hxc] at hx
        cases hx
        exact absurd rfl hsame
      · rw [if_neg hxc] at hx
        exact h.known hx hne hp
  · rw [get?_notePeer hk] at hq
    by_cases hcond : q = half.pool ∧ half.pool ≠ home ∧ (s.pools.get? half.pool).isSome
    · rw [if_pos hcond] at hq
      obtain ⟨pool, hpool, hrev⟩ := Option.map_eq_some_iff.1 hq
      exact ⟨pool, by rw [hcond.1, hpool], hrev⟩
    · rw [if_neg hcond] at hq
      exact h.peers hq

/-- Once the last channel is settled nothing is left open. -/
theorem Sees.close {home c : Id} {seen : Sighting} (h : s.Sees home seen (some c))
    (hc : s.Settled seen c) : s.Sees home seen none := by
  refine ⟨h.sub, fun {x f} hx => .inr ?_, h.known, h.peers⟩
  rcases h.closed hx with he | hs
  · rw [Option.some.inj he]
    exact hc
  · exact hs

/-- Collecting from a channel settles it and everything forwards lead to from there. -/
theorem sees_collect (hk : s.Keyed) {home c : Id} {seen : Sighting}
    (h : s.Sees home seen (some c)) :
    s.Sees home (s.collect home c seen) none ∧ s.Settled (s.collect home c seen) c ∧
      ∀ x, s.Settled seen x → s.Settled (s.collect home c seen) x := by
  fun_induction collect s home c seen with
  | case1 c seen hnone => exact ⟨h.close (.inr hnone), .inr hnone, fun _ hx => hx⟩
  | case2 c seen half hc hmem => exact ⟨h.close (.inl hmem), .inl hmem, fun _ hx => hx⟩
  | case3 c seen hmem f hc _ more ih =>
    obtain ⟨hsees, hsettled, hmono⟩ := ih (h.insert hk hc fun f' hf' => by cases hf'; rfl)
    have hgrow : ∀ x, s.Settled seen x ∨ x = c → s.Settled more x := by
      rintro x ((hx | hx) | rfl)
      · exact .inl ((Table.mem_keys_insert ..).2 (.inr hx))
      · exact .inr hx
      · exact .inl ((Table.mem_keys_insert ..).2 (.inl rfl))
    exact ⟨hsees, hmono c (hgrow c (.inr rfl)), fun x hx => hmono x (hgrow x (.inl hx))⟩
  | case4 c seen half hc hmem more _ hn =>
    have hsees : s.Sees home more none :=
      h.insert hk hc fun f hf => by subst hf; exact (hn f hc rfl HEq.rfl).elim
    refine ⟨hsees, .inl ((Table.mem_keys_insert ..).2 (.inl rfl)), ?_⟩
    rintro x (hx | hx)
    · exact .inl ((Table.mem_keys_insert ..).2 (.inr hx))
    · exact .inr hx

/-- Collecting from several channels settles each of them. -/
theorem sees_foldl_collect (hk : s.Keyed) {home : Id} (eps : List Endpoint) {seen : Sighting}
    (h : s.Sees home seen none) :
    s.Sees home (eps.foldl (fun seen ep => s.collect home ep.channel seen) seen) none ∧
      (∀ ep ∈ eps,
        s.Settled (eps.foldl (fun seen ep => s.collect home ep.channel seen) seen) ep.channel) ∧
      ∀ x, s.Settled seen x →
        s.Settled (eps.foldl (fun seen ep => s.collect home ep.channel seen) seen) x := by
  induction eps generalizing seen with
  | nil => exact ⟨h, fun _ hep => (nomatch hep), fun _ hx => hx⟩
  | cons ep rest ih =>
    have hopen : s.Sees home seen (some ep.channel) :=
      ⟨h.sub, fun hx => (h.closed hx).elim (fun he => (nomatch he)) .inr, h.known, h.peers⟩
    obtain ⟨hsees, hsettled, hmono⟩ := sees_collect hk hopen
    obtain ⟨hsees', hsettled', hmono'⟩ := ih hsees
    refine ⟨hsees', ?_, fun x hx => hmono' x (hmono x hx)⟩
    rintro ep' (_ | ⟨_, hep'⟩)
    · exact hmono' _ hsettled
    · exact hsettled' ep' hep'

/-! ## Own services -/

theorem get?_foldl_ownServices {process : Id} {entries : List (Id × Half)}
    (hn : (entries.map Prod.fst).Nodup) {halves : Table Id Half} {x : Id} :
    (entries.foldl
      (fun t e => if isServiceOf process e.2 && !t.contains e.1 then t.insert e.1 e.2 else t)
      halves).get? x = (halves.get? x).or ((Table.find? x entries).filter (isServiceOf process)) := by
  induction entries generalizing halves with
  | nil => simp [Table.find?]
  | cons e rest ih =>
    obtain ⟨hnot, hn⟩ := List.nodup_cons.1 hn
    have hrest : e.1 = x → Table.find? x rest = none := by
      rintro rfl
      exact (Table.find?_eq_none_iff _ _).2 hnot
    rw [List.foldl_cons, ih hn, Table.find?]
    by_cases hadd : (isServiceOf process e.2 && !halves.contains e.1) = true
    · rw [if_pos hadd, Table.get?_insert]
      obtain ⟨hservice, hfree⟩ := Bool.and_eq_true_iff.1 hadd
      have hnone : halves.get? e.1 = none :=
        (halves.contains_eq_false_iff).1 (by simpa using hfree)
      by_cases hx : e.1 = x
      · subst hx
        simp [hnone, hservice, Option.filter]
      · rw [if_neg fun h => hx h.symm, if_neg hx]
    · rw [if_neg hadd]
      by_cases hx : e.1 = x
      · rw [if_pos hx, hrest hx]
        subst hx
        cases hg : halves.get? e.1 with
        | some h => rfl
        | none =>
          have hfalse : isServiceOf process e.2 = false := by
            rw [Table.contains, hg] at hadd
            simpa using hadd
          simp [hfalse, Option.filter]
      · rw [if_neg hx]

/-- The services of a process are added where nothing was seen; all else stays. -/
theorem get?_addOwnServices {process : Id} {halves : Table Id Half} {x : Id} :
    (s.addOwnServices process halves).get? x =
      (halves.get? x).or ((s.halves.get? x).filter (isServiceOf process)) :=
  get?_foldl_ownServices s.halves.nodup

/-! ## Configurations -/

/-- A configuration that is a true and sufficient part of the store, for process `p`. -/
structure Reads (s : Store) (p : Id) (cfg : Configuration) : Prop where
  process : cfg.process = p
  member : s.poolOf? p = some cfg.pool
  rev : ∃ pool, s.pools.get? cfg.pool = some pool ∧ pool.rev = cfg.rev
  channels : ∀ ph, cfg.channels.get? ph = s.live p ph
  sub : ∀ {c : Id} {h : Half}, cfg.halves.get? c = some h → s.halves.get? c = some h
  /-- Along forwards from a channel of the process nothing is missing. -/
  closed : ∀ {ph : Sym} {e : Endpoint} {x : Id}, s.live p ph = some e →
    Along s.halves.get? e.channel x → cfg.halves.get? x = s.halves.get? x
  revOf : ∀ {q : Id} {r : Rev}, cfg.revOf? q = some r →
    ∃ pool, s.pools.get? q = some pool ∧ pool.rev = r
  /-- The pools of the halves met are known. -/
  known : ∀ {ph : Sym} {e : Endpoint} {x : Id} {h : Half} {pool : Pool}, s.live p ph = some e →
    Along s.halves.get? e.channel x → s.halves.get? x = some h → s.pools.get? h.pool = some pool →
    cfg.revOf? h.pool = some pool.rev
  /-- The process is suspended exactly if it has a service somewhere. -/
  idle : cfg.waiting? = none ↔
    ∀ z svc, s.halves.get? z = some (.service svc) → svc.process ≠ p

/-- Everything along forwards from a settled channel is seen as it is. -/
theorem Sees.along {home : Id} {seen : Sighting} (h : s.Sees home seen none) {c x : Id}
    (hc : s.Settled seen c) (hx : Along s.halves.get? c x) :
    seen.halves.get? x = s.halves.get? x := by
  have hsame : ∀ {y}, s.Settled seen y → seen.halves.get? y = s.halves.get? y := by
    rintro y (hy | hy)
    · obtain ⟨half, hhalf⟩ := (Table.mem_keys_iff _).1 hy
      rw [hhalf, h.sub hhalf]
    · cases hg : seen.halves.get? y with
      | none => rw [hy]
      | some half => exact nomatch hy.symm.trans (h.sub hg)
  induction hx with
  | here => exact hsame hc
  | hop hf _ ih =>
    rw [← hsame hc] at hf
    exact ih ((h.closed hf).elim (fun he => (nomatch he)) id)

theorem serviceOf?_eq_none_iff {process : Id} {halves : List Half} :
    Configuration.serviceOf? process halves = none ↔
      ∀ svc, Half.service svc ∈ halves → svc.process ≠ process := by
  induction halves with
  | nil => simp [Configuration.serviceOf?]
  | cons half rest ih =>
    cases half with
    | service svc =>
      rw [Configuration.serviceOf?]
      by_cases hp : svc.process = process
      · simp [hp]
      · simp [hp, ih]
    | message => simp [Configuration.serviceOf?, ih]
    | forward => simp [Configuration.serviceOf?, ih]

/-- What a process sees is a true and sufficient part of the store. -/
theorem reads_configuration (hk : s.Keyed) {p : Id} {cfg : Configuration}
    (h : s.configuration p = .ok cfg) : s.Reads p cfg := by
  unfold configuration at h
  cases hm : s.members.get? p with
  | none => rw [hm] at h; cases h
  | some member =>
    rw [hm] at h
    dsimp only at h
    cases hpool : s.pools.get? member.pool with
    | none => rw [hpool] at h; cases h
    | some pool =>
      rw [hpool] at h
      cases h
      have hempty : s.Sees member.pool ⟨∅, ∅⟩ none :=
        ⟨fun h => (nomatch h), fun h => (nomatch h), fun h => (nomatch h), fun h => (nomatch h)⟩
      obtain ⟨hsees, hsettled, -⟩ :=
        sees_foldl_collect hk (s.channelsOf p).values hempty
      have hown : ∀ {ph e}, s.live p ph = some e → e ∈ (s.channelsOf p).values := by
        intro ph e he
        rw [← channelsOf_get?] at he
        exact Table.mem_values_of_get?_eq_some he
      have hsub : ∀ {c half}, (s.addOwnServices p ((s.channelsOf p).values.foldl
          (fun seen ep => s.collect member.pool ep.channel seen) ⟨∅, ∅⟩).halves).get? c =
            some half → s.halves.get? c = some half := by
        intro c half hc
        rw [get?_addOwnServices, Option.or_eq_some_iff] at hc
        rcases hc with hc | ⟨-, hc⟩
        · exact hsees.sub hc
        · exact (Option.filter_eq_some_iff.1 hc).1
      refine ⟨rfl, by rw [poolOf?, hm]; rfl, ⟨pool, hpool, rfl⟩, fun ph => channelsOf_get? s p ph,
        hsub, ?_, ?_, ?_, ?_⟩
      · intro ph e x he hx
        have hseen := hsees.along (hsettled e (hown he)) hx
        show (s.addOwnServices p _).get? x = _
        rw [get?_addOwnServices, hseen]
        cases s.halves.get? x <;> rfl
      · intro q r hq
        unfold Configuration.revOf? at hq
        by_cases hown : q = member.pool
        · rw [if_pos hown] at hq
          exact ⟨pool, by rw [hown, hpool], Option.some.inj hq⟩
        · rw [if_neg hown] at hq
          exact hsees.peers hq
      · intro ph e x half pool' he hx hhalf hpool'
        unfold Configuration.revOf?
        by_cases hhome : half.pool = member.pool
        · rw [if_pos hhome]
          rw [hhome, hpool] at hpool'
          rw [Option.some.inj hpool']
        · rw [if_neg hhome]
          have hseen := hsees.along (hsettled e (hown he)) hx
          exact hsees.known (hseen.trans hhalf) hhome hpool'
      · rw [Configuration.waiting?, serviceOf?_eq_none_iff]
        constructor
        · intro hnone z svc hz hp
          refine hnone svc ((Table.mem_values_iff _).2 ⟨z, ?_⟩) hp
          rw [get?_addOwnServices, hz]
          cases hg : Table.get? _ z with
          | none =>
            have hservice : isServiceOf p (.service svc) = true := by simpa [isServiceOf] using hp
            simp [Option.filter, hservice]
          | some half => rw [Option.some_or, ← hz, hsees.sub hg]
        · intro hnone svc hmem
          obtain ⟨z, hz⟩ := (Table.mem_values_iff _).1 hmem
          exact hnone z svc (hsub hz)

/-- A configuration that aims at a pool knows its revision, and nothing else is new. -/
theorem Reads.aim (hk : s.Keyed) {p : Id} {cfg cfg' : Configuration} {term : Term}
    (h : s.Reads p cfg) (ha : s.aim cfg term = .ok cfg') : s.Reads p cfg' := by
  cases term with
  | spawn via sig values pool cont =>
    simp only [Store.aim] at ha
    cases hp : s.pools.get? pool with
    | none => rw [hp] at ha; cases ha
    | some target =>
      rw [hp] at ha
      cases ha
      have hid := hk.pools hp
      have hrev : ∀ q, ({ cfg with peers := cfg.peers.insert target.id target.rev } :
          Configuration).revOf? q =
            if q = pool ∧ q ≠ cfg.pool then some target.rev else cfg.revOf? q := by
        intro q
        unfold Configuration.revOf?
        rw [hid, Table.get?_insert]
        by_cases hq : q = cfg.pool
        · rw [if_pos hq, if_neg (fun hc => hc.2 hq), if_pos hq]
        · by_cases hq' : q = pool
          · rw [if_neg hq, if_pos hq', if_pos ⟨hq', hq⟩]
          · rw [if_neg hq, if_neg hq', if_neg (fun hc => hq' hc.1), if_neg hq]
      refine ⟨h.process, h.member, h.rev, h.channels, h.sub, h.closed, ?_, ?_, h.idle⟩
      · intro q r hq
        rw [hrev] at hq
        by_cases hc : q = pool ∧ q ≠ cfg.pool
        · rw [if_pos hc] at hq
          exact ⟨target, by rw [hc.1, hp], Option.some.inj hq⟩
        · rw [if_neg hc] at hq
          exact h.revOf hq
      · intro ph e x half pool' he hx hhalf hpool'
        rw [hrev]
        by_cases hc : half.pool = pool ∧ half.pool ≠ cfg.pool
        · rw [if_pos hc]
          rw [hc.1, hp] at hpool'
          rw [Option.some.inj hpool']
        · rw [if_neg hc]
          exact h.known he hx hhalf hpool'
  | _ =>
    cases ha
    exact h

namespace Reads

variable {p : Id} {cfg : Configuration}

/-- An action on a channel of the process lands in the configuration where it lands in the
store. -/
theorem landing?_eq_some_iff (h : s.Reads p cfg) {ph : Sym} {e : Endpoint}
    (he : s.live p ph = some e) {l : Landing} :
    cfg.landing? e.channel = some l ↔
      Leads s.halves.get? e.channel l.passed l.channel ∧ l.half = s.halves.get? l.channel := by
  rw [Configuration.landing?_eq_some_iff, Leads.iff_of_along fun x hx => h.closed he hx]
  exact and_congr_right fun hl => by rw [h.closed he hl.along]

/-- What is pending on a channel of the process. -/
theorem get?_halves (h : s.Reads p cfg) {ph : Sym} {e : Endpoint} (he : s.live p ph = some e) :
    cfg.halves.get? e.channel = s.halves.get? e.channel :=
  h.closed he .here

end Reads

end Store

end Rendezvous
