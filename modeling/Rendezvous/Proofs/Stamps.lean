import Rendezvous.Proofs.Proposals

/-!
# Stamps of bindings

Entries of the binding log are stamped when a change is derived, and those that bring channels home
when it is committed. Either way a stamp is the revision that the pool of its process has right after
the commit, and it is positive for an entry that introduces its placeholder.

- `Planned` ties a change to the move or the creation that it was drafted from, and
  `Transaction.Dates` is what its commit appends to the log: one entry for each mark of the plan, and
  the homecomings;
- `Transaction.dates_of_homes`: a plan dates its entries on any later store in which its processes
  still live where they did;
- `Session.Dated` is what every stroke keeps (`Dated.stroke`): the store is sound, the plans of the
  proposals can still be carried out, and the log is what the transactions have appended.

The result is `Session.stamps_are_revisions`.
-/

namespace Rendezvous

-- stamps are never computed here
attribute [local irreducible] Rev.introStamp

/-- A plan that a change was drafted from: a move that was derived, or a creation. -/
inductive Planned (m : Change) : Plan → Prop
  | step {s : Store} {fresh : Fresh} {spec : StepSpec} {next : Option StepSpec}
    {cfg : Configuration} {env : Env} {pl : Plan}
    (h : s.deriveStep fresh spec = .ok (next, m)) (hd : s.Derives fresh spec cfg env pl)
    (hdraft : pl.draft? cfg = some m) : Planned m pl
  | creation {s : Store} {fresh : Fresh} {c : Creation} {ref : ProcRef} {sig : Signature}
    {provision : Endpoint} {receptions : List (Sym × Endpoint)}
    (h : s.deriveCreation fresh c = .ok (ref, m)) (hsig : s.decls.sigs.get? c.sig = some sig)
    (hp : provision.channel = fresh.channel ∧ provision.pool = c.pool)
    (hr : s.Receives c.pool c.values receptions)
    (hfills : (Store.creationPlan fresh.process c.pool sig.id sig.provision.placeholder provision
      receptions).Fills m) :
    Planned m (Store.creationPlan fresh.process c.pool sig.id sig.provision.placeholder provision
      receptions)

namespace Planned

variable {m : Change} {pl : Plan}

theorem fills (h : Planned m pl) : pl.Fills m := by
  cases h with
  | step _ _ hdraft => exact (Plan.drafts_of_draft? hdraft).toFills
  | creation _ _ _ _ hfills => exact hfills

theorem pools (h : Planned m pl) :
    pl.pools.length ≤ 1 ∧ ∀ pool ∈ pl.pools, pool.rev = .initial := by
  cases h with
  | step _ hd => exact Store.pools_of_moves hd.moves
  | creation => exact ⟨Nat.zero_le 1, List.forall_mem_nil _⟩

end Planned

namespace Store

variable {s s' : Store} {new : Id} {pl : Plan} {m : Change}

/-- The revision of the pool that a process lives in. -/
def revision? (s : Store) (process : Id) : Option Nat :=
  ((s.poolOf? process).bind s.pools.get?).map fun pool => pool.rev.value

/-- Processes stay where they are. -/
def Stays (s s' : Store) : Prop :=
  ∀ {p q : Id}, s.poolOf? p = some q → s'.poolOf? p = some q

/-- Revisions do not fall. -/
theorem le_revision? (hk : s.Stays s') (ha : s.Ages s') {p : Id} {n : Nat}
    (h : s.revision? p = some n) : ∃ n', s'.revision? p = some n' ∧ n ≤ n' := by
  obtain ⟨pool, hpool, rfl⟩ := Option.map_eq_some_iff.1 h
  obtain ⟨q, hq, hget⟩ := Option.bind_eq_some_iff.1 hpool
  obtain ⟨pool', hget', hle⟩ := ha hget
  exact ⟨pool'.rev.value, by rw [revision?, hk hq, Option.bind_some, hget', Option.map_some], hle⟩

/-! ## Plans that are carried out late -/

/-- A plan can be carried out as long as its processes stay where they are. -/
theorem Homes.stays (hh : s.Homes new pl) (hk : s.Stays s') : s'.Homes new pl :=
  ⟨fun hmem => (hh.marks hmem).imp_left hk, fun hmem => hk (hh.puts hmem), hh.members⟩

/-- Whoever a plan binds anew lives in the pool that the mark names. -/
theorem Homes.poolOf?_marks (hh : s.Homes new pl) (hc : s.Commits s' pl)
    (hfresh : s.poolOf? new = none) {k : Mark} (hk : k ∈ pl.marks) :
    s'.poolOf? k.process = some k.pool := by
  rcases poolOf?_of_commits hh hc with ⟨hmem, h⟩ | ⟨q, sig, hmem, -, h⟩
  · rw [h]
    refine (hh.marks hk).resolve_right ?_
    rw [hmem]
    rintro ⟨_, hin, -⟩
    cases hin
  · rw [h, Function.update_apply]
    split
    · next hnew =>
      rcases hh.marks hk with hold | ⟨m, hin, -, hpool⟩
      · rw [hnew, hfresh] at hold
        cases hold
      · rw [hmem, List.mem_singleton] at hin
        rw [← hpool, hin]
    · next hold =>
      refine (hh.marks hk).resolve_right ?_
      rw [hmem]
      rintro ⟨m, hin, hid, -⟩
      rw [List.mem_singleton.1 hin] at hid
      exact hold hid.symm

/-! ## Entries -/

/-- Bringing channels home appends entries that are stamped with the revisions of the pools. -/
theorem exists_homecomings (homes : List Endpoint) (s : Store) :
    ∃ home, (homes.foldl rehome s).log = s.log ++ home ∧ ∀ b ∈ home, b.endpoint ∈ homes ∧
      ∃ pool, (s.poolOf? b.process).bind s.pools.get? = some pool ∧
        b.stamp = pool.rev.introStamp := by
  induction homes generalizing s with
  | nil => exact ⟨[], (List.append_nil _).symm, List.forall_mem_nil _⟩
  | cons home rest ih =>
    obtain ⟨later, hlog, hlater⟩ := ih (s.rehome home)
    refine ⟨s.homecoming home ++ later, ?_,
      List.forall_mem_append.2 ⟨fun b hb => ?_, fun b hb => ?_⟩⟩
    · rw [List.foldl_cons, hlog, ← List.append_assoc]
      rfl
    · obtain ⟨e, pool, -, -, -, hpool, hend, hstamp⟩ := mem_homecoming.1 hb
      exact ⟨hend ▸ List.mem_cons_self, pool, hpool, hstamp⟩
    · obtain ⟨hend, hpool⟩ := hlater b hb
      exact ⟨List.mem_cons_of_mem _ hend, hpool⟩

/-- A commit appends the bindings of its change and the homecomings. -/
theorem exists_log_apply (s : Store) (m : Change) :
    ∃ home, (s.apply m).log = s.log ++ (m.bindings ++ home) ∧ ∀ b ∈ home, b.endpoint ∈ m.homes ∧
      ∃ pool, ((s.apply m).poolOf? b.process).bind (s.apply m).pools.get? = some pool ∧
        b.stamp = pool.rev.introStamp := by
  obtain ⟨home, hlog, hhome⟩ := exists_homecomings m.homes { s with
    pools := m.pools.foldl (fun t pool => t.insert pool.id pool) (bumpPools s.pools m.locks)
    members := m.members.foldl (fun t m => t.insert m.id m) s.members
    log := s.log ++ m.bindings }
  refine ⟨home, hlog.trans (List.append_assoc ..), fun b hb => ?_⟩
  obtain ⟨hend, pool, hpool, hstamp⟩ := hhome b hb
  refine ⟨hend, pool, ?_, hstamp⟩
  unfold poolOf?
  rw [members_apply, pools_apply]
  exact hpool

end Store

/-- What a transaction has appended to the log. -/
def Transaction.appended (k : Transaction) : List Binding := k.after.log.drop k.before.log.length

/-- An entry is for the placeholder of a mark. -/
def Mark.Enters (mark : Mark) (b : Binding) : Prop :=
  b.process = mark.process ∧ b.placeholder = mark.placeholder ∧ b.endpoint = mark.endpoint

/-- A transaction has appended one entry for each mark of a plan, positive if it introduces its
placeholder, and positive ones that bring channels home. Each has the revision that the pool of its
process has now, and what placeholders are bound to is what the plan says. -/
structure Transaction.Dates (k : Transaction) (pl : Plan) : Prop where
  log : k.after.log = k.before.log ++ k.appended
  revisions : ∀ b ∈ k.appended, k.after.revision? b.process = some b.stamp.natAbs
  signs : ∃ own home, k.appended = own ++ home ∧
    List.Forall₂ (fun mark b => mark.Enters b ∧ (0 < b.stamp ↔ mark.isIntro = true)) pl.marks own ∧
    ∀ b ∈ home, b.endpoint ∈ pl.homes ∧ 0 < b.stamp
  live : k.after.live = pl.homes.foldl Live.rehomed (k.before.live.after pl.marks)

theorem Rev.natAbs_introStamp {rev : Rev} (h : rev.Sized) : rev.introStamp.natAbs = rev.value := by
  rw [introStamp_of_lt h.2, Int.natAbs_natCast]

theorem Rev.natAbs_consumeStamp {rev : Rev} (h : rev.Sized) :
    rev.consumeStamp.natAbs = rev.value := by
  rw [consumeStamp, Int.natAbs_neg, natAbs_introStamp h]

/-- A mark is stamped with a revision, and the sign of what it does. -/
theorem Mark.stamp_stamped {mark : Mark} {rev : Rev} (h : rev.Sized) :
    (mark.stamped rev).stamp.natAbs = rev.value ∧
      (0 < (mark.stamped rev).stamp ↔ mark.isIntro = true) := by
  have hstamp : (mark.stamped rev).stamp =
      if mark.isIntro = true then rev.introStamp else rev.consumeStamp := rfl
  rw [hstamp]
  cases mark.isIntro with
  | true =>
    rw [if_pos rfl]
    exact ⟨Rev.natAbs_introStamp h, fun _ => rfl, fun _ => Rev.introStamp_pos h⟩
  | false =>
    rw [if_neg Bool.false_ne_true]
    exact ⟨Rev.natAbs_consumeStamp h, fun hpos => absurd hpos (Rev.consumeStamp_neg h), nofun⟩

open Store in
/-- A plan that is carried out dates its entries. -/
theorem Transaction.dates_of_homes {s s' : Store} {new : Id} {pl : Plan} {m : Change}
    (hs : s.Sound) (hh : s.Homes new pl) (hfresh : s.poolOf? new = none) (hfills : pl.Fills m)
    (hone : pl.pools.length ≤ 1) (hc : s.commit m = .ok s') (hb : s'.Bounded) :
    Transaction.Dates ⟨s, m, s'⟩ pl := by
  have hcommits := commits_of_homes hs hh hfresh hfills hone hc hb
  obtain ⟨hlocked, hnew, -, rfl⟩ := commit_eq_ok_iff.1 hc
  obtain ⟨home, hlog, hhome⟩ := s.exists_log_apply m
  have happended : Transaction.appended ⟨s, m, s.apply m⟩ = m.bindings ++ home := by
    rw [Transaction.appended, hlog, List.drop_left]
  -- each mark is stamped with the revision that its pool has now
  have hmarks : ∀ k ∈ pl.marks, ∃ now, (s.apply m).pools.get? k.pool = some now ∧
      (m.stamp? k.pool).getD .initial = now.rev := by
    intro k hk
    obtain ⟨rev, hrev⟩ := hfills.stamps k hk
    obtain ⟨now, hnow, rfl⟩ := rev_apply_of_stamp? hlocked hnew (hfills.pools ▸ hone) hrev
    exact ⟨now, hnow, by rw [hrev, Option.getD_some]⟩
  refine ⟨by rw [happended, hlog], ?_, ⟨m.bindings, home, happended, ?_, ?_⟩, hcommits.live⟩
  · rw [happended]
    refine List.forall_mem_append.2 ⟨fun b hb' => ?_, fun b hb' => ?_⟩
    · rw [hfills.bindings] at hb'
      obtain ⟨k, hk, rfl⟩ := List.mem_map.1 hb'
      obtain ⟨now, hnow, hrev⟩ := hmarks k hk
      rw [hrev, (Mark.stamp_stamped (hb hnow)).1]
      show (s.apply m).revision? k.process = _
      rw [revision?, hh.poolOf?_marks hcommits hfresh hk, Option.bind_some, hnow, Option.map_some]
    · obtain ⟨-, pool, hpool, hstamp⟩ := hhome b hb'
      obtain ⟨q, -, hget⟩ := Option.bind_eq_some_iff.1 hpool
      rw [hstamp, Rev.natAbs_introStamp (hb hget), revision?, hpool, Option.map_some]
  · rw [hfills.bindings, List.forall₂_map_right_iff, List.forall₂_same]
    intro k hk
    obtain ⟨now, hnow, hrev⟩ := hmarks k hk
    rw [hrev]
    exact ⟨⟨rfl, rfl, rfl⟩, (Mark.stamp_stamped (hb hnow)).2⟩
  · intro b hb'
    obtain ⟨hend, pool, hpool, hstamp⟩ := hhome b hb'
    obtain ⟨q, -, hget⟩ := Option.bind_eq_some_iff.1 hpool
    exact ⟨hfills.homes ▸ hend, hstamp ▸ Rev.introStamp_pos (hb hget)⟩

/-! ## Sessions -/

namespace Store

variable {s s' : Store}

/-- The revisions along the log of a process. -/
def datesOf (s : Store) (process : Id) : List Nat :=
  (s.log.filter fun b => b.process = process).map fun b => b.stamp.natAbs

/-- Whatever leaves processes alone leaves a store sound, if no pool is lost. -/
theorem Sound.leaves (hs : s.Sound) (hk : s'.Keyed) (hl : s.Leaves s') (ha : s.Ages s') :
    s'.Sound := by
  refine ⟨hk, ?_, ?_, ?_⟩
  · intro p q hp
    rw [hl.poolOf?] at hp
    obtain ⟨pool, hpool⟩ := hs.members hp
    obtain ⟨pool', hpool', -⟩ := ha hpool
    exact ⟨pool', hpool'⟩
  · rw [hl.live, hl.poolOf?]
    exact hs.live
  · rw [hl.halves, hl.poolOf?]
    exact hs.owners

end Store

namespace Engine

variable {e e' : Engine}

/-- A new pool is at a revision whose stamps keep their sign. -/
theorem Declares.bounded (h : e.Declares e') (hb : e.store.Bounded) : e'.store.Bounded := by
  cases h with
  | nothing hs => rwa [hs]
  | type _ hs => rw [hs]; exact hb
  | sig _ hs => rw [hs]; exact hb
  | @pool pool h _ _ hrev =>
    unfold Store.addPool at h
    split at h
    · cases h
    · rw [← Except.ok.inj h]
      intro q old hq
      rw [Table.get?_insert] at hq
      split at hq
      · cases hq
        rw [hrev]
        exact ⟨Nat.one_pos, by decide⟩
      · exact hb hq

theorem Redefines.bounded (h : e.Redefines e') (hb : e.store.Bounded) : e'.store.Bounded := by
  cases h with
  | nothing hs => rwa [hs]
  | type _ hs => rw [hs]; exact hb

end Engine

namespace Session

variable {s s' : Session} {ks ks' : List Transaction} {ts : List Transfer}

/-- What is known of a session whose pools have stayed young, after some transactions. -/
structure Dated (s : Session) (ks : List Transaction) : Prop extends s.Tracked where
  sound : s.engine.store.Sound
  bounded : s.engine.store.Bounded
  /-- Proposals can still be carried out. -/
  plans : ∀ p ∈ s.proposals, ∃ pl, Planned p.change pl ∧ s.engine.store.Homes p.process pl
  dates : ∀ k ∈ ks, k.before.commit k.change = .ok k.after ∧
    ∃ pl, Planned k.change pl ∧ k.Dates pl
  log : s.engine.store.log = ks.flatMap Transaction.appended
  /-- No entry is ahead of the pool of its process. -/
  past : ∀ b ∈ s.engine.store.log, ∃ n, s.engine.store.revision? b.process = some n ∧
    b.stamp.natAbs ≤ n
  sorted : ∀ p, (s.engine.store.datesOf p).Pairwise (· ≤ ·)

theorem dated_start (settings : Settings) (ids : Supply) :
    (Engine.start settings ids).session.Dated [] where
  toTracked := tracked_start settings ids
  sound := (Engine.wellTyped_start settings ids).sound
  bounded := (Engine.wellTyped_start settings ids).bounded
  plans := nofun
  dates := nofun
  log := rfl
  past := nofun
  sorted _ := .nil

/-- A stroke that leaves processes alone. -/
theorem Dated.quiet (h : s.Dated ks) (ht : s'.Tracked)
    (hl : s.engine.store.Leaves s'.engine.store) (ha : s.engine.store.Ages s'.engine.store)
    (hb : s'.engine.store.Bounded) (hp : s'.proposals = s.proposals) : s'.Dated ks := by
  have hstays : s.engine.store.Stays s'.engine.store := fun hq => by rwa [hl.poolOf?]
  refine ⟨ht, h.sound.leaves ht.keyed hl ha, hb, ?_, h.dates, hl.log.trans h.log, ?_, ?_⟩
  · rw [hp]
    intro p hmem
    obtain ⟨pl, hplanned, hhomes⟩ := h.plans p hmem
    exact ⟨pl, hplanned, hhomes.stays hstays⟩
  · rw [hl.log]
    intro b hb'
    obtain ⟨n, hn, hle⟩ := h.past b hb'
    obtain ⟨n', hn', hle'⟩ := Store.le_revision? hstays ha hn
    exact ⟨n', hn', Nat.le_trans hle hle'⟩
  · unfold Store.datesOf
    rw [hl.log]
    exact h.sorted

/-- Entries that are dated now come after all that are there. -/
theorem pairwise_append_of_dated {t t' : Store} {appended : List Binding}
    (hlog : t'.log = t.log ++ appended)
    (hdated : ∀ b ∈ appended, t'.revision? b.process = some b.stamp.natAbs) (p : Id)
    (hpast : ∀ b ∈ t.log, ∃ n, t'.revision? b.process = some n ∧ b.stamp.natAbs ≤ n)
    (hsorted : (t.datesOf p).Pairwise (· ≤ ·)) : (t'.datesOf p).Pairwise (· ≤ ·) := by
  -- all that is appended for the process has the one revision of its pool
  have hnow : ∀ n ∈ (appended.filter fun b => b.process = p).map fun b => b.stamp.natAbs,
      t'.revision? p = some n := by
    intro n hn
    obtain ⟨b, hb, rfl⟩ := List.mem_map.1 hn
    obtain ⟨hmem, hp⟩ := List.mem_filter.1 hb
    rw [← of_decide_eq_true hp]
    exact hdated b hmem
  have hbefore : ∀ m ∈ t.datesOf p, ∃ n, t'.revision? p = some n ∧ m ≤ n := by
    intro m hm
    obtain ⟨b, hb, rfl⟩ := List.mem_map.1 hm
    obtain ⟨hmem, hp⟩ := List.mem_filter.1 hb
    rw [← of_decide_eq_true hp]
    exact hpast b hmem
  rw [Store.datesOf, hlog, List.filter_append, List.map_append]
  refine List.pairwise_append.2 ⟨hsorted, ?_, ?_⟩
  · refine List.pairwise_iff_forall_sublist.2 fun {m n} hmn => ?_
    have hm := hnow m (hmn.subset List.mem_cons_self)
    have hn := hnow n (hmn.subset (List.mem_cons_of_mem _ (List.mem_singleton_self n)))
    exact Nat.le_of_eq (Option.some.inj (hm.symm.trans hn))
  · intro m hm n hn
    obtain ⟨n', hn', hle⟩ := hbefore m hm
    rwa [Option.some.inj (hn'.symm.trans (hnow n hn))] at hle

/-- A proposal that is committed dates its entries, however late. -/
theorem Dated.commit (h : s.Dated ks) (ht : s'.Tracked) {p : Proposal} (hmem : p ∈ s.proposals)
    (hc : s.engine.store.commit p.change = .ok s'.engine.store) (hp : s'.proposals = s.proposals)
    (hstays : s.engine.store.Stays s'.engine.store) (hy : s'.engine.store.Young) :
    s'.Dated (ks ++ [⟨s.engine.store, p.change, s'.engine.store⟩]) := by
  obtain ⟨pl, hplanned, hhomes⟩ := h.plans p hmem
  -- the proposal is not spent, so the id of its process is still free
  obtain ⟨hnone, -⟩ := h.toTracked.commit_cases hmem hc
  have hfresh : s.engine.store.poolOf? p.process = none := by
    rw [Store.poolOf?, hnone, Option.map_none]
  have hages : s.engine.store.Ages s'.engine.store := Store.ages_of_commit hc
  obtain ⟨hone, hinitial⟩ := hplanned.pools
  have hfills := hplanned.fills
  have hbounded : s'.engine.store.Bounded :=
    Store.bounded_of_fills h.bounded hfills hone hinitial hc hy
  have hdates := Transaction.dates_of_homes h.sound hhomes hfresh hfills hone hc hbounded
  have hpast : ∀ b ∈ s.engine.store.log, ∃ n, s'.engine.store.revision? b.process = some n ∧
      b.stamp.natAbs ≤ n := by
    intro b hb
    obtain ⟨n, hn, hle⟩ := h.past b hb
    obtain ⟨n', hn', hle'⟩ := Store.le_revision? hstays hages hn
    exact ⟨n', hn', Nat.le_trans hle hle'⟩
  refine ⟨ht, ?_, hbounded, ?_, ?_, ?_, ?_, ?_⟩
  · exact Store.sound_of_commits h.sound hhomes
      (Store.commits_of_homes h.sound hhomes hfresh hfills hone hc hbounded) hfresh
  · rw [hp]
    intro q hq
    obtain ⟨pl', hplanned', hhomes'⟩ := h.plans q hq
    exact ⟨pl', hplanned', hhomes'.stays hstays⟩
  · exact List.forall_mem_append.2 ⟨h.dates, List.forall_mem_singleton.2 ⟨hc, pl, hplanned, hdates⟩⟩
  · rw [List.flatMap_append, List.flatMap_singleton, ← h.log]
    exact hdates.log
  · rw [hdates.log]
    exact List.forall_mem_append.2
      ⟨hpast, fun b hb => ⟨_, hdates.revisions b hb, Nat.le_refl _⟩⟩
  · exact fun q => pairwise_append_of_dated hdates.log hdates.revisions q hpast (h.sorted q)

/-- A proposal is derived with a plan. -/
theorem Dated.exists_planned (h : s.Dated ks) {p : Proposal} (hpropose : s.engine.Proposes p) :
    ∃ pl, Planned p.change pl ∧ s.engine.store.Homes p.process pl := by
  cases hpropose with
  | step hd hp =>
    obtain ⟨cfg, env, pl, hderives, -, hdraft⟩ := Store.exists_derives h.keyed hd
    exact ⟨pl, .step hd hderives hdraft, hp ▸ Store.homes_of_derives h.sound hderives⟩
  | creation hd hp =>
    obtain ⟨sig, pool, provision, receptions, hsig, -, hch, hpool, -, -, hr, hfills⟩ :=
      Store.exists_creationPlan h.keyed hd
    exact ⟨_, .creation hd hsig ⟨hch, hpool⟩ hr hfills, hp ▸ Store.homes_of_creation⟩

/-- What a stroke commits is dated. -/
theorem Dated.stroke (h : s.Dated ks) (hst : s.Stroke s' ks' ts) (hy : s'.engine.store.Young) :
    s'.Dated (ks ++ ks') := by
  have ht := h.toTracked.stroke hst
  have hages : s.engine.store.Ages s'.engine.store := hst.ages
  have hstays : s.engine.store.Stays s'.engine.store := h.toTracked.poolOf?_stroke hst
  cases hst with
  | declares hd hp =>
    rw [List.append_nil]
    exact h.quiet ht hd.leaves hages (hd.bounded h.bounded) hp
  | redefines hr hp =>
    rw [List.append_nil]
    exact h.quiet ht hr.leaves hages (hr.bounded h.bounded) hp
  | @propose p hpropose hs hi hp =>
    rw [List.append_nil]
    have hplans : ∀ q ∈ s'.proposals, ∃ pl, Planned q.change pl ∧
        s.engine.store.Homes q.process pl := by
      rw [hp]
      exact List.forall_mem_append.2
        ⟨h.plans, List.forall_mem_singleton.2 (h.exists_planned hpropose)⟩
    exact ⟨ht, hs ▸ h.sound, hs ▸ h.bounded, hs ▸ hplans, h.dates, hs ▸ h.log, hs ▸ h.past,
      hs ▸ h.sorted⟩
  | forget he hp =>
    rw [List.append_nil]
    exact ⟨ht, he ▸ h.sound, he ▸ h.bounded, fun q hq => he ▸ h.plans q (hp q hq), h.dates,
      he ▸ h.log, he ▸ h.past, he ▸ h.sorted⟩
  | commit hmem hc hi hp => exact h.commit ht hmem hc hp hstays hy
  | handOff hhome ha hi hp =>
    rw [List.append_nil]
    obtain ⟨old, hold, hs⟩ := Store.get?_pools_addLiability ha
    have hbounded : s'.engine.store.Bounded := by
      intro q now hq
      refine ⟨?_, hy q now hq⟩
      rw [hs, Table.get?_insert] at hq
      split at hq
      · cases hq
        exact Nat.succ_pos _
      · exact (h.bounded hq).1
    exact h.quiet ht (Store.leaves_of_addLiability ha) hages hbounded hp

/-- Runs of strokes date what they commit, if pools have stayed young to the end. -/
theorem Strokes.dated (hst : Strokes s s' ks ts) (h : s.Dated []) (hy : s'.engine.store.Young) :
    s'.Dated ks := by
  refine hst.keeps (I := fun s ks _ => s.engine.store.Young → s.Dated ks) ?_ (fun _ => h) hy
  -- pools only get older, so the session before a stroke is young if the one after it is
  intro t t' ks ts ks' ts' ih hstroke hy'
  exact (ih (hy'.of_ages hstroke.ages)).stroke hstroke hy'

/-- Entries of the binding log carry the revision that they take effect at. In every run of acts,
with proposals that are committed late and in any order, each change that goes through appends one
entry for each mark of the plan that it was drafted from, and entries that bring bindings home. The
absolute value of an entry is the revision that the pool of its process has right after the commit,
and it is positive exactly if it introduces its placeholder. The log has no other entries, and the
revisions along the log of a process never fall. -/
theorem stamps_are_revisions (settings : Settings) (ids : Supply) (acts : List Act) {s : Session}
    (hs : s = (Engine.start settings ids).session.final acts) (hy : s.engine.store.Young) :
    (∀ k ∈ (Engine.start settings ids).session.transactions acts,
        k.before.commit k.change = .ok k.after ∧ ∃ pl, Planned k.change pl ∧ k.Dates pl) ∧
      s.engine.store.log = ((Engine.start settings ids).session.transactions acts).flatMap
        Transaction.appended ∧
      ∀ p, (s.engine.store.datesOf p).Pairwise (· ≤ ·) := by
  subst hs
  have h := (strokes_final acts (Engine.start settings ids).session).dated
    (dated_start settings ids) hy
  exact ⟨h.dates, h.log, h.sorted⟩

/-- The closer was bound when it was created and when the late proposal went through. -/
theorem stamps_are_revisions_spawned :
    ((Engine.start {} ⟨0⟩).session.transactions lateSpawn).length = 2 ∧
      (∀ k ∈ (Engine.start {} ⟨0⟩).session.transactions lateSpawn,
        k.before.commit k.change = .ok k.after ∧ ∃ pl, Planned k.change pl ∧ k.Dates pl) ∧
      ((Engine.start {} ⟨0⟩).session.final lateSpawn).engine.store.datesOf (.nth 6) =
        [2, 3] := by
  have hy : ((Engine.start {} ⟨0⟩).session.final lateSpawn).engine.store.Young :=
    Store.young_of_values (by decide +kernel)
  exact ⟨by decide +kernel, (stamps_are_revisions {} ⟨0⟩ lateSpawn rfl hy).1, by decide +kernel⟩

end Session

end Rendezvous
