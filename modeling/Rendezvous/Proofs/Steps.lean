import Rendezvous.Engine.Step
import Rendezvous.Proofs.Turns

/-!
# Committed steps

`Derives` collects what is known of a step that was derived: the configuration it was derived from
is a part of the store, its term was accepted there, and there is a move for it
(`exists_derives`). Once such a step is committed

- the store has the plan of the move carried out (`commits_of_homes`),
- it stays sound (`sound_of_commits`),
- and its net has taken some turns, or a new process has been founded in it
  (`turns_of_derives`, `founds_of_derives`).
-/

namespace Rendezvous

open Relation (ReflTransGen)

namespace Store

variable {s s' : Store} {fresh : Fresh} {spec : StepSpec} {next : Option StepSpec} {m : Change}
  {cfg : Configuration} {env : Env} {pl : Plan}

/-! ## Deriving -/

/-- A step is derived in these stages, all of which have to succeed. -/
theorem deriveStep_eq_ok_iff :
    s.deriveStep fresh spec = .ok (next, m) ↔
      ∃ read cfg env ctx, s.configuration spec.process = .ok read ∧ read.pool = spec.pool ∧
        read.waiting? = none ∧ s.aim read spec.term = .ok cfg ∧
        s.decls.load cfg spec.term = .ok env ∧
        checkStep spec.pool env cfg spec.term = .ok ctx ∧
        transition env cfg fresh spec.term = .ok (next, m) := by
  have hlater : ∀ read, (do
      let cfg ← s.aim read spec.term
      let env ← s.decls.load cfg spec.term
      let _ ← checkStep spec.pool env cfg spec.term
      transition env cfg fresh spec.term) = .ok (next, m) ↔
      ∃ cfg env ctx, s.aim read spec.term = .ok cfg ∧ s.decls.load cfg spec.term = .ok env ∧
        checkStep spec.pool env cfg spec.term = .ok ctx ∧
        transition env cfg fresh spec.term = .ok (next, m) := by
    intro read
    simp only [except_bind_eq_ok]
    constructor
    · rintro ⟨cfg, ha, env, he, ctx, hc, ht⟩
      exact ⟨cfg, env, ctx, ha, he, hc, ht⟩
    · rintro ⟨cfg, env, ctx, ha, he, hc, ht⟩
      exact ⟨cfg, ha, env, he, ctx, hc, ht⟩
  rw [deriveStep, except_bind_eq_ok]
  refine exists_congr fun read => ?_
  by_cases hp : read.pool = spec.pool
  · cases hw : read.waiting? with
    | none =>
      dsimp only
      rw [if_neg (fun h => h hp), hlater]
      simp [hp]
    | some svc =>
      constructor
      · rintro ⟨-, h⟩
        dsimp only at h
        rw [if_neg (fun h => h hp)] at h
        cases h
      · rintro ⟨_, _, _, -, -, h, -⟩
        cases h
  · constructor
    · rintro ⟨-, h⟩
      dsimp only at h
      rw [if_pos hp] at h
      cases h
    · rintro ⟨_, _, _, -, h, -⟩
      exact absurd h hp

/-- What is known of a step that was derived. -/
structure Derives (s : Store) (fresh : Fresh) (spec : StepSpec) (cfg : Configuration) (env : Env)
    (pl : Plan) : Prop where
  reads : s.Reads spec.process cfg
  pool : cfg.pool = spec.pool
  idle : cfg.waiting? = none
  within : env.Within s.decls
  checked : ∃ ctx, checkStep cfg.pool env cfg spec.term = .ok ctx
  moves : Moves env cfg fresh spec.term pl

theorem pool_aim {read : Configuration} {term : Term} (h : s.aim read term = .ok cfg) :
    cfg.pool = read.pool ∧ cfg.waiting? = read.waiting? := by
  unfold aim at h
  split at h
  · split at h
    · cases h
      exact ⟨rfl, rfl⟩
    · cases h
  · cases h
    exact ⟨rfl, rfl⟩

/-- A step that is derived has a move, and its change is the draft of the plan. -/
theorem exists_derives (hk : s.Keyed) (h : s.deriveStep fresh spec = .ok (next, m)) :
    ∃ cfg env pl, s.Derives fresh spec cfg env pl ∧ pl.next = next ∧ pl.draft? cfg = some m := by
  obtain ⟨read, cfg, env, ctx, hread, hpool, hwait, haim, henv, hcheck, htrans⟩ :=
    deriveStep_eq_ok_iff.1 h
  obtain ⟨pl, hmoves, hnext, hdraft⟩ := transition_eq_ok_iff.1 htrans
  have hreads := (reads_configuration hk hread).aim hk haim
  obtain ⟨hp, hw⟩ := pool_aim haim
  have hcheck' : checkStep cfg.pool env cfg spec.term = .ok ctx := by rw [hp, hpool]; exact hcheck
  exact ⟨cfg, env, pl, ⟨hreads, hp.trans hpool, hw.trans hwait, Registry.within_load henv,
    ⟨ctx, hcheck'⟩, hmoves⟩, hnext, hdraft⟩

/-! ## Committing -/

theorem mem_marks_of_joins {z : Id} {half : Half} {pending : Option Half} {j : Joined}
    (h : Joins z half pending j) {k : Mark} (hk : k ∈ j.marks) :
    ∃ svc, (half = .service svc ∨ pending = some (.service svc)) ∧ k.process = svc.process ∧
      k.pool = svc.pool := by
  cases h with
  | wait => cases hk
  | serve _ => exact ⟨_, .inr rfl, Net.mem_serviceMarks hk⟩
  | fetch _ => exact ⟨_, .inl rfl, Net.mem_serviceMarks hk⟩

theorem mem_own_of_offers {term : Term} {ep : Endpoint} {own : List Mark} {half : Half}
    (ho : Offers env cfg fresh term ep own half) {k : Mark} (hk : k ∈ own) :
    k.process = cfg.process ∧ k.pool = cfg.pool := by
  cases ho with
  | close _ =>
    rw [List.mem_singleton.1 hk]
    exact ⟨rfl, rfl⟩
  | send _ _ _ _ =>
    simp only [List.mem_cons, List.not_mem_nil, or_false] at hk
    rcases hk with rfl | rfl | rfl <;> exact ⟨rfl, rfl⟩
  | pass _ _ _ =>
    simp only [List.mem_cons, List.not_mem_nil, or_false] at hk
    rcases hk with rfl | rfl <;> exact ⟨rfl, rfl⟩
  | consume _ _ => cases hk

theorem mem_handedOver {via target : Sym} {x y : Endpoint} {k : Mark}
    (hk : k ∈ Drafting.handedOver cfg via target x y) :
    k.process = cfg.process ∧ k.pool = cfg.pool := by
  simp only [Drafting.handedOver, List.mem_cons, List.not_mem_nil, or_false] at hk
  rcases hk with rfl | rfl <;> exact ⟨rfl, rfl⟩

/-- The marks of an instance are for its creator and for itself. -/
theorem mem_marks_of_instance {i : Instance} {q : Id} {via : Sym} {k : Mark}
    (hk : k ∈ i.marks cfg q via) :
    k.process = cfg.process ∧ k.pool = cfg.pool ∨ k.process = q ∧ k.pool = i.provision.pool := by
  simp only [Instance.marks, List.mem_cons, List.mem_append, List.mem_flatMap, Gift.marks,
    List.not_mem_nil, or_false] at hk
  rcases hk with rfl | ⟨g, -, rfl | rfl⟩ | rfl
  · exact .inr ⟨rfl, rfl⟩
  · exact .inl ⟨rfl, rfl⟩
  · exact .inr ⟨rfl, rfl⟩
  · exact .inl ⟨rfl, rfl⟩

/-- Every process that a move binds anew lives in the pool that its marks name, or is new. -/
theorem homed_of_moves (hs : s.Sound) (hd : s.Derives fresh spec cfg env pl) {k : Mark}
    (hk : k ∈ pl.marks) :
    s.poolOf? k.process = some k.pool ∨ ∃ m ∈ pl.members, m.id = k.process ∧ m.pool = k.pool := by
  have hself : s.poolOf? cfg.process = some cfg.pool := by
    rw [hd.reads.process]
    exact hd.reads.member
  have hown : k.process = cfg.process ∧ k.pool = cfg.pool → s.poolOf? k.process = some k.pool := by
    rintro ⟨hp, hq⟩
    rw [hp, hq]
    exact hself
  have hjoin : ∀ {ep : Endpoint} {l : Landing} {half : Half} {j : Joined} {ph : Sym},
      cfg.channels.get? ph = some ep → cfg.landing? ep.channel = some l →
      (∀ svc, half = .service svc → s.poolOf? svc.process = some svc.pool) →
      Joins l.channel half l.half j → k ∈ j.marks → s.poolOf? k.process = some k.pool := by
    intro ep l half j ph hep hl hhalf hj hk
    obtain ⟨-, hpending⟩ := leads_of_landing hd.reads hep hl
    obtain ⟨svc, hsvc, hprocess, hpool⟩ := mem_marks_of_joins hj hk
    rw [hprocess, hpool]
    rcases hsvc with hsvc | hsvc
    · exact hhalf svc hsvc
    · exact hs.owners (hpending.symm.trans hsvc)
  have hmoves := hd.moves
  generalize spec.term = term at hmoves
  cases hmoves with
  | @offer _ ep own half l j ho hl hj =>
    left
    rcases List.mem_append.1 hk with hk | hk
    · exact hown (mem_own_of_offers ho hk)
    · refine hjoin (channel_of_offers ho).1 hl ?_ hj hk
      rintro svc rfl
      cases ho
      exact hself
  | @relay via target x y l hx hy hl hnone =>
    exact .inl (hown (mem_handedOver hk))
  | @redirect via target x y l there id node j hx hy hl hthere hnode hdir hj =>
    left
    rcases List.mem_append.1 hk with hk | hk
    · exact hown (mem_handedOver hk)
    · refine hjoin hx hl ?_ hj hk
      rintro svc rfl
      exact hs.owners (hd.reads.sub hthere)
  | @call via sig values cont i hi =>
    refine (mem_marks_of_instance hk).imp hown fun hnew => ?_
    exact ⟨_, List.mem_singleton_self _, hnew.1.symm, hi.pool_eq.symm.trans hnew.2.symm⟩
  | @spawn via sig values pool cont i hi =>
    refine (mem_marks_of_instance hk).imp hown fun hnew => ?_
    exact ⟨_, List.mem_singleton_self _, hnew.1.symm, hi.pool_eq.symm.trans hnew.2.symm⟩

/-- A move makes a new process, or it moves halves and comes home. -/
theorem members_of_moves {term : Term} (h : Moves env cfg fresh term pl) :
    pl.members = [] ∧ pl.pools = [] ∨
      pl.slots = [] ∧ pl.homes = [] ∧ pl.pools.length ≤ 1 ∧
        (∀ pool ∈ pl.pools, pool.id = fresh.pool) ∧
        ∃ q sig, pl.members = [⟨fresh.process, q, sig⟩] ∧ ∃ k ∈ pl.marks, k.pool = q := by
  cases h with
  | offer => exact .inl ⟨rfl, rfl⟩
  | relay => exact .inl ⟨rfl, rfl⟩
  | redirect => exact .inl ⟨rfl, rfl⟩
  | call hi =>
    refine .inr ⟨rfl, rfl, Nat.le_refl 1, ?_, _, _, rfl, _, List.mem_cons_self, hi.pool_eq⟩
    intro pool hpool
    rw [List.mem_singleton.1 hpool]
  | spawn hi =>
    exact .inr ⟨rfl, rfl, Nat.zero_le 1, fun _ h => (nomatch h), _, _, rfl, _,
      List.mem_cons_self, hi.pool_eq⟩

/-- There is one new pool at most, at its first revision. -/
theorem pools_of_moves {term : Term} (h : Moves env cfg fresh term pl) :
    pl.pools.length ≤ 1 ∧ ∀ pool ∈ pl.pools, pool.rev = .initial := by
  cases h with
  | call =>
    refine ⟨Nat.le_refl 1, fun pool hpool => ?_⟩
    rw [List.mem_singleton.1 hpool]
  | offer => exact ⟨Nat.zero_le 1, List.forall_mem_nil _⟩
  | relay => exact ⟨Nat.zero_le 1, List.forall_mem_nil _⟩
  | redirect => exact ⟨Nat.zero_le 1, List.forall_mem_nil _⟩
  | spawn => exact ⟨Nat.zero_le 1, List.forall_mem_nil _⟩

/-- A channel that comes home stays the channel that it is. -/
theorem channel_foldl_rehomed (homes : List Endpoint) (v : Live) (p : Id) (ph : Sym) :
    (homes.foldl Live.rehomed v p ph).map Endpoint.channel =
      (v p ph).map Endpoint.channel := by
  induction homes generalizing v with
  | nil => rfl
  | cons home rest ih =>
    rw [List.foldl_cons, ih, Live.rehomed, Option.map_map]
    refine Option.map_congr fun e _ => ?_
    rw [Function.comp_apply]
    split
    · next hc => exact hc.symm
    · rfl

theorem exists_of_foldl_rehomed {homes : List Endpoint} {v : Live} {p : Id} {ph : Sym}
    {e : Endpoint} (h : homes.foldl Live.rehomed v p ph = some e) :
    ∃ e', v p ph = some e' ∧ e'.channel = e.channel := by
  have hc := channel_foldl_rehomed homes v p ph
  rw [h] at hc
  exact Option.map_eq_some_iff.1 hc.symm

/-- A plan of processes that have a home, except for one that is new. -/
structure Homes (s : Store) (new : Id) (pl : Plan) : Prop where
  marks : ∀ {k : Mark}, k ∈ pl.marks → s.poolOf? k.process = some k.pool ∨
    ∃ m ∈ pl.members, m.id = k.process ∧ m.pool = k.pool
  puts : ∀ {half : Half}, .put half ∈ pl.slots → s.poolOf? half.process = some half.pool
  members : pl.members = [] ∨
    ∃ q sig, pl.members = [⟨new, q, sig⟩] ∧ ∃ k ∈ pl.marks, k.pool = q

/-- Where processes live after a plan. -/
theorem poolOf?_of_commits {new : Id} (hh : s.Homes new pl) (hc : s.Commits s' pl) :
    pl.members = [] ∧ s'.poolOf? = s.poolOf? ∨
      ∃ q sig, pl.members = [⟨new, q, sig⟩] ∧ (∃ k ∈ pl.marks, k.pool = q) ∧
        s'.poolOf? = Function.update s.poolOf? new (some q) := by
  rcases hh.members with hmem | ⟨q, sig, hmem, hmark⟩
  · refine .inl ⟨hmem, funext fun p => ?_⟩
    rw [poolOf?, hc.members, hmem]
    rfl
  · refine .inr ⟨q, sig, hmem, hmark, funext fun p => ?_⟩
    rw [poolOf?, hc.members, hmem]
    show ((s.members.insert new _).get? p).map Member.pool = _
    rw [Table.get?_insert, Function.update_apply]
    split <;> rfl

/-- A half that is there after some operations was there before, or was put there. -/
theorem mem_of_runSlots {ops : List SlotOp} {pending : Id → Option Half} {c : Id} {half : Half}
    (h : runSlots ops pending c = some half) :
    pending c = some half ∨ .put half ∈ ops ∧ half.channel = c := by
  induction ops generalizing pending with
  | nil => exact .inl h
  | cons op rest ih =>
    rcases ih h with h | ⟨hm, hc⟩
    · cases op with
      | put new =>
        change Function.update pending new.channel (some new) c = some half at h
        rw [Function.update_apply] at h
        split at h
        · next hc =>
          cases h
          exact .inr ⟨List.mem_cons_self, hc.symm⟩
        · exact .inl h
      | take x =>
        change Function.update pending x none c = some half at h
        rw [Function.update_apply] at h
        split at h
        · cases h
        · exact .inl h
    · exact .inr ⟨List.mem_cons_of_mem _ hm, hc⟩

/-- What a move does to halves: it takes one that is on the way from a channel of the acting process,
or it puts one where nothing is, which is new or moved on from where it was. -/
inductive Handles (s : Store) (cfg : Configuration) : SlotOp → Prop
  | take {ph : Sym} {e : Endpoint} {x : Id} {half : Half} (he : s.live cfg.process ph = some e)
    (ha : Along s.halves.get? e.channel x) (hx : s.halves.get? x = some half) :
    Handles s cfg (.take x)
  | leave {half : Half} (hnone : s.halves.get? half.channel = none)
    (hprocess : half.process = cfg.process) (hpool : half.pool = cfg.pool) :
    Handles s cfg (.put half)
  | move {y z : Id} {left : Half} (hleft : s.halves.get? y = some left)
    (hnone : s.halves.get? z = none) : Handles s cfg (.put (left.movedTo z))

theorem handles_of_derives (hd : s.Derives fresh spec cfg env pl) {op : SlotOp}
    (hop : op ∈ pl.slots) : s.Handles cfg op := by
  have hlive : ∀ {ph : Sym} {ep : Endpoint}, cfg.channels.get? ph = some ep →
      s.live cfg.process ph = some ep := by
    intro ph ep hep
    rw [hd.reads.process, ← hd.reads.channels, hep]
  have htakes : ∀ {ph : Sym} {ep : Endpoint} {l : Landing}, cfg.channels.get? ph = some ep →
      cfg.landing? ep.channel = some l → op ∈ l.takes → s.Handles cfg op := by
    intro ph ep l hep hl hmem
    obtain ⟨hleads, -⟩ := leads_of_landing hd.reads hep hl
    obtain ⟨x, hx, rfl⟩ := List.mem_map.1 hmem
    obtain ⟨f, hf⟩ := hleads.forward_of_mem hx
    exact .take (hlive hep) (hleads.along_of_mem hx) hf
  have hjoin : ∀ {ph : Sym} {ep : Endpoint} {l : Landing} {half : Half} {j : Joined},
      cfg.channels.get? ph = some ep → cfg.landing? ep.channel = some l →
      Joins l.channel half l.half j → op ∈ j.slots →
      (s.halves.get? l.channel = none → s.Handles cfg (.put (half.movedTo l.channel))) →
      s.Handles cfg op := by
    intro ph ep l half j hep hl hj hmem hput
    obtain ⟨hleads, hpending⟩ := leads_of_landing hd.reads hep hl
    rw [hpending] at hj
    generalize hz : s.halves.get? l.channel = pending at hj
    cases hj with
    | wait => exact List.mem_singleton.1 hmem ▸ hput hz
    | serve _ => exact List.mem_singleton.1 hmem ▸ .take (hlive hep) hleads.along hz
    | fetch _ => exact List.mem_singleton.1 hmem ▸ .take (hlive hep) hleads.along hz
  have hmoves := hd.moves
  generalize spec.term = term at hmoves
  cases hmoves with
  | @offer _ ep own half l j ho hl hj =>
    obtain ⟨hep, -⟩ := channel_of_offers ho
    refine (List.mem_append.1 hop).elim (htakes hep hl) fun h => hjoin hep hl hj h fun hnone => ?_
    refine .leave (by rwa [Half.channel_movedTo]) ?_ ?_
    · rw [Half.process_movedTo]
      cases ho <;> rfl
    · rw [Half.pool_movedTo]
      cases ho <;> rfl
  | @relay via target x y l hx hy hl hnone =>
    refine (List.mem_append.1 hop).elim (htakes hx hl) fun h => List.mem_singleton.1 h ▸ ?_
    refine .leave ?_ rfl rfl
    exact (hd.reads.get?_halves ((hd.reads.channels _).symm.trans hy)).symm.trans hnone
  | @redirect via target x y l left id node j hx hy hl hleft hnode hdir hj =>
    refine (List.mem_append.1 hop).elim (htakes hx hl) fun h => ?_
    rcases List.mem_cons.1 h with rfl | h
    · exact .take (hlive hy) .here (hd.reads.sub hleft)
    · exact hjoin hx hl hj h (.move (hd.reads.sub hleft))
  | call => cases hop
  | spawn => cases hop

/-- Who has left what a move puts somewhere lives in the pool on record. -/
theorem owner_of_put (hs : s.Sound) (hd : s.Derives fresh spec cfg env pl) {half : Half}
    (hp : .put half ∈ pl.slots) : s.poolOf? half.process = some half.pool := by
  cases handles_of_derives hd hp with
  | leave _ hprocess hpool =>
    rw [hprocess, hpool, hd.reads.process]
    exact hd.reads.member
  | move hleft _ =>
    rw [Half.process_movedTo, Half.pool_movedTo]
    exact hs.owners hleft

theorem homes_of_derives (hs : s.Sound) (hd : s.Derives fresh spec cfg env pl) :
    s.Homes fresh.process pl := by
  refine ⟨homed_of_moves hs hd, owner_of_put hs hd, ?_⟩
  rcases members_of_moves hd.moves with ⟨hmem, -⟩ | ⟨-, -, -, -, q, sig, hmem, hmark⟩
  · exact .inl hmem
  · exact .inr ⟨q, sig, hmem, hmark⟩

/-- A plan whose change is committed is carried out, if the store is one where the processes of the plan
live where it says; it need not be the store that the change was derived from. -/
theorem commits_of_homes {new : Id} (hs : s.Sound) (hh : s.Homes new pl)
    (hfresh : s.poolOf? new = none) (hfills : pl.Fills m) (hone : pl.pools.length ≤ 1)
    (hc : s.commit m = .ok s') (hb : s'.Bounded) : s.Commits s' pl := by
  refine commits_of_fills hfills hc hb hone fun p ph e he _ => ?_
  obtain ⟨hlocked, hnew, -, rfl⟩ := commit_eq_ok_iff.1 hc
  -- whoever had a home before has it still, at a revision whose stamps keep their sign
  have hold : ∀ {p q : Id}, s.poolOf? p = some q → (s.apply m).Stamped p := by
    intro p q hq
    obtain ⟨pool, hpool⟩ := hs.members hq
    have hne : ∀ new ∈ m.pools, new.id ≠ q := by
      intro new hmem he
      rw [← he, hnew new hmem] at hpool
      cases hpool
    have hthere := get?_pools_apply (s := s) hlocked hne
    rw [hpool, Option.map_some] at hthere
    refine ⟨q, _, ?_, hthere, hb hthere⟩
    rw [poolOf?_apply_of_ne, hq]
    rw [hfills.members]
    intro member hmem hid
    rcases hh.members with hnone | ⟨r, sig, hsingle, -⟩
    · rw [hnone] at hmem
      cases hmem
    · rw [hsingle, List.mem_singleton] at hmem
      rw [← hid, hmem] at hq
      cases hfresh.symm.trans hq
  rcases Live.after_eq_some he with hl | ⟨k, hk, -, rfl, -⟩
  · obtain ⟨q, hq⟩ := hs.live hl
    exact hold hq
  · rcases hh.marks hk with hq | ⟨member, hmem, hid, hpool⟩
    · exact hold hq
    · -- the process is the new one, and its pool was stamped
      obtain ⟨rev, hrev⟩ := hfills.stamps k hk
      obtain ⟨now, hnow, -⟩ := rev_apply_of_stamp? hlocked hnew (hfills.pools ▸ hone) hrev
      refine ⟨k.pool, now, ?_, hnow, hb hnow⟩
      rcases hh.members with hnone | ⟨r, sig, hsingle, -⟩
      · rw [hnone] at hmem
        cases hmem
      · rw [hsingle, List.mem_singleton] at hmem
        subst hmem
        rw [poolOf?, members_apply, hfills.members, hsingle, ← hid, ← hpool]
        exact congrArg _ (Table.get?_insert_self ..)

/-- A plan that is carried out leaves a sound store. -/
theorem sound_of_commits {new : Id} (hs : s.Sound) (hh : s.Homes new pl)
    (hc : s.Commits s' pl) (hfresh : s.poolOf? new = none) : s'.Sound := by
  have hhome : ∀ {p q : Id}, s.poolOf? p = some q → s'.poolOf? p = some q := by
    intro p q hp
    rcases poolOf?_of_commits hh hc with ⟨-, h⟩ | ⟨r, sig, -, -, h⟩
    · rw [h, hp]
    · rw [h, Function.update_of_ne, hp]
      rintro rfl
      rw [hfresh] at hp
      cases hp
  have hslots : ∀ {c : Id} {half : Half}, s'.halves.get? c = some half →
      s.halves.get? c = some half ∨ .put half ∈ pl.slots ∧ half.channel = c := by
    intro c half hhalf
    rw [hc.halves, get?_foldl_applySlot] at hhalf
    exact mem_of_runSlots hhalf
  refine { pools := ?_, halves := ?_, members := ?_, live := ?_, owners := ?_ }
  · intro q pool hq
    rcases hc.back hq with ⟨old, hold, hid⟩ | ⟨-, hid⟩
    · rw [hid]
      exact hs.pools hold
    · exact hid
  · intro c half hhalf
    rcases hslots hhalf with hold | ⟨-, hch⟩
    · exact hs.halves hold
    · exact hch
  · intro p q hp
    rcases poolOf?_of_commits hh hc with ⟨-, h⟩ | ⟨r, sig, -, ⟨k, hk, rfl⟩, h⟩
    · rw [h] at hp
      obtain ⟨pool, hpool⟩ := hs.members hp
      obtain ⟨pool', hpool', -⟩ := hc.pools hpool
      exact ⟨pool', hpool'⟩
    · rw [h, Function.update_apply] at hp
      split at hp
      · cases hp
        exact hc.known k hk
      · obtain ⟨pool, hpool⟩ := hs.members hp
        obtain ⟨pool', hpool', -⟩ := hc.pools hpool
        exact ⟨pool', hpool'⟩
  · intro p ph e he
    rw [hc.live] at he
    obtain ⟨e', he', -⟩ := exists_of_foldl_rehomed he
    rcases Live.after_eq_some he' with hl | ⟨k, hk, -, rfl, -⟩
    · obtain ⟨q, hq⟩ := hs.live hl
      exact ⟨q, hhome hq⟩
    · rcases hh.marks hk with hq | ⟨mem, hm, hid, hpool⟩
      · exact ⟨_, hhome hq⟩
      · rcases poolOf?_of_commits hh hc with ⟨hmem, -⟩ | ⟨r, sig, hmem, -, h⟩
        · rw [hmem] at hm
          cases hm
        · rw [hmem] at hm
          cases List.mem_singleton.1 hm
          rw [h, ← hid]
          exact ⟨r, Function.update_self ..⟩
  · intro c half hhalf
    rcases hslots hhalf with hold | ⟨hput, -⟩
    · exact hhome (hs.owners hold)
    · exact hhome (hh.puts hput)

/-! ## Nets -/

/-- A step of a term that makes no new process is a run of turns. -/
theorem turns_of_derives (hs : s.Sound) (hd : s.Derives fresh spec cfg env pl)
    (hc : s.Commits s' pl) (hu : s.net.Unused fresh.channel) (hmem : pl.members = []) :
    ReflTransGen (Net.Turn s.decls.Denotes fresh.channel) s.net s'.net := by
  obtain ⟨ctx, hcheck⟩ := hd.checked
  have hmoves := hd.moves
  generalize spec.term = term at hmoves hcheck
  cases hmoves with
  | offer ho hl hj => exact turns_of_offer hd.reads hd.within hd.idle hcheck hu ho hl hj hc
  | relay hx hy hl hnone =>
    exact turns_of_relay hd.reads hd.within hd.idle hcheck hx hy hl hnone hc
  | @redirect via target x y l there id node j hx hy hl hthere hnode hdir hj =>
    have hfor : there.forward? = none := by
      cases there with
      | message _ => rfl
      | service _ => rfl
      | forward f => cases hp : node.polarity <;> rw [hp] at hdir <;> cases hdir
    exact turns_of_redirect hs.toKeyed hd.reads hd.within hd.idle hcheck hx hy hl hthere hfor hj hc
  | call => cases hmem
  | spawn => cases hmem

/-- Gifts go from the giver to a process that is not the giver. -/
theorem live_after_gifts (gifts : List Gift) (v : Live) {p q : Id} (pool : Id)
    (hp : cfg.process = p) (hq : q ≠ p) :
    (∀ h, v.after (gifts.flatMap (Gift.marks cfg q pool)) p h =
      if h ∈ gifts.map Gift.value then none else v p h) ∧
    (∀ {r : Id}, r ≠ p → r ≠ q → v.after (gifts.flatMap (Gift.marks cfg q pool)) r = v r) ∧
    ∀ {h : Sym} {e : Endpoint}, v.after (gifts.flatMap (Gift.marks cfg q pool)) q h = some e →
      v q h = some e ∨ ∃ g ∈ gifts, g.parameter.placeholder = h ∧ g.endpoint = e := by
  subst hp
  induction gifts generalizing v with
  | nil => exact ⟨fun _ => rfl, fun _ _ => rfl, fun h => .inl h⟩
  | cons g rest ih =>
    rw [List.flatMap_cons, Live.after_append]
    obtain ⟨hgiver, hother, hnew⟩ := ih (v.after (Gift.marks cfg q pool g))
    simp only [Gift.marks, Configuration.mark, Live.after_cons, Live.after_nil, Live.marked]
      at hgiver hother hnew ⊢
    refine ⟨fun h => ?_, fun {r} hr hrq => ?_, fun {h e} he => ?_⟩
    · rw [hgiver h]
      simp only [Live.set, List.map_cons, List.mem_cons]
      grind
    · rw [hother hr hrq]
      funext h
      simp only [Live.set]
      grind
    · rcases hnew he with h' | ⟨g', hg', hfacts⟩
      · simp only [Live.set] at h'
        grind
      · exact .inr ⟨g', List.mem_cons_of_mem _ hg', hfacts⟩

/-- An instance that is committed is founded. -/
theorem founds_of_instance (hs : s.Sound) (hr : s.Reads spec.process cfg)
    (hidle : cfg.waiting? = none) (hu : s.net.Unused fresh.channel)
    (hfresh : s.poolOf? fresh.process = none) {pool sig : Id} {values : List Sym} {via : Sym}
    {i : Instance} (hi : Instantiates env cfg fresh sig values pool i) (hnodup : values.Nodup)
    (hgives : ∀ value ∈ values, ∃ e, cfg.channels.get? value = some e ∧ e.pool ≠ cfg.pool)
    {pools : List Pool}
    (hc : s.Commits s' ⟨next, i.marks cfg fresh.process via, [], [],
      [⟨fresh.process, pool, sig⟩], pools⟩) :
    s.net.Founds s'.net spec.process cfg.pool fresh.process pool via i.sig.provision.placeholder
      i.provision i.gifts := by
  have hself : s.poolOf? spec.process = some cfg.pool := hr.member
  have hne : fresh.process ≠ spec.process := by
    intro e
    rw [e, hself] at hfresh
    cases hfresh
  have hvalues : i.gifts.map Gift.value = values := by
    have h := congrArg (List.map Prod.fst) hi.gifts
    rw [List.map_map, List.map_fst_zip (Nat.le_of_eq hi.arity)] at h
    exact h
  have hsilent : ∀ h, s.live fresh.process h = none := by
    intro h
    cases hl : s.live fresh.process h with
    | none => rfl
    | some e =>
      obtain ⟨q, hq⟩ := hs.live hl
      rw [hfresh] at hq
      cases hq
  -- the provision is bound first, then the gifts are handed over, then the creator gets its end
  obtain ⟨hgiver, hother, hnew⟩ := live_after_gifts i.gifts
    (s.live.marked ⟨fresh.process, i.provision.pool, i.sig.provision.placeholder,
      i.provision, true⟩) i.provision.pool hr.process hne
  have hlive : s'.live = ((s.live.marked ⟨fresh.process, i.provision.pool,
      i.sig.provision.placeholder, i.provision, true⟩).after
        (i.gifts.flatMap (Gift.marks cfg fresh.process i.provision.pool))).marked
          (cfg.mark true via i.provision) := by
    rw [hc.live, List.foldl_nil, Instance.marks, Live.after_cons, Live.after_append,
      Live.after_cons, Live.after_nil]
  have hhalves : s'.halves = s.halves := hc.halves
  have hpending : s'.net.message = s.net.message ∧ s'.net.service = s.net.service ∧
      s'.net.forward = s.net.forward := by
    simp only [net, hhalves]
    exact ⟨rfl, rfl, rfl⟩
  have hborn : s'.net.home = Function.update s.net.home fresh.process (some pool) := by
    funext p
    show s'.poolOf? p = _
    rw [poolOf?, hc.members]
    show ((s.members.insert fresh.process _).get? p).map Member.pool = _
    rw [Table.get?_insert, Function.update_apply]
    split <;> rfl
  refine ⟨⟨hfresh, hborn, hi.pool_eq, hi.channel ▸ hu, hpending.1, hpending.2.1, hpending.2.2⟩,
    hself, idle_of_waiting hr hidle, hi.elsewhere, hvalues ▸ hnodup, ?_, ?_, ?_, ?_⟩
  · intro g hg
    obtain ⟨hchan, hpool⟩ := hi.given g hg
    obtain ⟨e, he, hep⟩ := hgives g.value (hvalues ▸ List.mem_map_of_mem hg)
    cases hchan.symm.trans he
    exact ⟨(hr.channels _).symm.trans hchan, hep, hpool⟩
  · intro h e he
    have he' : s'.live fresh.process h = some e := he
    rw [hlive, Live.marked_of_ne fun h => hne (h.1.trans hr.process)] at he'
    rcases hnew he' with hp | hg
    · by_cases hph : h = i.sig.provision.placeholder
      · rw [hph, Live.marked, Live.set_self] at hp
        cases hp
        exact .inl ⟨hph, rfl⟩
      · rw [Live.marked_of_ne fun hh => hph hh.2, hsilent h] at hp
        cases hp
    · exact .inr hg
  · intro h
    show s'.live spec.process h = _
    rw [hlive]
    by_cases hv : h = via
    · rw [if_pos hv, hv, ← hr.process]
      exact Live.set_self ..
    · rw [Live.marked_of_ne fun hh => hv hh.2, if_neg hv, hgiver h,
        Live.marked_of_ne fun hh => hne hh.1.symm]
      rfl
  · intro r hr' hrq
    show s'.live r = s.live r
    funext h
    rw [hlive, Live.marked_of_ne fun hh => hr' (hh.1.trans hr.process), hother hr' hrq,
      Live.marked_of_ne fun hh => hrq hh.1]

/-- A step that makes a new process founds it. -/
theorem founds_of_derives (hs : s.Sound) (hd : s.Derives fresh spec cfg env pl)
    (hc : s.Commits s' pl) (hu : s.net.Unused fresh.channel)
    (hfresh : s.poolOf? fresh.process = none) (hmem : pl.members ≠ []) :
    ∃ pool via ph provision gifts,
      s.net.Founds s'.net spec.process cfg.pool fresh.process pool via ph provision gifts ∧
        provision.channel = fresh.channel ∧
        (spec.term.operation ≠ .spawn → pool = fresh.pool) := by
  obtain ⟨ctx, hcheck⟩ := hd.checked
  have hmoves := hd.moves
  generalize spec.term = term at hmoves hcheck
  cases hmoves with
  | offer => exact absurd rfl hmem
  | relay => exact absurd rfl hmem
  | redirect => exact absurd rfl hmem
  | call hi =>
    obtain ⟨-, hnodup, hgives⟩ := gives_of_checkStep (.inl rfl) hcheck
    exact ⟨_, _, _, _, _, founds_of_instance hs hd.reads hd.idle hu hfresh hi hnodup hgives hc,
      hi.channel, fun _ => rfl⟩
  | spawn hi =>
    obtain ⟨-, hnodup, hgives⟩ := gives_of_checkStep (.inr ⟨_, rfl⟩) hcheck
    exact ⟨_, _, _, _, _, founds_of_instance hs hd.reads hd.idle hu hfresh hi hnodup hgives hc,
      hi.channel, fun h => absurd rfl h⟩

end Store

end Rendezvous
