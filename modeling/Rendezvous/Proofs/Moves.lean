import Rendezvous.Proofs.Offers

/-!
# What a transition does

- `Instantiates` says how a new instance of a signature is endowed;
- `Moves` puts offers, forwards and instances together, one case for each kind of step;
- `Plan.draft?` turns what a move does into a change.

The main statement is `transition_eq_ok_iff`: a transition succeeds with a change exactly if there
is such a move and the change is its draft.
-/

namespace Rendezvous

/-! ## Instances -/

/-- A channel that goes from the acting process to a parameter of a new one. -/
structure Gift where
  value : Sym
  parameter : Parameter
  endpoint : Endpoint

/-- The bindings a gift changes: the giver's, and that of the new process. -/
def Gift.marks (cfg : Configuration) (process pool : Id) (g : Gift) : List Mark :=
  [cfg.mark false g.value g.endpoint, ⟨process, pool, g.parameter.placeholder, g.endpoint, true⟩]

/-- An instance of a signature: the channel that it provides and what it is given. -/
structure Instance where
  sig : Signature
  provision : Endpoint
  gifts : List Gift

/-- The bindings that a new instance changes. -/
def Instance.marks (i : Instance) (cfg : Configuration) (process : Id) (via : Sym) : List Mark :=
  ⟨process, i.provision.pool, i.sig.provision.placeholder, i.provision, true⟩ ::
    (i.gifts.flatMap (Gift.marks cfg process i.provision.pool) ++
      [cfg.mark true via i.provision])

/-- An instance of `sigId` in `pool` that takes `values`. -/
structure Instantiates (env : Env) (cfg : Configuration) (fresh : Fresh) (sigId : Id)
    (values : List Sym) (pool : Id) (i : Instance) : Prop where
  sig : env.sig sigId = .ok i.sig
  arity : values.length = i.sig.receptions.length
  channel : i.provision.channel = fresh.channel
  type : env.rootOf i.sig.provision.type = .ok i.provision.type
  pool_eq : i.provision.pool = pool
  /-- The instance lives elsewhere than its creator. -/
  elsewhere : pool ≠ cfg.pool
  gifts : i.gifts.map (fun g => (g.value, g.parameter)) = values.zip i.sig.receptions
  given : ∀ g ∈ i.gifts, cfg.channels.get? g.value = some g.endpoint ∧ g.endpoint.pool ≠ pool

namespace Drafting

theorem inscribe?_gifts {cfg : Configuration} {process pool : Id} {g : Gift} {gifts : List Gift}
    {d : Change} :
    inscribe? cfg ((g :: gifts).flatMap (Gift.marks cfg process pool)) d =
      ((inscribe? cfg [cfg.mark false g.value g.endpoint] d).bind
        (inscribe? cfg [⟨process, pool, g.parameter.placeholder, g.endpoint, true⟩])).bind
          (inscribe? cfg (gifts.flatMap (Gift.marks cfg process pool))) := by
  rw [List.flatMap_cons, inscribe?_append, Gift.marks, ← List.singleton_append, inscribe?_append]

theorem passOn_eq_ok {cfg : Configuration} {process pool : Id} {pairs : List (Sym × Parameter)}
    {d d' : Change} {u : Unit} :
    passOn cfg process pool pairs d = .ok (u, d') ↔
      ∃ gifts : List Gift, gifts.map (fun g => (g.value, g.parameter)) = pairs ∧
        (∀ g ∈ gifts, cfg.channels.get? g.value = some g.endpoint ∧ g.endpoint.pool ≠ pool) ∧
        inscribe? cfg (gifts.flatMap (Gift.marks cfg process pool)) d = some d' := by
  induction pairs generalizing d with
  | nil =>
    rw [passOn, pure_eq_ok]
    constructor
    · intro h
      cases h
      exact ⟨[], rfl, by simp, rfl⟩
    · rintro ⟨gifts, hg, -, h⟩
      obtain rfl : gifts = [] := by simpa using hg
      cases h
      rfl
  | cons pair rest ih =>
    obtain ⟨value, parameter⟩ := pair
    rw [passOn]
    simp only [bind_eq_ok, endpoint_eq_ok]
    constructor
    · rintro ⟨ep, _, ⟨hep, rfl⟩, h⟩
      by_cases hpool : ep.pool = pool
      · rw [if_pos hpool, bind_eq_ok] at h
        obtain ⟨_, _, h, -⟩ := h
        cases h
      · rw [if_neg hpool] at h
        simp only [discard, bind_eq_ok, discardFor_eq_ok, introduceFor_eq_ok, ih] at h
        obtain ⟨_, a, ha, _, b, hb, gifts, rfl, hgifts, hd⟩ := h
        refine ⟨⟨value, parameter, ep⟩ :: gifts, rfl, ?_, ?_⟩
        · rintro g (_ | ⟨_, hg⟩)
          · exact ⟨hep, hpool⟩
          · exact hgifts g hg
        · rw [inscribe?_gifts, Configuration.mark, ha, Option.bind_some, hb, Option.bind_some, hd]
    · rintro ⟨gifts, hg, hgifts, h⟩
      obtain ⟨g, gifts, rfl⟩ : ∃ g rest, gifts = g :: rest := by
        cases gifts with
        | nil => cases hg
        | cons g rest => exact ⟨g, rest, rfl⟩
      obtain ⟨hpair, hrest⟩ := List.cons.inj hg
      cases hpair
      obtain ⟨hep, hpool⟩ := hgifts g List.mem_cons_self
      rw [inscribe?_gifts] at h
      obtain ⟨b, hb, h⟩ := Option.bind_eq_some_iff.1 h
      obtain ⟨a, ha, hb⟩ := Option.bind_eq_some_iff.1 hb
      refine ⟨g.endpoint, d, ⟨hep, rfl⟩, ?_⟩
      rw [if_neg hpool]
      simp only [discard, bind_eq_ok, discardFor_eq_ok, introduceFor_eq_ok, ih]
      exact ⟨(), a, ha, (), b, hb, gifts, hrest,
        fun g' hg' => hgifts g' (List.mem_cons_of_mem _ hg'), h⟩

/-- The draft with a new process on record, which is liable for its pool. -/
def enlisted (d e : Change) (member : Member) (rev : Rev) : Change :=
  { e with
    members := d.members ++ [member]
    liabilities := d.liabilities ++ [⟨member.pool, member.id, rev.introStamp⟩] }

/-- Puts a new process on record. -/
def enlist (cfg : Configuration) (member : Member) : Drafting Unit := do
  modify fun d => { d with members := d.members ++ [member] }
  let rev ← stamp cfg member.pool
  modify fun d =>
    { d with liabilities := d.liabilities ++ [⟨member.pool, member.id, rev.introStamp⟩] }

/-- Binds what a new process provides and is given. -/
def endow (cfg : Configuration) (fresh : Fresh) (via : Sym) (sig : Signature)
    (provision : Endpoint) (values : List Sym) (cont : Term) : Drafting (Option StepSpec) := do
  introduceFor cfg fresh.process provision.pool sig.provision.placeholder provision
  passOn cfg fresh.process provision.pool (values.zip sig.receptions)
  introduce cfg via provision
  pure (some ⟨cfg.pool, cfg.process, cont⟩)

/-- Spawning is enlisting a process and endowing it. -/
theorem spawn_eq (env : Env) (cfg : Configuration) (fresh : Fresh) (via : Sym) (sigId : Id)
    (values : List Sym) (pool : Id) (cont : Term) :
    spawn env cfg fresh via sigId values pool cont = (liftM (env.sig sigId) >>= fun sig =>
      if values.length = sig.receptions.length then
        liftM (env.rootOf sig.provision.type) >>= fun type =>
          if pool = cfg.pool then
            throw (.poolLoop fresh.channel pool)
          else
            enlist cfg ⟨fresh.process, pool, sigId⟩ >>= fun _ =>
              endow cfg fresh via sig ⟨fresh.channel, type, pool⟩ values cont
      else
        throw (.arityMismatch "reception endpoints" sig.receptions.length values.length)) := by
  unfold spawn
  refine bind_congr fun sig => ?_
  dsimp only
  by_cases harity : values.length = sig.receptions.length
  · rw [if_neg (fun h => h harity), if_pos harity]
    refine bind_congr fun type => ?_
    by_cases hpool : pool = cfg.pool
    · rw [if_pos hpool, if_pos hpool]
      rfl
    · rw [if_neg hpool, if_neg hpool]
      simp only [enlist, endow, bind_assoc]
  · rw [if_pos harity, if_neg harity]
    rfl

theorem enlist_eq_ok {cfg : Configuration} {member : Member} {d d' : Change} {u : Unit} :
    enlist cfg member d = .ok (u, d') ↔
      ∃ rev e, touch? cfg d member.pool = some (rev, e) ∧ d' = enlisted d e member rev := by
  have key : touch? cfg { d with members := d.members ++ [member] } member.pool =
      (touch? cfg d member.pool).map fun t =>
        (t.1, dressed t.2 d.slots d.liabilities (d.members ++ [member]) d.homes) :=
    touch?_dressed (d := d)
  unfold enlist
  simp only [bind_eq_ok, modify_eq_ok, stamp_eq_ok, Prod.mk.injEq, true_and]
  constructor
  · rintro ⟨_, _, rfl, rev, e, he, rfl⟩
    rw [key] at he
    obtain ⟨t, ht, hte⟩ := Option.map_eq_some_iff.1 he
    cases hte
    refine ⟨t.1, t.2, ht, ?_⟩
    rw [touch?_frame ht]
    rfl
  · rintro ⟨rev, e, he, rfl⟩
    refine ⟨(), _, rfl, rev, dressed e d.slots d.liabilities (d.members ++ [member]) d.homes,
      by rw [key, he]; rfl, ?_⟩
    rw [touch?_frame he]
    rfl

/-- Binding what an instance provides and is given, once it is on record. -/
theorem endow_eq_ok {cfg : Configuration} {fresh : Fresh} {via : Sym} {sig : Signature}
    {provision : Endpoint} {values : List Sym} {cont : Term} {d d' : Change}
    {next : Option StepSpec} :
    endow cfg fresh via sig provision values cont d = .ok (next, d') ↔
      ∃ gifts : List Gift,
        gifts.map (fun g => (g.value, g.parameter)) = values.zip sig.receptions ∧
        (∀ g ∈ gifts, cfg.channels.get? g.value = some g.endpoint ∧
          g.endpoint.pool ≠ provision.pool) ∧
        next = some ⟨cfg.pool, cfg.process, cont⟩ ∧
        inscribe? cfg ((⟨sig, provision, gifts⟩ : Instance).marks cfg fresh.process via) d =
          some d' := by
  have hmarks : ∀ gifts : List Gift,
      inscribe? cfg ((⟨sig, provision, gifts⟩ : Instance).marks cfg fresh.process via) d =
        (inscribe? cfg [⟨fresh.process, provision.pool, sig.provision.placeholder, provision,
          true⟩] d).bind fun e =>
            (inscribe? cfg (gifts.flatMap (Gift.marks cfg fresh.process provision.pool)) e).bind
              (inscribe? cfg [cfg.mark true via provision]) := by
    intro gifts
    rw [Instance.marks, ← List.singleton_append, inscribe?_append]
    refine congrArg _ (funext fun e => ?_)
    rw [inscribe?_append]
  unfold endow introduce
  simp only [bind_eq_ok, introduceFor_eq_ok, passOn_eq_ok, pure_eq_ok, Prod.mk.injEq, hmarks,
    Option.bind_eq_some_iff]
  constructor
  · rintro ⟨_, a, ha, _, b, ⟨gifts, hg, hgiven, hb⟩, _, c, hc, rfl, rfl⟩
    exact ⟨gifts, hg, hgiven, rfl, a, ha, b, hb, hc⟩
  · rintro ⟨gifts, hg, hgiven, rfl, a, ha, b, hb, hc⟩
    exact ⟨(), a, ha, (), b, ⟨gifts, hg, hgiven, hb⟩, (), d', hc, rfl, rfl⟩

/-- Spawning puts the new process on record and then inscribes the bindings of an instance. -/
theorem spawn_eq_ok {env : Env} {cfg : Configuration} {fresh : Fresh} {via : Sym} {sigId : Id}
    {values : List Sym} {pool : Id} {cont : Term} {d d' : Change} {next : Option StepSpec} :
    spawn env cfg fresh via sigId values pool cont d = .ok (next, d') ↔
      ∃ i rev e, Instantiates env cfg fresh sigId values pool i ∧
        next = some ⟨cfg.pool, cfg.process, cont⟩ ∧ touch? cfg d pool = some (rev, e) ∧
        inscribe? cfg (i.marks cfg fresh.process via)
          (enlisted d e ⟨fresh.process, pool, sigId⟩ rev) = some d' := by
  rw [spawn_eq]
  simp only [bind_eq_ok (x := liftM _), lift_eq_ok]
  constructor
  · rintro ⟨sig, _, ⟨_, hsig, h⟩, hrest⟩
    cases h
    by_cases harity : values.length = sig.receptions.length
    · rw [if_pos harity, bind_eq_ok] at hrest
      obtain ⟨type, _, h, hrest⟩ := hrest
      obtain ⟨_, htype, h⟩ := lift_eq_ok.1 h
      cases h
      by_cases hpool : pool = cfg.pool
      · rw [if_pos hpool] at hrest
        cases hrest
      · rw [if_neg hpool, bind_eq_ok] at hrest
        obtain ⟨_, _, henlist, hendow⟩ := hrest
        obtain ⟨rev, e, he, rfl⟩ := enlist_eq_ok.1 henlist
        obtain ⟨gifts, hg, hgiven, hn, hd⟩ := endow_eq_ok.1 hendow
        exact ⟨⟨sig, ⟨fresh.channel, type, pool⟩, gifts⟩, rev, e,
          ⟨hsig, harity, rfl, htype, rfl, hpool, hg, hgiven⟩, hn, he, hd⟩
    · rw [if_neg harity] at hrest
      cases hrest
  · rintro ⟨⟨sig, ⟨_, type, _⟩, gifts⟩, rev, e, hi, hn, he, hd⟩
    obtain rfl := hi.channel
    obtain rfl := hi.pool_eq
    refine ⟨sig, d, ⟨sig, hi.sig, rfl⟩, ?_⟩
    rw [if_pos hi.arity, bind_eq_ok]
    refine ⟨type, d, lift_eq_ok.2 ⟨type, hi.type, rfl⟩, ?_⟩
    rw [if_neg hi.elsewhere, bind_eq_ok]
    exact ⟨(), _, enlist_eq_ok.2 ⟨rev, e, he, rfl⟩,
      endow_eq_ok.2 ⟨gifts, hi.gifts, hi.given, hn, hd⟩⟩

end Drafting

/-! ## Moves -/

/-- What a transition does, before it is drafted. -/
structure Plan where
  /-- The step to take next. -/
  next : Option StepSpec
  marks : List Mark
  slots : List SlotOp
  homes : List Endpoint
  members : List Member
  pools : List Pool

/-- One transition of the acting process. -/
inductive Moves (env : Env) (cfg : Configuration) (fresh : Fresh) : Term → Plan → Prop
  /-- The process offers a half, which lands and joins what is there. -/
  | offer {term : Term} {ep : Endpoint} {own : List Mark} {half : Half} {l : Landing} {j : Joined}
    (ho : Offers env cfg fresh term ep own half) (hl : cfg.landing? ep.channel = some l)
    (hj : Joins l.channel half l.half j) :
    Moves env cfg fresh term ⟨j.next, own ++ j.marks, l.takes ++ j.slots, j.homes, [], []⟩
  /-- The provider of the channel given away has not acted yet; a forward waits for it. -/
  | relay {via target : Sym} {x y : Endpoint} {l : Landing}
    (hx : cfg.channels.get? via = some x) (hy : cfg.channels.get? target = some y)
    (hl : cfg.landing? x.channel = some l) (hnone : cfg.halves.get? y.channel = none) :
    Moves env cfg fresh (.fwd via target)
      ⟨none, Drafting.handedOver cfg via target x y,
        l.takes ++ [.put (.forward ⟨y.channel, cfg.pool, cfg.process, l.channel⟩)], [], [], []⟩
  /-- The provider of the channel given away has left a half, which is moved on. -/
  | redirect {via target : Sym} {x y : Endpoint} {l : Landing} {left : Half} {id : Id}
    {node : TypeNode} {j : Joined} (hx : cfg.channels.get? via = some x)
    (hy : cfg.channels.get? target = some y) (hl : cfg.landing? x.channel = some l)
    (hleft : cfg.halves.get? y.channel = some left) (hnode : env.resolve y.type = .ok (id, node))
    (hown : Drafting.ownDirection node.polarity left = true)
    (hj : Joins l.channel left l.half j) :
    Moves env cfg fresh (.fwd via target)
      ⟨j.next, Drafting.handedOver cfg via target x y ++ j.marks,
        l.takes ++ (.take y.channel :: j.slots), j.homes, [], []⟩
  /-- An instance in a new pool below that of the acting process. -/
  | call {via : Sym} {sig : Id} {values : List Sym} {cont : Term} {i : Instance}
    (hi : Instantiates env cfg fresh sig values fresh.pool i) :
    Moves env cfg fresh (.call via sig values cont)
      ⟨some ⟨cfg.pool, cfg.process, cont⟩, i.marks cfg fresh.process via, [], [],
        [⟨fresh.process, fresh.pool, sig⟩], [⟨fresh.pool, none, some cfg.pool, .initial⟩]⟩
  /-- An instance in a pool that exists. -/
  | spawn {via : Sym} {sig : Id} {values : List Sym} {pool : Id} {cont : Term} {i : Instance}
    (hi : Instantiates env cfg fresh sig values pool i) :
    Moves env cfg fresh (.spawn via sig values pool cont)
      ⟨some ⟨cfg.pool, cfg.process, cont⟩, i.marks cfg fresh.process via, [], [],
        [⟨fresh.process, pool, sig⟩], []⟩

/-- The draft before anything is inscribed: the acting pool is locked. -/
def Configuration.opened (cfg : Configuration) (pools : List Pool) : Change :=
  { (∅ : Change) with locks := [⟨cfg.pool, cfg.rev⟩], pools }

namespace Plan

/-- Liability of new processes for their pools. -/
def liabilities (pl : Plan) (d : Change) : List Liability :=
  pl.members.filterMap fun m =>
    (d.stamp? m.pool).map fun rev => ⟨m.pool, m.id, rev.introStamp⟩

/-- The change that a plan makes. It fails only where a pool that it touches is not known. -/
def draft? (pl : Plan) (cfg : Configuration) : Option Change :=
  (Drafting.inscribe? cfg pl.marks (cfg.opened pl.pools)).map fun d =>
    { d with
      slots := pl.slots
      homes := pl.homes
      members := pl.members
      liabilities := pl.liabilities d }

end Plan

namespace Drafting

/-- A transition starts by locking the pool of the acting process. -/
theorem transition_eq (env : Env) (cfg : Configuration) (fresh : Fresh) (term : Term) :
    transition env cfg fresh term =
      act env cfg fresh term (cfg.opened []) := by
  have hstamp : stamp cfg cfg.pool ∅ =
      .ok (cfg.rev.next, cfg.opened []) := by
    rw [stamp_eq_ok, touch?, Configuration.revOf?, if_pos rfl]
    rfl
  show (stamp cfg cfg.pool >>= fun _ => act env cfg fresh term) ∅ = _
  show (stamp cfg cfg.pool ∅ >>= fun p => act env cfg fresh term p.2) = _
  rw [hstamp]
  rfl

/-- Adding to the first draft of a plan without members and pools gives its draft. -/
theorem adds_start_iff {cfg : Configuration} {next : Option StepSpec} {marks : List Mark}
    {slots : List SlotOp} {homes : List Endpoint} {m : Change} :
    Adds cfg marks slots homes (cfg.opened []) m ↔
      (⟨next, marks, slots, homes, [], []⟩ : Plan).draft? cfg = some m := by
  unfold Plan.draft? Adds
  rw [Option.map_eq_some_iff]
  refine exists_congr fun d => and_congr_right fun hd => ?_
  rw [inscribe?_frame hd]
  exact ⟨fun h => h.symm, fun h => h.symm⟩

/-- Touching a pool before a mark for it is inscribed makes no difference. -/
theorem inscribe?_touched {cfg : Configuration} {mark : Mark} {marks : List Mark} {d e : Change}
    {rev : Rev} (h : touch? cfg d mark.pool = some (rev, e)) :
    inscribe? cfg (mark :: marks) e = inscribe? cfg (mark :: marks) d := by
  rw [inscribe?, inscribe?, h, (touch?_touched h).2]

/-- The draft of a plan with a new process: the process is put on record with the stamp of its
pool. -/
theorem enlisted_iff_draft? {cfg : Configuration} {next : Option StepSpec} {marks : List Mark}
    {member : Member} {pools : List Pool} {mark : Mark} (hmark : mark.pool = member.pool)
    {m : Change} :
    (∃ rev e,
      touch? cfg (cfg.opened pools) member.pool = some (rev, e) ∧
      inscribe? cfg (mark :: marks)
        (enlisted (cfg.opened pools) e member rev) = some m) ↔
      (⟨next, mark :: marks, [], [], [member], pools⟩ : Plan).draft? cfg = some m := by
  -- what inscribing leaves, with the process on record
  have key : ∀ rev e,
      touch? cfg (cfg.opened pools) member.pool = some (rev, e) →
      inscribe? cfg (mark :: marks)
        (enlisted (cfg.opened pools) e member rev) =
        (⟨next, mark :: marks, [], [], [member], pools⟩ : Plan).draft? cfg := by
    intro rev e he
    have hdressed : enlisted (cfg.opened pools) e member rev =
        dressed e [] [⟨member.pool, member.id, rev.introStamp⟩] [member] [] := by
      rw [touch?_frame he]
      rfl
    rw [hdressed, inscribe?_dressed, inscribe?_touched (by rw [hmark]; exact he)]
    unfold Plan.draft?
    refine Option.map_congr fun d hd => ?_
    rw [← inscribe?_touched (by rw [hmark]; exact he)] at hd
    have hstamp := stamp?_of_inscribe? (touch?_touched he).1 hd
    simp [dressed, Plan.liabilities, hstamp]
  constructor
  · rintro ⟨rev, e, he, hm⟩
    rw [← hm, key rev e he]
  · intro hm
    obtain ⟨d, hd, -⟩ := Option.map_eq_some_iff.1 hm
    cases ht : touch? cfg (cfg.opened pools) member.pool with
    | none =>
      rw [inscribe?, hmark, ht] at hd
      cases hd
    | some t => exact ⟨t.1, t.2, rfl, by rw [key t.1 t.2 ht, hm]⟩

end Drafting

open Drafting in
/-- A transition succeeds exactly if there is a move whose plan can be drafted. -/
theorem transition_eq_ok_iff {env : Env} {cfg : Configuration} {fresh : Fresh} {term : Term}
    {next : Option StepSpec} {m : Change} :
    transition env cfg fresh term = .ok (next, m) ↔
      ∃ pl : Plan, Moves env cfg fresh term pl ∧ pl.next = next ∧ pl.draft? cfg = some m := by
  rw [transition_eq]
  have offers : (∀ via target, term ≠ .fwd via target) → (∀ v s vs c, term ≠ .call v s vs c) →
      (∀ v s vs p c, term ≠ .spawn v s vs p c) →
      (act env cfg fresh term (cfg.opened []) = .ok (next, m) ↔
      ∃ pl : Plan, Moves env cfg fresh term pl ∧ pl.next = next ∧ pl.draft? cfg = some m) := by
    intro hf hc hs
    rw [act_offer hf hc hs]
    constructor
    · rintro ⟨ep, own, half, l, j, ho, hl, hj, rfl, hd⟩
      exact ⟨_, .offer ho hl hj, rfl, adds_start_iff.1 hd⟩
    · rintro ⟨pl, hm, rfl, hd⟩
      cases hm with
      | offer ho hl hj => exact ⟨_, _, _, _, _, ho, hl, hj, rfl, adds_start_iff.2 hd⟩
      | relay => exact absurd rfl (hf _ _)
      | redirect => exact absurd rfl (hf _ _)
      | call => exact absurd rfl (hc _ _ _ _)
      | spawn => exact absurd rfl (hs _ _ _ _ _)
  cases term with
  | fwd via target =>
    show forward env cfg via target _ = _ ↔ _
    rw [forward_eq_ok]
    constructor
    · rintro ⟨x, y, l, hx, hy, hl, ⟨hnone, rfl, hd⟩ |
        ⟨left, id, node, j, hleft, hnode, hown, hj, rfl, hd⟩⟩
      · exact ⟨_, .relay hx hy hl hnone, rfl, adds_start_iff.1 hd⟩
      · exact ⟨_, .redirect hx hy hl hleft hnode hown hj, rfl, adds_start_iff.1 hd⟩
    · rintro ⟨pl, hm, rfl, hd⟩
      cases hm with
      | offer ho => nomatch ho
      | relay hx hy hl hnone =>
        exact ⟨_, _, _, hx, hy, hl, .inl ⟨hnone, rfl, adds_start_iff.2 hd⟩⟩
      | redirect hx hy hl hleft hnode hown hj =>
        exact ⟨_, _, _, hx, hy, hl,
          .inr ⟨_, _, _, _, hleft, hnode, hown, hj, rfl, adds_start_iff.2 hd⟩⟩
  | call via sig values cont =>
    show (modify _ >>= fun _ => spawn env cfg fresh via sig values fresh.pool cont) _ = _ ↔ _
    simp only [bind_eq_ok, modify_eq_ok, spawn_eq_ok]
    constructor
    · rintro ⟨_, _, h, i, rev, e, hi, rfl, he, hd⟩
      cases h
      exact ⟨_, .call hi, rfl, (enlisted_iff_draft? hi.pool_eq).1 ⟨rev, e, he, hd⟩⟩
    · rintro ⟨pl, hm, rfl, hd⟩
      cases hm with
      | offer ho => nomatch ho
      | call hi =>
        obtain ⟨rev, e, he, hd⟩ := (enlisted_iff_draft? hi.pool_eq).2 hd
        exact ⟨(), _, rfl, _, rev, e, hi, rfl, he, hd⟩
  | spawn via sig values pool cont =>
    show spawn env cfg fresh via sig values pool cont _ = _ ↔ _
    rw [spawn_eq_ok]
    constructor
    · rintro ⟨i, rev, e, hi, rfl, he, hd⟩
      exact ⟨_, .spawn hi, rfl, (enlisted_iff_draft? hi.pool_eq).1 ⟨rev, e, he, hd⟩⟩
    · rintro ⟨pl, hm, rfl, hd⟩
      cases hm with
      | offer ho => nomatch ho
      | spawn hi =>
        obtain ⟨rev, e, he, hd⟩ := (enlisted_iff_draft? hi.pool_eq).2 hd
        exact ⟨_, rev, e, hi, rfl, he, hd⟩
  | _ =>
    exact offers (fun _ _ h => (nomatch h)) (fun _ _ _ _ h => (nomatch h))
      (fun _ _ _ _ _ h => (nomatch h))

/-! ## Drafts of plans -/

namespace Plan

/-- A change that does what a plan says. -/
structure Fills (pl : Plan) (m : Change) : Prop where
  slots : m.slots = pl.slots
  homes : m.homes = pl.homes
  members : m.members = pl.members
  pools : m.pools = pl.pools
  bindings : m.bindings = pl.marks.map fun k => k.stamped ((m.stamp? k.pool).getD .initial)
  stamps : ∀ k ∈ pl.marks, ∃ rev, m.stamp? k.pool = some rev

/-- The change that a plan is drafted as, with locks at the revisions that were read. -/
structure Drafts (pl : Plan) (cfg : Configuration) (m : Change) : Prop extends pl.Fills m where
  locks : ∀ l ∈ m.locks, cfg.revOf? l.pool = some l.rev
  own : ⟨cfg.pool, cfg.rev⟩ ∈ m.locks

theorem drafts_of_draft? {pl : Plan} {cfg : Configuration} {m : Change}
    (h : pl.draft? cfg = some m) : pl.Drafts cfg m := by
  obtain ⟨d, hd, rfl⟩ := Option.map_eq_some_iff.1 h
  obtain ⟨hstamps, hbindings⟩ := Drafting.bindings_inscribe? hd
  obtain ⟨locks, hlocks, hrevs⟩ := Drafting.locks_inscribe? hd
  refine ⟨⟨rfl, rfl, rfl, Drafting.pools_inscribe? hd, hbindings, hstamps⟩, ?_, ?_⟩
  · intro l hl
    rw [show _ = d.locks from rfl, hlocks] at hl
    rcases List.mem_append.1 hl with hl | hl
    · obtain rfl := List.mem_singleton.1 hl
      exact if_pos rfl
    · exact hrevs l hl
  · show (⟨cfg.pool, cfg.rev⟩ : Lock) ∈ d.locks
    rw [hlocks]
    exact List.mem_append_left _ List.mem_cons_self

/-- A new pool has a stamp from the start. -/
theorem exists_stamp?_opened (cfg : Configuration) {pools : List Pool} {pool : Pool}
    (h : pool ∈ pools) : ∃ rev, (cfg.opened pools).stamp? pool.id = some rev := by
  unfold Change.stamp?
  cases (cfg.opened pools).locks.find? (·.pool = pool.id) with
  | some lock => exact ⟨_, rfl⟩
  | none =>
    have hfind : ((cfg.opened pools).pools.find? (·.id = pool.id)).isSome := by
      rw [List.find?_isSome]
      exact ⟨pool, h, decide_eq_true rfl⟩
    obtain ⟨found, hfound⟩ := Option.isSome_iff_exists.1 hfind
    exact ⟨found.rev, by rw [hfound]; rfl⟩

/-- A plan can be drafted if every pool it touches is known or new. -/
theorem exists_draft? {pl : Plan} {cfg : Configuration}
    (h : ∀ k ∈ pl.marks, (∃ pool ∈ pl.pools, pool.id = k.pool) ∨ ∃ rev, cfg.revOf? k.pool = some rev) :
    ∃ m, pl.draft? cfg = some m := by
  have hopened : ∀ k ∈ pl.marks, (∃ rev, (cfg.opened pl.pools).stamp? k.pool = some rev) ∨
      ∃ rev, cfg.revOf? k.pool = some rev := by
    refine fun k hk => (h k hk).imp_left ?_
    rintro ⟨pool, hpool, hid⟩
    exact hid ▸ exists_stamp?_opened cfg hpool
  obtain ⟨d, hd⟩ := Drafting.exists_inscribe? hopened
  exact ⟨_, by rw [draft?, hd]; rfl⟩

/-- A plan that does something else to halves is drafted the same, from a configuration that knows the
pools at the same revisions. -/
theorem draft?_with {pl : Plan} {cfg cfg' : Configuration} {m : Change} (hpool : cfg'.pool = cfg.pool)
    (hrev : cfg'.rev = cfg.rev)
    (h : ∀ k ∈ pl.marks, (∃ pool ∈ pl.pools, pool.id = k.pool) ∨
      cfg'.revOf? k.pool = cfg.revOf? k.pool)
    (hm : pl.draft? cfg = some m) (slots : List SlotOp) :
    ({ pl with slots } : Plan).draft? cfg' = some { m with slots } := by
  obtain ⟨d, hd, rfl⟩ := Option.map_eq_some_iff.1 hm
  have hopened : cfg'.opened pl.pools = cfg.opened pl.pools := by
    rw [Configuration.opened, Configuration.opened, hpool, hrev]
  have hd' : Drafting.inscribe? cfg' pl.marks (cfg'.opened pl.pools) = some d := by
    rw [hopened, Drafting.inscribe?_congr fun k hk => (h k hk).imp_left ?_, hd]
    rintro ⟨pool, hmem, hid⟩
    exact hid ▸ exists_stamp?_opened cfg hmem
  rw [draft?, hd']
  rfl

end Plan

end Rendezvous
