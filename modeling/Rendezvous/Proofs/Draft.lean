import Rendezvous.Transition

/-!
# Drafts

A transition drafts its change bit by bit. This module says what such a draft holds, as relations
between the draft before and after, so that no later proof runs the drafting code.

- `Mark` is a binding before it is stamped, and `inscribe?` stamps a list of marks, locking the
  pools it touches on the way;
- `Adds` is the addition of marks, slot operations and homes to a draft, and `exists_adds_iff`
  makes two additions one.
-/

namespace Rendezvous

/-! ## Marks and their stamps -/

/-- An entry of the binding log before it is stamped. -/
structure Mark where
  process : Id
  /-- The pool of the process, whose revision stamps the entry. -/
  pool : Id
  placeholder : Sym
  endpoint : Endpoint
  /-- Whether the placeholder is introduced or consumed. -/
  isIntro : Bool
deriving DecidableEq

/-- The log entry of a mark. -/
def Mark.stamped (mark : Mark) (rev : Rev) : Binding :=
  ⟨mark.process, mark.placeholder, mark.endpoint,
    if mark.isIntro then rev.introStamp else rev.consumeStamp⟩

namespace Drafting

/-- The revision that `pool` gets, and the draft with `pool` locked where it is not new. -/
def touch? (cfg : Configuration) (draft : Change) (pool : Id) : Option (Rev × Change) :=
  match draft.stamp? pool, cfg.revOf? pool with
  | some rev, _ => some (rev, draft)
  | none, some rev => some (rev.next, draft.lock pool rev)
  | none, none => none

/-- Adds marks to a draft, each stamped with the revision its pool gets. -/
def inscribe? (cfg : Configuration) : List Mark → Change → Option Change
  | [], draft => some draft
  | mark :: rest, draft =>
    match touch? cfg draft mark.pool with
    | none => none
    | some (rev, touched) =>
      inscribe? cfg rest { touched with bindings := touched.bindings ++ [mark.stamped rev] }

/-! ## Drafting as a relation -/

/-- A sequence of two drafts succeeds exactly if both do, one after the other. -/
theorem bind_eq_ok {α β : Type} {x : Drafting α} {f : α → Drafting β} {d : Change}
    {r : β × Change} :
    (x >>= f) d = .ok r ↔ ∃ a d', x d = .ok (a, d') ∧ f a d' = .ok r := by
  show (x d >>= fun p => f p.1 p.2) = .ok r ↔ _
  cases x d with
  | error e => exact ⟨fun h => (nomatch h), fun ⟨_, _, h, _⟩ => (nomatch h)⟩
  | ok p =>
    constructor
    · intro h
      exact ⟨p.1, p.2, rfl, h⟩
    · rintro ⟨a, d', h, hf⟩
      cases h
      exact hf

theorem pure_eq_ok {α : Type} {a : α} {d : Change} {r : α × Change} :
    (pure a : Drafting α) d = .ok r ↔ r = (a, d) :=
  ⟨fun h => by cases h; rfl, fun h => by rw [h]; rfl⟩

theorem modify_eq_ok {f : Change → Change} {d : Change} {r : Unit × Change} :
    (modify f : Drafting Unit) d = .ok r ↔ r = ((), f d) :=
  ⟨fun h => by cases h; rfl, fun h => by rw [h]; rfl⟩

theorem throw_ne_ok {α : Type} {e : Error} {d : Change} {r : α × Change} :
    (throw e : Drafting α) d = .ok r ↔ False :=
  ⟨fun h => (nomatch h), fun h => h.elim⟩

theorem lift_eq_ok {α : Type} {x : Except Error α} {d : Change} {r : α × Change} :
    (liftM x : Drafting α) d = .ok r ↔ ∃ a, x = .ok a ∧ r = (a, d) := by
  cases x with
  | error e => exact ⟨fun h => (nomatch h), fun ⟨_, h, _⟩ => (nomatch h)⟩
  | ok a =>
    constructor
    · intro h
      cases h
      exact ⟨a, rfl, rfl⟩
    · rintro ⟨_, h, rfl⟩
      cases h
      rfl

theorem map_eq_ok {α β : Type} {f : α → β} {x : Drafting α} {d : Change} {r : β × Change} :
    (f <$> x) d = .ok r ↔ ∃ a d', x d = .ok (a, d') ∧ r = (f a, d') := by
  rw [map_eq_pure_bind, bind_eq_ok]
  exact exists_congr fun a => exists_congr fun d' => and_congr_right fun _ => pure_eq_ok

theorem stamp_eq_ok {cfg : Configuration} {pool : Id} {d : Change} {r : Rev × Change} :
    stamp cfg pool d = .ok r ↔ touch? cfg d pool = some r := by
  show (match d.stamp? pool, cfg.revOf? pool with
    | some rev, _ => (pure rev : Drafting Rev)
    | none, some rev => do set (d.lock pool rev); pure rev.next
    | none, none => throw (Error.noSuch .pool pool)) d = .ok r ↔ _
  unfold touch?
  cases d.stamp? pool with
  | some rev => exact pure_eq_ok.trans ⟨fun h => h ▸ rfl, fun h => (Option.some.inj h).symm⟩
  | none =>
    cases cfg.revOf? pool with
    | some rev =>
      constructor
      · intro h
        cases h
        rfl
      · intro h
        cases h
        rfl
    | none => exact ⟨fun h => (nomatch h), fun h => (nomatch h)⟩

theorem slot_eq_ok {op : SlotOp} {d : Change} {r : Unit × Change} :
    slot op d = .ok r ↔ r = ((), { d with slots := d.slots ++ [op] }) := modify_eq_ok

/-- Adding one binding is inscribing one mark. -/
theorem introduceFor_eq_ok {cfg : Configuration} {process pool : Id} {ph : Sym} {ep : Endpoint}
    {d d' : Change} {u : Unit} :
    introduceFor cfg process pool ph ep d = .ok (u, d') ↔
      inscribe? cfg [⟨process, pool, ph, ep, true⟩] d = some d' := by
  unfold introduceFor
  simp only [bind_eq_ok, stamp_eq_ok, modify_eq_ok, inscribe?]
  cases touch? cfg d pool with
  | none => simp
  | some t =>
    simp only [Option.some.injEq, Prod.mk.injEq, true_and]
    constructor
    · rintro ⟨_, _, rfl, rfl⟩
      simp [Mark.stamped]
    · intro h
      exact ⟨_, _, rfl, by rw [← h]; simp [Mark.stamped]⟩

theorem discardFor_eq_ok {cfg : Configuration} {process pool : Id} {ph : Sym} {ep : Endpoint}
    {d d' : Change} {u : Unit} :
    discardFor cfg process pool ph ep d = .ok (u, d') ↔
      inscribe? cfg [⟨process, pool, ph, ep, false⟩] d = some d' := by
  unfold discardFor
  simp only [bind_eq_ok, stamp_eq_ok, modify_eq_ok, inscribe?]
  cases touch? cfg d pool with
  | none => simp
  | some t =>
    simp only [Option.some.injEq, Prod.mk.injEq, true_and]
    constructor
    · rintro ⟨_, _, rfl, rfl⟩
      simp [Mark.stamped]
    · intro h
      exact ⟨_, _, rfl, by rw [← h]; simp [Mark.stamped]⟩

theorem endpoint_eq_ok {cfg : Configuration} {ph : Sym} {d : Change} {r : Endpoint × Change} :
    endpoint cfg ph d = .ok r ↔ cfg.channels.get? ph = some r.1 ∧ r.2 = d := by
  unfold endpoint
  cases cfg.channels.get? ph with
  | none => exact ⟨fun h => (nomatch h), fun h => (nomatch h.1)⟩
  | some ep =>
    refine pure_eq_ok.trans ⟨fun h => by rw [h]; exact ⟨rfl, rfl⟩, ?_⟩
    rintro ⟨h, rfl⟩
    cases h
    rfl

theorem nodeOf_eq_ok {env : Env} {ep : Endpoint} {d : Change} {r : TypeNode × Change} :
    nodeOf env ep d = .ok r ↔ ∃ id, env.resolve ep.type = .ok (id, r.1) ∧ r.2 = d := by
  unfold nodeOf
  simp only [bind_eq_ok, lift_eq_ok, pure_eq_ok]
  constructor
  · rintro ⟨_, _, ⟨p, hp, h⟩, rfl⟩
    cases h
    exact ⟨_, hp, rfl⟩
  · rintro ⟨id, hid, hd⟩
    exact ⟨_, _, ⟨_, hid, rfl⟩, by rw [← hd]⟩


/-! ## Composing drafts -/

theorem stamp?_lock {d : Change} {pool : Id} {rev : Rev} (h : d.stamp? pool = none) (p : Id) :
    (d.lock pool rev).stamp? p = if p = pool then some rev.next else d.stamp? p := by
  have hnone : d.locks.find? (·.pool = pool) = none := by
    cases hf : d.locks.find? (·.pool = pool) with
    | none => rfl
    | some lock => simp [Change.stamp?, hf] at h
  have hany : d.locks.any (·.pool = pool) = false := by
    rw [List.any_eq_false]
    intro lock hlock
    exact List.find?_eq_none.1 hnone lock hlock
  unfold Change.lock
  rw [hany]
  simp only [Bool.false_eq_true, if_false, Change.stamp?, List.find?_append]
  by_cases hp : p = pool
  · subst hp
    simp [hnone]
  · have hp' : ¬ pool = p := fun e => hp e.symm
    cases d.locks.find? (·.pool = p) <;> simp [hp, hp']

/-- A change with other slots and homes, for the same bindings and locks. -/
def dressed (d : Change) (slots : List SlotOp) (liabilities : List Liability)
    (members : List Member) (homes : List Endpoint) : Change :=
  { d with slots, liabilities, members, homes }

theorem touch?_dressed {cfg : Configuration} {d : Change} {pool : Id} {slots : List SlotOp}
    {liabilities : List Liability} {members : List Member} {homes : List Endpoint} :
    touch? cfg (dressed d slots liabilities members homes) pool =
      (touch? cfg d pool).map fun t => (t.1, dressed t.2 slots liabilities members homes) := by
  have hs : (dressed d slots liabilities members homes).stamp? pool = d.stamp? pool := rfl
  unfold touch?
  rw [hs]
  cases d.stamp? pool with
  | some rev => rfl
  | none =>
    cases cfg.revOf? pool with
    | none => rfl
    | some rev =>
      simp only [Option.map_some, Option.some.injEq, Prod.mk.injEq, true_and]
      unfold Change.lock dressed
      dsimp only
      split <;> rfl

theorem touch?_frame {cfg : Configuration} {pool : Id} {d d' : Change} {rev : Rev}
    (h : touch? cfg d pool = some (rev, d')) :
    d' = dressed d' d.slots d.liabilities d.members d.homes := by
  have hd : touch? cfg (dressed d d.slots d.liabilities d.members d.homes) pool =
    some (rev, d') := h
  rw [touch?_dressed, h] at hd
  exact (congrArg Prod.snd (Option.some.inj hd)).symm

/-- Stamps depend on the pools of a draft only, and bindings and locks are all that inscribing
changes. -/
theorem inscribe?_dressed {cfg : Configuration} {marks : List Mark} {d : Change}
    {slots : List SlotOp} {liabilities : List Liability} {members : List Member}
    {homes : List Endpoint} :
    inscribe? cfg marks (dressed d slots liabilities members homes) =
      (inscribe? cfg marks d).map (dressed · slots liabilities members homes) := by
  induction marks generalizing d with
  | nil => rfl
  | cons mark rest ih =>
    rw [inscribe?, inscribe?, touch?_dressed]
    cases touch? cfg d mark.pool with
    | none => rfl
    | some t => exact ih (d := { t.2 with bindings := t.2.bindings ++ [mark.stamped t.1] })

theorem inscribe?_append {cfg : Configuration} {marks marks' : List Mark} {d : Change} :
    inscribe? cfg (marks ++ marks') d = (inscribe? cfg marks d).bind (inscribe? cfg marks') := by
  induction marks generalizing d with
  | nil => rfl
  | cons mark rest ih =>
    rw [List.cons_append, inscribe?, inscribe?]
    cases touch? cfg d mark.pool with
    | none => rfl
    | some t => exact ih

theorem inscribe?_frame {cfg : Configuration} {marks : List Mark} {d d' : Change}
    (h : inscribe? cfg marks d = some d') :
    d' = dressed d' d.slots d.liabilities d.members d.homes := by
  have hd : inscribe? cfg marks (dressed d d.slots d.liabilities d.members d.homes) = some d' := h
  rw [inscribe?_dressed, h] at hd
  exact (Option.some.inj hd).symm

/-- `d'` is `d` with some marks, slot operations and homes added. -/
def Adds (cfg : Configuration) (marks : List Mark) (slots : List SlotOp) (homes : List Endpoint)
    (d d' : Change) : Prop :=
  ∃ e, inscribe? cfg marks d = some e ∧
    d' = { e with slots := e.slots ++ slots, homes := e.homes ++ homes }

theorem adds_nil {cfg : Configuration} {slots : List SlotOp} {homes : List Endpoint}
    {d d' : Change} :
    Adds cfg [] slots homes d d' ↔
      d' = { d with slots := d.slots ++ slots, homes := d.homes ++ homes } := by
  constructor
  · rintro ⟨e, he, rfl⟩
    cases he
    rfl
  · rintro rfl
    exact ⟨d, rfl, rfl⟩

theorem adds_marks {cfg : Configuration} {marks : List Mark} {d d' : Change} :
    Adds cfg marks [] [] d d' ↔ inscribe? cfg marks d = some d' := by
  constructor
  · rintro ⟨e, he, rfl⟩
    simpa using he
  · intro h
    exact ⟨d', h, by simp⟩

/-- Two additions one after the other are one addition. -/
theorem exists_adds_iff (cfg : Configuration) (d d'' : Change) (marks marks' : List Mark)
    (slots slots' : List SlotOp) (homes homes' : List Endpoint) :
    (∃ d', Adds cfg marks slots homes d d' ∧ Adds cfg marks' slots' homes' d' d'') ↔
      Adds cfg (marks ++ marks') (slots ++ slots') (homes ++ homes') d d'' := by
  unfold Adds
  -- what the first addition leaves beside bindings and locks does not show in the second
  have key : ∀ e : Change,
      inscribe? cfg marks' { e with slots := e.slots ++ slots, homes := e.homes ++ homes } =
        (inscribe? cfg marks' e).map
          (dressed · (e.slots ++ slots) e.liabilities e.members (e.homes ++ homes)) :=
    fun e => inscribe?_dressed (d := e)
  rw [inscribe?_append]
  constructor
  · rintro ⟨_, ⟨e, he, rfl⟩, f, hf, rfl⟩
    rw [key] at hf
    obtain ⟨g, hg, rfl⟩ := Option.map_eq_some_iff.1 hf
    refine ⟨g, by rw [he]; exact hg, ?_⟩
    rw [inscribe?_frame hg]
    simp [dressed]
  · rintro ⟨g, hg, rfl⟩
    obtain ⟨e, he, hg⟩ := Option.bind_eq_some_iff.1 hg
    refine ⟨_, ⟨e, he, rfl⟩, _, by rw [key, hg]; rfl, ?_⟩
    rw [inscribe?_frame hg]
    simp [dressed]

theorem touch?_touched {cfg : Configuration} {d e : Change} {pool : Id} {rev : Rev}
    (h : touch? cfg d pool = some (rev, e)) :
    e.stamp? pool = some rev ∧ touch? cfg e pool = some (rev, e) := by
  have hs : e.stamp? pool = some rev := by
    unfold touch? at h
    cases hd : d.stamp? pool with
    | some r =>
      rw [hd] at h
      cases h
      exact hd
    | none =>
      rw [hd] at h
      cases hr : cfg.revOf? pool with
      | none => rw [hr] at h; cases h
      | some r =>
        rw [hr] at h
        cases h
        rw [stamp?_lock hd, if_pos rfl]
  exact ⟨hs, by rw [touch?, hs]⟩

/-- A stamp stays what it was when other pools are touched. -/
theorem stamp?_of_touch? {cfg : Configuration} {d e : Change} {p q : Id} {r rev : Rev}
    (hp : d.stamp? p = some r) (h : touch? cfg d q = some (rev, e)) : e.stamp? p = some r := by
  unfold touch? at h
  cases hd : d.stamp? q with
  | some _ =>
    rw [hd] at h
    cases h
    exact hp
  | none =>
    rw [hd] at h
    cases hr : cfg.revOf? q with
    | none => rw [hr] at h; cases h
    | some _ =>
      rw [hr] at h
      cases h
      have hne : p ≠ q := by
        rintro rfl
        exact nomatch hp.symm.trans hd
      rw [stamp?_lock hd, if_neg hne, hp]

theorem stamp?_of_inscribe? {cfg : Configuration} {marks : List Mark} {d e : Change} {p : Id}
    {r : Rev} (hp : d.stamp? p = some r) (h : inscribe? cfg marks d = some e) :
    e.stamp? p = some r := by
  induction marks generalizing d with
  | nil => cases h; exact hp
  | cons mark rest ih =>
    rw [inscribe?] at h
    cases ht : touch? cfg d mark.pool with
    | none => rw [ht] at h; cases h
    | some t =>
      rw [ht] at h
      have htouched : t.2.stamp? p = some r := stamp?_of_touch? hp ht
      exact ih (d := { t.2 with bindings := t.2.bindings ++ [mark.stamped t.1] }) htouched h

/-! ## What is inscribed -/

theorem inscribe?_cons_eq_some {cfg : Configuration} {mark : Mark} {marks : List Mark}
    {d d' : Change} :
    inscribe? cfg (mark :: marks) d = some d' ↔
      ∃ rev e, touch? cfg d mark.pool = some (rev, e) ∧
        inscribe? cfg marks { e with bindings := e.bindings ++ [mark.stamped rev] } = some d' := by
  rw [inscribe?]
  cases touch? cfg d mark.pool with
  | none => simp
  | some t =>
    refine ⟨fun h => ⟨t.1, t.2, rfl, h⟩, ?_⟩
    rintro ⟨rev, e, he, h⟩
    cases he
    exact h

/-- Touching a pool adds at most a lock, at the revision that the configuration has. -/
theorem touch?_eq_some {cfg : Configuration} {d e : Change} {pool : Id} {rev : Rev}
    (h : touch? cfg d pool = some (rev, e)) :
    e.pools = d.pools ∧ e.bindings = d.bindings ∧
      ∃ locks, e.locks = d.locks ++ locks ∧ ∀ l ∈ locks, cfg.revOf? l.pool = some l.rev := by
  unfold touch? at h
  cases hs : d.stamp? pool with
  | some r =>
    rw [hs] at h
    cases h
    exact ⟨rfl, rfl, [], by simp, by simp⟩
  | none =>
    rw [hs] at h
    cases hr : cfg.revOf? pool with
    | none => rw [hr] at h; cases h
    | some r =>
      rw [hr] at h
      cases h
      unfold Change.lock
      split
      · exact ⟨rfl, rfl, [], by simp, by simp⟩
      · exact ⟨rfl, rfl, [⟨pool, r⟩], rfl, by simpa using hr⟩

theorem pools_inscribe? {cfg : Configuration} {marks : List Mark} {d d' : Change}
    (h : inscribe? cfg marks d = some d') : d'.pools = d.pools := by
  induction marks generalizing d with
  | nil => cases h; rfl
  | cons mark rest ih =>
    obtain ⟨rev, e, he, h⟩ := inscribe?_cons_eq_some.1 h
    exact (ih h).trans (touch?_eq_some he).1

/-- All locks that inscribing adds are at the revisions that the configuration has. -/
theorem locks_inscribe? {cfg : Configuration} {marks : List Mark} {d d' : Change}
    (h : inscribe? cfg marks d = some d') :
    ∃ locks, d'.locks = d.locks ++ locks ∧ ∀ l ∈ locks, cfg.revOf? l.pool = some l.rev := by
  induction marks generalizing d with
  | nil =>
    cases h
    exact ⟨[], by simp, by simp⟩
  | cons mark rest ih =>
    obtain ⟨rev, e, he, h⟩ := inscribe?_cons_eq_some.1 h
    obtain ⟨-, -, first, hfirst, hrev⟩ := touch?_eq_some he
    obtain ⟨more, hmore, hrevs⟩ := ih h
    refine ⟨first ++ more, by rw [hmore, hfirst, List.append_assoc], ?_⟩
    intro l hl
    rcases List.mem_append.1 hl with hl | hl
    · exact hrev l hl
    · exact hrevs l hl

/-- Every mark is stamped with the revision that its pool gets in the end. -/
theorem bindings_inscribe? {cfg : Configuration} {marks : List Mark} {d d' : Change}
    (h : inscribe? cfg marks d = some d') :
    (∀ k ∈ marks, ∃ rev, d'.stamp? k.pool = some rev) ∧
      d'.bindings = d.bindings ++
        marks.map fun k => k.stamped ((d'.stamp? k.pool).getD .initial) := by
  induction marks generalizing d with
  | nil =>
    cases h
    simp
  | cons mark rest ih =>
    obtain ⟨rev, e, he, h⟩ := inscribe?_cons_eq_some.1 h
    obtain ⟨hstamps, hbindings⟩ := ih h
    have hrev : d'.stamp? mark.pool = some rev :=
      stamp?_of_inscribe? (d := { e with bindings := e.bindings ++ [mark.stamped rev] })
        (touch?_touched he).1 h
    refine ⟨List.forall_mem_cons.2 ⟨⟨rev, hrev⟩, hstamps⟩, ?_⟩
    rw [hbindings, List.map_cons, hrev, (touch?_eq_some he).2.1]
    simp

/-- Inscribing fails only where a pool is not known. -/
theorem exists_inscribe? {cfg : Configuration} {marks : List Mark} {d : Change}
    (h : ∀ k ∈ marks, (∃ rev, d.stamp? k.pool = some rev) ∨ ∃ rev, cfg.revOf? k.pool = some rev) :
    ∃ d', inscribe? cfg marks d = some d' := by
  induction marks generalizing d with
  | nil => exact ⟨d, rfl⟩
  | cons mark rest ih =>
    have htouch : ∃ t, touch? cfg d mark.pool = some t := by
      unfold touch?
      rcases h mark List.mem_cons_self with ⟨rev, hrev⟩ | ⟨rev, hrev⟩
      · rw [hrev]
        exact ⟨_, rfl⟩
      · rw [hrev]
        cases d.stamp? mark.pool <;> exact ⟨_, rfl⟩
    obtain ⟨⟨rev, e⟩, he⟩ := htouch
    obtain ⟨d', hd'⟩ := ih (d := { e with bindings := e.bindings ++ [mark.stamped rev] })
      fun k hk => by
        rcases h k (List.mem_cons_of_mem _ hk) with ⟨r, hr⟩ | hr
        · have hstamp : e.stamp? k.pool = some r := stamp?_of_touch? hr he
          exact .inl ⟨r, hstamp⟩
        · exact .inr hr
    exact ⟨d', inscribe?_cons_eq_some.2 ⟨rev, e, he, hd'⟩⟩

/-- Marks are inscribed the same where all pools that are not stamped before have the same
revision. -/
theorem inscribe?_congr {cfg cfg' : Configuration} {marks : List Mark} {d : Change}
    (h : ∀ k ∈ marks, (∃ rev, d.stamp? k.pool = some rev) ∨
      cfg'.revOf? k.pool = cfg.revOf? k.pool) :
    inscribe? cfg' marks d = inscribe? cfg marks d := by
  induction marks generalizing d with
  | nil => rfl
  | cons mark rest ih =>
    obtain ⟨hmark, hrest⟩ := List.forall_mem_cons.1 h
    have htouch : touch? cfg' d mark.pool = touch? cfg d mark.pool := by
      unfold touch?
      rcases hmark with ⟨rev, hrev⟩ | hrev
      · rw [hrev]
      · rw [hrev]
    rw [inscribe?, inscribe?, htouch]
    cases ht : touch? cfg d mark.pool with
    | none => rfl
    | some t =>
      refine ih fun k hk => (hrest k hk).imp_left ?_
      rintro ⟨rev, hrev⟩
      have hstamp : t.2.stamp? k.pool = some rev := stamp?_of_touch? hrev ht
      exact ⟨rev, hstamp⟩

end Drafting

end Rendezvous
