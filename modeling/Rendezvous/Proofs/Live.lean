import Rendezvous.Proofs.Draft
import Rendezvous.Proofs.Tables
import Rendezvous.Store.Commit

/-!
# Live bindings

What the placeholders of all processes are bound to, as one partial function of process and
placeholder. The binding log is only ever appended to, and this module says what an append does to
that function.

- `Store.live` is the view of the log, and `channelsOf_get?` says that it is what every process
  sees of its own channels;
- `Live.after` applies marks one after the other, `Live.rehomed` points the bindings of a channel
  at its new home;
- `live_append_stamped` and `live_rehome`: stamping marks and bringing a channel home do just that,
  as long as revisions are below `2 ^ 63`, where a stamp keeps its sign.
-/

namespace Rendezvous

/-! ## The log as a function -/

/-- What the placeholders of all processes are bound to. -/
abbrev Live := Id → Sym → Option Endpoint

namespace Live

/-- One placeholder of one process gets another value. -/
def set (v : Live) (p : Id) (ph : Sym) (e : Option Endpoint) : Live :=
  fun q h => if q = p ∧ h = ph then e else v q h

@[simp] theorem set_self (v : Live) (p : Id) (ph : Sym) (e : Option Endpoint) :
    v.set p ph e p ph = e := by
  rw [set, if_pos ⟨rfl, rfl⟩]

theorem set_of_ne {v : Live} {p q : Id} {ph h : Sym} {e : Option Endpoint}
    (hne : ¬ (q = p ∧ h = ph)) : v.set p ph e q h = v q h := by
  rw [set, if_neg hne]

/-- The effect of a log entry. -/
def entered (v : Live) (b : Binding) : Live :=
  v.set b.process b.placeholder (if b.isIntro then some b.endpoint else none)

/-- The effect of a mark. -/
def marked (v : Live) (k : Mark) : Live :=
  v.set k.process k.placeholder (if k.isIntro then some k.endpoint else none)

theorem marked_of_ne {v : Live} {k : Mark} {p : Id} {ph : Sym}
    (h : ¬ (p = k.process ∧ ph = k.placeholder)) : v.marked k p ph = v p ph :=
  set_of_ne h

/-- The effect of marks, first to last. -/
def after (v : Live) (marks : List Mark) : Live := marks.foldl marked v

@[simp] theorem after_nil (v : Live) : v.after [] = v := rfl

@[simp] theorem after_cons (v : Live) (k : Mark) (marks : List Mark) :
    v.after (k :: marks) = (v.marked k).after marks := rfl

theorem after_append (v : Live) (marks marks' : List Mark) :
    v.after (marks ++ marks') = (v.after marks).after marks' :=
  List.foldl_append

/-- A placeholder that no mark names stays as it was. -/
theorem after_of_unmarked {marks : List Mark} {v : Live} {p : Id} {ph : Sym}
    (h : ∀ k ∈ marks, ¬ (p = k.process ∧ ph = k.placeholder)) : v.after marks p ph = v p ph := by
  induction marks generalizing v with
  | nil => rfl
  | cons k rest ih =>
    rw [after_cons, ih fun k' hk' => h k' (List.mem_cons_of_mem _ hk'),
      marked_of_ne (h k List.mem_cons_self)]

theorem after_of_ne {marks : List Mark} {v : Live} {p : Id} {ph : Sym}
    (h : ∀ k ∈ marks, k.process ≠ p) : v.after marks p ph = v p ph :=
  after_of_unmarked fun k hk hh => h k hk hh.1.symm

/-- A binding after some marks was there before, or a mark introduced it. -/
theorem after_eq_some {marks : List Mark} {v : Live} {p : Id} {ph : Sym} {e : Endpoint}
    (h : v.after marks p ph = some e) :
    v p ph = some e ∨ ∃ k ∈ marks, k.isIntro = true ∧ k.process = p ∧ k.placeholder = ph ∧
      k.endpoint = e := by
  induction marks generalizing v with
  | nil => exact .inl h
  | cons k rest ih =>
    rw [after_cons] at h
    rcases ih h with h | ⟨k', hk', hfacts⟩
    · by_cases hk : p = k.process ∧ ph = k.placeholder
      · obtain ⟨rfl, rfl⟩ := hk
        rw [marked, set_self] at h
        by_cases hi : k.isIntro = true
        · rw [if_pos hi] at h
          cases h
          exact .inr ⟨k, List.mem_cons_self, hi, rfl, rfl, rfl⟩
        · rw [if_neg hi] at h
          cases h
      · rw [marked, set_of_ne hk] at h
        exact .inl h
    · exact .inr ⟨k', List.mem_cons_of_mem _ hk', hfacts⟩

/-- Every binding of a channel points at `home`. -/
def rehomed (v : Live) (home : Endpoint) : Live :=
  fun p ph => (v p ph).map fun e => if e.channel = home.channel then home else e

end Live

namespace Store

/-- What every placeholder is bound to now. -/
def live (s : Store) : Live := fun p ph => s.bindings.get? (p, ph)

theorem get?_replay (t : Table (Id × Sym) Endpoint) (b : Binding) (p : Id) (ph : Sym) :
    (replay t b).get? (p, ph) = Live.entered (fun q h => t.get? (q, h)) b p ph := by
  unfold replay Live.entered Live.set
  by_cases hb : b.isIntro = true
  · simp only [hb, if_true, Table.get?_insert, Prod.mk.injEq]
  · simp only [hb, Bool.false_eq_true, if_false, Table.get?_erase, Prod.mk.injEq]

theorem get?_foldl_replay (bs : List Binding) (t : Table (Id × Sym) Endpoint) :
    (fun p ph => (bs.foldl replay t).get? (p, ph)) =
      bs.foldl Live.entered fun p ph => t.get? (p, ph) := by
  induction bs generalizing t with
  | nil => rfl
  | cons b rest ih =>
    rw [List.foldl_cons, List.foldl_cons, ih]
    congr 1
    funext p ph
    exact get?_replay t b p ph

/-- Appending to the log replays what is appended. -/
theorem live_append (s : Store) (bs : List Binding) :
    live { s with log := s.log ++ bs } = bs.foldl Live.entered s.live := by
  have h : bindings { s with log := s.log ++ bs } = bs.foldl replay s.bindings :=
    List.foldl_append
  unfold live
  rw [h]
  exact get?_foldl_replay bs s.bindings

/-- A process sees its own part of the live bindings. -/
theorem get?_channelsIn (log : List Binding) (p : Id) (ph : Sym) :
    (channelsIn log p).get? ph = (bindingsIn log).get? (p, ph) := by
  -- the two replays go through the log together; entries of other processes leave both alone
  suffices h : ∀ (own : Table Sym Endpoint) (all : Table (Id × Sym) Endpoint),
      (∀ h, own.get? h = all.get? (p, h)) → ∀ h,
        ((log.filter fun b => b.process = p).foldl replayOwn own).get? h =
          (log.foldl replay all).get? (p, h) from h ∅ ∅ (fun _ => rfl) ph
  induction log with
  | nil => exact fun _ _ h => h
  | cons b rest ih =>
    intro own all hsame h
    rw [List.foldl_cons]
    by_cases hb : b.process = p
    · rw [List.filter_cons_of_pos (by simpa using hb), List.foldl_cons]
      refine ih _ _ (fun h' => ?_) h
      rw [get?_replay, Live.entered, Live.set, replayOwn]
      by_cases hi : b.isIntro = true <;> by_cases hh : h' = b.placeholder <;>
        simp [hi, hh, hb, hsame, Table.get?_insert, Table.get?_erase]
    · rw [List.filter_cons_of_neg (by simpa using hb)]
      refine ih _ _ (fun h' => ?_) h
      have hne : ¬ (p = b.process ∧ h' = b.placeholder) := fun hc => hb hc.1.symm
      rw [get?_replay, Live.entered, Live.set_of_ne hne, hsame]

/-- The channels of a process are its live bindings. -/
theorem channelsOf_get? (s : Store) (p : Id) (ph : Sym) :
    (s.channelsOf p).get? ph = s.live p ph :=
  get?_channelsIn s.log p ph

end Store

/-! ## Stamps -/

namespace Rev

/-- A revision that has been stamped and whose stamps keep their sign. -/
def Sized (r : Rev) : Prop := 0 < r.value ∧ r.value < 2 ^ 63

theorem introStamp_pos {r : Rev} (h : r.Sized) : 0 < r.introStamp := by
  rw [introStamp_of_lt h.2]
  exact_mod_cast h.1

theorem consumeStamp_neg {r : Rev} (h : r.Sized) : ¬ 0 < r.consumeStamp := by
  have := introStamp_pos h
  unfold consumeStamp
  omega

end Rev

/-- A stamped entry does what its mark says. -/
theorem Live.entered_stamped {v : Live} {k : Mark} {rev : Rev} (h : rev.Sized) :
    v.entered (k.stamped rev) = v.marked k := by
  unfold Live.entered Live.marked Mark.stamped Binding.isIntro
  have hpos := Rev.introStamp_pos h
  have hneg := Rev.consumeStamp_neg h
  cases k.isIntro <;> simp [hpos, hneg]

theorem Live.foldl_entered_stamped {v : Live} {marks : List Mark} {rev : Mark → Rev}
    (h : ∀ k ∈ marks, (rev k).Sized) :
    (marks.map fun k => k.stamped (rev k)).foldl Live.entered v = v.after marks := by
  induction marks generalizing v with
  | nil => rfl
  | cons k rest ih =>
    rw [List.map_cons, List.foldl_cons, Live.entered_stamped (h k List.mem_cons_self),
      ih fun k' hk => h k' (List.mem_cons_of_mem _ hk)]
    rfl

/-! ## Coming home -/

namespace Live

/-- Entries that all bind to one endpoint bind exactly the placeholders they name. -/
theorem foldl_entered_const {home : Endpoint} {bs : List Binding} {v : Live}
    (h : ∀ b ∈ bs, b.isIntro = true ∧ b.endpoint = home) (p : Id) (ph : Sym) :
    bs.foldl entered v p ph =
      if ∃ b ∈ bs, b.process = p ∧ b.placeholder = ph then some home else v p ph := by
  induction bs generalizing v with
  | nil => simp
  | cons b rest ih =>
    have hb := h b List.mem_cons_self
    rw [List.foldl_cons, ih fun b' hb' => h b' (List.mem_cons_of_mem _ hb')]
    by_cases hrest : ∃ b' ∈ rest, b'.process = p ∧ b'.placeholder = ph
    · obtain ⟨b', hb', hk⟩ := hrest
      rw [if_pos ⟨b', hb', hk⟩, if_pos ⟨b', List.mem_cons_of_mem _ hb', hk⟩]
    · rw [if_neg hrest, entered, set, hb.1, hb.2]
      by_cases hk : p = b.process ∧ ph = b.placeholder
      · rw [if_pos hk, if_pos rfl, if_pos ⟨b, List.mem_cons_self, hk.1.symm, hk.2.symm⟩]
      · rw [if_neg hk, if_neg]
        rintro ⟨b', hb', hp, hph⟩
        rcases List.mem_cons.1 hb' with rfl | hb'
        · exact hk ⟨hp.symm, hph.symm⟩
        · exact hrest ⟨b', hb', hp, hph⟩

end Live

namespace Store

-- a stamp is never computed here, and its modulus is too large to be unfolded by accident
attribute [local irreducible] Rev.introStamp

/-- The pool of a process, at a revision whose stamps keep their sign. -/
def Stamped (s : Store) (p : Id) : Prop :=
  ∃ q pool, s.poolOf? p = some q ∧ s.pools.get? q = some pool ∧ pool.rev.Sized

theorem mem_homecoming {s : Store} {home : Endpoint} {b : Binding} :
    b ∈ s.homecoming home ↔
      ∃ e pool, s.live b.process b.placeholder = some e ∧ e.channel = home.channel ∧ e ≠ home ∧
        (s.poolOf? b.process).bind s.pools.get? = some pool ∧ b.endpoint = home ∧
        b.stamp = pool.rev.introStamp := by
  unfold homecoming
  simp only [List.mem_filterMap, List.mem_filter, Option.map_eq_some_iff, Bool.and_eq_true,
    decide_eq_true_eq]
  constructor
  · rintro ⟨⟨⟨p, ph⟩, e⟩, ⟨hmem, hc, hne⟩, pool, hpool, rfl⟩
    exact ⟨e, pool, s.bindings.mem_entries_iff.1 hmem, hc, hne, hpool, rfl, rfl⟩
  · rintro ⟨e, pool, hlive, hc, hne, hpool, hend, hstamp⟩
    refine ⟨((b.process, b.placeholder), e), ⟨s.bindings.mem_entries_iff.2 hlive, hc, hne⟩, pool,
      hpool, ?_⟩
    cases b
    cases hend
    cases hstamp
    rfl

/-- Whether a process is on record and its pool exists. -/
def settled (s : Store) (p : Id) : Bool := ((s.poolOf? p).bind s.pools.get?).isSome

/-- Bringing a channel home points the live bindings of settled processes there, if their stamps
keep their sign. -/
theorem live_rehome_settled {s : Store} {home : Endpoint}
    (h : ∀ p ph e, s.live p ph = some e → e.channel = home.channel →
      ∀ pool, (s.poolOf? p).bind s.pools.get? = some pool → pool.rev.Sized) (p : Id) (ph : Sym) :
    (s.rehome home).live p ph = (s.live p ph).map fun e =>
      if e.channel = home.channel ∧ s.settled p = true then home else e := by
  have hconst : ∀ b ∈ s.homecoming home, b.isIntro = true ∧ b.endpoint = home := by
    intro b hb
    obtain ⟨e, pool, hlive, hc, -, hpool, hend, hstamp⟩ := mem_homecoming.1 hb
    refine ⟨?_, hend⟩
    rw [Binding.isIntro, hstamp]
    exact decide_eq_true (Rev.introStamp_pos (h _ _ _ hlive hc pool hpool))
  show live { s with log := s.log ++ s.homecoming home } p ph = _
  rw [live_append, Live.foldl_entered_const hconst]
  cases hlive : s.live p ph with
  | none =>
    rw [if_neg]
    · rfl
    · rintro ⟨b, hb, rfl, rfl⟩
      obtain ⟨e, -, he, -⟩ := mem_homecoming.1 hb
      exact nomatch hlive.symm.trans he
  | some e =>
    rw [Option.map_some]
    by_cases hc : e.channel = home.channel ∧ s.settled p = true
    · rw [if_pos hc]
      by_cases hne : e = home
      · rw [hne, ite_self]
      · obtain ⟨pool, hpool⟩ := Option.isSome_iff_exists.1 hc.2
        rw [if_pos]
        exact ⟨⟨p, ph, home, pool.rev.introStamp⟩, mem_homecoming.2
          ⟨e, pool, hlive, hc.1, hne, hpool, rfl, rfl⟩, rfl, rfl⟩
    · rw [if_neg hc, if_neg]
      rintro ⟨b, hb, rfl, rfl⟩
      obtain ⟨e', pool, he, hc', -, hpool, -⟩ := mem_homecoming.1 hb
      cases hlive.symm.trans he
      exact hc ⟨hc', Option.isSome_iff_exists.2 ⟨pool, hpool⟩⟩

/-- Bringing a channel home points all its live bindings there. -/
theorem live_rehome {s : Store} {home : Endpoint}
    (h : ∀ p ph e, s.live p ph = some e → e.channel = home.channel → s.Stamped p) :
    (s.rehome home).live = s.live.rehomed home := by
  have hsettled : ∀ p ph e, s.live p ph = some e → e.channel = home.channel →
      ∃ pool, (s.poolOf? p).bind s.pools.get? = some pool ∧ pool.rev.Sized := by
    intro p ph e hlive hc
    obtain ⟨q, pool, hq, hpool, hsized⟩ := h p ph e hlive hc
    exact ⟨pool, by rw [hq, Option.bind_some, hpool], hsized⟩
  have hsized : ∀ p ph e, s.live p ph = some e → e.channel = home.channel →
      ∀ pool, (s.poolOf? p).bind s.pools.get? = some pool → pool.rev.Sized := by
    intro p ph e hlive hc pool hpool
    obtain ⟨pool', hpool', hsized⟩ := hsettled p ph e hlive hc
    cases hpool.symm.trans hpool'
    exact hsized
  funext p ph
  rw [live_rehome_settled hsized, Live.rehomed]
  refine Option.map_congr fun e hlive => ?_
  by_cases hc : e.channel = home.channel
  · obtain ⟨pool, hpool, -⟩ := hsettled p ph e hlive hc
    rw [if_pos hc, if_pos ⟨hc, Option.isSome_iff_exists.2 ⟨pool, hpool⟩⟩]
  · rw [if_neg hc, if_neg fun hboth => hc hboth.1]

end Store

end Rendezvous
