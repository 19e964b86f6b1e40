import Mathlib.Data.Set.Function
import Rendezvous.Proofs.Walk

/-!
# Halves along a line

Channels `y 0`, …, `y n` are in a line. Station `0` provides the first of them, station `n + 1` holds
the last, and every station `i + 1` in between holds channel `i` and provides channel `i + 1`, to
which it can forward whatever comes. Each of the two outer stations has a half to offer, `first` and
`last`.

The stations act once each, in any order. What is pending on the line then depends on the order:
a forward may lead past several channels, or to another forward. But it is the same in all that
matters to the next station that acts, and this is what `Stage` says, for the set of stations that
have acted so far:

- the half of station `0` is as far down the line as stations have acted without a gap;
- the half of station `n + 1` stays where it is;
- from a station that has not acted, forwards lead past those that have acted, to the next one that
  has not, or to the end; and there is no half on the way but these forwards (`Trail`).

`Stage.hop`, `Stage.arrive` and `Stage.wait` say that the stages are kept when one more station acts.
When the last one does, nothing is left on the line (`Trail.clear`).
-/

namespace Rendezvous

namespace Leads

variable {pending pending' : Id → Option Half} {c z w : Id} {passed rest : List Id}

/-- A path goes on where its end has got a forward. -/
theorem extend (h : Leads pending c passed z) {f : Forward} (hz : pending' z = some (.forward f))
    (hp : ∀ x ∈ passed, pending' x = pending x) (hl : Leads pending' f.target rest w) :
    Leads pending' c (passed ++ z :: rest) w :=
  (h.append_iff hp).2 ⟨_, rfl, .hop hz hl⟩

end Leads

namespace Line

/-! ## Runs of stations -/

/-- Of the stations after `i`, those up to `e` have acted, and the one after `e` has not. -/
structure Run (done : Set ℕ) (n i e : ℕ) : Prop where
  le : i ≤ e
  bound : e ≤ n
  acted : ∀ m, i < m → m ≤ e → m ∈ done
  last : e < n → e + 1 ∉ done

variable {done : Set ℕ} {n i j e : ℕ}

theorem exists_run (done : Set ℕ) (h : i ≤ n) : ∃ e, Run done n i e := by
  induction h using Nat.decreasingInduction with
  | self => exact ⟨n, le_rfl, le_rfl, fun m hm hm' => by omega, fun h => by omega⟩
  | of_succ i hi ih =>
    by_cases hnext : i + 1 ∈ done
    · obtain ⟨e, hrun⟩ := ih
      refine ⟨e, by have := hrun.le; omega, hrun.bound, fun m hm hm' => ?_, hrun.last⟩
      rcases Nat.eq_or_lt_of_le (Nat.succ_le_of_lt hm) with rfl | hlt
      · exact hnext
      · exact hrun.acted m hlt hm'
    · exact ⟨i, le_rfl, Nat.le_of_lt hi, fun m hm hm' => by omega, fun _ => hnext⟩

theorem Run.unique {e' : ℕ} (h : Run done n i e) (h' : Run done n i e') : e = e' := by
  obtain ⟨hle, hn, hacted, hlast⟩ := h
  obtain ⟨hle', hn', hacted', hlast'⟩ := h'
  rcases Nat.lt_trichotomy e e' with hlt | rfl | hlt
  · exact absurd (hacted' (e + 1) (by omega) hlt) (hlast (by omega))
  · rfl
  · exact absurd (hacted (e' + 1) (by omega) hlt) (hlast' (by omega))

/-- Of the stations up to `i` that have not acted there is a last one. -/
theorem exists_last_gap (h : ∃ m ≤ i, m ∉ done) :
    ∃ m ≤ i, m ∉ done ∧ ∀ k, m < k → k ≤ i → k ∈ done := by
  induction i with
  | zero =>
    obtain ⟨m, hm, hnot⟩ := h
    exact ⟨m, hm, hnot, fun k hk hk' => by omega⟩
  | succ i ih =>
    by_cases hlast : i + 1 ∈ done
    · obtain ⟨m, hm, hnot⟩ := h
      have hmi : m ≠ i + 1 := fun heq => hnot (heq ▸ hlast)
      obtain ⟨g, hg, hgn, hbetween⟩ := ih ⟨m, by omega, hnot⟩
      refine ⟨g, by omega, hgn, fun k hk hk' => ?_⟩
      rcases Nat.eq_or_lt_of_le hk' with rfl | hlt
      · exact hlast
      · exact hbetween k hk (by omega)
    · exact ⟨i + 1, le_rfl, hlast, fun k hk hk' => by omega⟩

/-- A run that one more station has no part in. -/
theorem Run.of_insert (h : Run (insert j done) n i e) (hj : j ≤ i ∨ e < j) : Run done n i e :=
  ⟨h.le, h.bound, fun m hm hm' => (h.acted m hm hm').resolve_left (by omega),
    fun he hd => h.last he (.inr hd)⟩

/-! ## Trails -/

variable {pending pending' : Id → Option Half} {y : ℕ → Id} {passed : List Id} {first last : Half}

/-- Forwards lead from channel `i` to channel `e`, and on the way nothing is pending beside them. -/
structure Trail (pending : Id → Option Half) (y : ℕ → Id) (i e : ℕ) (passed : List Id) : Prop where
  leads : Leads pending (y i) passed (y e)
  between : ∀ x ∈ passed, ∃ m, i ≤ m ∧ m < e ∧ x = y m
  gaps : ∀ m, i ≤ m → m < e → y m ∉ passed → pending (y m) = none

/-- What is pending elsewhere on the line does not matter to a trail. -/
theorem Trail.congr (h : Trail pending y i e passed)
    (hkeep : ∀ m, i ≤ m → m < e → pending' (y m) = pending (y m))
    (hend : ∀ f, pending' (y e) ≠ some (.forward f)) : Trail pending' y i e passed := by
  refine ⟨h.leads.congr hend fun x hx => ?_, h.between, fun m hm hm' hnot => ?_⟩
  · obtain ⟨m, hm, hm', rfl⟩ := h.between x hx
    exact hkeep m hm hm'
  · rw [hkeep m hm hm']
    exact h.gaps m hm hm' hnot

/-- A channel that is not on the way is not passed. -/
theorem Trail.notMem (hy : Set.InjOn y {i | i ≤ n}) (h : Trail pending y i e passed) (he : e ≤ n)
    {m : ℕ} (hm : m ≤ n) (hout : m < i ∨ e ≤ m) : y m ∉ passed := by
  intro hmem
  obtain ⟨m', hi, he', heq⟩ := h.between _ hmem
  have hm' : m' ≤ n := by omega
  have := hy hm hm' heq
  omega

/-- Two trails are one where the first ends at a channel that has got a forward to the end of the
second. The forwards of the second are used up. -/
theorem Trail.over (hy : Set.InjOn y {i | i ≤ n}) (he : e ≤ n) (hj : j ≤ i) (hi : i < e)
    {before : List Id} (hb : Trail pending y j i before) (ht : Trail pending y (i + 1) e passed)
    {f : Forward} (hf : f.target = y e) (hput : pending' (y i) = some (.forward f))
    (hpassed : ∀ x ∈ passed, pending' x = none)
    (hkeep : ∀ x, x ∉ passed → x ≠ y i → pending' x = pending x) :
    Trail pending' y j e (before ++ [y i]) := by
  have hne : ∀ m ≤ n, m ≠ i → y m ≠ y i :=
    fun m hm hmi heq => hmi (hy hm (show i ≤ n by omega) heq)
  have hbefore : ∀ m, m < i → pending' (y m) = pending (y m) :=
    fun m hm => hkeep _ (ht.notMem hy he (by omega) (.inl (by omega))) (hne m (by omega) (by omega))
  have hend : pending' (y e) = pending (y e) :=
    hkeep _ (ht.notMem hy he he (.inr le_rfl)) (hne e he (by omega))
  refine ⟨hb.leads.extend hput (fun x hx => ?_) ?_, fun x hx => ?_, fun m hm hm' hnot => ?_⟩
  · obtain ⟨m, -, hm, rfl⟩ := hb.between x hx
    exact hbefore m hm
  · rw [hf]
    exact .stay (hend ▸ ht.leads.last)
  · rcases List.mem_append.1 hx with hx | hx
    · obtain ⟨m, hm, hm', rfl⟩ := hb.between x hx
      exact ⟨m, hm, by omega, rfl⟩
    · exact ⟨i, hj, hi, List.mem_singleton.1 hx⟩
  · have hmi : m ≠ i := by
      rintro rfl
      exact hnot (List.mem_append_right _ (List.mem_singleton_self _))
    rcases Nat.lt_or_gt_of_ne hmi with hlt | hgt
    · rw [hbefore m hlt]
      exact hb.gaps m hm hlt fun hx => hnot (List.mem_append_left _ hx)
    · by_cases hp : y m ∈ passed
      · exact hpassed _ hp
      · rw [hkeep _ hp (hne m (by omega) hmi)]
        exact ht.gaps m hgt hm' hp

/-- The first half comes to station `j`, which is the last to act, and meets the last half. -/
theorem Trail.clear (hfront : ∀ m < j, pending' (y m) = none) (ht : Trail pending y j n passed)
    (hpassed : ∀ x ∈ passed, pending' x = none) (hend : pending' (y n) = none)
    (hkeep : ∀ m, j ≤ m → m < n → y m ∉ passed → pending' (y m) = pending (y m)) :
    ∀ m ≤ n, pending' (y m) = none := by
  intro m hm
  rcases Nat.eq_or_lt_of_le hm with rfl | hlt
  · exact hend
  by_cases hmj : m < j
  · exact hfront m hmj
  by_cases hp : y m ∈ passed
  · exact hpassed _ hp
  · rw [hkeep m (by omega) hlt hp]
    exact ht.gaps m (by omega) hlt hp

/-- What is pending on the line of `n + 1` channels `y` once the stations of `done` have acted. -/
structure Stage (y : ℕ → Id) (n : ℕ) (first last : Half) (done : Set ℕ)
    (pending : Id → Option Half) : Prop where
  front : ∀ i ≤ n, (∀ m ≤ i, m ∈ done) → i + 1 ∉ done →
    pending (y i) = some (first.movedTo (y i))
  spent : ∀ i ≤ n, (∀ m ≤ i + 1, m ∈ done) → pending (y i) = none
  back : n + 1 ∈ done → (∃ m ≤ n, m ∉ done) → pending (y n) = some last
  fallow : ∀ i ≤ n, i + 1 ∉ done → (∃ m ≤ i, m ∉ done) → pending (y i) = none
  trail : ∀ i e, i ∉ done → Run done n i e → ∃ passed, Trail pending y i e passed

/-- Before anybody has acted nothing is pending. -/
theorem stage_empty (h : ∀ i ≤ n, pending (y i) = none) : Stage y n first last ∅ pending := by
  refine ⟨fun i _ hall => absurd (hall 0 (Nat.zero_le i)) (Set.notMem_empty 0),
    fun i _ hall => absurd (hall 0 (Nat.zero_le _)) (Set.notMem_empty 0),
    fun h => absurd h (Set.notMem_empty _), fun i hi _ _ => h i hi, fun i e _ hrun => ?_⟩
  obtain rfl : i = e := by
    by_contra hne
    have hlt : i < e := lt_of_le_of_ne hrun.le hne
    exact Set.notMem_empty e (hrun.acted e hlt le_rfl)
  refine ⟨[], .stay fun f hf => ?_, nofun, fun m _ _ => by omega⟩
  rw [h i hrun.bound] at hf
  cases hf

namespace Stage

/-- The half of a station that has not acted does not matter. -/
theorem congr {first' last' : Half} (h : Stage y n first last done pending)
    (hfirst : 0 ∈ done → first' = first) (hlast : n + 1 ∈ done → last' = last) :
    Stage y n first' last' done pending := by
  refine ⟨fun i hi hall hnext => ?_, h.spent, fun hd hgap => ?_, h.fallow, h.trail⟩
  · rw [hfirst (hall 0 (Nat.zero_le i))]
    exact h.front i hi hall hnext
  · rw [hlast hd]
    exact h.back hd hgap

/-- What an action that goes past a run finds at its end. -/
theorem pending_of_run (h : Stage y n first last done pending) (hi : i ∉ done)
    (hrun : Run done n i e) :
    pending (y e) = none ∧ ¬ (e = n ∧ n + 1 ∈ done) ∨
      pending (y e) = some last ∧ e = n ∧ n + 1 ∈ done := by
  by_cases hlast : e = n ∧ n + 1 ∈ done
  · obtain ⟨rfl, hdone⟩ := hlast
    exact .inr ⟨h.back hdone ⟨i, hrun.le, hi⟩, rfl, hdone⟩
  · refine .inl ⟨h.fallow e hrun.bound ?_ ⟨i, hrun.le, hi⟩, hlast⟩
    rcases Nat.eq_or_lt_of_le hrun.bound with rfl | hlt
    · exact fun hdone => hlast ⟨rfl, hdone⟩
    · exact hrun.last hlt

/-- Nothing is pending on the line but the two halves and forwards. -/
theorem pending_cases (h : Stage y n first last done pending) (hi : i ≤ n) :
    pending (y i) = none ∨ (pending (y i) = some (first.movedTo (y i)) ∧ 0 ∈ done) ∨
      (pending (y i) = some last ∧ n + 1 ∈ done) ∨ ∃ f, pending (y i) = some (.forward f) := by
  by_cases hall : ∀ m ≤ i, m ∈ done
  · by_cases hnext : i + 1 ∈ done
    · refine .inl (h.spent i hi fun m hm => ?_)
      rcases Nat.eq_or_lt_of_le hm with rfl | hlt
      · exact hnext
      · exact hall m (by omega)
    · exact .inr (.inl ⟨h.front i hi hall hnext, hall 0 (Nat.zero_le i)⟩)
  have hgap : ∃ m ≤ i, m ∉ done := by
    by_contra hno
    exact hall fun m hm => by_contra fun hnot => hno ⟨m, hm, hnot⟩
  by_cases hnext : i + 1 ∈ done
  · rcases Nat.eq_or_lt_of_le hi with rfl | hlt
    · exact .inr (.inr (.inl ⟨h.back hnext hgap, hnext⟩))
    -- the channel is on the trail of the last station before it that has not acted
    obtain ⟨g, hg, hgn, hbetween⟩ := exists_last_gap hgap
    obtain ⟨e, hrun⟩ := exists_run done (hg.trans hi)
    have hie : i < e := by
      by_contra hle
      have hmem : e + 1 ∈ done := by
        rcases Nat.eq_or_lt_of_le (Nat.le_of_not_lt hle) with rfl | hlt
        · exact hnext
        · exact hbetween (e + 1) (by have := hrun.le; omega) hlt
      exact hrun.last (by omega) hmem
    obtain ⟨passed, ht⟩ := h.trail g e hgn hrun
    by_cases hp : y i ∈ passed
    · exact .inr (.inr (.inr (ht.leads.forward_of_mem hp)))
    · exact .inl (ht.gaps i hg hie hp)
  · exact .inl (h.fallow i hi hnext hgap)

/-- A station with a gap before it forwards what comes on the channel that it holds. -/
theorem hop (hy : Set.InjOn y {i | i ≤ n}) (h : Stage y n first last done pending) (hi : i < n)
    (hnew : i + 1 ∉ done) (hgap : ∃ m ≤ i, m ∉ done) (hrun : Run done n (i + 1) e)
    (ht : Trail pending y (i + 1) e passed) {f : Forward} (hf : f.target = y e)
    (hput : pending' (y i) = some (.forward f)) (hpassed : ∀ x ∈ passed, pending' x = none)
    (hkeep : ∀ x, x ∉ passed → x ≠ y i → pending' x = pending x) :
    Stage y n first last (insert (i + 1) done) pending' := by
  obtain ⟨hle, hen, hacted, hlast⟩ := hrun
  -- a channel before `i` or from `e` on is as it was
  have hstay : ∀ m ≤ n, m < i ∨ e ≤ m → pending' (y m) = pending (y m) := by
    intro m hm hout
    refine hkeep _ (ht.notMem hy hen hm (by omega)) fun heq => ?_
    have := hy (show m ≤ n from hm) (show i ≤ n by omega) heq
    omega
  obtain ⟨g, hg, hgn⟩ := hgap
  have hgap' : g ∉ insert (i + 1) done := by
    rintro (heq | hd)
    · omega
    · exact hgn hd
  have hold : ∀ {m}, m ∈ insert (i + 1) done → m ≠ i + 1 → m ∈ done := fun h hne => h.resolve_left hne
  refine ⟨fun m hm hall hnext => ?_, fun m hm hall => ?_, fun hd hk => ?_, fun m hm hnext hk => ?_,
    fun a b ha hrun' => ?_⟩
  · have hlt : m < g := by
      by_contra hge
      exact hgap' (hall g (by omega))
    rw [hstay m hm (.inl (by omega))]
    exact h.front m hm (fun k hk => hold (hall k hk) (by omega)) fun hd => hnext (.inr hd)
  · have hlt : m + 1 < g := by
      by_contra hge
      exact hgap' (hall g (by omega))
    rw [hstay m hm (.inl (by omega))]
    exact h.spent m hm fun k hk => hold (hall k hk) (by omega)
  · obtain ⟨k, hk, hkn⟩ := hk
    rw [hstay n le_rfl (.inr hen)]
    exact h.back (hold hd (by omega)) ⟨k, hk, fun hd => hkn (.inr hd)⟩
  · obtain ⟨k, hk, hkn⟩ := hk
    by_cases hp : y m ∈ passed
    · exact hpassed _ hp
    · have hne : y m ≠ y i := by
        intro heq
        obtain rfl := hy (show m ≤ n from hm) (show i ≤ n by omega) heq
        exact hnext (.inl rfl)
      rw [hkeep _ hp hne]
      exact h.fallow m hm (fun hd => hnext (.inr hd)) ⟨k, hk, fun hd => hkn (.inr hd)⟩
  · have hane : a ≠ i + 1 := fun heq => ha (.inl heq)
    have haold : a ∉ done := fun hd => ha (.inr hd)
    by_cases hin : a ≤ i ∧ i < b
    · -- the trail goes to the new station, over its forward, and past what that forward leads past
      have hrest : Run done n (i + 1) b :=
        ⟨hin.2, hrun'.bound, fun m hm hm' => hold (hrun'.acted m (by omega) hm') (by omega),
          fun hb hd => hrun'.last hb (.inr hd)⟩
      obtain rfl := hrest.unique ⟨hle, hen, hacted, hlast⟩
      obtain ⟨before, hb⟩ := h.trail a i haold ⟨hin.1, by omega,
        fun m hm hm' => hold (hrun'.acted m hm (by omega)) (by omega), fun _ => hnew⟩
      exact ⟨_, hb.over hy hen hin.1 hin.2 ht hf hput hpassed hkeep⟩
    · -- elsewhere nothing has changed
      have hout : b < i ∨ e < a := by
        rcases Nat.lt_or_gt_of_ne hane with hlt | hgt
        · left
          have hbi : b ≠ i := by
            rintro rfl
            exact hrun'.last hi (.inl rfl)
          omega
        · right
          by_contra hle'
          exact haold (hacted a hgt (by omega))
      obtain ⟨before, hb⟩ := h.trail a b haold (hrun'.of_insert (by omega))
      have hab := hrun'.le
      have hbn := hrun'.bound
      refine ⟨before, hb.congr (fun m hm hm' => hstay m (by omega) (by omega)) ?_⟩
      rw [hstay b hbn (by omega)]
      exact hb.leads.last

/-- The first half comes to station `j`, all before it having acted, and goes past those that have
acted behind it. -/
theorem arrive (hy : Set.InjOn y {i | i ≤ n}) (h : Stage y n first last done pending) (hj : j ≤ n)
    (hnew : j ∉ done) (hall : ∀ m < j, m ∈ done) (hrun : Run done n j e)
    (ht : Trail pending y j e passed) (hfree : pending (y e) = none)
    (hput : pending' (y e) = some (first.movedTo (y e))) (hfront : ∀ m < j, pending' (y m) = none)
    (hpassed : ∀ x ∈ passed, pending' x = none)
    (hkeep : ∀ m, j ≤ m → m ≤ n → y m ∉ passed → m ≠ e → pending' (y m) = pending (y m)) :
    Stage y n first last (insert j done) pending' := by
  have hnext : e + 1 ∉ insert j done := by
    rintro (heq | hd)
    · have := hrun.le
      omega
    rcases Nat.eq_or_lt_of_le hrun.bound with rfl | hlt
    · rw [h.back hd ⟨j, hj, hnew⟩] at hfree
      cases hfree
    · exact hrun.last hlt hd
  obtain ⟨hle, hen, hacted, hlast⟩ := hrun
  have hupto : ∀ m ≤ e, m ∈ insert j done := by
    intro m hm
    rcases Nat.lt_trichotomy m j with hlt | heq | hgt
    · exact .inr (hall m hlt)
    · exact .inl heq
    · exact .inr (hacted m hgt hm)
  have hbeyond : ∀ m, e < m → m ≤ n → pending' (y m) = pending (y m) := fun m hm hmn =>
    hkeep m (by omega) hmn (ht.notMem hy hen hmn (.inr (by omega))) (by omega)
  refine ⟨fun m hm hall' hnext' => ?_, fun m hm hall' => ?_, fun hd hk => ?_,
    fun m hm hnext' hk => ?_, fun a b ha hrun' => ?_⟩
  · obtain rfl : m = e := by
      rcases Nat.lt_trichotomy m e with hlt | heq | hgt
      · exact absurd (hupto (m + 1) hlt) hnext'
      · exact heq
      · exact absurd (hall' (e + 1) hgt) hnext
    exact hput
  · have hlt : m < e := by
      by_contra hge
      exact hnext (hall' (e + 1) (by omega))
    by_cases hmj : m < j
    · exact hfront m hmj
    by_cases hp : y m ∈ passed
    · exact hpassed _ hp
    · rw [hkeep m (by omega) hm hp (by omega)]
      exact ht.gaps m (by omega) hlt hp
  · obtain ⟨k, hk, hkn⟩ := hk
    have hlt : e < k := by
      by_contra hge
      exact hkn (hupto k (by omega))
    rw [hbeyond n (by omega) le_rfl]
    exact h.back (hd.resolve_left (by omega)) ⟨k, hk, fun hd => hkn (.inr hd)⟩
  · obtain ⟨k, hk, hkn⟩ := hk
    have hlt : e < k := by
      by_contra hge
      exact hkn (hupto k (by omega))
    rw [hbeyond m (by omega) hm]
    exact h.fallow m hm (fun hd => hnext' (.inr hd)) ⟨k, hk, fun hd => hkn (.inr hd)⟩
  · have hlt : e < a := by
      by_contra hge
      exact ha (hupto a (by omega))
    obtain ⟨before, hb⟩ := h.trail a b (fun hd => ha (.inr hd)) (hrun'.of_insert (.inl (by omega)))
    have hab := hrun'.le
    have hbn := hrun'.bound
    refine ⟨before, hb.congr (fun m hm hm' => hbeyond m (by omega) (by omega)) ?_⟩
    rw [hbeyond b (by omega) hbn]
    exact hb.leads.last

/-- The last station leaves its half, while others have not acted. -/
theorem wait (h : Stage y n first last done pending)
    (hnew : n + 1 ∉ done) (hgap : ∃ m ≤ n, m ∉ done) (hlast : ∀ f, last ≠ .forward f)
    (hput : pending' (y n) = some last) (hkeep : ∀ m < n, pending' (y m) = pending (y m)) :
    Stage y n first last (insert (n + 1) done) pending' := by
  have hold : ∀ {m}, m ∈ insert (n + 1) done → m ≤ n → m ∈ done :=
    fun h hm => h.resolve_left (by omega)
  obtain ⟨g, hg, hgn⟩ := hgap
  refine ⟨fun m hm hall hnext => ?_, fun m hm hall => ?_, fun _ _ => hput,
    fun m hm hnext hk => ?_, fun a b ha hrun => ?_⟩
  · have hlt : m < g := by
      by_contra hge
      exact hgn (hold (hall g (by omega)) hg)
    rw [hkeep m (by omega)]
    exact h.front m hm (fun k hk => hold (hall k hk) (by omega)) fun hd => hnext (.inr hd)
  · have hlt : m + 1 < g := by
      by_contra hge
      exact hgn (hold (hall g (by omega)) hg)
    rw [hkeep m (by omega)]
    exact h.spent m hm fun k hk => hold (hall k hk) (by omega)
  · obtain ⟨k, hk, hkn⟩ := hk
    have hmn : m ≠ n := by
      rintro rfl
      exact hnext (.inl rfl)
    rw [hkeep m (by omega)]
    exact h.fallow m hm (fun hd => hnext (.inr hd)) ⟨k, hk, fun hd => hkn (.inr hd)⟩
  · have hbn := hrun.bound
    obtain ⟨before, hb⟩ := h.trail a b (fun hd => ha (.inr hd)) (hrun.of_insert (.inr (by omega)))
    refine ⟨before, hb.congr (fun m _ hm => hkeep m (by omega)) ?_⟩
    rcases Nat.eq_or_lt_of_le hbn with rfl | hlt
    · rw [hput]
      exact fun f hf => hlast f (Option.some.inj hf)
    · rw [hkeep b hlt]
      exact hb.leads.last

end Stage

end Line

end Rendezvous
