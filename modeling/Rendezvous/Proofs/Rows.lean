import Rendezvous.Proofs.Atomicity

/-!
# One replay inside the other

The binding log is replayed in two ways: for one process at a time (`Store.channelsIn`) and for all
processes at once (`Store.bindingsIn`). The first is a row of the second.

- `Table.row` takes the entries of a table of pairs that have one first key, in the order they have
  in the table;
- insertion and erasure at a pair do to the row of its first key what they do to the table, and
  leave the other rows alone (`Table.row_insert`, `Table.row_erase`);
- so the two replays keep up with each other entry by entry (`Store.channelsIn_eq_row`), and a
  channel that comes home does so in both, at the same places (`Store.replays_agree`).
-/

namespace Rendezvous

/-! ## Rows -/

namespace Table

variable {κ σ α : Type} [DecidableEq κ]

/-- The entries under the first key `a`, with the rest of their keys. -/
def rowOf (a : κ) (entries : List ((κ × σ) × α)) : List (σ × α) :=
  (entries.filter fun e => e.1.1 = a).map fun e => (e.1.2, e.2)

theorem rowOf_append (a : κ) (entries entries' : List ((κ × σ) × α)) :
    rowOf a (entries ++ entries') = rowOf a entries ++ rowOf a entries' := by
  rw [rowOf, List.filter_append, List.map_append]
  rfl

theorem mem_map_fst_rowOf {a : κ} {k : σ} {entries : List ((κ × σ) × α)} :
    k ∈ (rowOf a entries).map Prod.fst ↔ (a, k) ∈ entries.map Prod.fst := by
  rw [rowOf, List.map_map]
  constructor
  · intro h
    obtain ⟨e, he, rfl⟩ := List.mem_map.1 h
    obtain ⟨he, ha⟩ := List.mem_filter.1 he
    exact List.mem_map.2 ⟨e, he, Prod.ext (of_decide_eq_true ha) rfl⟩
  · intro h
    obtain ⟨e, he, hk⟩ := List.mem_map.1 h
    obtain ⟨ha, hk⟩ := Prod.mk.inj hk
    exact List.mem_map.2 ⟨e, List.mem_filter.2 ⟨he, decide_eq_true ha⟩, hk⟩

/-- Under one first key the rests of the keys are distinct. -/
theorem nodup_rowOf {entries : List ((κ × σ) × α)} (h : (entries.map Prod.fst).Nodup) (a : κ) :
    ((rowOf a entries).map Prod.fst).Nodup := by
  have hall : ((entries.filter fun e => e.1.1 = a).map Prod.fst).Nodup :=
    (List.filter_sublist.map Prod.fst).nodup h
  have hfirst : ∀ {e}, (e ∈ entries.filter fun e => e.1.1 = a) → e.1.1 = a := fun he =>
    of_decide_eq_true (List.mem_filter.1 he).2
  rw [rowOf, List.map_map, List.Nodup, List.pairwise_map]
  exact (List.pairwise_map.1 hall).imp_of_mem fun he he' hne heq =>
    hne (Prod.ext ((hfirst he).trans (hfirst he').symm) heq)

/-- What a table of pairs holds under the first key `a`. -/
def row (a : κ) (t : Table (κ × σ) α) : Table σ α := ⟨rowOf a t.entries, nodup_rowOf t.nodup a⟩

theorem mem_keys_row {a : κ} {k : σ} {t : Table (κ × σ) α} :
    k ∈ (t.row a).keys ↔ (a, k) ∈ t.keys :=
  mem_map_fst_rowOf

variable [DecidableEq σ]

/-- A value that is replaced is replaced in the row of its key. -/
theorem rowOf_replaced (a b : κ) (k : σ) (v : α) (entries : List ((κ × σ) × α)) :
    rowOf a (replaced (b, k) v entries) =
      if b = a then replaced k v (rowOf a entries) else rowOf a entries := by
  -- replacing changes no key, so it may come before or after the choice of a row
  have hkey : ∀ e : (κ × σ) × α, (if e.1 = (b, k) then ((b, k), v) else e).1 = e.1 := by
    intro e
    split
    · next he => exact he.symm
    · rfl
  have hrow : rowOf a (replaced (b, k) v entries) = (entries.filter fun e => e.1.1 = a).map
      fun e => (e.1.2, if e.1 = (b, k) then v else e.2) := by
    rw [rowOf, replaced, List.filter_map, List.map_map]
    refine congr (congrArg List.map ?_) (List.filter_congr fun e _ => ?_)
    · funext e
      by_cases he : e.1 = (b, k) <;> simp [he]
    · simp only [Function.comp_apply, hkey]
  rw [hrow]
  by_cases hb : b = a
  · subst hb
    rw [if_pos rfl, rowOf, replaced, List.map_map]
    refine List.map_congr_left fun e he => ?_
    have hb : e.1.1 = b := of_decide_eq_true (List.mem_filter.1 he).2
    by_cases hk : e.1.2 = k <;> simp [Prod.ext_iff, hb, hk]
  · rw [if_neg hb]
    refine List.map_congr_left fun e he => ?_
    have ha : e.1.1 = a := of_decide_eq_true (List.mem_filter.1 he).2
    rw [if_neg fun he => hb ((congrArg Prod.fst he).symm.trans ha)]

/-- An entry that is taken out is taken out of the row of its key. -/
theorem rowOf_filter_ne (a b : κ) (k : σ) (entries : List ((κ × σ) × α)) :
    rowOf a (entries.filter (·.1 ≠ (b, k))) =
      if b = a then (rowOf a entries).filter (·.1 ≠ k) else rowOf a entries := by
  rw [rowOf, rowOf, List.filter_map, List.filter_filter, List.filter_filter]
  by_cases hb : b = a
  · subst hb
    rw [if_pos rfl]
    refine congrArg (List.map _) (List.filter_congr fun e _ => ?_)
    by_cases he : e.1.1 = b <;> simp [Prod.ext_iff, he]
  · rw [if_neg hb]
    refine congrArg (List.map _) (List.filter_congr fun e _ => ?_)
    by_cases he : e.1.1 = a
    · simp [Prod.ext_iff, he, Ne.symm hb]
    · simp [he]

theorem row_insert (a b : κ) (k : σ) (v : α) (t : Table (κ × σ) α) :
    (t.insert (b, k) v).row a = if b = a then (t.row a).insert k v else t.row a := by
  refine Table.ext ?_
  by_cases hk : (b, k) ∈ t.keys
  · have hrow := rowOf_replaced a b k v t.entries
    rw [← entries_insert_of_mem hk] at hrow
    by_cases hb : b = a
    · subst hb
      rw [if_pos rfl] at hrow ⊢
      rw [entries_insert_of_mem (mem_keys_row.2 hk)]
      exact hrow
    · rw [if_neg hb] at hrow ⊢
      exact hrow
  · have hrow := rowOf_append a t.entries [((b, k), v)]
    rw [← entries_insert_of_notMem hk] at hrow
    by_cases hb : b = a
    · subst hb
      rw [if_pos rfl, entries_insert_of_notMem fun h => hk (mem_keys_row.1 h)]
      refine hrow.trans (congrArg (rowOf b t.entries ++ ·) ?_)
      simp [rowOf]
    · rw [if_neg hb]
      refine hrow.trans ?_
      simp [rowOf, hb, row]

theorem row_erase (a b : κ) (k : σ) (t : Table (κ × σ) α) :
    (t.erase (b, k)).row a = if b = a then (t.row a).erase k else t.row a := by
  refine Table.ext ((rowOf_filter_ne a b k t.entries).trans ?_)
  split <;> rfl

end Table

namespace Store

/-! ## Replays -/

/-- An entry of the log does to the row of its process what it does to the channels of it. -/
theorem row_replay (p : Id) (t : Table (Id × Sym) Endpoint) (b : Binding) :
    (replay t b).row p = if b.process = p then replayOwn (t.row p) b else t.row p := by
  unfold replay replayOwn
  by_cases hi : b.isIntro = true
  · rw [if_pos hi, if_pos hi, Table.row_insert]
  · rw [if_neg hi, if_neg hi, Table.row_erase]

/-- The channels of a process are its row of all bindings, whatever the log is. -/
theorem channelsIn_eq_row (log : List Binding) (p : Id) :
    channelsIn log p = (bindingsIn log).row p := by
  suffices h : ∀ t : Table (Id × Sym) Endpoint,
      (log.filter fun b => b.process = p).foldl replayOwn (t.row p) =
        (log.foldl replay t).row p from h ∅
  induction log with
  | nil => exact fun _ => rfl
  | cons b rest ih =>
    intro t
    rw [List.foldl_cons, ← ih, row_replay]
    by_cases hb : b.process = p
    · rw [List.filter_cons_of_pos (by simpa using hb), List.foldl_cons, if_pos hb]
    · rw [List.filter_cons_of_neg (by simpa using hb), if_neg hb]

/-! ## Coming home -/

/-- What a binding of process `p` is replaced by when a channel comes home: the home, if it is of
that channel and the process and its pool exist. -/
def broughtTo (s : Store) (home : Endpoint) (p : Id) (e : Endpoint) : Endpoint :=
  if e.channel = home.channel ∧ s.settled p = true then home else e

/-- A channel comes home in place. -/
theorem bindings_rehome {s : Store} (hs : s.SizedPools) (home : Endpoint) :
    (s.rehome home).bindings.entries =
      s.bindings.entries.map fun b => (b.1, s.broughtTo home b.1.1 b.2) :=
  Table.entries_eq_map (keys_bindings_rehome hs home) fun k =>
    live_rehome_settled (fun _ _ _ _ _ _ => sized_of_settled hs) k.1 k.2

/-- A channel comes home in place, for each process by itself too. -/
theorem channelsOf_rehome {s : Store} (hs : s.SizedPools) (home : Endpoint) (p : Id) :
    ((s.rehome home).channelsOf p).entries =
      (s.channelsOf p).entries.map fun b => (b.1, s.broughtTo home p b.2) := by
  have hrow : ((s.rehome home).channelsOf p).entries =
      Table.rowOf p (s.rehome home).bindings.entries :=
    congrArg Table.entries (channelsIn_eq_row (s.rehome home).log p)
  have hrow' : (s.channelsOf p).entries = Table.rowOf p s.bindings.entries :=
    congrArg Table.entries (channelsIn_eq_row s.log p)
  rw [hrow, hrow', bindings_rehome hs, Table.rowOf, Table.rowOf, List.filter_map, List.map_map,
    List.map_map]
  refine List.map_congr_left fun b hb => ?_
  have hp : b.1.1 = p := of_decide_eq_true (List.mem_filter.1 hb).2
  rw [Function.comp_apply, Function.comp_apply, hp]

/-- **The two replays of the binding log agree.** For every log, what one process sees is its row of
all bindings: the same placeholders, in the same order, with the same endpoints. And where the
stamps of all pools keep their sign, a channel that comes home does so in both: each binding keeps
its place and its placeholder, and its endpoint is replaced by the home if it is of that channel and
of a process whose pool exists. -/
theorem replays_agree (s : Store) (home : Endpoint)
    (hs : ∀ q pool, s.pools.get? q = some pool →
      1 ≤ pool.rev.value ∧ pool.rev.value ≤ 2 ^ 63 - 1) :
    (∀ log p, channelsIn log p = (bindingsIn log).row p) ∧
    (s.rehome home).bindings.entries =
      s.bindings.entries.map (fun b => (b.1, s.broughtTo home b.1.1 b.2)) ∧
    ∀ p, ((s.rehome home).channelsOf p).entries =
      (s.channelsOf p).entries.map fun b => (b.1, s.broughtTo home p b.2) := by
  have hsized : s.SizedPools := fun q pool hq =>
    ⟨(hs q pool hq).1, Nat.lt_of_le_of_lt (hs q pool hq).2 (by decide)⟩
  exact ⟨channelsIn_eq_row, bindings_rehome hsized home, channelsOf_rehome hsized home⟩

/-- Entries of two processes and of a stranger, where a placeholder is bound again after it was
consumed: the home replaces the first and the last binding of its channel, not the stranger's. -/
theorem replays_agree_interleaved :
    let ep (c : Nat) : Endpoint := ⟨.nth c, .nth 20, .nth 21⟩
    let home : Endpoint := ⟨.nth 10, .nth 20, .nth 2⟩
    let s : Store := { (∅ : Store) with
      members := Table.ofList [(.nth 5, ⟨.nth 5, .nth 1, .nth 0⟩),
        (.nth 6, ⟨.nth 6, .nth 2, .nth 0⟩)]
      pools := Table.ofList [(.nth 1, ⟨.nth 1, none, none, ⟨7⟩⟩),
        (.nth 2, ⟨.nth 2, none, none, ⟨9⟩⟩)]
      log := [⟨.nth 5, "x", ep 10, 2⟩, ⟨.nth 6, "x", ep 11, 2⟩, ⟨.nth 5, "y", ep 12, 3⟩,
        ⟨.nth 7, "x", ep 10, 3⟩, ⟨.nth 5, "x", ep 10, -4⟩, ⟨.nth 6, "z", ep 10, 4⟩,
        ⟨.nth 5, "x", ep 10, 4⟩] }
    channelsIn s.log (.nth 5) = (bindingsIn s.log).row (.nth 5) ∧
    (s.channelsOf (.nth 5)).entries = [("y", ep 12), ("x", ep 10)] ∧
    ((s.rehome home).channelsOf (.nth 5)).entries = [("y", ep 12), ("x", home)] ∧
    (s.rehome home).bindings.entries = [((.nth 6, "x"), ep 11), ((.nth 5, "y"), ep 12),
      ((.nth 7, "x"), ep 10), ((.nth 6, "z"), home), ((.nth 5, "x"), home)] := by
  intro ep home s
  have hpools : ∀ pool ∈ s.pools.values,
      1 ≤ pool.rev.value ∧ pool.rev.value ≤ 2 ^ 63 - 1 := by decide
  obtain ⟨hrow, hall, hown⟩ := replays_agree s home fun _ pool hp =>
    hpools pool (Table.mem_values_of_get?_eq_some hp)
  exact ⟨hrow s.log (.nth 5), by decide, (hown (.nth 5)).trans (by decide), hall.trans (by decide)⟩

end Store

end Rendezvous
