import Rendezvous.Proofs.Calls
import Rendezvous.Proofs.Creations
import Rendezvous.Proofs.Linear

/-!
# Runs

What holds in every engine that calls lead to from the empty store.

- `Store.New` is an id that a store knows nothing of; all ids that have not been handed out are new;
- `Store.Ages` is the order in which pools get older, and `Store.Young` says that no pool has come
  to revision `2 ^ 63`, where stamps turn their sign. If a store is young, so are all before it;
- `Engine.Valid` collects what every call keeps (`Valid.after`): the store is sound and knows nothing
  of ids that have not been handed out;
- `Engine.WellTyped` adds that its net is typed, which calls keep that leave types as they are;
- `Engine.Keeps` is an invariant of everything that calls do, under a condition on the steps that they
  try, and `Keeps.moments` the induction over runs.
-/

namespace Rendezvous

open Relation (ReflTransGen)

namespace Net

variable {D : Id → TypeNode → Prop} {n n' : Net} {c d : Id}

/-- Turns use the channel that is new, and no other that occurs nowhere. -/
theorem Unused.turn (hu : n.Unused d) (hd : d ≠ c) (ht : Turn D c n n') : n'.Unused d := by
  cases ht with
  | @emit p π via ep payload given he hc hidle hfree =>
    have hk : ∀ {k : Endpoint}, payload.cont? = some k → k.channel ≠ d := by
      intro k hk
      rw [(he.cont hk).1]
      exact Ne.symm hd
    refine { hu with live := ?_, message := ?_, value := ?_, cont := ?_ }
    · intro q ph e hl
      rcases acted_eq_some hl with ⟨-, -, hnext⟩ | ⟨-, hold⟩
      · exact hk hnext
      · exact hu.live hold
    · intro z m hm
      rcases update_eq_some hm with ⟨rfl, -⟩ | ⟨-, hold⟩
      · exact hu.live he.bound
      · exact hu.message hold
    · intro z m v hm hv
      rcases update_eq_some hm with ⟨rfl, hnew⟩ | ⟨-, hold⟩
      · cases hnew
        obtain ⟨ph, -, -, hl, -⟩ := he.value hv
        exact hu.live hl
      · exact hu.value hold hv
    · intro z m k hm hcont
      rcases update_eq_some hm with ⟨rfl, hnew⟩ | ⟨-, hold⟩
      · cases hnew
        exact hk hcont
      · exact hu.cont hold hcont
  | @await p π via ep handler node hhome hbound hnode hfits hside hidle hfree =>
    refine { hu with service := ?_ }
    intro z svc hs
    rcases update_eq_some hs with ⟨rfl, -⟩ | ⟨-, hold⟩
    · exact hu.live hbound
    · exact hu.service hold
  | @relay p π via target x y nx ny hhome hx hxp hy hyp hnx hny hshape hidle hfree =>
    refine { hu with live := ?_, source := ?_, target := ?_ }
    · intro q ph e hl
      rcases acted_eq_some hl with ⟨-, -, hnext⟩ | ⟨-, hold⟩
      · cases hnext
      · exact hu.live hold
    · intro w x' hf
      rcases update_eq_some hf with ⟨rfl, -⟩ | ⟨-, hold⟩
      · exact hu.live hy
      · exact hu.source hold
    · intro w x' hf
      rcases update_eq_some hf with ⟨-, hnew⟩ | ⟨-, hold⟩
      · cases hnew
        exact hu.live hx
      · exact hu.target hold
  | @carry x y m hf hm hfree =>
    refine { hu with message := ?_, value := ?_, cont := ?_, source := ?_, target := ?_ }
    · intro z m' hm'
      rcases moved_eq_some hm' with ⟨rfl, -⟩ | ⟨-, -, hm'⟩
      · exact hu.target hf
      · exact hu.message hm'
    · intro z m' v hm' hv
      rcases moved_eq_some hm' with ⟨-, rfl⟩ | ⟨-, -, hm'⟩
      · exact hu.value hm hv
      · exact hu.value hm' hv
    · intro z m' k hm' hk
      rcases moved_eq_some hm' with ⟨-, rfl⟩ | ⟨-, -, hm'⟩
      · exact hu.cont hm hk
      · exact hu.cont hm' hk
    · intro w x' hf'
      obtain ⟨-, hf'⟩ := erased_eq_some hf'
      exact hu.source hf'
    · intro w x' hf'
      obtain ⟨-, hf'⟩ := erased_eq_some hf'
      exact hu.target hf'
  | @usher x y svc hf hs hfree =>
    refine { hu with service := ?_, source := ?_, target := ?_ }
    · intro z svc' hs'
      rcases moved_eq_some hs' with ⟨rfl, -⟩ | ⟨-, -, hs'⟩
      · exact hu.target hf
      · exact hu.service hs'
    · intro w x' hf'
      obtain ⟨-, hf'⟩ := erased_eq_some hf'
      exact hu.source hf'
    · intro w x' hf'
      obtain ⟨-, hf'⟩ := erased_eq_some hf'
      exact hu.target hf'
  | @shorten x y w hf hg hne =>
    refine { hu with source := ?_, target := ?_ }
    · intro y' x' hf'
      rcases moved_eq_some hf' with ⟨rfl, -⟩ | ⟨-, -, hf'⟩
      · exact hu.source hf
      · exact hu.source hf'
    · intro y' x' hf'
      rcases moved_eq_some hf' with ⟨-, rfl⟩ | ⟨-, -, hf'⟩
      · exact hu.target hg
      · exact hu.target hf'
  | @meet z m svc term hm hs hr =>
    refine { hu with live := ?_, message := ?_, value := ?_, cont := ?_, service := ?_ }
    · intro q ph e hl
      rcases met_eq_some hl with ⟨k, -, -, hk, rfl⟩ | ⟨v, term, -, -, hv, rfl⟩ | ⟨e₀, -, hold, rfl⟩
      · rw [(continued_channel svc k).1]
        exact hu.cont hm hk
      · rw [homeward_channel]
        exact hu.value hm hv
      · rw [homeward_channel]
        exact hu.live hold
    · intro w m' hm'
      obtain ⟨-, hold⟩ := erased_eq_some hm'
      exact hu.message hold
    · intro w m' v hm' hv
      obtain ⟨-, hold⟩ := erased_eq_some hm'
      exact hu.value hold hv
    · intro w m' k hm' hk
      obtain ⟨-, hold⟩ := erased_eq_some hm'
      exact hu.cont hold hk
    · intro w svc' hs'
      obtain ⟨-, hold⟩ := erased_eq_some hs'
      exact hu.service hold

/-- A new process uses the channel that it provides, and no other that occurs nowhere. -/
theorem Unused.born (hu : n.Unused d) {q pool : Id} {provision : Endpoint}
    (hb : n.Born n' q pool provision) (hd : d ≠ provision.channel)
    (hlive : ∀ {p : Id} {ph : Sym} {e : Endpoint}, n'.live p ph = some e →
      e = provision ∨ ∃ p' ph', n.live p' ph' = some e) : n'.Unused d := by
  have hmessage : ∀ {z : Id} {m : Message}, n'.message z = some m → n.message z = some m := by
    intro z m hm
    rwa [hb.message] at hm
  have hforward : ∀ {y x : Id}, n'.forward y = some x → n.forward y = some x := by
    intro y x hf
    rwa [hb.forward] at hf
  refine ⟨?_, fun hm => hu.message (hmessage hm), fun hm => hu.value (hmessage hm),
    fun hm => hu.cont (hmessage hm), ?_, fun hf => hu.source (hforward hf),
    fun hf => hu.target (hforward hf)⟩
  · intro p ph e hl
    rcases hlive hl with rfl | ⟨p', ph', hold⟩
    · exact Ne.symm hd
    · exact hu.live hold
  · intro z svc hs
    rw [hb.service] at hs
    exact hu.service hs

end Net

/-! ## Declarations -/

namespace Registry

variable {r r' : Registry}

theorem get?_addNodes_of_ne {nodes : Table Id TypeNode} {recs : List TypeRec} {id : Id}
    (h : ∀ rec ∈ recs, rec.id ≠ id) : (addNodes nodes recs).get? id = nodes.get? id :=
  Table.get?_foldl_insert_of_ne h

/-- New nodes take nothing away. -/
theorem get?_addNodes_of_get? {nodes : Table Id TypeNode} {recs : List TypeRec}
    (hrecs : ∀ rec ∈ recs, nodes.get? rec.id = none) {id : Id} {n : TypeNode}
    (h : nodes.get? id = some n) : (addNodes nodes recs).get? id = some n := by
  rw [get?_addNodes_of_ne, h]
  rintro rec hrec rfl
  cases (hrecs rec hrec).symm.trans h

/-- A new declaration takes away nothing, if its ids are new. -/
theorem grows_of_declareType {decl : TypeDecl} {recs : List TypeRec}
    (h : r.declareType decl recs = .ok r') (hdecl : r.types.get? decl.id = none)
    (hrecs : ∀ rec ∈ recs, r.nodes.get? rec.id = none) : r.Grows r' := by
  unfold declareType at h
  split at h
  · cases h
  next hname =>
  cases h
  refine ⟨get?_addNodes_of_get? hrecs, fun {name decl'} hd => ?_, fun hsig => hsig⟩
  obtain ⟨id, hid, hdecl'⟩ := Option.bind_eq_some_iff.1 hd
  have hne : name ≠ decl.title := by
    rintro rfl
    exact hname ((Table.contains_eq_true_iff _).2 ⟨id, hid⟩)
  have hne' : id ≠ decl.id := by
    rintro rfl
    rw [hdecl] at hdecl'
    cases hdecl'
  refine Option.bind_eq_some_iff.2 ⟨id, ?_, ?_⟩
  · show (r.typeNames.insert decl.title decl.id).get? name = some id
    rw [Table.get?_insert, if_neg hne, hid]
  · show (r.types.insert decl.id decl).get? id = some decl'
    rw [Table.get?_insert, if_neg hne', hdecl']

theorem grows_of_declareSig {sig : Signature} (h : r.declareSig sig = .ok r')
    (hsig : r.sigs.get? sig.id = none) : r.Grows r' := by
  unfold declareSig at h
  split at h
  · cases h
  cases h
  refine ⟨fun hn => hn, fun hd => hd, ?_⟩
  intro id sig' hs
  show (r.sigs.insert sig.id sig).get? id = some sig'
  rw [Table.get?_insert, if_neg, hs]
  rintro rfl
  rw [hsig] at hs
  cases hs

/-- An id that nothing is declared under. -/
structure New (r : Registry) (id : Id) : Prop where
  type : r.types.get? id = none
  node : r.nodes.get? id = none
  sig : r.sigs.get? id = none

theorem New.declareType {decl : TypeDecl} {recs : List TypeRec} {id : Id} (hn : r.New id)
    (h : r.declareType decl recs = .ok r') (hdecl : decl.id ≠ id)
    (hrecs : ∀ rec ∈ recs, rec.id ≠ id) : r'.New id := by
  unfold Registry.declareType at h
  split at h
  · cases h
  cases h
  refine ⟨?_, ?_, hn.sig⟩
  · show (r.types.insert decl.id decl).get? id = none
    rw [Table.get?_insert, if_neg (Ne.symm hdecl), hn.type]
  · show (addNodes r.nodes recs).get? id = none
    rw [get?_addNodes_of_ne hrecs, hn.node]

theorem New.redefineType {decl : TypeDecl} {rev : Rev} {recs : List TypeRec} {id : Id}
    (hn : r.New id) (h : r.redefineType decl rev recs = .ok r')
    (hrecs : ∀ rec ∈ recs, rec.id ≠ id) : r'.New id := by
  unfold Registry.redefineType at h
  split at h
  · cases h
  next stored hstored =>
  split at h
  · cases h
  cases h
  refine ⟨?_, ?_, hn.sig⟩
  · show (r.types.insert decl.id decl).get? id = none
    rw [Table.get?_insert, if_neg, hn.type]
    rintro rfl
    rw [hn.type] at hstored
    cases hstored
  · show (addNodes r.nodes recs).get? id = none
    rw [get?_addNodes_of_ne hrecs, hn.node]

theorem New.declareSig {sig : Signature} {id : Id} (hn : r.New id)
    (h : r.declareSig sig = .ok r') (hsig : sig.id ≠ id) : r'.New id := by
  unfold Registry.declareSig at h
  split at h
  · cases h
  cases h
  refine ⟨hn.type, hn.node, ?_⟩
  show (r.sigs.insert sig.id sig).get? id = none
  rw [Table.get?_insert, if_neg (Ne.symm hsig), hn.sig]

end Registry

/-! ## Stores -/

namespace Store

variable {s s' : Store}

/-- An id that a store knows nothing of. -/
structure New (s : Store) (id : Id) : Prop where
  unused : s.net.Unused id
  home : s.poolOf? id = none
  pool : s.pools.get? id = none
  decl : s.decls.New id

/-- Pools stay, and their revisions do not fall. -/
def Ages (s s' : Store) : Prop := ∀ {q : Id} {pool : Pool}, s.pools.get? q = some pool →
  ∃ pool', s'.pools.get? q = some pool' ∧ pool.rev.value ≤ pool'.rev.value

/-- No pool has come to a revision whose stamp is negative. -/
def Young (s : Store) : Prop := ∀ (q : Id) (pool : Pool), s.pools.get? q = some pool →
  pool.rev.value < 2 ^ 63

theorem young_of_values (h : ∀ pool ∈ s.pools.values, pool.rev.value < 2 ^ 63) : s.Young :=
  fun _ pool hp => h pool (Table.mem_values_of_get?_eq_some hp)

theorem Young.of_ages (h : s'.Young) (ha : s.Ages s') : s.Young := by
  intro q pool hp
  obtain ⟨pool', hp', hle⟩ := ha hp
  have hlt := h q pool' hp'
  omega

/-- Committing moves locked pools on. -/
theorem ages_of_commit {m : Change} (h : s.commit m = .ok s') : s.Ages s' := by
  obtain ⟨hl, hn, -, rfl⟩ := commit_eq_ok_iff.1 h
  intro q pool hp
  have hne : ∀ new ∈ m.pools, new.id ≠ q := by
    rintro new hnew rfl
    rw [hn new hnew] at hp
    cases hp
  rw [get?_pools_apply hl hne, hp]
  refine ⟨_, rfl, ?_⟩
  dsimp only
  split
  · show pool.rev.value ≤ pool.rev.value + 1
    omega
  · exact Nat.le_refl _

theorem ages_of_addPool {pool : Pool} (h : s.addPool pool = .ok s') : s.Ages s' := by
  unfold addPool at h
  split at h
  · cases h
  next hnew =>
  cases h
  intro q old hp
  refine ⟨old, ?_, Nat.le_refl _⟩
  show (s.pools.insert pool.id pool).get? q = some old
  rw [Table.get?_insert, if_neg, hp]
  rintro rfl
  exact hnew ((Table.contains_eq_true_iff _).2 ⟨old, hp⟩)

/-- Handing a pool on moves it on, and does nothing else to pools. -/
theorem get?_pools_addLiability {l : Liability} {rev : Rev} (h : s.addLiability l rev = .ok s') :
    ∃ pool, s.pools.get? l.pool = some pool ∧
      s' = { s with
        pools := s.pools.insert l.pool pool.bumped, liabilities := s.liabilities ++ [l] } := by
  unfold addLiability at h
  split at h
  · cases h
  next pool hp =>
  split at h
  · cases h
  next hrev =>
  cases h
  have hrev := Decidable.not_not.1 hrev
  subst hrev
  exact ⟨pool, hp, rfl⟩

theorem ages_of_addLiability {l : Liability} {rev : Rev} (h : s.addLiability l rev = .ok s') :
    s.Ages s' := by
  obtain ⟨pool, hp, rfl⟩ := get?_pools_addLiability h
  intro q old hq
  show ∃ pool', (s.pools.insert l.pool pool.bumped).get? q = some pool' ∧ _
  rw [Table.get?_insert]
  by_cases hl : q = l.pool
  · subst hl
    cases hp.symm.trans hq
    rw [if_pos rfl]
    refine ⟨_, rfl, ?_⟩
    show pool.rev.value ≤ pool.rev.value + 1
    omega
  · rw [if_neg hl]
    exact ⟨old, hq, Nat.le_refl _⟩

/-- Processes and what they are bound to are left as they were. -/
structure Leaves (s s' : Store) : Prop where
  members : s'.members = s.members
  log : s'.log = s.log
  halves : s'.halves = s.halves

theorem Leaves.poolOf? (h : s.Leaves s') : s'.poolOf? = s.poolOf? := by
  funext p
  rw [Store.poolOf?, h.members]
  rfl

theorem Leaves.live (h : s.Leaves s') : s'.live = s.live := by
  unfold Store.live Store.bindings
  rw [h.log]

theorem Leaves.net (h : s.Leaves s') : s'.net = s.net := by
  rw [Store.net, h.live, h.halves, h.poolOf?]
  rfl

theorem leaves_of_addPool {pool : Pool} (h : s.addPool pool = .ok s') : s.Leaves s' := by
  unfold addPool at h
  split at h
  · cases h
  · rw [← Except.ok.inj h]
    exact ⟨rfl, rfl, rfl⟩

theorem leaves_of_addLiability {l : Liability} {rev : Rev} (h : s.addLiability l rev = .ok s') :
    s.Leaves s' := by
  obtain ⟨pool, -, rfl⟩ := get?_pools_addLiability h
  exact ⟨rfl, rfl, rfl⟩

/-- New pools start with a positive revision, so all pools keep theirs. -/
theorem bounded_of_commit {m : Change} (hb : s.Bounded) (h : s.commit m = .ok s') (hy : s'.Young)
    (hone : m.pools.length ≤ 1) (hpos : ∀ pool ∈ m.pools, 0 < pool.rev.value) : s'.Bounded := by
  obtain ⟨hl, -, -, rfl⟩ := commit_eq_ok_iff.1 h
  intro q pool hp
  refine ⟨?_, hy q pool hp⟩
  by_cases hnew : ∃ new ∈ m.pools, new.id = q
  · obtain ⟨new, hnew, rfl⟩ := hnew
    obtain ⟨new', hm⟩ : ∃ new', m.pools = [new'] := by
      match hm : m.pools, hone with
      | [new'], _ => exact ⟨new', rfl⟩
      | [], _ => rw [hm] at hnew; cases hnew
    rw [hm] at hnew
    rw [List.mem_singleton.1 hnew, get?_pools_apply_new hm] at hp
    cases hp
    exact hpos _ (by rw [hm]; exact List.mem_singleton_self _)
  · have hne : ∀ new ∈ m.pools, new.id ≠ q := fun new hm he => hnew ⟨new, hm, he⟩
    rw [get?_pools_apply hl hne] at hp
    obtain ⟨old, hold, rfl⟩ := Option.map_eq_some_iff.1 hp
    have hpos := (hb hold).1
    split
    · show 0 < old.rev.value + 1
      omega
    · exact hpos

/-- So do they after a plan whose new pools are at their first revision. -/
theorem bounded_of_fills {pl : Plan} {m : Change} (hb : s.Bounded) (hfills : pl.Fills m)
    (hone : pl.pools.length ≤ 1) (hinitial : ∀ pool ∈ pl.pools, pool.rev = .initial)
    (hc : s.commit m = .ok s') (hy : s'.Young) : s'.Bounded := by
  intro q pool hq
  refine bounded_of_commit hb hc hy (hfills.pools ▸ hone) (fun new hnew => ?_) hq
  rw [hfills.pools] at hnew
  rw [hinitial new hnew]
  exact Nat.one_pos

/-- An id stays new if nothing that is done is about it. -/
theorem New.commits {new id : Id} {pl : Plan} (hn : s.New id) (hh : s.Homes new pl)
    (hc : s.Commits s' pl) (hne : id ≠ new) (hpools : ∀ pool ∈ pl.pools, pool.id ≠ id)
    (hu : s'.net.Unused id) : s'.New id := by
  refine ⟨hu, ?_, ?_, ?_⟩
  · rcases poolOf?_of_commits hh hc with ⟨-, hp⟩ | ⟨q, sig, -, -, hp⟩
    · rw [hp, hn.home]
    · rw [hp, Function.update_of_ne hne, hn.home]
  · cases hp : s'.pools.get? id with
    | none => rfl
    | some pool =>
      rcases hc.back hp with ⟨old, hold, -⟩ | ⟨hmem, hid⟩
      · rw [hn.pool] at hold
        cases hold
      · exact absurd hid (hpools pool hmem)
  · rw [hc.decls]
    exact hn.decl

end Store

/-! ## Nets along a run -/

namespace Net

variable {D : Id → TypeNode → Prop} {τ : Id → Id} {n n' : Net} {c d : Id}

theorem Unused.turns (hu : n.Unused d) (hd : d ≠ c) (h : ReflTransGen (Turn D c) n n') :
    n'.Unused d := by
  induction h with
  | refl => exact hu
  | tail _ hturn ih => exact ih.turn hd hturn

theorem Typed.turns (hD : Functional D) (ht : n.Typed D τ) (h : ReflTransGen (Turn D c) n n') :
    ∃ τ', n'.Typed D τ' := by
  induction h with
  | refl => exact ⟨τ, ht⟩
  | tail _ hturn ih =>
    obtain ⟨τ', ht'⟩ := ih
    obtain ⟨τ'', -, ht''⟩ := ht'.turn hD hturn
    exact ⟨τ'', ht''⟩

theorem Linear.turns (hl : n.Linear) (hD : Functional D) (ht : n.Typed D τ)
    (h : ReflTransGen (Turn D c) n n') : n'.Linear := by
  induction h with
  | refl => exact hl
  | tail hturns hturn ih =>
    obtain ⟨τ', ht'⟩ := ht.turns hD hturns
    exact ih.turn hD ht' hturn

end Net

/-! ## Steps and creations of a valid engine -/

namespace Store

variable {s s' : Store} {fresh : Fresh} {m : Change}

/-- What has happened when a step was derived and committed. -/
structure Steps (s s' : Store) (fresh : Fresh) (spec : StepSpec) (next : Option StepSpec)
    (pl : Plan) : Prop where
  derives : ∃ cfg env, s.Derives fresh spec cfg env pl ∧ cfg.pool = spec.pool
  fills : ∃ m, s.deriveStep fresh spec = .ok (next, m) ∧ pl.Fills m
  next_eq : pl.next = next
  commits : s.Commits s' pl
  sound : s'.Sound
  bounded : s'.Bounded
  /-- The net takes turns, or a new process is founded in it. -/
  net : pl.members = [] ∧
      ReflTransGen (Net.Turn s.decls.Denotes fresh.channel) s.net s'.net ∨
    ∃ pool via ph provision gifts,
      s.net.Founds s'.net spec.process spec.pool fresh.process pool via ph provision gifts ∧
        provision.channel = fresh.channel ∧ (spec.term.operation ≠ .spawn → pool = fresh.pool)

theorem exists_steps (hs : s.Sound) (hb : s.Bounded) {spec : StepSpec} {next : Option StepSpec}
    (h : s.deriveStep fresh spec = .ok (next, m)) (hc : s.commit m = .ok s') (hy : s'.Young)
    (hu : s.net.Unused fresh.channel) (hfresh : s.poolOf? fresh.process = none) :
    ∃ pl, s.Steps s' fresh spec next pl := by
  obtain ⟨cfg, env, pl, hd, hnext, hdraft⟩ := exists_derives hs.toKeyed h
  have hfills := (Plan.drafts_of_draft? hdraft).toFills
  obtain ⟨hone, hinitial⟩ := pools_of_moves hd.moves
  have hb' : s'.Bounded := bounded_of_fills hb hfills hone hinitial hc hy
  have hhomes := homes_of_derives hs hd
  have hcommits := commits_of_homes hs hhomes hfresh hfills hone hc hb'
  have hsound := sound_of_commits hs hhomes hcommits hfresh
  refine ⟨pl, ⟨cfg, env, hd, hd.pool⟩, ⟨m, h, hfills⟩, hnext, hcommits, hsound, hb', ?_⟩
  by_cases hmem : pl.members = []
  · exact .inl ⟨hmem, turns_of_derives hs hd hcommits hu hmem⟩
  · rw [← hd.pool]
    exact .inr (founds_of_derives hs hd hcommits hu hfresh hmem)

/-- What has happened when a creation was derived and committed. -/
structure Creating (s s' : Store) (fresh : Fresh) (c : Creation) (sig : Signature)
    (provision : Endpoint) (receptions : List (Sym × Endpoint)) : Prop where
  declared : s.decls.sigs.get? c.sig = some sig
  channel : provision.channel = fresh.channel
  pool : ∃ pool, s.pools.get? c.pool = some pool
  placed : receptions.map Prod.fst = sig.receptions.map Parameter.placeholder
  receives : s.Receives c.pool c.values receptions
  commits : s.Commits s' (creationPlan fresh.process c.pool sig.id sig.provision.placeholder
    provision receptions)
  sound : s'.Sound
  bounded : s'.Bounded
  net : s.net.Creates s'.net fresh.process c.pool sig.provision.placeholder provision receptions

theorem exists_creating (hs : s.Sound) (hb : s.Bounded) {c : Creation} {ref : ProcRef}
    (h : s.deriveCreation fresh c = .ok (ref, m)) (hc : s.commit m = .ok s') (hy : s'.Young)
    (hu : s.net.Unused fresh.channel) (hfresh : s.poolOf? fresh.process = none) :
    ref = ⟨fresh.process, c.pool, fresh.channel⟩ ∧
      ∃ sig provision receptions, s.Creating s' fresh c sig provision receptions := by
  have hb' : s'.Bounded := by
    obtain ⟨sig, pool, provision, receptions, -, -, -, -, -, -, -, hfills⟩ :=
      exists_creationPlan hs.toKeyed h
    exact bounded_of_fills hb hfills (Nat.zero_le 1) (List.forall_mem_nil _) hc hy
  obtain ⟨sig, provision, receptions, hsig, hch, href, hpool, hplaced, hrec, hcommits, hsound,
    hnet⟩ := creates_of_deriveCreation hs h hc hb' hu hfresh
  exact ⟨href, sig, provision, receptions, hsig, hch, hpool, hplaced, hrec, hcommits, hsound, hb',
    hnet⟩

end Store

namespace Engine

variable {e e' : Engine}

/-- What every engine keeps. -/
structure Valid (e : Engine) : Prop where
  sound : e.store.Sound
  bounded : e.store.Bounded
  /-- What has not been handed out is not in use. -/
  new : ∀ {id : Id}, e.ids.next ≤ id.value → e.store.New id

/-- What engines keep as long as types stay what they are. -/
structure WellTyped (e : Engine) : Prop extends e.Valid where
  typed : ∃ τ, e.store.net.Typed e.store.decls.Denotes τ

theorem wellTyped_start (settings : Settings) (ids : Supply) : (start settings ids).WellTyped where
  sound := {
    pools := nofun
    halves := nofun
    members := nofun
    live := nofun
    owners := nofun }
  bounded := nofun
  new _ := ⟨⟨nofun, nofun, nofun, nofun, nofun, nofun, nofun⟩, rfl, rfl, rfl, rfl, rfl⟩
  typed := ⟨id, nofun, nofun, nofun, nofun, nofun, nofun, nofun, nofun⟩

/-- Declarations are not about processes. -/
theorem Declares.leaves (h : e.Declares e') : e.store.Leaves e'.store := by
  cases h with
  | nothing hs => exact ⟨by rw [hs], by rw [hs], by rw [hs]⟩
  | type _ hs => exact ⟨by rw [hs], by rw [hs], by rw [hs]⟩
  | sig _ hs => exact ⟨by rw [hs], by rw [hs], by rw [hs]⟩
  | pool h => exact Store.leaves_of_addPool h

theorem Declares.net_eq (h : e.Declares e') : e'.store.net = e.store.net := h.leaves.net

theorem Declares.next_le (h : e.Declares e') : e.ids.next ≤ e'.ids.next := by
  cases h <;> assumption

theorem Redefines.leaves (h : e.Redefines e') : e.store.Leaves e'.store := by
  cases h with
  | nothing hs => exact ⟨by rw [hs], by rw [hs], by rw [hs]⟩
  | type _ hs => exact ⟨by rw [hs], by rw [hs], by rw [hs]⟩

theorem Redefines.net_eq (h : e.Redefines e') : e'.store.net = e.store.net := h.leaves.net

theorem Declares.ages (h : e.Declares e') : e.store.Ages e'.store := by
  cases h with
  | nothing hs =>
    rw [hs]
    exact fun hp => ⟨_, hp, Nat.le_refl _⟩
  | type h hs =>
    rw [hs]
    exact fun hp => ⟨_, hp, Nat.le_refl _⟩
  | sig h hs =>
    rw [hs]
    exact fun hp => ⟨_, hp, Nat.le_refl _⟩
  | pool h => exact Store.ages_of_addPool h

theorem Redefines.ages (h : e.Redefines e') : e.store.Ages e'.store := by
  cases h with
  | nothing hs =>
    rw [hs]
    exact fun hp => ⟨_, hp, Nat.le_refl _⟩
  | type h hs =>
    rw [hs]
    exact fun hp => ⟨_, hp, Nat.le_refl _⟩

theorem Event.ages (h : e.Event e') : e.store.Ages e'.store := by
  cases h with
  | declares h => exact h.ages
  | addLiability h => exact Store.ages_of_addLiability h
  | step h hc => exact Store.ages_of_commit hc

theorem Created.ages {c : Creation} {ref : ProcRef} (h : e.Created e' c ref) :
    e.store.Ages e'.store := by
  obtain ⟨m, -, hc⟩ := h.committed
  exact Store.ages_of_commit hc

theorem ages_of_events (h : ReflTransGen Event e e') : e.store.Ages e'.store := by
  induction h with
  | refl => exact fun hp => ⟨_, hp, Nat.le_refl _⟩
  | tail _ hevent ih =>
    intro q pool hp
    obtain ⟨pool', hp', hle⟩ := ih hp
    obtain ⟨pool'', hp'', hle'⟩ := hevent.ages hp'
    exact ⟨pool'', hp'', Nat.le_trans hle hle'⟩

/-- The ids of a step have been handed out when it is over. -/
theorem fresh_lt (e : Engine) : e.ids.next ≤ e.ids.fresh.channel.value ∧
    e.ids.next ≤ e.ids.fresh.process.value ∧ e.ids.next ≤ e.ids.fresh.pool.value ∧
    e.ids.fresh.channel.value < e.ids.afterFresh.next ∧
    e.ids.fresh.process.value < e.ids.afterFresh.next ∧
    e.ids.fresh.pool.value < e.ids.afterFresh.next := by
  have h₁ := e.ids.next_lt_next_rest
  have h₂ := e.ids.rest.next_lt_next_rest
  have h₃ := e.ids.rest.rest.next_lt_next_rest
  show e.ids.next ≤ e.ids.next ∧ e.ids.next ≤ e.ids.rest.next ∧ e.ids.next ≤ e.ids.rest.rest.next ∧
    e.ids.next < e.ids.rest.rest.rest.next ∧ e.ids.rest.next < e.ids.rest.rest.rest.next ∧
    e.ids.rest.rest.next < e.ids.rest.rest.rest.next
  omega

/-- Other declarations keep an engine valid. -/
theorem Valid.declare (hv : e.Valid) {r : Registry} (hs : e'.store = { e.store with decls := r })
    (hi : e.ids.next ≤ e'.ids.next) (hnew : ∀ id : Id, e'.ids.next ≤ id.value → r.New id) :
    e'.Valid := by
  obtain ⟨store', ids', settings', journal'⟩ := e'
  cases hs
  refine ⟨⟨⟨hv.sound.pools, hv.sound.halves⟩, hv.sound.members, hv.sound.live,
    hv.sound.owners⟩, hv.bounded, ?_⟩
  intro id hid
  have hn := hv.new (Nat.le_trans hi hid)
  exact ⟨hn.unused, hn.home, hn.pool, hnew id hid⟩

/-- So do pools that are new or have moved on. -/
theorem Valid.insertPool (hv : e.Valid) (pool : Pool) (liabilities : List Liability)
    (hs : e'.store = { e.store with pools := e.store.pools.insert pool.id pool, liabilities })
    (hi : e.ids.next ≤ e'.ids.next) (hsized : pool.rev.Sized)
    (hpool : pool.id.value < e'.ids.next) : e'.Valid := by
  obtain ⟨store', ids', settings', journal'⟩ := e'
  cases hs
  have hget : ∀ q, (e.store.pools.insert pool.id pool).get? q =
      if q = pool.id then some pool else e.store.pools.get? q :=
    fun q => e.store.pools.get?_insert pool.id q pool
  refine ⟨⟨⟨?_, hv.sound.halves⟩, ?_, hv.sound.live, hv.sound.owners⟩, ?_, ?_⟩
  · intro q pool' hp
    rw [hget] at hp
    split at hp
    · next hq =>
      cases hp
      exact hq.symm
    · exact hv.sound.pools hp
  · intro p q hp
    show ∃ pool', (e.store.pools.insert pool.id pool).get? q = some pool'
    rw [hget]
    split
    · exact ⟨pool, rfl⟩
    · exact hv.sound.members hp
  · intro q pool' hp
    rw [hget] at hp
    split at hp
    · cases hp
      exact hsized
    · exact hv.bounded hp
  · intro id hid
    have hn := hv.new (Nat.le_trans hi hid)
    refine ⟨hn.unused, hn.home, ?_, hn.decl⟩
    show (e.store.pools.insert pool.id pool).get? id = none
    rw [hget, if_neg, hn.pool]
    rintro rfl
    omega

/-- What a creation has done to the store of a valid engine. -/
theorem Valid.creating (hv : e.Valid) {c : Creation} {ref : ProcRef} (h : e.Created e' c ref)
    (hy : e'.store.Young) : ref = ⟨e.ids.fresh.process, c.pool, e.ids.fresh.channel⟩ ∧
      ∃ sig provision receptions,
        e.store.Creating e'.store e.ids.fresh c sig provision receptions := by
  obtain ⟨m, hd, hc⟩ := h.committed
  obtain ⟨hch, hpr, -⟩ := e.fresh_lt
  exact Store.exists_creating hv.sound hv.bounded hd hc hy (hv.new hch).unused (hv.new hpr).home

theorem Valid.created (hv : e.Valid) {c : Creation} {ref : ProcRef} (h : e.Created e' c ref)
    (hy : e'.store.Young) : e'.Valid := by
  obtain ⟨hch, hpr, -, hch', hpr', -⟩ := e.fresh_lt
  obtain ⟨-, sig, provision, receptions, hcr⟩ := hv.creating h hy
  have hi := h.ids
  refine ⟨hcr.sound, hcr.bounded, ?_⟩
  intro id hid
  rw [hi] at hid
  have hlt := e.ids.next_lt_next_afterFresh
  have hn := hv.new (Nat.le_trans (Nat.le_of_lt hlt) hid)
  refine hn.commits Store.homes_of_creation hcr.commits ?_ nofun
    (hn.unused.born hcr.net.toBorn ?_ hcr.net.live_of_live)
  · rintro rfl
    omega
  · rw [hcr.channel]
    rintro rfl
    omega

theorem WellTyped.created (hv : e.WellTyped) {c : Creation} {ref : ProcRef}
    (h : e.Created e' c ref) (hy : e'.store.Young) : e'.WellTyped := by
  obtain ⟨-, sig, provision, receptions, hcr⟩ := hv.creating h hy
  obtain ⟨τ, ht⟩ := hv.typed
  refine ⟨hv.toValid.created h hy, ?_⟩
  rw [hcr.commits.decls]
  exact ⟨_, ht.born hcr.net.toBorn hcr.net.live_of_live⟩

/-- What a step has done to the store of a valid engine. -/
theorem Valid.steps (hv : e.Valid) {spec : StepSpec} {next : Option StepSpec} {m : Change}
    (h : e.store.deriveStep e.ids.fresh spec = .ok (next, m))
    (hc : e.store.commit m = .ok e'.store) (hy : e'.store.Young) :
    ∃ pl, e.store.Steps e'.store e.ids.fresh spec next pl := by
  obtain ⟨hch, hpr, -⟩ := e.fresh_lt
  exact Store.exists_steps hv.sound hv.bounded h hc hy (hv.new hch).unused (hv.new hpr).home

theorem Valid.step (hv : e.Valid) {spec : StepSpec} {next : Option StepSpec} {m : Change}
    (h : e.store.deriveStep e.ids.fresh spec = .ok (next, m))
    (hc : e.store.commit m = .ok e'.store) (hi : e'.ids = e.ids.afterFresh)
    (hy : e'.store.Young) : e'.Valid := by
  obtain ⟨hch, hpr, -, hch', hpr', hpo'⟩ := e.fresh_lt
  obtain ⟨pl, hst⟩ := hv.steps h hc hy
  have hunused : ∀ id, id ≠ e.ids.fresh.channel → e.store.net.Unused id →
      e'.store.net.Unused id := by
    intro id hid hu
    rcases hst.net with ⟨-, hturns⟩ | ⟨pool, via, ph, provision, gifts, hf, hpch, -⟩
    · exact hu.turns hid hturns
    · exact hu.born hf.toBorn (hpch ▸ hid) hf.live_of_live
  refine ⟨hst.sound, hst.bounded, ?_⟩
  intro id hid
  rw [hi] at hid
  have hlt := e.ids.next_lt_next_afterFresh
  have hn := hv.new (Nat.le_trans (Nat.le_of_lt hlt) hid)
  obtain ⟨cfg, env, hd, -⟩ := hst.derives
  refine hn.commits (Store.homes_of_derives hv.sound hd) hst.commits ?_ ?_
    (hunused id ?_ hn.unused)
  · rintro rfl
    omega
  · rcases Store.members_of_moves hd.moves with ⟨-, hpools⟩ | ⟨-, -, -, hpools, -⟩
    · rw [hpools]
      exact nofun
    · rintro pool hpool rfl
      rw [hpools pool hpool] at hid
      omega
  · rintro rfl
    omega

theorem WellTyped.step (hv : e.WellTyped) {spec : StepSpec} {next : Option StepSpec} {m : Change}
    (h : e.store.deriveStep e.ids.fresh spec = .ok (next, m))
    (hc : e.store.commit m = .ok e'.store) (hi : e'.ids = e.ids.afterFresh)
    (hy : e'.store.Young) : e'.WellTyped := by
  obtain ⟨pl, hst⟩ := hv.steps h hc hy
  obtain ⟨τ, ht⟩ := hv.typed
  refine ⟨hv.toValid.step h hc hi hy, ?_⟩
  rw [hst.commits.decls]
  rcases hst.net with ⟨-, hturns⟩ | ⟨pool, via, ph, provision, gifts, hf, -⟩
  · exact ht.turns e.store.decls.functional_denotes hturns
  · exact ⟨_, ht.born hf.toBorn hf.live_of_live⟩

/-- A declaration keeps an engine valid, and adds to what types stand for. -/
theorem Valid.declares (hv : e.Valid) (h : e.Declares e') :
    e'.Valid ∧ e.store.decls.Grows e'.store.decls := by
  cases h with
  | nothing hs hi =>
    refine ⟨hv.declare hs hi fun id hid => (hv.new (Nat.le_trans hi hid)).decl, ?_⟩
    rw [hs]
    exact .refl e.store.decls
  | type h hs hi hdecl hrecs =>
    refine ⟨hv.declare hs hi fun id hid => ?_, ?_⟩
    · refine (hv.new (Nat.le_trans hi hid)).decl.declareType h ?_ ?_
      · rintro rfl
        exact Nat.not_lt.2 hid hdecl.2
      · rintro rec hrec rfl
        exact Nat.not_lt.2 hid (hrecs rec hrec).2
    · rw [hs]
      exact Registry.grows_of_declareType h (hv.new hdecl.1).decl.type
        fun rec hrec => (hv.new (hrecs rec hrec).1).decl.node
  | sig h hs hi hsig =>
    refine ⟨hv.declare hs hi fun id hid => ?_, ?_⟩
    · refine (hv.new (Nat.le_trans hi hid)).decl.declareSig h ?_
      rintro rfl
      exact Nat.not_lt.2 hid hsig.2
    · rw [hs]
      exact Registry.grows_of_declareSig h (hv.new hsig.1).decl.sig
  | pool h hi hpool hrev =>
    unfold Store.addPool at h
    split at h
    · cases h
    · refine ⟨hv.insertPool _ e.store.liabilities (Except.ok.inj h).symm hi ?_ hpool.2, ?_⟩
      · rw [hrev]
        exact ⟨Nat.one_pos, by decide⟩
      · rw [← Except.ok.inj h]
        exact .refl e.store.decls

theorem Valid.redefines (hv : e.Valid) (h : e.Redefines e') : e'.Valid := by
  cases h with
  | nothing hs hi =>
    exact hv.declare hs hi fun id hid => (hv.new (Nat.le_trans hi hid)).decl
  | type h hs hi hrecs =>
    refine hv.declare hs hi fun id hid => ?_
    refine (hv.new (Nat.le_trans hi hid)).decl.redefineType h ?_
    rintro rec hrec rfl
    exact Nat.not_lt.2 hid (hrecs rec hrec).2

/-- Handing a pool on keeps an engine valid, and is not about processes or types. -/
theorem Valid.addLiability (hv : e.Valid) {l : Liability} {rev : Rev}
    (h : e.store.addLiability l rev = .ok e'.store) (hi : e.ids.next ≤ e'.ids.next)
    (hy : e'.store.Young) :
    e'.Valid ∧ e'.store.net = e.store.net ∧ e'.store.decls = e.store.decls := by
  obtain ⟨pool, hp, hs⟩ := Store.get?_pools_addLiability h
  have hid := hv.sound.pools hp
  have hlt : pool.id.value < e.ids.next := by
    refine Nat.lt_of_not_le fun hle => ?_
    have hnone := (hv.new hle).pool
    rw [hid, hp] at hnone
    cases hnone
  rw [← hid] at hs
  have hget : e'.store.pools.get? pool.id = some pool.bumped := by
    rw [hs]
    exact Table.get?_insert_self ..
  refine ⟨hv.insertPool pool.bumped _ hs hi ⟨?_, hy _ _ hget⟩ ?_,
    (Store.leaves_of_addLiability h).net, by rw [hs]⟩
  · show 0 < pool.rev.value + 1
    omega
  · show pool.id.value < e'.ids.next
    omega

/-- Every event keeps an engine valid, as long as its pools stay young. -/
theorem Valid.event (hv : e.Valid) (h : e.Event e') (hy : e'.store.Young) : e'.Valid := by
  cases h with
  | declares h => exact (hv.declares h).1
  | addLiability h hi => exact (hv.addLiability h hi hy).1
  | step h hc hi => exact hv.step h hc hi hy

theorem WellTyped.event (hv : e.WellTyped) (h : e.Event e') (hy : e'.store.Young) :
    e'.WellTyped := by
  obtain ⟨τ, ht⟩ := hv.typed
  cases h with
  | declares h =>
    obtain ⟨hv', hgrows⟩ := hv.toValid.declares h
    refine ⟨hv', τ, ?_⟩
    rw [h.net_eq]
    exact ht.mono fun hd => hd.grows hgrows
  | addLiability h hi =>
    obtain ⟨hv', hnet, hdecls⟩ := hv.toValid.addLiability h hi hy
    refine ⟨hv', τ, ?_⟩
    rw [hnet, hdecls]
    exact ht
  | step h hc hi => exact hv.step h hc hi hy

theorem Valid.events (hv : e.Valid) (h : ReflTransGen Event e e') (hy : e'.store.Young) :
    e'.Valid := by
  induction h with
  | refl => exact hv
  | tail _ hevent ih => exact (ih (hy.of_ages hevent.ages)).event hevent hy

theorem WellTyped.events (hv : e.WellTyped) (h : ReflTransGen Event e e')
    (hy : e'.store.Young) : e'.WellTyped := by
  induction h with
  | refl => exact hv
  | tail _ hevent ih => exact (ih (hy.of_ages hevent.ages)).event hevent hy

/-- Pools get older with every call. -/
theorem ages_after (call : Call) (e : Engine) : e.store.Ages (call.after e).store := by
  rcases after_cases call e with ⟨c, ref, -, h⟩ | ⟨-, h⟩ | ⟨-, h⟩
  · exact (created_of_createProcess h).ages
  · exact h.ages
  · exact ages_of_events h

theorem ages_final (calls : List Call) (e : Engine) : e.store.Ages (e.final calls).store := by
  induction calls generalizing e with
  | nil => exact fun hp => ⟨_, hp, Nat.le_refl _⟩
  | cons call rest ih =>
    intro q pool hp
    obtain ⟨pool', hp', hle⟩ := ages_after call e hp
    obtain ⟨pool'', hp'', hle'⟩ := ih (call.after e) hp'
    exact ⟨pool'', hp'', Nat.le_trans hle hle'⟩

/-- A call keeps an engine valid. -/
theorem Valid.after (hv : e.Valid) (call : Call) (hy : (call.after e).store.Young) :
    (call.after e).Valid := by
  rcases after_cases call e with ⟨c, ref, -, h⟩ | ⟨-, h⟩ | ⟨-, h⟩
  · exact hv.created (created_of_createProcess h) hy
  · exact hv.redefines h
  · exact hv.events h hy

/-- A call that leaves types as they are keeps an engine well typed. -/
theorem WellTyped.after (hv : e.WellTyped) {call : Call} (hcall : call.redefines = false)
    (hy : (call.after e).store.Young) : (call.after e).WellTyped := by
  rcases after_cases call e with ⟨c, ref, -, h⟩ | ⟨hredefines, -⟩ | ⟨-, h⟩
  · exact hv.created (created_of_createProcess h) hy
  · exact absurd hredefines (by simp [hcall])
  · exact hv.events h hy

theorem mem_states_head (e : Engine) (calls : List Call) : e ∈ e.states calls := by
  cases calls with
  | nil => exact List.mem_singleton_self e
  | cons call rest => exact List.mem_cons_self

theorem mem_states_final (e : Engine) (calls : List Call) : e.final calls ∈ e.states calls := by
  induction calls generalizing e with
  | nil => exact List.mem_singleton_self e
  | cons call rest ih => exact List.mem_cons_of_mem _ (ih (call.after e))

theorem mem_moments_cons {calls : List Call} {call : Call} (h : e' ∈ (call.after e).moments calls) :
    e' ∈ e.moments (call :: calls) := by
  rcases List.mem_append.1 h with hstate | htried
  · exact List.mem_append_left _ (List.mem_cons_of_mem _ hstate)
  · refine List.mem_append_right _ ?_
    rw [attempts, List.map_append]
    exact List.mem_append_right _ htried

/-- What a step of a chain leaves, the next one is tried on, or the chain has come to its end. -/
theorem resulting_of_chain (limit taken n : Nat) (spec : StepSpec) {a : Engine × StepSpec}
    (h : a ∈ chain n spec e) :
    resulting (Request.step .none a.2 a.1) ∈ (chain n spec e).map Prod.fst ∨
      resulting (Request.step .none a.2 a.1) =
        resulting (Request.takeFrom (fun _ => .none) limit taken n spec e) := by
  induction n generalizing taken spec e with
  | zero => cases h
  | succ n ih =>
    rw [chain] at h ⊢
    unfold Request.takeFrom
    cases hstep : Request.step .none spec e with
    | error err e' =>
      rw [hstep] at h
      obtain rfl := List.mem_singleton.1 h
      exact .inr (congrArg resulting hstep)
    | ok next e' =>
      rw [hstep] at h
      cases next with
      | none =>
        obtain rfl := List.mem_singleton.1 h
        exact .inr (congrArg resulting hstep)
      | some spec' =>
        rcases List.mem_cons.1 h with rfl | h
        · rw [congrArg resulting hstep]
          cases n with
          | zero => exact .inr rfl
          | succ n => exact .inl (List.mem_cons_of_mem _ List.mem_cons_self)
        · exact (ih (taken + 1) spec' h).imp_left (List.mem_cons_of_mem _)

/-- What a step leaves that is tried along a run is an engine of the run. -/
theorem resulting_mem_moments {calls : List Call} {a : Engine × StepSpec}
    (h : a ∈ e.attempts calls) : resulting (Request.step .none a.2 a.1) ∈ e.moments calls := by
  induction calls generalizing e with
  | nil => cases h
  | cons call rest ih =>
    rcases List.mem_append.1 h with hnow | hlater
    · have hafter : call.after e ∈ e.moments (call :: rest) :=
        List.mem_append_left _ (List.mem_cons_of_mem _ (mem_states_head _ rest))
      cases call with
      | step spec =>
        rw [attempted, List.mem_singleton] at hnow
        subst hnow
        rwa [Call.after, Call.request, resulting_ignore] at hafter
      | take spec =>
        rcases resulting_of_chain _ 0 _ spec hnow with hchain | hlast
        · refine List.mem_append_right _ ?_
          rw [attempts, List.map_append]
          exact List.mem_append_left _ hchain
        · rw [hlast]
          exact hafter
      | _ => cases hnow
    · exact mem_moments_cons (ih hlater)

/-- A property of engines that everything keeps that calls do, as long as the steps that they try
are `ok`. -/
structure Keeps (ok : Engine → StepSpec → Prop) (I : Engine → Prop) : Prop where
  created : ∀ {e e' : Engine} {c : Creation} {ref : ProcRef}, I e → e.Created e' c ref →
    e'.store.Young → I e'
  redefines : ∀ {e e' : Engine}, I e → e.Redefines e' → I e'
  declares : ∀ {e e' : Engine}, I e → e.Declares e' → I e'
  addLiability : ∀ {e e' : Engine} {l : Liability} {rev : Rev}, I e →
    e.store.addLiability l rev = .ok e'.store → e.ids.next ≤ e'.ids.next → e'.store.Young → I e'
  step : ∀ {e e' : Engine} {spec : StepSpec} {next : Option StepSpec} {m : Change}, I e →
    ok e spec → e.store.deriveStep e.ids.fresh spec = .ok (next, m) →
    e.store.commit m = .ok e'.store → e'.ids = e.ids.afterFresh → e'.store.Young → I e'

section Keeps

variable {ok : Engine → StepSpec → Prop} {I : Engine → Prop}

/-- A step that is tried keeps the property, whether it succeeds or not. -/
theorem Keeps.resulting_step (hk : Keeps ok I) (hI : I e) {spec : StepSpec} (hok : ok e spec)
    (hy : (resulting (Request.step .none spec e)).store.Young) :
    I (resulting (Request.step .none spec e)) := by
  cases h : Request.step .none spec e with
  | error err e' => exact hk.declares hI (declares_step h)
  | ok next e' =>
    rw [h] at hy
    obtain ⟨m, hd, hc, hi⟩ := step_eq_ok h
    exact hk.step hI hok hd hc hi hy

/-- So does a chain of steps, all along. -/
theorem Keeps.takeFrom (hk : Keeps ok I) (limit taken n : Nat) (spec : StepSpec)
    (hI : I e) (hok : ∀ a ∈ chain n spec e, ok a.1 a.2)
    (hy : (resulting (Request.takeFrom (fun _ => .none) limit taken n spec e)).store.Young) :
    (∀ a ∈ chain n spec e, I a.1) ∧
      I (resulting (Request.takeFrom (fun _ => .none) limit taken n spec e)) := by
  induction n generalizing taken spec e with
  | zero => exact ⟨List.forall_mem_nil _, hI⟩
  | succ n ih =>
    obtain ⟨hfirst, hrest⟩ := List.forall_mem_cons.1 hok
    have hstep := hk.resulting_step hI hfirst
    rw [chain]
    unfold Request.takeFrom at hy ⊢
    cases h : Request.step .none spec e with
    | error err e' =>
      rw [h] at hstep hy
      exact ⟨List.forall_mem_singleton.2 hI, hstep hy⟩
    | ok next e' =>
      rw [h] at hstep hy hrest
      cases next with
      | none => exact ⟨List.forall_mem_singleton.2 hI, hstep hy⟩
      | some spec' =>
        have hy' : e'.store.Young :=
          hy.of_ages (ages_of_events (events_takeFrom limit (taken + 1) n spec' e'))
        obtain ⟨hchain, hlast⟩ := ih (taken + 1) spec' (hstep hy') hrest hy
        exact ⟨List.forall_mem_cons.2 ⟨hI, hchain⟩, hlast⟩

theorem Keeps.after (hk : Keeps ok I) (hI : I e) (call : Call)
    (hok : ∀ a ∈ e.attempted call, ok a.1 a.2) (hy : (call.after e).store.Young) :
    (∀ a ∈ e.attempted call, I a.1) ∧ I (call.after e) := by
  have hdeclares : ∀ {α : Type} {r : Request α}, e.Declares (resulting (r e)) →
      I (resulting (r.ignore e)) := by
    intro α r h
    rw [resulting_ignore]
    exact hk.declares hI h
  cases call with
  | incept title => exact ⟨List.forall_mem_nil _, hdeclares (declares_incept title e)⟩
  | createType title spec =>
    exact ⟨List.forall_mem_nil _, hdeclares (declares_createType title spec e)⟩
  | modifyType id rev spec =>
    rw [Call.after, Call.request, resulting_ignore]
    exact ⟨List.forall_mem_nil _, hk.redefines hI (redefines_modifyType id rev spec e)⟩
  | createSig spec => exact ⟨List.forall_mem_nil _, hdeclares (declares_createSig spec e)⟩
  | createPool title sup =>
    exact ⟨List.forall_mem_nil _, hdeclares (declares_createPool title sup e)⟩
  | handOff pool process rev =>
    rw [Call.after, Call.request, resulting_ignore] at hy ⊢
    rcases handOff_cases pool process rev e with h | ⟨l, h, hi⟩
    · exact ⟨List.forall_mem_nil _, hk.declares hI h⟩
    · exact ⟨List.forall_mem_nil _, hk.addLiability hI h hi hy⟩
  | create c =>
    rw [Call.after, Call.request, resulting_ignore] at hy ⊢
    cases h : Request.createProcess c e with
    | error err e' => exact ⟨List.forall_mem_nil _, hk.declares hI (declares_create h)⟩
    | ok ref e' =>
      rw [h] at hy
      exact ⟨List.forall_mem_nil _, hk.created hI (created_of_createProcess h) hy⟩
  | step spec =>
    rw [Call.after, Call.request, resulting_ignore] at hy ⊢
    exact ⟨List.forall_mem_singleton.2 hI,
      hk.resulting_step hI (hok _ (List.mem_singleton_self _)) hy⟩
  | take spec => exact hk.takeFrom _ 0 _ spec hI hok hy

/-- What calls keep holds all along a run. -/
theorem Keeps.moments (hk : Keeps ok I) (calls : List Call) (hI : I e)
    (hok : ∀ a ∈ e.attempts calls, ok a.1 a.2) (hy : (e.final calls).store.Young) :
    ∀ e' ∈ e.moments calls, I e' := by
  suffices h : (∀ e' ∈ e.states calls, I e') ∧ ∀ a ∈ e.attempts calls, I a.1 by
    refine List.forall_mem_append.2 ⟨h.1, ?_⟩
    intro e' he'
    obtain ⟨a, ha, rfl⟩ := List.mem_map.1 he'
    exact h.2 a ha
  induction calls generalizing e with
  | nil => exact ⟨List.forall_mem_singleton.2 hI, List.forall_mem_nil _⟩
  | cons call rest ih =>
    obtain ⟨hcall, hrest⟩ := List.forall_mem_append.1 hok
    have hy' : (call.after e).store.Young := Store.Young.of_ages hy (ages_final rest _)
    obtain ⟨hattempted, hafter⟩ := hk.after hI call hcall hy'
    obtain ⟨hstates, hattempts⟩ := ih hafter hrest hy
    exact ⟨List.forall_mem_cons.2 ⟨hI, hstates⟩,
      List.forall_mem_append.2 ⟨hattempted, hattempts⟩⟩

end Keeps

/-- If no pool is old at the end of a run, then none has been all along. -/
theorem keeps_young : Keeps (fun _ _ => True) fun e => e.store.Young where
  created _ _ hy := hy
  redefines hI h := by
    cases h with
    | nothing hs => exact hs ▸ hI
    | type _ hs => exact hs ▸ hI
  declares hI h := by
    cases h with
    | nothing hs => exact hs ▸ hI
    | type _ hs => exact hs ▸ hI
    | sig _ hs => exact hs ▸ hI
    | pool h _ _ hrev =>
      unfold Store.addPool at h
      split at h
      · cases h
      rw [← Except.ok.inj h]
      intro q old hq
      rw [Table.get?_insert] at hq
      split at hq
      · cases hq
        rw [hrev]
        decide
      · exact hI q old hq
  addLiability _ _ _ hy := hy
  step _ _ _ _ _ hy := hy

end Engine

end Rendezvous
