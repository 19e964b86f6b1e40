import Rendezvous.Proofs.Built

/-!
# Revisions gate commits

A run mixes calls to the services with whatever else writes to the store: changes that are submitted
as they are, stale or not, additions to the liability log, and new pools (`Deed`).

`Engine.Wrote` says what was written between two engines, as the changes that went through and the
pools that were handed on. The revision of a pool counts the two, so it only grows; and a lock that has
been used lies below the revision that it has led to (`spent`), while one that is used later is at that
revision or above it (`unspent`). Every deed writes in this sense (`Deed.exists_wrote`), and so does
every run (`Engine.exists_wrote`).

The result is `Engine.revisions_gate_commits`: no two changes of a run have a lock in common.
-/

namespace Rendezvous

/-- Whether a change locks a pool. -/
def Change.locksPool (m : Change) (p : Id) : Bool := p ∈ m.locks.map Lock.pool

/-- One thing that is done to an engine, by a service or by another writer. -/
inductive Deed where
  | call (call : Call)
  | derive (spec : StepSpec)
  | commit (m : Change)
  | addLiability (l : Liability) (expected : Rev)
  | addPool (pool : Pool)

namespace Deed

/-- The request of a deed. -/
def request : Deed → Request Unit
  | .call c => c.request
  | .derive spec => (Request.derive spec).ignore
  | .commit m => Request.commit m
  | .addLiability l expected => Request.update (·.addLiability l expected)
  | .addPool pool => Request.update (·.addPool pool)

/-- The engine after a deed, whether it has succeeded or not. -/
def after (d : Deed) (e : Engine) : Engine := resulting (d.request e)

/-- The pool that a deed is to hand on. -/
def handsOn? : Deed → Option Id
  | .call (.handOff pool _ _) => some pool
  | .addLiability l _ => some l.pool
  | _ => none

/-- The pool that a deed hands on, if it succeeds. -/
def handedOn (d : Deed) (e : Engine) : List Id :=
  ((returned? (d.request e)).bind fun _ => d.handsOn?).toList

end Deed

namespace Engine

/-- The engine at the end of a run. -/
def perform (e : Engine) (deeds : List Deed) : Engine := deeds.foldl (fun e d => d.after e) e

/-- The pools that are handed on in a run, as often as they are. -/
def handedOn (e : Engine) : List Deed → List Id
  | [] => []
  | d :: rest => d.handedOn e ++ (d.after e).handedOn rest

/-! ## What is written -/

/-- Between two engines the changes `cs` were committed and the pools `hs` handed on. -/
structure Wrote (e e' : Engine) (cs : List Change) (hs : List Id) : Prop where
  journal : e'.journal = e.journal ++ cs
  rev : ∀ {p : Id} {pool : Pool}, e.store.pools.get? p = some pool →
    ∃ pool', e'.store.pools.get? p = some pool' ∧
      pool'.rev.value = pool.rev.value + cs.countP (·.locksPool p) + hs.count p
  unspent : ∀ m ∈ cs, ∀ lock ∈ m.locks, ∀ {pool : Pool},
    e.store.pools.get? lock.pool = some pool → pool.rev.value ≤ lock.rev.value
  spent : ∀ m ∈ cs, ∀ lock ∈ m.locks, ∃ pool,
    e'.store.pools.get? lock.pool = some pool ∧ lock.rev.value < pool.rev.value
  apart : cs.Pairwise fun m m' => ∀ lock ∈ m.locks, lock ∉ m'.locks

namespace Wrote

variable {e e' e'' : Engine} {cs cs' : List Change} {hs hs' : List Id}

/-- Nothing was committed, and the pools that were there have stayed. -/
theorem quiet (hj : e'.journal = e.journal)
    (hp : ∀ {p : Id} {pool : Pool}, e.store.pools.get? p = some pool →
      e'.store.pools.get? p = some pool) : Wrote e e' [] [] :=
  ⟨by rw [hj, List.append_nil], fun hpool => ⟨_, hp hpool, rfl⟩, nofun, nofun, .nil⟩

theorem refl (e : Engine) : Wrote e e [] [] := quiet rfl id

/-- A change has gone through. -/
theorem commit {m : Change} (hj : e'.journal = e.journal ++ [m])
    (hc : e.store.commit m = .ok e'.store) : Wrote e e' [m] [] := by
  obtain ⟨hlocked, hnew, -, hs⟩ := Store.commit_eq_ok_iff.1 hc
  have hget : ∀ {p : Id} {pool : Pool}, e.store.pools.get? p = some pool →
      e'.store.pools.get? p = some (if p ∈ m.locks.map Lock.pool then pool.bumped else pool) := by
    intro p pool hpool
    rw [hs, Store.get?_pools_apply hlocked, hpool, Option.map_some]
    rintro new hmem rfl
    rw [hnew new hmem] at hpool
    cases hpool
  refine ⟨hj, fun {p pool} hpool => ⟨_, hget hpool, ?_⟩, ?_, ?_, List.pairwise_singleton _ _⟩
  · have hlocks : m.locksPool p = decide (p ∈ m.locks.map Lock.pool) := rfl
    rw [List.countP_singleton, hlocks]
    by_cases hp : p ∈ m.locks.map Lock.pool
    · rw [if_pos hp, if_pos (decide_eq_true hp)]
      rfl
    · rw [if_neg hp, if_neg (by simpa using hp)]
      rfl
  · intro m' hm' lock hlock pool hpool
    rw [List.mem_singleton.1 hm'] at hlock
    obtain ⟨now, hnow, hrev⟩ := hlocked lock hlock
    cases hnow.symm.trans hpool
    rw [hrev]
  · intro m' hm' lock hlock
    rw [List.mem_singleton.1 hm'] at hlock
    obtain ⟨now, hnow, hrev⟩ := hlocked lock hlock
    refine ⟨_, hget hnow, ?_⟩
    rw [if_pos (List.mem_map_of_mem hlock), ← hrev]
    exact Nat.lt_succ_self _

/-- A pool was handed on. -/
theorem handOn {l : Liability} {rev : Rev} (hj : e'.journal = e.journal)
    (ha : e.store.addLiability l rev = .ok e'.store) : Wrote e e' [] [l.pool] := by
  obtain ⟨old, hold, hs⟩ := Store.get?_pools_addLiability ha
  refine ⟨by rw [hj, List.append_nil], fun {p pool} hpool => ?_, nofun, nofun, .nil⟩
  rw [hs]
  show ∃ pool', (e.store.pools.insert l.pool old.bumped).get? p = some pool' ∧ _
  rw [Table.get?_insert]
  by_cases hp : p = l.pool
  · subst hp
    cases hold.symm.trans hpool
    refine ⟨_, if_pos rfl, ?_⟩
    simp [Pool.bumped, Rev.next]
  · refine ⟨pool, by rw [if_neg hp, hpool], ?_⟩
    simp [Ne.symm hp]

/-- One thing after the other. -/
theorem trans (h : Wrote e e' cs hs) (h' : Wrote e' e'' cs' hs') :
    Wrote e e'' (cs ++ cs') (hs ++ hs') := by
  refine ⟨by rw [h'.journal, h.journal, List.append_assoc], ?_, ?_, ?_, ?_⟩
  · intro p pool hpool
    obtain ⟨pool', hpool', hrev⟩ := h.rev hpool
    obtain ⟨pool'', hpool'', hrev'⟩ := h'.rev hpool'
    refine ⟨pool'', hpool'', ?_⟩
    rw [List.countP_append, List.count_append]
    omega
  · intro m hm lock hlock pool hpool
    rcases List.mem_append.1 hm with hm | hm
    · exact h.unspent m hm lock hlock hpool
    · obtain ⟨pool', hpool', hrev⟩ := h.rev hpool
      have hle := h'.unspent m hm lock hlock hpool'
      omega
  · intro m hm lock hlock
    rcases List.mem_append.1 hm with hm | hm
    · obtain ⟨pool', hpool', hlt⟩ := h.spent m hm lock hlock
      obtain ⟨pool'', hpool'', hrev⟩ := h'.rev hpool'
      exact ⟨pool'', hpool'', by omega⟩
    · exact h'.spent m hm lock hlock
  · refine List.pairwise_append.2 ⟨h.apart, h'.apart, fun m hm m' hm' lock hlock hlock' => ?_⟩
    -- what the first change has used up is below where the second one starts
    obtain ⟨pool, hpool, hlt⟩ := h.spent m hm lock hlock
    have hle := h'.unspent m' hm' lock hlock' hpool
    omega

end Wrote

end Engine

/-! ## Requests -/

namespace Request

open Engine (Wrote)

/-- If pools were written to in between, changes were committed. -/
def Committed (e e' : Engine) : Prop := ∃ cs, Wrote e e' cs []

theorem Committed.refl (e : Engine) : Committed e e := ⟨[], .refl e⟩

theorem Committed.trans {a b c : Engine} (h : Committed a b) (h' : Committed b c) :
    Committed a c := by
  obtain ⟨cs, hcs⟩ := h
  obtain ⟨cs', hcs'⟩ := h'
  exact ⟨cs ++ cs', hcs.trans hcs'⟩

/-- A request that commits changes, if it writes to pools at all. -/
def OnlyCommits {α : Type} (r : Request α) : Prop := ∀ e, ∃ cs, Wrote e (resulting (r e)) cs []

namespace OnlyCommits

variable {α β : Type}

theorem pure (a : α) : OnlyCommits (pure a) := Committed.refl

theorem throw (err : Error) : OnlyCommits (throw err : Request α) := Committed.refl

theorem bind {x : Request α} {f : α → Request β} (hx : OnlyCommits x)
    (hf : ∀ a, OnlyCommits (f a)) : OnlyCommits (x >>= f) :=
  Moves.bind (R := Committed) .trans hx hf

theorem ignore {r : Request α} (h : OnlyCommits r) : OnlyCommits r.ignore :=
  Moves.ignore (R := Committed) h

theorem read (f : Store → Except Error α) : OnlyCommits (read f) :=
  Moves.read Committed.refl f

/-- Writing to the store without losing a pool. -/
theorem update {f : Store → Except Error Store}
    (hf : ∀ {s s' p pool}, f s = .ok s' → s.pools.get? p = some pool → s'.pools.get? p = some pool) :
    OnlyCommits (update f) :=
  Moves.update Committed.refl fun h => ⟨[], .quiet rfl (hf h)⟩

theorem declare (f : Registry → Except Error Registry) : OnlyCommits (declare f) := by
  refine update fun {s s' p pool} h hp => ?_
  obtain ⟨decls, -, hs⟩ := except_bind_eq_ok.1 h
  cases hs
  exact hp

theorem addPool (pool : Pool) : OnlyCommits (Request.update (·.addPool pool)) := by
  refine update fun {s s' p old} h hp => ?_
  unfold Store.addPool at h
  split at h
  · cases h
  · next hnew =>
    cases h
    have hne : p ≠ pool.id := by
      rintro rfl
      exact hnew (s.pools.contains_eq_true_iff.2 ⟨old, hp⟩)
    rw [Table.get?_insert, if_neg hne]
    exact hp

theorem commit (m : Change) : OnlyCommits (commit m) := by
  intro e
  rw [commit_apply]
  cases h : e.store.commit m with
  | error err => exact ⟨[], .refl e⟩
  | ok s => exact ⟨[m], .commit rfl h⟩

theorem draw : OnlyCommits draw := fun _ => ⟨[], .quiet rfl id⟩

theorem drawFresh : OnlyCommits drawFresh := fun _ => ⟨[], .quiet rfl id⟩

theorem lower (spec : SessionType) : OnlyCommits (lower spec) := fun _ => ⟨[], .quiet rfl id⟩

/-! The services, as they are put together. -/

theorem incept (title : QualName) : OnlyCommits (incept title) :=
  draw.bind fun _ => (declare _).bind fun _ => .pure _

theorem createType (title : QualName) (spec : SessionType) : OnlyCommits (createType title spec) :=
  (read _).bind fun _ => (lower spec).bind fun _ => draw.bind fun _ =>
    (declare _).bind fun _ => .pure _

theorem modifyType (id : Id) (rev : Rev) (spec : SessionType) :
    OnlyCommits (modifyType id rev spec) := by
  refine (read _).bind fun decl => ?_
  have hrest : OnlyCommits (do
      Request.read fun s => s.decls.checkLinks decl.title spec.links
      let lowered ← Request.lower spec
      let modified : TypeDecl := { decl with root := some lowered.root, rev := rev.next }
      Request.declare (·.redefineType modified rev lowered.recs)
      Pure.pure modified.ref) :=
    (read _).bind fun _ => (lower spec).bind fun _ => (declare _).bind fun _ => .pure _
  by_cases hrev : decl.rev = rev
  · rw [if_neg (fun h => h hrev)]
    exact hrest
  · rw [if_pos hrev]
    exact throw _

theorem createSig (spec : SignatureSpec) : OnlyCommits (createSig spec) :=
  draw.bind fun _ => (read _).bind fun _ => (declare _).bind fun _ => .pure _

theorem createPool (title : Option QualName) (sup : Option Id) :
    OnlyCommits (createPool title sup) :=
  (read _).bind fun _ => draw.bind fun _ => (addPool _).bind fun _ => .pure _

theorem createProcess (c : Creation) : OnlyCommits (createProcess c) :=
  drawFresh.bind fun _ => (read _).bind fun _ => (commit _).bind fun _ => .pure _

theorem derive (spec : StepSpec) : OnlyCommits (derive spec) :=
  drawFresh.bind fun _ => read _

theorem step (spec : StepSpec) : OnlyCommits (step .none spec) :=
  (derive spec).bind fun _ => (update fun h hp => by cases h; exact hp).bind fun _ =>
    (commit _).bind fun _ => .pure _

theorem takeFrom (limit taken n : Nat) (spec : StepSpec) :
    OnlyCommits (takeFrom (fun _ => .none) limit taken n spec) :=
  Moves.takeFrom Committed.refl .trans step limit taken n spec

theorem take (spec : StepSpec) : OnlyCommits (take (fun _ => .none) spec) :=
  fun e => takeFrom e.settings.maxSteps 0 e.settings.maxSteps spec e

end OnlyCommits

end Request

/-! ## Runs -/

open Engine (Wrote)

namespace Request

/-- A request that hands a pool on, if it succeeds, and does nothing otherwise. -/
def HandsOn {α : Type} (r : Request α) (p : Id) : Prop :=
  ∀ e, Wrote e (resulting (r e)) [] ((returned? (r e)).bind fun _ => some p).toList

theorem handsOn_update (l : Liability) (rev : Rev) :
    HandsOn (update (·.addLiability l rev)) l.pool := by
  intro e
  rw [update_apply]
  cases h : e.store.addLiability l rev with
  | error err => exact .refl e
  | ok s => exact .handOn rfl h

/-- What is read before a pool is handed on, and what is returned afterwards, makes no difference. -/
theorem HandsOn.within {α β : Type} {r : Request α} {p : Id} (h : r.HandsOn p)
    (f : Store → Except Error Unit) (b : β) :
    HandsOn (read f >>= fun _ => r >>= fun _ => pure b) p := by
  intro e
  have hr := h e
  simp only [bind_apply, read_apply]
  cases f e.store with
  | error err => exact .refl e
  | ok u =>
    dsimp only
    cases hre : r e with
    | error err e' => rwa [hre] at hr
    | ok a e' => rwa [hre] at hr

theorem HandsOn.ignore {α : Type} {r : Request α} {p : Id} (h : r.HandsOn p) :
    r.ignore.HandsOn p := by
  intro e
  have hr := h e
  show Wrote e (resulting (EStateM.map _ r e)) []
    ((returned? (EStateM.map _ r e)).bind fun _ => some p).toList
  rw [EStateM.map]
  cases hre : r e with
  | error err e' => rwa [hre] at hr
  | ok a e' => rwa [hre] at hr

theorem handsOn_handOff (pool process : Id) (rev : Rev) : HandsOn (handOff pool process rev) pool :=
  (handsOn_update ⟨pool, process, rev.next.introStamp⟩ rev).within _ _

end Request

/-- Every deed commits some changes, and hands a pool on if it says so. -/
theorem Deed.exists_wrote (d : Deed) (e : Engine) :
    ∃ cs, Wrote e (d.after e) cs (d.handedOn e) := by
  -- all deeds but two hand nothing on
  have hcommits : ∀ {d : Deed}, d.handsOn? = none → d.request.OnlyCommits →
      ∃ cs, Wrote e (d.after e) cs (d.handedOn e) := by
    intro d hnone hd
    have hhanded : d.handedOn e = [] := by
      rw [Deed.handedOn, hnone, Option.bind_fun_none]
      rfl
    rw [hhanded]
    exact hd e
  cases d with
  | call call =>
    cases call with
    | incept title => exact hcommits rfl (.ignore (.incept title))
    | createType title spec => exact hcommits rfl (.ignore (.createType title spec))
    | modifyType id rev spec => exact hcommits rfl (.ignore (.modifyType id rev spec))
    | createSig spec => exact hcommits rfl (.ignore (.createSig spec))
    | createPool title sup => exact hcommits rfl (.ignore (.createPool title sup))
    | handOff pool process rev => exact ⟨[], (Request.handsOn_handOff pool process rev).ignore e⟩
    | create c => exact hcommits rfl (.ignore (.createProcess c))
    | step spec => exact hcommits rfl (.ignore (.step spec))
    | take spec => exact hcommits rfl (.take spec)
  | derive spec => exact hcommits rfl (.ignore (.derive spec))
  | commit m => exact hcommits rfl (.commit m)
  | addLiability l rev => exact ⟨[], Request.handsOn_update l rev e⟩
  | addPool pool => exact hcommits rfl (.addPool pool)

namespace Engine

/-- What a run writes. -/
theorem exists_wrote (e : Engine) (deeds : List Deed) :
    ∃ cs, Wrote e (e.perform deeds) cs (e.handedOn deeds) := by
  induction deeds generalizing e with
  | nil => exact ⟨[], .refl e⟩
  | cons d rest ih =>
    obtain ⟨cs, hcs⟩ := d.exists_wrote e
    obtain ⟨cs', hcs'⟩ := ih (d.after e)
    exact ⟨cs ++ cs', hcs.trans hcs'⟩

/-- Of changes that have no lock in common, one that has a lock occurs once. -/
theorem Wrote.once {e e' : Engine} {cs : List Change} {hs : List Id} (h : Wrote e e' cs hs)
    {m : Change} {lock : Lock} (hlock : lock ∈ m.locks) {i j : Nat} (hi : cs[i]? = some m)
    (hj : cs[j]? = some m) : i = j := by
  have hne : ∀ {i j : Nat}, cs[i]? = some m → cs[j]? = some m → ¬ i < j := by
    intro i j hi hj hlt
    obtain ⟨hi', rfl⟩ := List.getElem?_eq_some_iff.1 hi
    obtain ⟨hj', heq⟩ := List.getElem?_eq_some_iff.1 hj
    have hapart := List.pairwise_iff_getElem.1 h.apart i j hi' hj' hlt lock hlock
    rw [heq] at hapart
    exact hapart hlock
  have hij := hne hi hj
  have hji := hne hj hi
  omega

/-- A commit goes through, or leaves everything as it was. -/
theorem commit_eq_error {m : Change} {e e' : Engine} {err : Error}
    (h : Request.commit m e = .error err e') : e' = e := by
  rw [Request.commit_apply] at h
  split at h
  · cases h
  · cases h
    rfl

/-- A change with a lock is used up once it is committed. -/
theorem Wrote.rejects {e e' : Engine} {cs : List Change} {hs : List Id} (h : Wrote e e' cs hs)
    {m : Change} (hm : m ∈ cs) {lock : Lock} (hlock : lock ∈ m.locks) :
    ∃ err, Request.commit m e' = .error err e' := by
  rw [Request.commit_apply]
  cases hc : e'.store.commit m with
  | error err => exact ⟨err, rfl⟩
  | ok s =>
    obtain ⟨pool, hpool, hlt⟩ := h.spent m hm lock hlock
    obtain ⟨now, hnow, hrev⟩ := (Store.commit_eq_ok_iff.1 hc).1 lock hlock
    cases hnow.symm.trans hpool
    rw [hrev] at hlt
    exact absurd hlt (Nat.lt_irrefl _)

/-- A change that was derived locks the pool of the process that acts. -/
theorem exists_lock_of_derive {t : Store} {fresh : Fresh} {spec : StepSpec}
    {next : Option StepSpec} {m : Change} (h : t.deriveStep fresh spec = .ok (next, m)) :
    ∃ lock, lock ∈ m.locks := by
  obtain ⟨read, cfg, env, ctx, -, -, -, -, -, -, htrans⟩ := Store.deriveStep_eq_ok_iff.1 h
  obtain ⟨pl, -, -, hdraft⟩ := transition_eq_ok_iff.1 htrans
  exact ⟨_, (Plan.drafts_of_draft? hdraft).own⟩

/-- Revisions gate commits. In a run of whatever is done to an engine, the revision of a pool grows by
one for each change that locks it and is committed, and for each time it is handed on. No two changes
that are committed have a lock in common. One that was derived from some store is committed once at
most, and is rejected ever after; and a rejected one leaves everything as it was. -/
theorem revisions_gate_commits (e : Engine) (deeds : List Deed) :
    ∃ cs, (e.perform deeds).journal = e.journal ++ cs ∧
      (∀ p pool, e.store.pools.get? p = some pool →
        ∃ pool', (e.perform deeds).store.pools.get? p = some pool' ∧
          pool'.rev.value =
            pool.rev.value + cs.countP (·.locksPool p) + (e.handedOn deeds).count p) ∧
      (cs.Pairwise fun m m' => ∀ lock ∈ m.locks, lock ∉ m'.locks) ∧
      (∀ t fresh spec next m, Store.deriveStep t fresh spec = .ok (next, m) →
        (∀ i j : Nat, cs[i]? = some m → cs[j]? = some m → i = j) ∧
        (m ∈ cs → ∃ err, Request.commit m (e.perform deeds) = .error err (e.perform deeds))) ∧
      ∀ m err e', Request.commit m (e.perform deeds) = .error err e' → e' = e.perform deeds := by
  obtain ⟨cs, h⟩ := e.exists_wrote deeds
  refine ⟨cs, h.journal, fun p pool => h.rev, h.apart, ?_, fun m err e' => commit_eq_error⟩
  intro t fresh spec next m hd
  obtain ⟨lock, hlock⟩ := exists_lock_of_derive hd
  exact ⟨fun i j hi hj => h.once hlock hi hj, fun hm => h.rejects hm hlock⟩

/-- The send of a sender is derived and committed, and cannot be committed again. -/
theorem revisions_gate_commits_send :
    ∃ next m, ((start {} ⟨0⟩).final beforeSend).store.deriveStep
        ((start {} ⟨0⟩).final beforeSend).ids.fresh sendStep = .ok (next, m) ∧
      ∃ err, Request.commit m (((start {} ⟨0⟩).final beforeSend).perform [.commit m]) =
        .error err (((start {} ⟨0⟩).final beforeSend).perform [.commit m]) := by
  have hok : (((start {} ⟨0⟩).final beforeSend).store.deriveStep
      ((start {} ⟨0⟩).final beforeSend).ids.fresh sendStep >>= fun r =>
        ((start {} ⟨0⟩).final beforeSend).store.commit r.2).isOk = true := by
    decide +kernel
  generalize (start {} ⟨0⟩).final beforeSend = e at hok ⊢
  cases hd : e.store.deriveStep e.ids.fresh sendStep with
  | error err =>
    rw [hd] at hok
    cases hok
  | ok r =>
    obtain ⟨next, m⟩ := r
    have hc : ∃ s, e.store.commit m = .ok s := by
      rw [hd] at hok
      cases hc : e.store.commit m with
      | error err =>
        change (e.store.commit m).isOk = true at hok
        rw [hc] at hok
        cases hok
      | ok s => exact ⟨s, rfl⟩
    obtain ⟨s, hs⟩ := hc
    have hjournal : (e.perform [.commit m]).journal = e.journal ++ [m] := by
      show (resulting (Request.commit m e)).journal = _
      rw [Request.commit_apply, hs]
      rfl
    obtain ⟨cs, hcs, -, -, honce, -⟩ := revisions_gate_commits e [.commit m]
    obtain rfl : [m] = cs := List.append_cancel_left (hjournal.symm.trans hcs)
    exact ⟨next, m, rfl, (honce _ _ _ _ _ hd).2 (List.mem_singleton_self m)⟩

end Engine

end Rendezvous
