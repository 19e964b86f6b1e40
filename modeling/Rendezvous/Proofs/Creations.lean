import Rendezvous.Engine.Create
import Rendezvous.Proofs.Steps

/-!
# Committed creations

A process that is created receives channels that somebody provides and that no binding of another
process refers to as a client (`exists_receptions`). Once the creation is committed, the net has the
process in it, bound to what it provides and to what it received (`creates_of_deriveCreation`).
-/

namespace Rendezvous

namespace Store

-- stamps are never computed here
attribute [local irreducible] Rev.introStamp

variable {s s' : Store} {fresh : Fresh} {c : Creation} {ref : ProcRef} {m : Change}

/-! ## Receptions -/

/-- A channel is found through a binding of its provider. -/
theorem provider_of_endpoint? {channel : Id} {e : Endpoint} (h : s.endpoint? channel = some e) :
    e.channel = channel ∧ ∃ p ph, s.live p ph = some e ∧ s.poolOf? p = some e.pool := by
  obtain ⟨⟨⟨p, ph⟩, e'⟩, hfind, rfl⟩ := Option.map_eq_some_iff.1 h
  have hmem : s.live p ph = some e' := s.bindings.mem_entries_iff.1 (List.mem_of_find?_eq_some hfind)
  have hsat := List.find?_some hfind
  simp only [Bool.and_eq_true, decide_eq_true_eq, provides] at hsat
  exact ⟨hsat.1, p, ph, hmem, hsat.2⟩

/-- A channel has no clients if all its bindings are in the pool that they name. -/
theorem clients_eq_nil_iff {channel : Id} :
    s.clients channel = [] ↔ ∀ {p : Id} {ph : Sym} {e : Endpoint}, s.live p ph = some e →
      e.channel = channel → s.poolOf? p = some e.pool := by
  rw [clients, List.map_eq_nil_iff, List.filter_eq_nil_iff]
  constructor
  · intro h p ph e he hch
    have hno := h ((p, ph), e) (s.bindings.mem_entries_iff.2 he)
    simpa [provides, hch] using hno
  · rintro h ⟨⟨p, ph⟩, e⟩ hmem hclient
    simp only [Bool.and_eq_true, decide_eq_true_eq, Bool.not_eq_true', provides,
      decide_eq_false_iff_not] at hclient
    exact hclient.2 (h (s.bindings.mem_entries_iff.1 hmem) hclient.1)

/-- What a new process may receive. -/
structure Receives (s : Store) (pool : Id) (values : Table Sym Id)
    (receptions : List (Sym × Endpoint)) : Prop where
  named : ∀ r ∈ receptions, values.get? r.1 = some r.2.channel
  provided : ∀ r ∈ receptions, s.endpoint? r.2.channel = some r.2
  free : ∀ r ∈ receptions, s.clients r.2.channel = []
  elsewhere : ∀ r ∈ receptions, r.2.pool ≠ pool
  distinct : (receptions.map fun r => r.2.channel).Nodup

/-- One parameter of a new process. -/
theorem receive_cons_eq_ok {process pool : Id} {rev : Rev} {values : Table Sym Id}
    {parameter : Parameter} {rest : List Parameter} {env : Env} {bound bindings : List Binding}
    (h : s.receive process pool rev values (parameter :: rest) env bound = .ok bindings) :
    ∃ ep env', values.get? parameter.placeholder = some ep.channel ∧
      s.endpoint? ep.channel = some ep ∧ (∀ b ∈ bound, b.endpoint.channel ≠ ep.channel) ∧
      s.clients ep.channel = [] ∧ ep.pool ≠ pool ∧
      s.receive process pool rev values rest env'
        (bound ++ [⟨process, parameter.placeholder, ep, rev.introStamp⟩]) = .ok bindings := by
  unfold receive at h
  cases hvalue : values.get? parameter.placeholder with
  | none =>
    rw [hvalue] at h
    cases h
  | some channel =>
    cases hep : s.endpoint? channel with
    | none =>
      simp only [hvalue, hep] at h
      cases h
    | some ep =>
      simp only [hvalue, hep] at h
      obtain ⟨rfl, -⟩ := provider_of_endpoint? hep
      by_cases hheld : (bound.any (fun b => decide (b.endpoint.channel = ep.channel)) ||
          !(s.clients ep.channel).isEmpty) = true
      · rw [if_pos hheld] at h
        cases h
      · rw [if_neg hheld] at h
        by_cases hloop : ep.pool = pool
        · rw [if_pos hloop] at h
          cases h
        · rw [if_neg hloop] at h
          obtain ⟨env', -, h⟩ := except_bind_eq_ok.1 h
          obtain ⟨want, -, h⟩ := except_bind_eq_ok.1 h
          obtain ⟨same, -, h⟩ := except_bind_eq_ok.1 h
          cases same with
          | false => cases h
          | true =>
            simp only [Bool.or_eq_true, List.any_eq_true, decide_eq_true_eq, Bool.not_eq_true',
              not_or, not_exists, not_and, Bool.not_eq_false, List.isEmpty_iff] at hheld
            exact ⟨ep, env', rfl, hep, hheld.1, hheld.2, hloop, h⟩

/-- The bindings of a new process are what it had before and what it receives. -/
theorem exists_receptions {process pool : Id} {rev : Rev} {values : Table Sym Id}
    {parameters : List Parameter} {env : Env} {bound bindings : List Binding}
    (h : s.receive process pool rev values parameters env bound = .ok bindings) :
    ∃ receptions : List (Sym × Endpoint),
      bindings = bound ++ receptions.map (fun r => ⟨process, r.1, r.2, rev.introStamp⟩) ∧
        receptions.map Prod.fst = parameters.map Parameter.placeholder ∧
        s.Receives pool values receptions ∧
        ∀ r ∈ receptions, ∀ b ∈ bound, b.endpoint.channel ≠ r.2.channel := by
  induction parameters generalizing env bound with
  | nil =>
    cases h
    exact ⟨[], (List.append_nil _).symm, rfl, ⟨nofun, nofun, nofun, nofun, .nil⟩, nofun⟩
  | cons parameter rest ih =>
    obtain ⟨ep, env', hvalue, hep, hbound, hclients, hpool, h⟩ := receive_cons_eq_ok h
    obtain ⟨receptions, rfl, hplaced, hr, hnew⟩ := ih h
    refine ⟨(parameter.placeholder, ep) :: receptions, ?_, congrArg _ hplaced, ?_, ?_⟩
    · rw [List.append_assoc, List.map_cons]
      rfl
    · -- what comes later is not bound to the channel received now
      have hlater : ∀ r ∈ receptions, ep.channel ≠ r.2.channel :=
        fun r hmem => hnew r hmem _ (List.mem_append_right _ List.mem_cons_self)
      refine ⟨?_, ?_, ?_, ?_, ?_⟩
      · exact List.forall_mem_cons.2 ⟨hvalue, hr.named⟩
      · exact List.forall_mem_cons.2 ⟨hep, hr.provided⟩
      · exact List.forall_mem_cons.2 ⟨hclients, hr.free⟩
      · exact List.forall_mem_cons.2 ⟨hpool, hr.elsewhere⟩
      · refine List.nodup_cons.2 ⟨fun hmem => ?_, hr.distinct⟩
        obtain ⟨r, hmem, hch⟩ := List.mem_map.1 hmem
        exact hlater r hmem hch.symm
    · refine List.forall_mem_cons.2 ⟨hbound, fun r hmem b hb => ?_⟩
      exact hnew r hmem b (List.mem_append_left _ hb)

/-! ## Creations -/

/-- What a creation does: the new process is bound to what it provides and to what it receives. -/
def creationPlan (process pool sig : Id) (ph : Sym) (provision : Endpoint)
    (receptions : List (Sym × Endpoint)) : Plan where
  next := none
  marks := ⟨process, pool, ph, provision, true⟩ ::
    receptions.map fun r => ⟨process, pool, r.1, r.2, true⟩
  slots := []
  homes := []
  members := [⟨process, pool, sig⟩]
  pools := []

/-- A creation is derived in these stages: signature and pool are looked up, what the signature
provides gets its type, and the new process receives what it needs. -/
theorem exists_of_deriveCreation (h : s.deriveCreation fresh c = .ok (ref, m)) :
    ∃ sig pool type env bindings, s.decls.sigs.get? c.sig = some sig ∧
      s.pools.get? c.pool = some pool ∧
      s.receive fresh.process pool.id pool.rev.next c.values sig.receptions env
        [⟨fresh.process, sig.provision.placeholder, ⟨fresh.channel, type, pool.id⟩,
          pool.rev.next.introStamp⟩] = .ok bindings ∧
      ref = ⟨fresh.process, pool.id, fresh.channel⟩ ∧
      m = { (∅ : Change) with
        locks := [⟨pool.id, pool.rev⟩]
        bindings
        liabilities := [⟨pool.id, fresh.process, pool.rev.next.introStamp⟩]
        members := [⟨fresh.process, pool.id, sig.id⟩] } := by
  unfold deriveCreation at h
  cases hsig : s.decls.sigs.get? c.sig with
  | none =>
    rw [hsig] at h
    cases h
  | some sig =>
    cases hpool : s.pools.get? c.pool with
    | none =>
      simp only [hsig, hpool] at h
      cases h
    | some pool =>
      simp only [hsig, hpool] at h
      by_cases hsize : c.values.size = sig.receptions.length
      · rw [if_neg (fun h => h hsize)] at h
        obtain ⟨env, -, h⟩ := except_bind_eq_ok.1 h
        obtain ⟨type, -, h⟩ := except_bind_eq_ok.1 h
        obtain ⟨bindings, hbindings, h⟩ := except_bind_eq_ok.1 h
        cases h
        exact ⟨sig, pool, type, env, bindings, rfl, rfl, hbindings, rfl, rfl⟩
      · rw [if_pos hsize] at h
        cases h

/-- A creation that is derived has a plan that its change fills. -/
theorem exists_creationPlan (hk : s.Keyed) (h : s.deriveCreation fresh c = .ok (ref, m)) :
    ∃ sig pool provision receptions, s.decls.sigs.get? c.sig = some sig ∧
      s.pools.get? c.pool = some pool ∧ provision.channel = fresh.channel ∧
      provision.pool = c.pool ∧ ref = ⟨fresh.process, c.pool, fresh.channel⟩ ∧
      receptions.map Prod.fst = sig.receptions.map Parameter.placeholder ∧
      s.Receives c.pool c.values receptions ∧
      (creationPlan fresh.process c.pool sig.id sig.provision.placeholder provision
        receptions).Fills m := by
  obtain ⟨sig, pool, type, env, bindings, hsig, hpool, hbindings, rfl, rfl⟩ :=
    exists_of_deriveCreation h
  obtain ⟨receptions, rfl, hplaced, hr, -⟩ := exists_receptions hbindings
  rw [hk.pools hpool] at hr
  rw [hk.pools hpool]
  have hstamp : ∀ {m : Change}, m.locks = [⟨c.pool, pool.rev⟩] →
      m.stamp? c.pool = some pool.rev.next := by
    intro m hm
    rw [Change.stamp?, hm, List.find?_cons_of_pos (by simp)]
  refine ⟨sig, pool, ⟨fresh.channel, type, c.pool⟩, receptions, hsig, hpool, rfl, rfl, rfl, hplaced,
    hr, rfl, rfl, rfl, rfl, ?_, ?_⟩
  · simp only [creationPlan, List.map_cons, List.map_map, Mark.stamped, if_true,
      Function.comp_def, List.cons_append, List.nil_append]
    rw [hstamp rfl]
    rfl
  · intro k hk
    have hkp : k.pool = c.pool := by
      rcases List.mem_cons.1 hk with rfl | hk
      · rfl
      · obtain ⟨r, -, rfl⟩ := List.mem_map.1 hk
        rfl
    rw [hkp]
    exact ⟨_, hstamp rfl⟩

theorem homes_of_creation {process pool sig : Id} {ph : Sym} {provision : Endpoint}
    {receptions : List (Sym × Endpoint)} :
    s.Homes process (creationPlan process pool sig ph provision receptions) := by
  refine ⟨fun {k} hk => .inr ⟨_, List.mem_singleton_self _, ?_⟩, nofun, .inr ⟨pool, sig, rfl, ?_⟩⟩
  · rcases List.mem_cons.1 hk with rfl | hk
    · exact ⟨rfl, rfl⟩
    · obtain ⟨r, -, rfl⟩ := List.mem_map.1 hk
      exact ⟨rfl, rfl⟩
  · exact ⟨_, List.mem_cons_self, rfl⟩

/-- A creation that is committed leaves a sound store, with the process created in its net. -/
theorem creates_of_deriveCreation (hs : s.Sound) (h : s.deriveCreation fresh c = .ok (ref, m))
    (hc : s.commit m = .ok s') (hb : s'.Bounded) (hu : s.net.Unused fresh.channel)
    (hfresh : s.poolOf? fresh.process = none) :
    ∃ sig provision receptions, s.decls.sigs.get? c.sig = some sig ∧
      provision.channel = fresh.channel ∧ ref = ⟨fresh.process, c.pool, fresh.channel⟩ ∧
      (∃ pool, s.pools.get? c.pool = some pool) ∧
      receptions.map Prod.fst = sig.receptions.map Parameter.placeholder ∧
      s.Receives c.pool c.values receptions ∧
      s.Commits s' (creationPlan fresh.process c.pool sig.id sig.provision.placeholder provision
        receptions) ∧
      s'.Sound ∧
      s.net.Creates s'.net fresh.process c.pool sig.provision.placeholder provision receptions := by
  obtain ⟨sig, pool, provision, receptions, hsig, hpool, hch, hpp, href, hplaced, hr, hfills⟩ :=
    exists_creationPlan hs.toKeyed h
  have hcommits := commits_of_fills hfills hc hb (Nat.zero_le 1) fun _ _ _ _ hhome => by
    obtain ⟨_, hmem, -⟩ := hhome
    cases hmem
  refine ⟨sig, provision, receptions, hsig, hch, href, ⟨pool, hpool⟩, hplaced, hr, hcommits,
    sound_of_commits hs homes_of_creation hcommits hfresh, ?_⟩
  have hhalves : s'.halves = s.halves := hcommits.halves
  have hhome : s'.net.home = Function.update s.net.home fresh.process (some c.pool) := by
    rcases poolOf?_of_commits homes_of_creation hcommits with ⟨hmem, -⟩ | ⟨q, id, hmem, -, h⟩
    · cases hmem
    · cases hmem
      exact h
  have hpending : s'.net.message = s.net.message ∧ s'.net.service = s.net.service ∧
      s'.net.forward = s.net.forward := by
    simp only [net, hhalves]
    exact ⟨rfl, rfl, rfl⟩
  have hlive : s'.live = s.live.after (creationPlan fresh.process c.pool sig.id
      sig.provision.placeholder provision receptions).marks := hcommits.live
  refine ⟨⟨hfresh, hhome, hpp, hch ▸ hu, hpending.1, hpending.2.1, hpending.2.2⟩,
    hr.distinct, ?_, ?_, hr.elsewhere, ?_, ?_⟩
  · intro r hmem
    obtain ⟨-, p, ph, hl, hp⟩ := provider_of_endpoint? (hr.provided r hmem)
    exact ⟨p, ph, hl, hp⟩
  · intro r hmem p ph e he hche
    exact clients_eq_nil_iff.1 (hr.free r hmem) he hche
  · intro ph e he
    have he' : s'.live fresh.process ph = some e := he
    rw [hlive] at he'
    rcases Live.after_eq_some he' with hold | ⟨k, hk, -, -, rfl, rfl⟩
    · obtain ⟨q, hq⟩ := hs.live hold
      rw [hfresh] at hq
      cases hq
    · rcases List.mem_cons.1 hk with rfl | hk
      · exact .inl ⟨rfl, rfl⟩
      · obtain ⟨r, hmem, rfl⟩ := List.mem_map.1 hk
        exact .inr hmem
  · intro r hne
    funext ph
    show s'.live r ph = s.live r ph
    rw [hlive, Live.after_of_ne]
    intro k hk
    rcases List.mem_cons.1 hk with rfl | hk
    · exact Ne.symm hne
    · obtain ⟨r', -, rfl⟩ := List.mem_map.1 hk
      exact Ne.symm hne

end Store

end Rendezvous
