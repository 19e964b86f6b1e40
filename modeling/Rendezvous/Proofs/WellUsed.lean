import Rendezvous.Proofs.Offspring
import Rendezvous.Proofs.Progress
import Rendezvous.Proofs.Runs

/-!
# Well-used engines

An engine is well used (`Engine.WellUsed`) if types, signatures and pools are declared first; if each
process is then created in a pool of its own, with channels that earlier creations have returned and
that nobody has received before; and if no term is submitted that spawns into a pool that exists.

The net of such an engine is typed and rooted (`WellUsed.rooted`), by induction over the run. So a
term that is accepted is always taken, and its change is committed (`WellUsed.exists_commit_of_accepted`).
-/

namespace Rendezvous

open Relation (ReflTransGen)

/-- Whether a call declares something. -/
def Call.declares : Call → Bool
  | .incept _ | .createType .. | .modifyType .. | .createSig _ | .createPool .. => true
  | .handOff .. | .create _ | .step _ | .take _ => false

namespace Engine

/-- Engines that are well used from the empty store on. `free` are the channels that creations have
returned and no process has received. -/
inductive WellUsed (settings : Settings) (ids : Supply) : Engine → List Id → Prop
  /-- Declarations come first. -/
  | declared {calls : List Call} (h : ∀ call ∈ calls, call.declares = true) :
    WellUsed settings ids ((start settings ids).final calls) []
  /-- A process is created where nobody lives, and receives channels that are free. -/
  | created {e e' : Engine} {free : List Id} {c : Creation} {ref : ProcRef}
    (h : WellUsed settings ids e free) (hpool : ∀ p, e.store.poolOf? p ≠ some c.pool)
    (hvalues : ∀ ch ∈ c.values.values, ch ∈ free)
    (hc : Request.createProcess c e = .ok ref e') :
    WellUsed settings ids e' (ref.channel :: free.filter (· ∉ c.values.values))
  /-- A process takes a step. -/
  | stepped {e e' : Engine} {free : List Id} {spec : StepSpec} {next : Option StepSpec}
    (h : WellUsed settings ids e free) (hterm : spec.term.operation ≠ .spawn)
    (hs : Request.step .none spec e = .ok next e') : WellUsed settings ids e' free
  /-- A creation or a step is refused. -/
  | refused {e e' : Engine} {free : List Id} {err : Error} (h : WellUsed settings ids e free)
    (hr : (∃ c, Request.createProcess c e = .error err e') ∨
      ∃ spec, Request.step .none spec e = .error err e') : WellUsed settings ids e' free

end Engine

/-! ## Nets -/

namespace Net

variable {D : Id → TypeNode → Prop} {τ : Id → Id} {n n' : Net} {F : Id → Prop} {A : Id → Set Id}
  {c : Id}

/-- Nothing is rooted. -/
theorem rooted_empty : (∅ : Store).net.Rooted F fun _ => ∅ := by
  -- the caller may have ends, and there are no others
  have hends : ∀ {σ : Side} {P : Place} {c : Id}, (∅ : Store).net.Ends F σ P c →
      σ = .client ∧ P = .outside c := by
    intro σ P c h
    cases h with
    | outside => exact ⟨rfl, rfl⟩
    | bound h => cases h
    | waiting h => cases h
    | value h => cases h
    | cont h => cases h
    | front h => cases h
    | source h => cases h
    | target h => cases h
  refine ⟨⟨?_, ?_, ?_, ?_, ?_, ?_⟩, nofun, nofun, nofun, nofun, nofun, nofun, nofun⟩
  · intro σ P Q c hP hQ
    rw [(hends hP).2, (hends hQ).2]
  · intro P Q c d _ hP
    exact nomatch (hends hP).1
  · intro P Q c d _ _ hQ
    exact nomatch (hends hQ).1
  · intro P Q c d _ _ _ _
    exact Set.disjoint_empty _
  · intro P c hP
    exact nomatch (hends hP).1
  · intro P c _
    exact Set.disjoint_empty _

/-- A run of turns keeps a net rooted. -/
theorem Rooted.turns (hr : n.Rooted F A) (hD : Functional D) (ht : n.Typed D τ) (hF : ¬ F c)
    (h : ReflTransGen (Turn D c) n n') : ∃ A', n'.Rooted F A' := by
  induction h with
  | refl => exact ⟨A, hr⟩
  | tail hturns hturn ih =>
    obtain ⟨A', hr'⟩ := ih
    obtain ⟨τ', ht'⟩ := ht.turns hD hturns
    exact hr'.turn hF ht'.waiter hturn

end Net

/-! ## Runs -/

namespace Engine

variable {settings : Settings} {ids : Supply} {e e' : Engine} {free : List Id}

/-- Declarations are not about processes. -/
theorem Valid.declared (hv : e.Valid) {call : Call} (h : call.declares = true) :
    (call.after e).Valid ∧ (call.after e).store.net = e.store.net := by
  have hone : ∀ {α : Type} {r : Request α}, e.Declares (resulting (r e)) →
      (resulting (r.ignore e)).Valid ∧ (resulting (r.ignore e)).store.net = e.store.net := by
    intro α r hd
    rw [resulting_ignore]
    exact ⟨(hv.declares hd).1, hd.net_eq⟩
  cases call with
  | incept title => exact hone (declares_incept title e)
  | createType title spec => exact hone (declares_createType title spec e)
  | modifyType id rev spec =>
    have hr := redefines_modifyType id rev spec e
    rw [Call.after, Call.request, resulting_ignore]
    exact ⟨hv.redefines hr, hr.net_eq⟩
  | createSig spec => exact hone (declares_createSig spec e)
  | createPool title sup => exact hone (declares_createPool title sup e)
  | _ => cases h

theorem Valid.final_declared (hv : e.Valid) {calls : List Call}
    (h : ∀ call ∈ calls, call.declares = true) :
    (e.final calls).Valid ∧ (e.final calls).store.net = e.store.net := by
  induction calls generalizing e with
  | nil => exact ⟨hv, rfl⟩
  | cons call rest ih =>
    obtain ⟨hcall, hrest⟩ := List.forall_mem_cons.1 h
    obtain ⟨hv', hnet⟩ := hv.declared hcall
    obtain ⟨hv'', hnet'⟩ := ih hv' hrest
    exact ⟨hv'', hnet'.trans hnet⟩

/-- Nobody lives in a pool that is not there yet. -/
theorem Valid.home_ne_fresh (hv : e.Valid) (p : Id) :
    e.store.poolOf? p ≠ some e.ids.fresh.pool := by
  intro hp
  obtain ⟨pool, hpool⟩ := hv.sound.members hp
  rw [(hv.new e.fresh_lt.2.2.1).pool] at hpool
  cases hpool

/-- What is known of a well-used engine. -/
structure Tree (e : Engine) (free : List Id) : Prop extends e.WellTyped where
  drawn : ∀ c ∈ free, c.value < e.ids.next
  rooted : ∃ A, e.store.net.Rooted (· ∈ free) A

theorem Tree.created (ht : e.Tree free) {c : Creation} {ref : ProcRef} (h : e.Created e' c ref)
    (hy : e'.store.Young) (hpool : ∀ p, e.store.poolOf? p ≠ some c.pool)
    (hvalues : ∀ ch ∈ c.values.values, ch ∈ free) :
    e'.Tree (ref.channel :: free.filter (· ∉ c.values.values)) := by
  obtain ⟨href, sig, provision, receptions, hcr⟩ := ht.creating h hy
  obtain ⟨A, hr⟩ := ht.rooted
  obtain ⟨τ, htyped⟩ := ht.typed
  have hfresh := e.fresh_lt
  have hchannel : ref.channel = provision.channel := by rw [href, hcr.channel]
  have hreceived : ∀ r ∈ receptions, r.2.channel ∈ c.values.values := fun r hr =>
    Table.mem_values_of_get?_eq_some (hcr.receives.named r hr)
  refine ⟨ht.toWellTyped.created h hy, ?_, ?_⟩
  · rw [h.ids]
    rintro ch (_ | ⟨_, hch⟩)
    · rw [href]
      exact hfresh.2.2.2.1
    · exact Nat.lt_trans (ht.drawn ch (List.mem_filter.1 hch).1) e.ids.next_lt_next_afterFresh
  · refine hr.creates hcr.net hpool htyped.waiter (fun r hr => hvalues _ (hreceived r hr)) ?_
    rintro d (_ | ⟨_, hd⟩) hne
    · exact absurd hchannel hne
    · obtain ⟨hfree, hnot⟩ := List.mem_filter.1 hd
      refine ⟨hfree, fun r hr heq => ?_⟩
      exact of_decide_eq_true hnot (heq ▸ hreceived r hr)

theorem Tree.stepped (ht : e.Tree free) {spec : StepSpec} {next : Option StepSpec}
    (h : Request.step .none spec e = .ok next e') (hy : e'.store.Young)
    (hterm : spec.term.operation ≠ .spawn) : e'.Tree free := by
  obtain ⟨m, hd, hc, hi⟩ := step_eq_ok h
  obtain ⟨pl, hst⟩ := ht.steps hd hc hy
  obtain ⟨A, hr⟩ := ht.rooted
  obtain ⟨τ, htyped⟩ := ht.typed
  have hnew : e.ids.fresh.channel ∉ free := fun hmem =>
    Nat.not_lt.2 e.fresh_lt.1 (ht.drawn _ hmem)
  refine ⟨ht.toWellTyped.step hd hc hi hy, ?_, ?_⟩
  · intro ch hch
    rw [hi]
    exact Nat.lt_trans (ht.drawn ch hch) e.ids.next_lt_next_afterFresh
  · rcases hst.net with ⟨-, hturns⟩ | ⟨pool, via, ph, provision, gifts, hf, hch, hpool⟩
    · exact hr.turns e.store.decls.functional_denotes htyped hnew hturns
    · refine hr.founds hf ?_ (hch ▸ hnew) htyped.waiter
      rw [hpool hterm]
      exact ht.home_ne_fresh

theorem Tree.declares (ht : e.Tree free) (h : e.Declares e') (hy : e'.store.Young) :
    e'.Tree free := by
  obtain ⟨A, hr⟩ := ht.rooted
  refine ⟨ht.toWellTyped.event (.declares h) hy, ?_, A, ?_⟩
  · exact fun ch hch => Nat.lt_of_lt_of_le (ht.drawn ch hch) h.next_le
  · rw [h.net_eq]
    exact hr

/-- The net of a well-used engine is typed and rooted. -/
theorem WellUsed.tree (h : WellUsed settings ids e free) (hy : e.store.Young) : e.Tree free := by
  induction h with
  | declared h =>
    obtain ⟨hv, hnet⟩ := (wellTyped_start settings ids).toValid.final_declared h
    refine ⟨⟨hv, id, ?_⟩, nofun, fun _ => ∅, ?_⟩
    · rw [hnet]
      exact ⟨nofun, nofun, nofun, nofun, nofun, nofun, nofun, nofun⟩
    · rw [hnet]
      exact Net.rooted_empty
  | created _ hpool hvalues hc ih =>
    have hcreated := created_of_createProcess hc
    exact (ih (hy.of_ages hcreated.ages)).created hcreated hy hpool hvalues
  | stepped _ hterm hs ih =>
    obtain ⟨m, -, hc, -⟩ := step_eq_ok hs
    exact (ih (hy.of_ages (Store.ages_of_commit hc))).stepped hs hy hterm
  | @refused e e' _ err _ hr ih =>
    have hd : e.Declares e' := by
      rcases hr with ⟨c, hr⟩ | ⟨spec, hr⟩
      · exact declares_create hr
      · exact declares_step hr
    exact (ih (hy.of_ages hd.ages)).declares hd hy

/-- Type safety of well-used engines: a term of a process that is not suspended, if it is accepted
with the configuration and the declarations that are loaded for it, is taken from there, and the
change is committed. -/
theorem WellUsed.exists_commit_of_accepted (h : WellUsed settings ids e free) (hy : e.store.Young)
    {spec : StepSpec} (hterm : spec.term.operation ≠ .spawn) {cfg : Configuration} {env : Env}
    {ctx : Context} (hcfg : e.store.configuration spec.process = .ok cfg)
    (hpool : cfg.pool = spec.pool) (hidle : cfg.waiting? = none)
    (hload : e.store.decls.load cfg spec.term = .ok env)
    (hcheck : checkStep spec.pool env cfg spec.term = .ok ctx) :
    ∃ next m s', transition env cfg e.ids.fresh spec.term = .ok (next, m) ∧
      e.store.commit m = .ok s' := by
  have ht := h.tree hy
  obtain ⟨A, hr⟩ := ht.rooted
  obtain ⟨τ, htyped⟩ := ht.typed
  exact Store.exists_transition ht.sound hr htyped
    (Store.reads_configuration ht.sound.toKeyed hcfg) (Registry.within_load hload) hidle
    (hpool ▸ hcheck) (ht.new e.fresh_lt.2.2.1).pool hterm

/-- A creation that is seen to go through. -/
theorem WellUsed.create (h : WellUsed settings ids e free) {c : Creation} (ref : ProcRef)
    (hpool : ∀ m ∈ e.store.members.values, m.pool ≠ c.pool)
    (hvalues : ∀ ch ∈ c.values.values, ch ∈ free)
    (hc : returned? (Request.createProcess c e) = some ref) :
    WellUsed settings ids ((Call.create c).after e)
      (ref.channel :: free.filter (· ∉ c.values.values)) := by
  rw [Call.after, Call.request, resulting_ignore]
  refine h.created (fun p hp => ?_) hvalues (eq_ok_of_returned? hc)
  obtain ⟨m, hm, hq⟩ := Option.map_eq_some_iff.1 hp
  exact hpool m (Table.mem_values_of_get?_eq_some hm) hq

/-- A step that is seen to go through. -/
theorem WellUsed.step (h : WellUsed settings ids e free) {spec : StepSpec}
    (hterm : spec.term.operation ≠ .spawn)
    (hs : (returned? (Request.step .none spec e)).isSome = true) :
    WellUsed settings ids ((Call.step spec).after e) free := by
  obtain ⟨next, hnext⟩ := exists_of_returned? hs
  rw [Call.after, Call.request, resulting_ignore]
  exact h.stepped hterm hnext

/-- What a closer and a waiter need. -/
def closing : List Call :=
  [.createType Small.unit .one,
    .createSig ⟨Small.closer, ⟨"x", Small.unit⟩, []⟩,
    .createSig ⟨Small.waiter, ⟨"self", Small.unit⟩, [⟨"y", Small.unit⟩]⟩,
    .createPool none none, .createPool none none]

/-- A closer is created, and a waiter that receives its channel; the waiter waits. -/
def awaited : Engine :=
  ((start {} ⟨0⟩).final closing).final
    [.create ⟨.nth 4, .nth 2, ∅⟩, .create ⟨.nth 5, .nth 3, .ofList [("y", .nth 6)]⟩,
      .step ⟨.nth 5, .nth 10, .wait "y" (.close "self")⟩]

theorem wellUsed_awaited : WellUsed {} ⟨0⟩ awaited [.nth 9] := by
  have hdeclared : WellUsed {} ⟨0⟩ ((start {} ⟨0⟩).final closing) [] := .declared (by decide)
  have hcloser := hdeclared.create ⟨.nth 7, .nth 4, .nth 6⟩ (c := ⟨.nth 4, .nth 2, ∅⟩)
    (by decide +kernel) (by decide) (by decide +kernel)
  have hwaiter := hcloser.create ⟨.nth 10, .nth 5, .nth 9⟩
    (c := ⟨.nth 5, .nth 3, .ofList [("y", .nth 6)]⟩) (by decide +kernel) (by decide +kernel)
    (by decide +kernel)
  exact hwaiter.step nofun (by decide +kernel)

theorem young_awaited : awaited.store.Young := Store.young_of_values (by decide +kernel)

/-- The closer closes. -/
def closeStep : StepSpec := ⟨.nth 4, .nth 7, .close "x"⟩

/-- The closer is accepted, and so it closes. -/
theorem exists_commit_close :
    ∃ cfg env ctx, awaited.store.configuration closeStep.process = .ok cfg ∧
      awaited.store.decls.load cfg closeStep.term = .ok env ∧
      checkStep closeStep.pool env cfg closeStep.term = .ok ctx ∧
      ∃ next m s', transition env cfg awaited.ids.fresh closeStep.term = .ok (next, m) ∧
        awaited.store.commit m = .ok s' := by
  obtain ⟨next, hnext⟩ := exists_of_returned? (r := Request.step .none closeStep awaited)
    (by decide +kernel)
  obtain ⟨m, hd, -, -⟩ := step_eq_ok hnext
  obtain ⟨cfg, _, env, ctx, hcfg, hpool, hidle, haim, hload, hcheck, -⟩ :=
    Store.deriveStep_eq_ok_iff.1 hd
  cases haim
  exact ⟨cfg, env, ctx, hcfg, hload, hcheck, wellUsed_awaited.exists_commit_of_accepted young_awaited
    (by decide) hcfg hpool hidle hload hcheck⟩

end Engine

end Rendezvous
