import Rendezvous.Proofs.Revisions

/-!
# Sessions

Steps are not always committed as soon as they are derived. A `Session` keeps what was derived on
its engine (`Proposal`), and each proposal may be committed later, in any order, again and again.

- `Session.perform` is what an `Act` does, and `Session.transactions` and `Session.transfers` list
  the changes that were committed on the way and the transfers of liability;
- `Session.Stroke` says once what a session does at a time: it declares something, a proposal is
  made, forgotten or committed, or a pool is handed on. A step that is derived and committed at once
  is a proposal that is forgotten right after its commit (`strokes_at_once`);
- `strokes_final`: a run of acts is a run of strokes that leaves just what the two lists say.
-/

namespace Rendezvous

/-! ## Acts -/

/-- A pool passes to a process, which is founded in it or lives there. -/
structure Transfer where
  pool : Id
  process : Id
  isNew : Bool
deriving DecidableEq

/-- The process that a step founds, under an id that was drawn for the step. -/
def StepSpec.founds? (spec : StepSpec) (fresh : Fresh) : Option Transfer :=
  match spec.term with
  | .call .. => some ⟨fresh.pool, fresh.process, true⟩
  | .spawn _ _ _ pool _ => some ⟨pool, fresh.process, true⟩
  | _ => none

/-- A change that was derived, the id that was drawn for a new process, and what the change
founds. -/
structure Proposal where
  process : Id
  change : Change
  founds? : Option Transfer

/-- A change that went through, between two stores. -/
structure Transaction where
  before : Store
  change : Change
  after : Store

/-- One thing that is asked of a session: a call, a step that is only derived, or the commit of the
proposal at some place. -/
inductive Act where
  | call (call : Call)
  | derive (spec : StepSpec)
  | commit (i : Nat)

/-- An engine with the changes that were derived on it, oldest first. -/
structure Session where
  engine : Engine
  proposals : List Proposal

namespace Engine

/-- What a request has entered in the journal. -/
def committed {α : Type} (e : Engine) (r : Request α) : List Transaction :=
  ((resulting (r e)).journal.drop e.journal.length).map fun m =>
    ⟨e.store, m, (resulting (r e)).store⟩

/-- The process that a step founds, if it goes through. -/
def foundedBy? (e : Engine) (spec : StepSpec) : Option Transfer :=
  (returned? (Request.step .none spec e)).bind fun _ => spec.founds? e.ids.fresh

end Engine

namespace Session

/-- The session after an act, whether it has succeeded or not. -/
def perform (s : Session) : Act → Session
  | .call call => { s with engine := call.after s.engine }
  | .derive spec =>
    let fresh := s.engine.ids.fresh
    let result := Request.derive spec s.engine
    { engine := resulting result
      proposals := s.proposals ++
        ((returned? result).map fun r => ⟨fresh.process, r.2, spec.founds? fresh⟩).toList }
  | .commit i =>
    s.proposals[i]?.elim s fun p =>
      { s with engine := resulting (Request.commit p.change s.engine) }

/-- The session at the end of a run. -/
def final (s : Session) (acts : List Act) : Session := acts.foldl perform s

/-- The changes that an act commits, in order. -/
def committed (s : Session) : Act → List Transaction
  | .call (.create c) => s.engine.committed (Request.createProcess c)
  | .call call => (s.engine.attempted call).flatMap fun a => a.1.committed (Request.step .none a.2)
  | .derive _ => []
  | .commit i => s.proposals[i]?.elim [] fun p => s.engine.committed (Request.commit p.change)

/-- The transfers of an act: a creation, a step that founds a process, or a pool that is handed
on. -/
def transferred (s : Session) : Act → List Transfer
  | .call (.create c) =>
    ((returned? (Request.createProcess c s.engine)).map fun ref =>
      ⟨c.pool, ref.process, true⟩).toList
  | .call (.handOff pool process rev) =>
    ((returned? (Request.handOff pool process rev s.engine)).map fun _ =>
      ⟨pool, process, false⟩).toList
  | .call call => (s.engine.attempted call).flatMap fun a => (a.1.foundedBy? a.2).toList
  | .derive _ => []
  | .commit i =>
    s.proposals[i]?.elim [] fun p =>
      ((returned? (Request.commit p.change s.engine)).bind fun _ => p.founds?).toList

/-- The changes that a run commits, in order. -/
def transactions (s : Session) : List Act → List Transaction
  | [] => []
  | act :: rest => s.committed act ++ (s.perform act).transactions rest

/-- The transfers of a run, in order. -/
def transfers (s : Session) : List Act → List Transfer
  | [] => []
  | act :: rest => s.transferred act ++ (s.perform act).transfers rest

end Session

/-- A session with nothing proposed yet. -/
def Engine.session (e : Engine) : Session := ⟨e, []⟩

/-! ## Strokes -/

/-- A proposal that is derived with the ids that are drawn next. -/
inductive Engine.Proposes (e : Engine) (p : Proposal) : Prop
  | step {spec : StepSpec} {next : Option StepSpec}
    (h : e.store.deriveStep e.ids.fresh spec = .ok (next, p.change))
    (hp : p.process = e.ids.fresh.process) (hf : p.founds? = spec.founds? e.ids.fresh)
  | creation {c : Creation} {ref : ProcRef}
    (h : e.store.deriveCreation e.ids.fresh c = .ok (ref, p.change))
    (hp : p.process = e.ids.fresh.process)
    (hf : p.founds? = some ⟨c.pool, e.ids.fresh.process, true⟩)

namespace Session

/-- What a session does at a time, with what it commits and transfers. -/
inductive Stroke (s s' : Session) : List Transaction → List Transfer → Prop
  | declares (h : s.engine.Declares s'.engine) (hp : s'.proposals = s.proposals) : Stroke s s' [] []
  | redefines (h : s.engine.Redefines s'.engine) (hp : s'.proposals = s.proposals) :
    Stroke s s' [] []
  | propose {p : Proposal} (h : s.engine.Proposes p) (hs : s'.engine.store = s.engine.store)
    (hi : s'.engine.ids = s.engine.ids.afterFresh) (hp : s'.proposals = s.proposals ++ [p]) :
    Stroke s s' [] []
  | forget (he : s'.engine = s.engine) (hp : ∀ p ∈ s'.proposals, p ∈ s.proposals) :
    Stroke s s' [] []
  | commit {p : Proposal} (hmem : p ∈ s.proposals)
    (hc : s.engine.store.commit p.change = .ok s'.engine.store)
    (hi : s'.engine.ids = s.engine.ids) (hp : s'.proposals = s.proposals) :
    Stroke s s' [⟨s.engine.store, p.change, s'.engine.store⟩] p.founds?.toList
  | handOff {pool process : Id} {rev : Rev} (hhome : s.engine.store.poolOf? process = some pool)
    (h : s.engine.store.addLiability ⟨pool, process, rev.next.introStamp⟩ rev =
      .ok s'.engine.store)
    (hi : s'.engine.ids = s.engine.ids) (hp : s'.proposals = s.proposals) :
    Stroke s s' [] [⟨pool, process, false⟩]

/-- A run of strokes. -/
inductive Strokes : Session → Session → List Transaction → List Transfer → Prop
  | refl (s : Session) : Strokes s s [] []
  | tail {s s' s'' : Session} {ks ks' : List Transaction} {ts ts' : List Transfer}
    (h : Strokes s s' ks ts) (h' : Stroke s' s'' ks' ts') : Strokes s s'' (ks ++ ks') (ts ++ ts')

variable {s s' s'' : Session} {ks ks' : List Transaction} {ts ts' : List Transfer}

theorem Stroke.single (h : Stroke s s' ks ts) : Strokes s s' ks ts := .tail (.refl s) h

theorem Strokes.trans (h : Strokes s s' ks ts) (h' : Strokes s' s'' ks' ts') :
    Strokes s s'' (ks ++ ks') (ts ++ ts') := by
  induction h' with
  | refl =>
    rw [List.append_nil, List.append_nil]
    exact h
  | tail _ hstroke ih =>
    rw [← List.append_assoc, ← List.append_assoc]
    exact ih.tail hstroke

/-- What strokes keep all along holds at the end. -/
theorem Strokes.keeps {I : Session → List Transaction → List Transfer → Prop}
    (hstep : ∀ {s s' ks ts ks' ts'}, I s ks ts → Stroke s s' ks' ts' →
      I s' (ks ++ ks') (ts ++ ts'))
    (h : Strokes s s' ks ts) (hI : I s [] []) : I s' ks ts := by
  induction h with
  | refl => exact hI
  | tail _ hstroke ih => exact hstep ih hstroke

end Session

/-! ## Acts as strokes -/

namespace Engine

variable {α : Type} {e : Engine} {r : Request α}

theorem committed_eq_nil (h : (resulting (r e)).journal = e.journal) : e.committed r = [] := by
  rw [committed, h, List.drop_length, List.map_nil]

theorem committed_eq_singleton {m : Change} (h : (resulting (r e)).journal = e.journal ++ [m]) :
    e.committed r = [⟨e.store, m, (resulting (r e)).store⟩] := by
  rw [committed, h, List.drop_left, List.map_singleton]

end Engine

namespace Request

/-- Deriving a step draws ids and leaves the store alone. -/
theorem derive_outcome (spec : StepSpec) (e : Engine) :
    (∃ err, derive spec e = .error err { e with ids := e.ids.afterFresh }) ∨
      ∃ r, e.store.deriveStep e.ids.fresh spec = .ok r ∧
        derive spec e = .ok r { e with ids := e.ids.afterFresh } := by
  simp only [derive, bind_apply, drawFresh_apply, read_apply]
  cases hd : e.store.deriveStep e.ids.fresh spec with
  | error err => exact .inl ⟨err, rfl⟩
  | ok r => exact .inr ⟨r, rfl, rfl⟩

/-- A step that does not go through draws ids, and one that does commits what it has derived. -/
theorem step_outcome (spec : StepSpec) (e : Engine) :
    (∃ err, step .none spec e = .error err { e with ids := e.ids.afterFresh }) ∨
      ∃ next m t, e.store.deriveStep e.ids.fresh spec = .ok (next, m) ∧
        e.store.commit m = .ok t ∧ step .none spec e = .ok next
          { e with store := t, ids := e.ids.afterFresh, journal := e.journal ++ [m] } := by
  rw [step_apply]
  cases hd : e.store.deriveStep e.ids.fresh spec with
  | error err => exact .inl ⟨err, rfl⟩
  | ok derived =>
    obtain ⟨next, m⟩ := derived
    dsimp only
    cases hc : e.store.commit m with
    | error err => exact .inl ⟨err, rfl⟩
    | ok t => exact .inr ⟨next, m, t, rfl, hc, rfl⟩

theorem createProcess_outcome (c : Creation) (e : Engine) :
    (∃ err, createProcess c e = .error err { e with ids := e.ids.afterFresh }) ∨
      ∃ ref m t, e.store.deriveCreation e.ids.fresh c = .ok (ref, m) ∧
        e.store.commit m = .ok t ∧ createProcess c e = .ok ref
          { e with store := t, ids := e.ids.afterFresh, journal := e.journal ++ [m] } := by
  rw [createProcess_apply]
  cases hd : e.store.deriveCreation e.ids.fresh c with
  | error err => exact .inl ⟨err, rfl⟩
  | ok derived =>
    obtain ⟨ref, m⟩ := derived
    dsimp only
    cases hc : e.store.commit m with
    | error err => exact .inl ⟨err, rfl⟩
    | ok t => exact .inr ⟨ref, m, t, rfl, hc, rfl⟩

/-- A pool is handed on to a process that lives there, or nothing happens. -/
theorem handOff_outcome (pool process : Id) (rev : Rev) (e : Engine) :
    (∃ err, handOff pool process rev e = .error err e) ∨
      ∃ t, e.store.poolOf? process = some pool ∧
        e.store.addLiability ⟨pool, process, rev.next.introStamp⟩ rev = .ok t ∧
        handOff pool process rev e = .ok rev.next { e with store := t } := by
  simp only [handOff, bind_apply, read_apply, update_apply]
  cases hm : e.store.members.get? process with
  | none => exact .inl ⟨_, rfl⟩
  | some member =>
    dsimp only
    by_cases hp : member.pool = pool
    · rw [if_neg (fun h => h hp)]
      dsimp only
      cases h : e.store.addLiability ⟨pool, process, rev.next.introStamp⟩ rev with
      | error err => exact .inl ⟨err, rfl⟩
      | ok t => exact .inr ⟨t, by rw [Store.poolOf?, hm, Option.map_some, hp], rfl, rfl⟩
    · rw [if_pos hp]
      exact .inl ⟨_, rfl⟩

end Request

namespace Session

/-- Only ids are drawn. -/
theorem strokes_draw (e : Engine) (ps : List Proposal) :
    Strokes ⟨e, ps⟩ ⟨{ e with ids := e.ids.afterFresh }, ps⟩ [] [] :=
  Stroke.single (.declares e.declares_draw rfl)

/-- What is derived and committed at once leaves no proposal. -/
theorem strokes_at_once {e e' : Engine} {p : Proposal} (h : e.Proposes p)
    (hc : e.store.commit p.change = .ok e'.store) (hi : e'.ids = e.ids.afterFresh)
    (ps : List Proposal) :
    Strokes ⟨e, ps⟩ ⟨e', ps⟩ [⟨e.store, p.change, e'.store⟩] p.founds?.toList := by
  have hpropose : Stroke ⟨e, ps⟩ ⟨{ e with ids := e.ids.afterFresh }, ps ++ [p]⟩ [] [] :=
    .propose h rfl rfl rfl
  have hcommit : Stroke ⟨{ e with ids := e.ids.afterFresh }, ps ++ [p]⟩ ⟨e', ps ++ [p]⟩
      [⟨e.store, p.change, e'.store⟩] p.founds?.toList :=
    .commit (List.mem_append_right _ (List.mem_singleton_self p)) hc hi rfl
  have hforget : Stroke ⟨e', ps ++ [p]⟩ ⟨e', ps⟩ [] [] :=
    .forget rfl fun _ hmem => List.mem_append_left _ hmem
  have hall := (hpropose.single.tail hcommit).tail hforget
  rwa [List.nil_append, List.nil_append, List.append_nil, List.append_nil] at hall

/-- A step that is tried is committed, or nothing but ids drawn. -/
theorem strokes_step (spec : StepSpec) (e : Engine) (ps : List Proposal) :
    Strokes ⟨e, ps⟩ ⟨resulting (Request.step .none spec e), ps⟩
      (e.committed (Request.step .none spec)) (e.foundedBy? spec).toList := by
  rcases Request.step_outcome spec e with ⟨err, hr⟩ | ⟨next, m, t, hd, hc, hr⟩
  · rw [Engine.committed_eq_nil (by rw [hr]; rfl), Engine.foundedBy?, hr]
    exact strokes_draw e ps
  · rw [Engine.committed_eq_singleton (m := m) (by rw [hr]; rfl), Engine.foundedBy?, hr]
    exact strokes_at_once (p := ⟨e.ids.fresh.process, m, spec.founds? e.ids.fresh⟩)
      (.step hd rfl rfl) hc rfl ps

theorem strokes_create (c : Creation) (e : Engine) (ps : List Proposal) :
    Strokes ⟨e, ps⟩ ⟨resulting (Request.createProcess c e), ps⟩
      (e.committed (Request.createProcess c))
      ((returned? (Request.createProcess c e)).map fun ref =>
        ⟨c.pool, ref.process, true⟩).toList := by
  rcases Request.createProcess_outcome c e with ⟨err, hr⟩ | ⟨ref, m, t, hd, hc, hr⟩
  · rw [Engine.committed_eq_nil (by rw [hr]; rfl), hr]
    exact strokes_draw e ps
  · -- the process that is returned has the id that was drawn for it
    obtain ⟨sig, pool, type, env, bindings, -, -, -, rfl, -⟩ := Store.exists_of_deriveCreation hd
    have hpropose : e.Proposes
        ⟨e.ids.fresh.process, m, some ⟨c.pool, e.ids.fresh.process, true⟩⟩ :=
      .creation hd rfl rfl
    rw [Engine.committed_eq_singleton (m := m) (by rw [hr]; rfl), hr]
    exact strokes_at_once hpropose hc rfl ps

theorem strokes_commit {p : Proposal} (e : Engine) {ps : List Proposal} (hp : p ∈ ps) :
    Strokes ⟨e, ps⟩ ⟨resulting (Request.commit p.change e), ps⟩
      (e.committed (Request.commit p.change))
      ((returned? (Request.commit p.change e)).bind fun _ => p.founds?).toList := by
  cases hc : e.store.commit p.change with
  | error err =>
    have hr : Request.commit p.change e = .error err e := by
      rw [Request.commit_apply, hc]
    rw [Engine.committed_eq_nil (by rw [hr]; rfl), hr]
    exact .refl _
  | ok t =>
    have hr : Request.commit p.change e =
        .ok () { e with store := t, journal := e.journal ++ [p.change] } := by
      rw [Request.commit_apply, hc]
    rw [Engine.committed_eq_singleton (m := p.change) (by rw [hr]; rfl), hr]
    exact Stroke.single (.commit hp hc rfl rfl)

theorem strokes_handOff (pool process : Id) (rev : Rev) (e : Engine) (ps : List Proposal) :
    Strokes ⟨e, ps⟩ ⟨resulting (Request.handOff pool process rev e), ps⟩ []
      ((returned? (Request.handOff pool process rev e)).map fun _ =>
        ⟨pool, process, false⟩).toList := by
  rcases Request.handOff_outcome pool process rev e with ⟨err, hr⟩ | ⟨t, hhome, h, hr⟩
  · rw [hr]
    exact .refl _
  · rw [hr]
    exact Stroke.single (.handOff hhome h rfl rfl)

/-- A chain of steps makes the strokes of one step after the other. -/
theorem strokes_takeFrom (limit taken n : Nat) (spec : StepSpec) (e : Engine)
    (ps : List Proposal) :
    Strokes ⟨e, ps⟩ ⟨resulting (Request.takeFrom (fun _ => .none) limit taken n spec e), ps⟩
      ((Engine.chain n spec e).flatMap fun a => a.1.committed (Request.step .none a.2))
      ((Engine.chain n spec e).flatMap fun a => (a.1.foundedBy? a.2).toList) := by
  induction n generalizing taken spec e with
  | zero => exact .refl _
  | succ n ih =>
    have hfirst := strokes_step spec e ps
    rw [Engine.chain, List.flatMap_cons, List.flatMap_cons]
    unfold Request.takeFrom
    -- the chain goes on where the step that was just taken has left the engine
    cases h : Request.step .none spec e with
    | error err e' =>
      rw [h] at hfirst
      rw [List.flatMap_nil, List.flatMap_nil, List.append_nil, List.append_nil]
      exact hfirst
    | ok next e' =>
      rw [h] at hfirst
      cases next with
      | none =>
        rw [List.flatMap_nil, List.flatMap_nil, List.append_nil, List.append_nil]
        exact hfirst
      | some spec' => exact hfirst.trans (ih (taken + 1) spec' e')

/-- A call makes the strokes that its transactions and transfers stand for. -/
theorem strokes_call (call : Call) (e : Engine) (ps : List Proposal) :
    Strokes ⟨e, ps⟩ ⟨call.after e, ps⟩ (committed ⟨e, ps⟩ (.call call))
      (transferred ⟨e, ps⟩ (.call call)) := by
  have hdeclares : ∀ {α : Type} {r : Request α}, e.Declares (resulting (r e)) →
      Strokes ⟨e, ps⟩ ⟨resulting (r.ignore e), ps⟩ [] [] := by
    intro α r h
    rw [resulting_ignore]
    exact Stroke.single (.declares h rfl)
  have hstep : ∀ spec, Strokes ⟨e, ps⟩ ⟨resulting (Request.step .none spec e), ps⟩
      ([(e, spec)].flatMap fun a => a.1.committed (Request.step .none a.2))
      ([(e, spec)].flatMap fun a => (a.1.foundedBy? a.2).toList) := by
    intro spec
    rw [List.flatMap_singleton, List.flatMap_singleton]
    exact strokes_step spec e ps
  cases call with
  | incept title => exact hdeclares (Engine.declares_incept title e)
  | createType title spec => exact hdeclares (Engine.declares_createType title spec e)
  | modifyType id rev spec =>
    rw [Call.after, Call.request, resulting_ignore]
    exact Stroke.single (.redefines (Engine.redefines_modifyType id rev spec e) rfl)
  | createSig spec => exact hdeclares (Engine.declares_createSig spec e)
  | createPool title sup => exact hdeclares (Engine.declares_createPool title sup e)
  | handOff pool process rev =>
    rw [Call.after, Call.request, resulting_ignore]
    exact strokes_handOff pool process rev e ps
  | create c =>
    rw [Call.after, Call.request, resulting_ignore]
    exact strokes_create c e ps
  | step spec =>
    rw [Call.after, Call.request, resulting_ignore]
    exact hstep spec
  | take spec => exact strokes_takeFrom _ 0 _ spec e ps

theorem strokes_derive (spec : StepSpec) (s : Session) :
    Strokes s (s.perform (.derive spec)) [] [] := by
  rcases Request.derive_outcome spec s.engine with ⟨err, hr⟩ | ⟨r, hd, hr⟩
  · have hs : s.perform (.derive spec) =
        ⟨{ s.engine with ids := s.engine.ids.afterFresh }, s.proposals⟩ := by
      simp only [perform, hr]
      exact congrArg _ (List.append_nil _)
    rw [hs]
    exact strokes_draw s.engine s.proposals
  · have hs : s.perform (.derive spec) =
        ⟨{ s.engine with ids := s.engine.ids.afterFresh }, s.proposals ++
          [⟨s.engine.ids.fresh.process, r.2, spec.founds? s.engine.ids.fresh⟩]⟩ := by
      simp only [perform, hr]
      rfl
    rw [hs]
    exact Stroke.single (.propose (.step hd rfl rfl) rfl rfl rfl)

/-- An act makes the strokes that its transactions and transfers stand for. -/
theorem strokes_perform (act : Act) (s : Session) :
    Strokes s (s.perform act) (s.committed act) (s.transferred act) := by
  cases act with
  | call call => exact strokes_call call s.engine s.proposals
  | derive spec => exact strokes_derive spec s
  | commit i =>
    simp only [perform, committed, transferred]
    cases hp : s.proposals[i]? with
    | none => exact .refl s
    | some p => exact strokes_commit s.engine (List.mem_of_getElem? hp)

/-- So does a run of acts. -/
theorem strokes_final (acts : List Act) (s : Session) :
    Strokes s (s.final acts) (s.transactions acts) (s.transfers acts) := by
  induction acts generalizing s with
  | nil => exact .refl s
  | cons act rest ih => exact (strokes_perform act s).trans (ih (s.perform act))

open Engine in
/-- A closer proposes to spawn another one into a second pool. The second pool cannot be handed on
to the first closer, the proposal goes through late, and it does so once. -/
def lateSpawn : List Act :=
  [.call (.createType Small.unit .one),
    .call (.createSig ⟨Small.closer, ⟨"x", Small.unit⟩, []⟩),
    .call (.createPool none none), .call (.createPool none none),
    .call (.create ⟨.nth 3, .nth 2, ∅⟩),
    .derive ⟨.nth 3, .nth 6, .spawn "y" (.nth 2) [] (.nth 4) (.wait "y" (.close "x"))⟩,
    .call (.handOff (.nth 4) (.nth 6) .initial), .commit 0, .commit 0]

end Session

end Rendezvous
