import Mathlib.Logic.Relation
import Rendezvous.Engine.Create
import Rendezvous.Engine.Declare
import Rendezvous.Engine.Step
import Rendezvous.Proofs.Checked
import Rendezvous.Proofs.Commit

/-!
# Service calls

A `Call` is a request to the services that is run to its end, and `Call.after` the engine it leaves,
whether it has succeeded or not. `Engine.states` are the engines that a run of calls goes through,
`Engine.attempts` the steps that it tries on the way, and `Engine.moments` the engines that these are
tried on as well.

What a call can do is said once: it creates a process (`Engine.Created`), it gives a type another
definition (`Engine.Redefines`), or it is a run of events (`Engine.Event`): a declaration, a pool that
is handed on, or a step. `after_cases` says so for every call; `take` is the only one that has several
events.
-/

namespace Rendezvous

open Relation (ReflTransGen)

/-- A call to one of the services. -/
inductive Call where
  | incept (title : QualName)
  | createType (title : QualName) (spec : SessionType)
  | modifyType (id : Id) (rev : Rev) (spec : SessionType)
  | createSig (spec : SignatureSpec)
  | createPool (title : Option QualName) (sup : Option Id)
  | handOff (pool process : Id) (rev : Rev)
  | create (creation : Creation)
  | step (spec : StepSpec)
  | take (spec : StepSpec)

/-- A request without its result. -/
def Request.ignore {α : Type} (r : Request α) : Request Unit := (fun _ => ()) <$> r

namespace Call

/-- The request of a call. Nobody else writes to the store meanwhile. -/
def request : Call → Request Unit
  | .incept title => (Request.incept title).ignore
  | .createType title spec => (Request.createType title spec).ignore
  | .modifyType id rev spec => (Request.modifyType id rev spec).ignore
  | .createSig spec => (Request.createSig spec).ignore
  | .createPool title sup => (Request.createPool title sup).ignore
  | .handOff pool process rev => (Request.handOff pool process rev).ignore
  | .create creation => (Request.createProcess creation).ignore
  | .step spec => (Request.step .none spec).ignore
  | .take spec => Request.take (fun _ => .none) spec

/-- Whether a call gives a type another definition. -/
def redefines : Call → Bool
  | .modifyType .. => true
  | _ => false

end Call

/-- The engine that a result leaves. -/
def resulting {α : Type} : EStateM.Result Error Engine α → Engine
  | .ok _ e => e
  | .error _ e => e

@[simp] theorem resulting_ok {α : Type} (a : α) (e : Engine) :
    resulting (.ok a e : EStateM.Result Error Engine α) = e := rfl

@[simp] theorem resulting_error {α : Type} (err : Error) (e : Engine) :
    resulting (.error err e : EStateM.Result Error Engine α) = e := rfl

/-- What a request has returned, if it has gone through. -/
def returned? {α : Type} : EStateM.Result Error Engine α → Option α
  | .ok a _ => some a
  | .error .. => none

theorem eq_ok_of_returned? {α : Type} {r : EStateM.Result Error Engine α} {a : α}
    (h : returned? r = some a) : r = .ok a (resulting r) := by
  cases r with
  | ok a' e =>
    cases h
    rfl
  | error => cases h

theorem exists_of_returned? {α : Type} {r : EStateM.Result Error Engine α}
    (h : (returned? r).isSome = true) : ∃ a, r = .ok a (resulting r) := by
  obtain ⟨a, ha⟩ := Option.isSome_iff_exists.1 h
  exact ⟨a, eq_ok_of_returned? ha⟩

theorem resulting_ignore {α : Type} (r : Request α) (e : Engine) :
    resulting (r.ignore e) = resulting (r e) := by
  show resulting (EStateM.map (fun _ => ()) r e) = _
  rw [EStateM.map]
  cases r e <;> rfl

/-- The engine after a call. -/
def Call.after (call : Call) (e : Engine) : Engine := resulting (call.request e)

namespace Engine

/-- The engines that a run of calls goes through, the first and the last included. -/
def states (e : Engine) : List Call → List Engine
  | [] => [e]
  | call :: rest => e :: states (call.after e) rest

/-- The engine at the end of a run. -/
def final (e : Engine) (calls : List Call) : Engine := calls.foldl (fun e call => call.after e) e

/-- The steps that a chain tries, each with the engine that it is tried on. -/
def chain : Nat → StepSpec → Engine → List (Engine × StepSpec)
  | 0, _, _ => []
  | n + 1, spec, e => (e, spec) ::
    match Request.step .none spec e with
    | .ok (some next) e' => chain n next e'
    | _ => []

/-- The steps that a call tries. -/
def attempted (e : Engine) : Call → List (Engine × StepSpec)
  | .step spec => [(e, spec)]
  | .take spec => chain e.settings.maxSteps spec e
  | _ => []

/-- The steps that a run of calls tries. -/
def attempts (e : Engine) : List Call → List (Engine × StepSpec)
  | [] => []
  | call :: rest => e.attempted call ++ attempts (call.after e) rest

/-- The engines that a run goes through, those between the steps of a chain included. -/
def moments (e : Engine) (calls : List Call) : List Engine :=
  e.states calls ++ (e.attempts calls).map Prod.fst

/-- An id that was handed out between two engines. -/
def Drew (e e' : Engine) (id : Id) : Prop := e.ids.next ≤ id.value ∧ id.value < e'.ids.next

/-- Something has been declared, or nothing but ids drawn. -/
inductive Declares (e e' : Engine) : Prop
  | nothing (hs : e'.store = e.store) (hi : e.ids.next ≤ e'.ids.next)
  | type {decl : TypeDecl} {recs : List TypeRec} {r : Registry}
    (h : e.store.decls.declareType decl recs = .ok r) (hs : e'.store = { e.store with decls := r })
    (hi : e.ids.next ≤ e'.ids.next) (hdecl : e.Drew e' decl.id)
    (hrecs : ∀ rec ∈ recs, e.Drew e' rec.id)
  | sig {sig : Signature} {r : Registry} (h : e.store.decls.declareSig sig = .ok r)
    (hs : e'.store = { e.store with decls := r }) (hi : e.ids.next ≤ e'.ids.next)
    (hsig : e.Drew e' sig.id) (hparams : (sig.parameters.map Parameter.placeholder).Nodup)
  | pool {pool : Pool} (h : e.store.addPool pool = .ok e'.store)
    (hi : e.ids.next ≤ e'.ids.next) (hpool : e.Drew e' pool.id) (hrev : pool.rev = .initial)

/-- A type has got another definition, or nothing but ids were drawn. -/
inductive Redefines (e e' : Engine) : Prop
  | nothing (hs : e'.store = e.store) (hi : e.ids.next ≤ e'.ids.next)
  | type {decl : TypeDecl} {rev : Rev} {recs : List TypeRec} {r : Registry}
    (h : e.store.decls.redefineType decl rev recs = .ok r)
    (hs : e'.store = { e.store with decls := r }) (hi : e.ids.next ≤ e'.ids.next)
    (hrecs : ∀ rec ∈ recs, e.Drew e' rec.id)

/-- What a call can do that creates no process from outside and leaves types as they are. -/
inductive Event (e e' : Engine) : Prop
  | declares (h : e.Declares e')
  | addLiability {l : Liability} {rev : Rev} (h : e.store.addLiability l rev = .ok e'.store)
    (hi : e.ids.next ≤ e'.ids.next)
  | step {spec : StepSpec} {next : Option StepSpec} {m : Change}
    (h : e.store.deriveStep e.ids.fresh spec = .ok (next, m))
    (hc : e.store.commit m = .ok e'.store) (hi : e'.ids = e.ids.afterFresh)

/-- A process has been created. -/
structure Created (e e' : Engine) (c : Creation) (ref : ProcRef) : Prop where
  committed : ∃ m, e.store.deriveCreation e.ids.fresh c = .ok (ref, m) ∧
    e.store.commit m = .ok e'.store
  ids : e'.ids = e.ids.afterFresh

end Engine

/-! ## Requests -/

namespace Request

/-- One request after the other. -/
theorem bind_apply {α β : Type} (x : Request α) (f : α → Request β) (e : Engine) :
    (x >>= f) e = match x e with
      | .ok a e' => f a e'
      | .error err e' => .error err e' := by
  show EStateM.bind x f e = _
  rw [EStateM.bind]
  cases x e <;> rfl

theorem read_apply {α : Type} (f : Store → Except Error α) (e : Engine) :
    read f e = match f e.store with
      | .ok a => .ok a e
      | .error err => .error err e := by
  rw [read, bind_apply]
  show (match f e.store with
    | .ok a => (pure a : Request α)
    | .error err => throw err) e = _
  cases f e.store <;> rfl

theorem update_apply (f : Store → Except Error Store) (e : Engine) :
    update f e = match f e.store with
      | .ok s => .ok () { e with store := s }
      | .error err => .error err e := by
  rw [update, bind_apply, read_apply]
  cases f e.store <;> rfl

theorem commit_apply (m : Change) (e : Engine) :
    commit m e = match e.store.commit m with
      | .ok s => .ok () { e with store := s, journal := e.journal ++ [m] }
      | .error err => .error err e := by
  rw [commit, bind_apply, update_apply]
  cases e.store.commit m <;> rfl

theorem draw_apply (e : Engine) : draw e = .ok e.ids.id { e with ids := e.ids.rest } := rfl

theorem drawFresh_apply (e : Engine) :
    drawFresh e = .ok e.ids.fresh { e with ids := e.ids.afterFresh } := rfl

/-- A step draws ids; it commits what it has derived, or leaves the store as it was. -/
theorem step_apply (spec : StepSpec) (e : Engine) :
    step .none spec e = match e.store.deriveStep e.ids.fresh spec with
      | .error err => .error err { e with ids := e.ids.afterFresh }
      | .ok (next, m) => match e.store.commit m with
        | .error err => .error err { e with ids := e.ids.afterFresh }
        | .ok s => .ok next
          { e with store := s, ids := e.ids.afterFresh, journal := e.journal ++ [m] } := by
  simp only [step, derive, bind_apply, drawFresh_apply, read_apply]
  cases h : e.store.deriveStep e.ids.fresh spec with
  | error err => rfl
  | ok r =>
    simp only [update_apply, Interference.none, commit_apply]
    cases e.store.commit r.2 <;> rfl

/-- A creation draws ids; it commits what it has derived, or leaves the store as it was. -/
theorem createProcess_apply (c : Creation) (e : Engine) :
    createProcess c e = match e.store.deriveCreation e.ids.fresh c with
      | .error err => .error err { e with ids := e.ids.afterFresh }
      | .ok (ref, m) => match e.store.commit m with
        | .error err => .error err { e with ids := e.ids.afterFresh }
        | .ok s => .ok ref
          { e with store := s, ids := e.ids.afterFresh, journal := e.journal ++ [m] } := by
  simp only [createProcess, bind_apply, drawFresh_apply, read_apply]
  cases h : e.store.deriveCreation e.ids.fresh c with
  | error err => rfl
  | ok r =>
    simp only [commit_apply]
    cases e.store.commit r.2 <;> rfl

theorem ignore_eq_ok {α : Type} {request : Request α} {a : α} {e e' : Engine}
    (h : request e = .ok a e') : request.ignore e = .ok () e' := by
  show EStateM.map (fun _ => ()) request e = _
  rw [EStateM.map, h]

theorem declare_apply (f : Registry → Except Error Registry) (e : Engine) :
    declare f e = match f e.store.decls with
      | .error err => .error err e
      | .ok r => .ok () { e with store := { e.store with decls := r } } := by
  rw [declare, update_apply]
  cases f e.store.decls <;> rfl

theorem lower_apply (t : SessionType) (e : Engine) :
    lower t e = .ok (t.lower e.ids).1 { e with ids := (t.lower e.ids).2 } := rfl

theorem incept_apply (title : QualName) (e : Engine) :
    incept title e = match e.store.decls.declareType ⟨e.ids.id, title, none, .initial⟩ [] with
      | .error err => .error err { e with ids := e.ids.rest }
      | .ok r => .ok (TypeDecl.ref ⟨e.ids.id, title, none, .initial⟩)
        { e with store := { e.store with decls := r }, ids := e.ids.rest } := by
  simp only [incept, bind_apply, draw_apply, declare_apply]
  cases e.store.decls.declareType ⟨e.ids.id, title, none, .initial⟩ [] <;> rfl

theorem createType_apply (title : QualName) (t : SessionType) (e : Engine) :
    createType title t e = match e.store.decls.checkLinks title t.links with
      | .error err => .error err e
      | .ok _ => match e.store.decls.declareType ⟨(t.lower e.ids).2.id, title,
          some (t.lower e.ids).1.root, .initial⟩ (t.lower e.ids).1.recs with
        | .error err => .error err { e with ids := (t.lower e.ids).2.rest }
        | .ok r => .ok
          (TypeDecl.ref ⟨(t.lower e.ids).2.id, title, some (t.lower e.ids).1.root, .initial⟩)
          { e with store := { e.store with decls := r }, ids := (t.lower e.ids).2.rest } := by
  simp only [createType, bind_apply, read_apply]
  cases e.store.decls.checkLinks title t.links with
  | error err => rfl
  | ok _ =>
    simp only [lower_apply, draw_apply, declare_apply]
    cases e.store.decls.declareType _ (t.lower e.ids).1.recs <;> rfl

theorem modifyType_apply (id : Id) (rev : Rev) (t : SessionType) (e : Engine) :
    modifyType id rev t e = match e.store.decls.typeDecl id with
      | .error err => .error err e
      | .ok decl =>
        if decl.rev ≠ rev then
          .error (.optimisticConflict .type decl.id rev decl.rev) e
        else match e.store.decls.checkLinks decl.title t.links with
          | .error err => .error err e
          | .ok _ => match e.store.decls.redefineType
              { decl with root := some (t.lower e.ids).1.root, rev := rev.next } rev
              (t.lower e.ids).1.recs with
            | .error err => .error err { e with ids := (t.lower e.ids).2 }
            | .ok r => .ok
              (TypeDecl.ref { decl with root := some (t.lower e.ids).1.root, rev := rev.next })
              { e with store := { e.store with decls := r }, ids := (t.lower e.ids).2 } := by
  simp only [modifyType, bind_apply, read_apply]
  cases e.store.decls.typeDecl id with
  | error err => rfl
  | ok decl =>
    dsimp only
    split
    · rfl
    simp only [bind_apply, read_apply]
    cases e.store.decls.checkLinks decl.title t.links with
    | error err => rfl
    | ok _ =>
      simp only [lower_apply, declare_apply]
      cases e.store.decls.redefineType _ rev (t.lower e.ids).1.recs <;> rfl

theorem createSig_apply (spec : SignatureSpec) (e : Engine) :
    createSig spec e =
      let sig : Signature := ⟨e.ids.id, spec.title, spec.provision, spec.receptions, .initial⟩
      match e.store.decls.checkParameters [] sig.parameters with
        | .error err => .error err { e with ids := e.ids.rest }
        | .ok _ => match e.store.decls.declareSig sig with
          | .error err => .error err { e with ids := e.ids.rest }
          | .ok r => .ok sig.ref
            { e with store := { e.store with decls := r }, ids := e.ids.rest } := by
  simp only [createSig, bind_apply, draw_apply, read_apply]
  cases e.store.decls.checkParameters [] _ with
  | error err => rfl
  | ok _ =>
    simp only [declare_apply]
    cases e.store.decls.declareSig _ <;> rfl

/-! What a request does to an engine, whether it goes through or not, is a relation between the engine
before and after. -/

/-- Wherever a request is run, it takes the engine to one that is related to it. -/
def Moves (R : Engine → Engine → Prop) {α : Type} (r : Request α) : Prop :=
  ∀ e, R e (resulting (r e))

namespace Moves

variable {R : Engine → Engine → Prop} {α β : Type}

theorem bind (htrans : ∀ {a b c}, R a b → R b c → R a c) {x : Request α} {f : α → Request β}
    (hx : Moves R x) (hf : ∀ a, Moves R (f a)) : Moves R (x >>= f) := by
  intro e
  have hfirst := hx e
  rw [bind_apply]
  cases hr : x e with
  | error err e' =>
    rw [hr] at hfirst
    exact hfirst
  | ok a e' =>
    rw [hr] at hfirst
    exact htrans hfirst (hf a e')

theorem ignore {r : Request α} (h : Moves R r) : Moves R r.ignore := by
  intro e
  rw [resulting_ignore]
  exact h e

theorem read (hrefl : ∀ e, R e e) (f : Store → Except Error α) : Moves R (read f) := by
  intro e
  rw [read_apply]
  cases f e.store <;> exact hrefl e

theorem update (hrefl : ∀ e, R e e) {f : Store → Except Error Store}
    (hf : ∀ {e s}, f e.store = .ok s → R e { e with store := s }) : Moves R (update f) := by
  intro e
  rw [update_apply]
  cases h : f e.store with
  | error err => exact hrefl e
  | ok s => exact hf h

/-- A chain of steps moves as its steps do. -/
theorem takeFrom (hrefl : ∀ e, R e e) (htrans : ∀ {a b c}, R a b → R b c → R a c)
    (hstep : ∀ spec, Moves R (step .none spec)) (limit taken n : Nat) (spec : StepSpec) :
    Moves R (takeFrom (fun _ => .none) limit taken n spec) := by
  induction n generalizing taken spec with
  | zero => exact hrefl
  | succ n ih =>
    intro e
    have hfirst := hstep spec e
    unfold Request.takeFrom
    cases h : Request.step .none spec e with
    | error err e' =>
      rw [h] at hfirst
      exact hfirst
    | ok next e' =>
      rw [h] at hfirst
      cases next with
      | none => exact hfirst
      | some spec' => exact htrans hfirst (ih (taken + 1) spec' e')

end Moves

end Request

/-! ## Ids -/

theorem Supply.next_lt_next_afterFresh (ids : Supply) : ids.next < ids.afterFresh.next := by
  have h₁ := ids.next_lt_next_rest
  have h₂ := ids.rest.next_lt_next_rest
  have h₃ := ids.rest.rest.next_lt_next_rest
  show ids.next < ids.rest.rest.rest.next
  omega

/-- All records of a lowered type have ids that were handed out for it. -/
def Supply.Covers (ids ids' : Supply) (recs : List TypeRec) : Prop :=
  ids.next ≤ ids'.next ∧ ∀ rec ∈ recs, ids.next ≤ rec.id.value ∧ rec.id.value < ids'.next

theorem Supply.Covers.append {ids ids' ids'' : Supply} {recs recs' : List TypeRec}
    (h : ids.Covers ids' recs) (h' : ids'.Covers ids'' recs') : ids.Covers ids'' (recs ++ recs') := by
  have hle := h.1
  have hle' := h'.1
  refine ⟨by omega, fun rec hrec => ?_⟩
  rcases List.mem_append.1 hrec with hrec | hrec
  · have hrange := h.2 rec hrec
    omega
  · have hrange := h'.2 rec hrec
    omega

/-- The root takes the first id. -/
theorem Supply.Covers.cons {ids ids' : Supply} {recs : List TypeRec} (node : TypeNode)
    (h : ids.rest.Covers ids' recs) : ids.Covers ids' (⟨ids.id, node⟩ :: recs) := by
  have hlt := ids.next_lt_next_rest
  have hle := h.1
  refine ⟨by omega, fun rec hrec => ?_⟩
  rcases List.mem_cons.1 hrec with rfl | hrec
  · show ids.next ≤ ids.next ∧ ids.next < ids'.next
    omega
  · have hrange := h.2 rec hrec
    omega

theorem Supply.Covers.nil (ids : Supply) : ids.Covers ids [] := ⟨Nat.le_refl _, nofun⟩

mutual

theorem SessionType.covers_lower : ∀ (t : SessionType) (ids : Supply),
    ids.Covers (t.lower ids).2 (t.lower ids).1.recs
  | .one, ids => .cons .one (.nil ids.rest)
  | .link name, ids => .cons (.link name) (.nil ids.rest)
  | .tensor value cont, ids =>
    .cons _ ((value.covers_lower ids.rest).append (cont.covers_lower (value.lower ids.rest).2))
  | .lolli value cont, ids =>
    .cons _ ((value.covers_lower ids.rest).append (cont.covers_lower (value.lower ids.rest).2))
  | .plus choices, ids => .cons _ (covers_lowerChoices choices ids.rest)
  | .with choices, ids => .cons _ (covers_lowerChoices choices ids.rest)
  | .up cont, ids => .cons _ (cont.covers_lower ids.rest)
  | .down cont, ids => .cons _ (cont.covers_lower ids.rest)

theorem SessionType.covers_lowerChoices : ∀ (choices : List (Sym × SessionType)) (ids : Supply),
    ids.Covers (SessionType.lowerChoices choices ids).2.2 (SessionType.lowerChoices choices ids).2.1
  | [], ids => .nil ids
  | (_, t) :: rest, ids => (t.covers_lower ids).append (covers_lowerChoices rest (t.lower ids).2)

end

/-! ## Events of calls -/

namespace Engine

/-- Drawing ids is nothing that matters. -/
theorem declares_draw (e : Engine) : e.Declares { e with ids := e.ids.afterFresh } :=
  .nothing rfl (Nat.le_of_lt e.ids.next_lt_next_afterFresh)

/-- Reading changes nothing. -/
theorem resulting_read_bind {α β : Type} {f : Store → Except Error α} {g : α → Request β}
    {e : Engine} {P : Engine → Prop} (he : P e)
    (h : ∀ a, f e.store = .ok a → P (resulting (g a e))) :
    P (resulting ((Request.read f >>= g) e)) := by
  rw [Request.bind_apply, Request.read_apply]
  cases hf : f e.store with
  | error err => exact he
  | ok a => exact h a hf

/-- A step that succeeds commits what it has derived. -/
theorem step_eq_ok {spec : StepSpec} {next : Option StepSpec} {e e' : Engine}
    (h : Request.step .none spec e = .ok next e') :
    ∃ m, e.store.deriveStep e.ids.fresh spec = .ok (next, m) ∧
      e.store.commit m = .ok e'.store ∧ e'.ids = e.ids.afterFresh := by
  rw [Request.step_apply] at h
  split at h
  · cases h
  next next' m hd =>
  split at h
  · cases h
  next s hc =>
  cases h
  exact ⟨m, hd, hc, rfl⟩

/-- A step that fails changes nothing. -/
theorem declares_step {spec : StepSpec} {err : Error} {e e' : Engine}
    (h : Request.step .none spec e = .error err e') : e.Declares e' := by
  rw [Request.step_apply] at h
  split at h
  · cases h
    exact e.declares_draw
  split at h
  · cases h
    exact e.declares_draw
  · cases h

theorem event_step (spec : StepSpec) (e : Engine) :
    e.Event (resulting (Request.step .none spec e)) := by
  cases h : Request.step .none spec e with
  | error err e' => exact .declares (declares_step h)
  | ok next e' =>
    obtain ⟨m, hd, hc, hi⟩ := step_eq_ok h
    exact .step hd hc hi

/-- A creation that succeeds creates a process. -/
theorem created_of_createProcess {c : Creation} {ref : ProcRef} {e e' : Engine}
    (h : Request.createProcess c e = .ok ref e') : e.Created e' c ref := by
  rw [Request.createProcess_apply] at h
  split at h
  · cases h
  next ref' m hd =>
  split at h
  · cases h
  next s hc =>
  cases h
  exact ⟨⟨m, hd, hc⟩, rfl⟩

/-- A creation that fails changes nothing. -/
theorem declares_create {c : Creation} {err : Error} {e e' : Engine}
    (h : Request.createProcess c e = .error err e') : e.Declares e' := by
  rw [Request.createProcess_apply] at h
  split at h
  · cases h
    exact e.declares_draw
  split at h
  · cases h
    exact e.declares_draw
  · cases h

theorem declares_incept (title : QualName) (e : Engine) :
    e.Declares (resulting (Request.incept title e)) := by
  have hlt := e.ids.next_lt_next_rest
  rw [Request.incept_apply]
  cases h : e.store.decls.declareType ⟨e.ids.id, title, none, .initial⟩ [] with
  | error err => exact .nothing rfl (Nat.le_of_lt hlt)
  | ok r => exact .type h rfl (Nat.le_of_lt hlt) ⟨Nat.le_refl _, hlt⟩ nofun

theorem declares_createType (title : QualName) (spec : SessionType) (e : Engine) :
    e.Declares (resulting (Request.createType title spec e)) := by
  obtain ⟨hle, hrecs⟩ := spec.covers_lower e.ids
  have hlt := (spec.lower e.ids).2.next_lt_next_rest
  have hnext : e.ids.next ≤ (spec.lower e.ids).2.rest.next := by omega
  rw [Request.createType_apply]
  cases e.store.decls.checkLinks title spec.links with
  | error err => exact .nothing rfl (Nat.le_refl _)
  | ok _ =>
    dsimp only
    cases h : e.store.decls.declareType ⟨(spec.lower e.ids).2.id, title,
        some (spec.lower e.ids).1.root, .initial⟩ (spec.lower e.ids).1.recs with
    | error err => exact .nothing rfl hnext
    | ok r =>
      refine .type h rfl hnext ⟨hle, hlt⟩ fun rec hrec => ?_
      have hrange := hrecs rec hrec
      show e.ids.next ≤ rec.id.value ∧ rec.id.value < (spec.lower e.ids).2.rest.next
      omega

theorem redefines_modifyType (id : Id) (rev : Rev) (spec : SessionType) (e : Engine) :
    e.Redefines (resulting (Request.modifyType id rev spec e)) := by
  obtain ⟨hle, hrecs⟩ := spec.covers_lower e.ids
  have hnothing : e.Redefines e := .nothing rfl (Nat.le_refl _)
  rw [Request.modifyType_apply]
  cases e.store.decls.typeDecl id with
  | error err => exact hnothing
  | ok decl =>
    dsimp only
    split
    · exact hnothing
    cases e.store.decls.checkLinks decl.title spec.links with
    | error err => exact hnothing
    | ok _ =>
      dsimp only
      cases h : e.store.decls.redefineType
          { decl with root := some (spec.lower e.ids).1.root, rev := rev.next } rev
          (spec.lower e.ids).1.recs with
      | error err => exact .nothing rfl hle
      | ok r => exact .type h rfl hle hrecs

/-- The parameters of a signature that is accepted have placeholders of their own. -/
theorem nodup_of_checkParameters {r : Registry} {seen : List Sym} {parameters : List Parameter}
    (h : r.checkParameters seen parameters = .ok ()) :
    (parameters.map Parameter.placeholder).Nodup ∧ ∀ p ∈ parameters, p.placeholder ∉ seen := by
  induction parameters generalizing seen with
  | nil => exact ⟨List.nodup_nil, nofun⟩
  | cons p rest ih =>
    rw [Registry.checkParameters] at h
    split at h
    · cases h
    next hp =>
    split at h
    · cases h
    obtain ⟨hnodup, hseen⟩ := ih h
    refine ⟨List.nodup_cons.2 ⟨fun hmem => ?_, hnodup⟩, List.forall_mem_cons.2 ⟨hp, ?_⟩⟩
    · obtain ⟨p', hp', heq⟩ := List.mem_map.1 hmem
      exact hseen p' hp' (heq ▸ List.mem_cons_self)
    · exact fun p' hp' hmem => hseen p' hp' (List.mem_cons_of_mem _ hmem)

theorem declares_createSig (spec : SignatureSpec) (e : Engine) :
    e.Declares (resulting (Request.createSig spec e)) := by
  have hlt := e.ids.next_lt_next_rest
  rw [Request.createSig_apply]
  dsimp only
  split
  · exact .nothing rfl (Nat.le_of_lt hlt)
  next hp =>
  split
  · exact .nothing rfl (Nat.le_of_lt hlt)
  next r h =>
  exact .sig h rfl (Nat.le_of_lt hlt) ⟨Nat.le_refl _, hlt⟩ (nodup_of_checkParameters hp).1

theorem declares_createPool (title : Option QualName) (sup : Option Id) (e : Engine) :
    e.Declares (resulting (Request.createPool title sup e)) := by
  have hlt := e.ids.next_lt_next_rest
  refine resulting_read_bind (.nothing rfl (Nat.le_refl _)) fun _ _ => ?_
  simp only [Request.bind_apply, Request.draw_apply, Request.update_apply]
  cases h : e.store.addPool ⟨e.ids.id, title, sup, .initial⟩ with
  | error err => exact .nothing rfl (Nat.le_of_lt hlt)
  | ok s => exact .pool h (Nat.le_of_lt hlt) ⟨Nat.le_refl _, hlt⟩ rfl

/-- Handing a pool on changes nothing, or adds to the liability log. -/
theorem handOff_cases (pool process : Id) (rev : Rev) (e : Engine) :
    e.Declares (resulting (Request.handOff pool process rev e)) ∨
      ∃ l, e.store.addLiability l rev = .ok (resulting (Request.handOff pool process rev e)).store ∧
        e.ids.next ≤ (resulting (Request.handOff pool process rev e)).ids.next := by
  have hnothing : e.Declares e := .nothing rfl (Nat.le_refl _)
  refine resulting_read_bind (P := fun e' => e.Declares e' ∨ ∃ l,
    e.store.addLiability l rev = .ok e'.store ∧ e.ids.next ≤ e'.ids.next) (.inl hnothing) fun _ _ => ?_
  simp only [Request.bind_apply, Request.update_apply]
  cases h : e.store.addLiability ⟨pool, process, rev.next.introStamp⟩ rev with
  | error err => exact .inl hnothing
  | ok s => exact .inr ⟨_, h, Nat.le_refl _⟩

theorem event_handOff (pool process : Id) (rev : Rev) (e : Engine) :
    e.Event (resulting (Request.handOff pool process rev e)) := by
  rcases handOff_cases pool process rev e with h | ⟨l, h, hi⟩
  · exact .declares h
  · exact .addLiability h hi

/-- A chain of steps is one event after the other. -/
theorem events_takeFrom (limit taken n : Nat) (spec : StepSpec) (e : Engine) :
    ReflTransGen Event e (resulting (Request.takeFrom (fun _ => .none) limit taken n spec e)) :=
  Request.Moves.takeFrom (R := ReflTransGen Event) (fun _ => .refl) .trans
    (fun spec e => .single (event_step spec e)) limit taken n spec e

/-- A call creates a process, gives a type another definition, or is a run of events. -/
theorem after_cases (call : Call) (e : Engine) :
    (∃ c ref, call = .create c ∧ Request.createProcess c e = .ok ref (call.after e)) ∨
      (call.redefines = true ∧ e.Redefines (call.after e)) ∨
      (∀ c ref e', call = .create c → Request.createProcess c e ≠ .ok ref e') ∧
        ReflTransGen Event e (call.after e) := by
  have hone : ∀ {α : Type} {r : Request α}, e.Event (resulting (r e)) →
      ReflTransGen Event e (resulting (r.ignore e)) := by
    intro α r h
    rw [resulting_ignore]
    exact .single h
  cases call with
  | incept title => exact .inr (.inr ⟨nofun, hone (.declares (declares_incept title e))⟩)
  | createType title spec =>
    exact .inr (.inr ⟨nofun, hone (.declares (declares_createType title spec e))⟩)
  | modifyType id rev spec =>
    refine .inr (.inl ⟨rfl, ?_⟩)
    rw [Call.after, Call.request, resulting_ignore]
    exact redefines_modifyType id rev spec e
  | createSig spec => exact .inr (.inr ⟨nofun, hone (.declares (declares_createSig spec e))⟩)
  | createPool title sup =>
    exact .inr (.inr ⟨nofun, hone (.declares (declares_createPool title sup e))⟩)
  | handOff pool process rev =>
    exact .inr (.inr ⟨nofun, hone (event_handOff pool process rev e)⟩)
  | create c =>
    have hafter : (Call.create c).after e = resulting (Request.createProcess c e) :=
      resulting_ignore _ e
    rw [hafter]
    cases h : Request.createProcess c e with
    | ok ref e' => exact .inl ⟨c, ref, rfl, h⟩
    | error err e' =>
      refine .inr (.inr ⟨?_, .single (.declares (declares_create h))⟩)
      rintro c' ref e'' ⟨⟩ h'
      cases h.symm.trans h'
  | step spec => exact .inr (.inr ⟨nofun, hone (event_step spec e)⟩)
  | take spec => exact .inr (.inr ⟨nofun, events_takeFrom _ 0 _ spec e⟩)

/-! ## Names for small runs -/

namespace Small

def unit : QualName := ⟨"unit", by decide⟩

def pair : QualName := ⟨"pair", by decide⟩

def menu : QualName := ⟨"menu", by decide⟩

def closer : QualName := ⟨"closer", by decide⟩

def sender : QualName := ⟨"sender", by decide⟩

def waiter : QualName := ⟨"waiter", by decide⟩

def function : QualName := ⟨"function", by decide⟩

def relay : QualName := ⟨"relay", by decide⟩

end Small

/-- A process that is to close its only channel, in a pool of its own. -/
def founded : Engine :=
  (start {} ⟨0⟩).final
    [.createType Small.unit .one, .createSig ⟨Small.closer, ⟨"x", Small.unit⟩, []⟩,
      .createPool none none, .create ⟨.nth 3, .nth 2, ∅⟩]

end Engine

end Rendezvous
