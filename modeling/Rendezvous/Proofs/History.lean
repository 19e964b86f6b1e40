import Rendezvous.Proofs.Chronicle
import Rendezvous.Proofs.Preservation

/-!
# The registry keeps an exact history

Types are declared and redefined by calls, which succeed or fail. `Engine.submissions` lists what
the successful ones among them have submitted, each with the reference that its caller got back.

- `Engine.Defines` says what a request for a definition does: it fails and leaves all declarations
  as they are, it declares a type, or it redefines one. `defines_of_definition?` says so for each.
- Other calls leave types alone (`aside_of_definition?`).
- An engine is `Recorded` if its declarations have the history of what has been submitted, and its
  ids are new to them. Calls keep this (`Recorded.after`), and so do runs (`Recorded.final`).

So the types of an engine tell the whole history of the calls that it has served
(`types_keep_history`), names that are declared before they are defined included.
-/

namespace Rendezvous

/-! ## Submissions -/

/-- Every tree that a call submits lists its labels in order. -/
def Call.Ordered : Call → Prop
  | .createType _ spec | .modifyType _ _ spec => spec.Ordered
  | _ => True

/-- The definition that a call is about: the request for it, and its tree, none for a name alone. -/
def Call.definition? : Call → Option (Request DeclRef × Option SessionType)
  | .incept title => some (Request.incept title, none)
  | .createType title spec => some (Request.createType title spec, some spec)
  | .modifyType id rev spec => some (Request.modifyType id rev spec, some spec)
  | _ => none

/-- What a call has submitted, if it goes through. -/
def Call.submission? (call : Call) (e : Engine) : Option Submission :=
  call.definition?.bind fun d => (returned? (d.1 e)).map fun ref => ⟨ref, d.2⟩

namespace Engine

/-- What a run of calls has submitted, oldest first. -/
def submissions (e : Engine) : List Call → List Submission
  | [] => []
  | call :: rest => (call.submission? e).toList ++ submissions (call.after e) rest

variable {e e' : Engine}

/-! ## Requests for definitions -/

/-- The records of a definition: none for a name alone, those of the lowered tree otherwise. Its
aliases are declared or name the type itself. -/
inductive Lowers (e : Engine) (title : QualName) :
    Option Id → List TypeRec → Option SessionType → Prop
  | name : Lowers e title none [] none
  | tree (t : SessionType) (hlinks : e.store.decls.checkLinks title t.links = .ok ()) :
    Lowers e title (some (t.lower e.ids).1.root) (t.lower e.ids).1.recs (some t)

/-- What a request for a definition does. -/
inductive Defines (e : Engine) (request : Request DeclRef) (spec : Option SessionType) : Prop
  | fails {err : Error} {e' : Engine} (h : request e = .error err e')
    (hd : e'.store.decls = e.store.decls) (hi : e.ids.next ≤ e'.ids.next)
  | declares {e' : Engine} {decl : TypeDecl} {recs : List TypeRec} (h : request e = .ok decl.ref e')
    (hd : e.store.decls.declareType decl recs = .ok e'.store.decls) (hrev : decl.rev = .initial)
    (hl : e.Lowers decl.title decl.root recs spec) (hi : e.ids.next ≤ e'.ids.next)
    (hdecl : e.Drew e' decl.id) (hrecs : ∀ rec ∈ recs, e.Drew e' rec.id)
  | redefines {e' : Engine} {id : Id} {stored : TypeDecl} {root : Option Id} {recs : List TypeRec}
    (hstored : e.store.decls.types.get? id = some stored)
    (h : request e = .ok { stored with root, rev := stored.rev.next : TypeDecl }.ref e')
    (hd : e.store.decls.redefineType { stored with root, rev := stored.rev.next } stored.rev recs =
      .ok e'.store.decls)
    (hl : e.Lowers stored.title root recs spec) (hi : e.ids.next ≤ e'.ids.next)
    (hrecs : ∀ rec ∈ recs, e.Drew e' rec.id)

theorem defines_incept (title : QualName) (e : Engine) :
    e.Defines (Request.incept title) none := by
  have hlt := e.ids.next_lt_next_rest
  have happly := Request.incept_apply title e
  cases h : e.store.decls.declareType ⟨e.ids.id, title, none, .initial⟩ [] with
  | error err =>
    rw [h] at happly
    exact .fails happly rfl (Nat.le_of_lt hlt)
  | ok r =>
    rw [h] at happly
    exact .declares happly h rfl .name (Nat.le_of_lt hlt) ⟨Nat.le_refl _, hlt⟩ nofun

theorem defines_createType (title : QualName) (t : SessionType) (e : Engine) :
    e.Defines (Request.createType title t) (some t) := by
  obtain ⟨hle, hrecs⟩ := t.covers_lower e.ids
  have hlt := (t.lower e.ids).2.next_lt_next_rest
  have hnext : e.ids.next ≤ (t.lower e.ids).2.rest.next := by omega
  have happly := Request.createType_apply title t e
  cases hlinks : e.store.decls.checkLinks title t.links with
  | error err =>
    rw [hlinks] at happly
    exact .fails happly rfl (Nat.le_refl _)
  | ok _ =>
    rw [hlinks] at happly
    cases h : e.store.decls.declareType ⟨(t.lower e.ids).2.id, title,
        some (t.lower e.ids).1.root, .initial⟩ (t.lower e.ids).1.recs with
    | error err =>
      simp only [h] at happly
      exact .fails happly rfl hnext
    | ok r =>
      simp only [h] at happly
      refine .declares happly h rfl (.tree t hlinks) hnext ⟨hle, hlt⟩ fun rec hrec => ?_
      have hrange := hrecs rec hrec
      show e.ids.next ≤ rec.id.value ∧ rec.id.value < (t.lower e.ids).2.rest.next
      omega

theorem defines_modifyType (id : Id) (rev : Rev) (t : SessionType) (e : Engine) :
    e.Defines (Request.modifyType id rev t) (some t) := by
  obtain ⟨hle, hrecs⟩ := t.covers_lower e.ids
  have happly := Request.modifyType_apply id rev t e
  cases hstored : e.store.decls.types.get? id with
  | none =>
    simp only [Registry.typeDecl, hstored] at happly
    exact .fails happly rfl (Nat.le_refl _)
  | some stored =>
    simp only [Registry.typeDecl, hstored] at happly
    by_cases hrev : stored.rev = rev
    · subst hrev
      rw [if_neg (fun hne => hne rfl)] at happly
      cases hlinks : e.store.decls.checkLinks stored.title t.links with
      | error err =>
        rw [hlinks] at happly
        exact .fails happly rfl (Nat.le_refl _)
      | ok _ =>
        rw [hlinks] at happly
        cases h : e.store.decls.redefineType
            { stored with root := some (t.lower e.ids).1.root, rev := stored.rev.next } stored.rev
            (t.lower e.ids).1.recs with
        | error err =>
          simp only [h] at happly
          exact .fails happly rfl hle
        | ok r =>
          simp only [h] at happly
          exact .redefines hstored happly h (.tree t hlinks) hle hrecs
    · rw [if_pos hrev] at happly
      exact .fails happly rfl (Nat.le_refl _)

/-- What a call does that is about a definition. -/
theorem defines_of_definition? {call : Call} {d : Request DeclRef × Option SessionType}
    (h : call.definition? = some d) (e : Engine) :
    e.Defines d.1 d.2 ∧ call.request = d.1.ignore := by
  cases call <;> cases h
  · exact ⟨defines_incept _ e, rfl⟩
  · exact ⟨defines_createType _ _ e, rfl⟩
  · exact ⟨defines_modifyType _ _ _ e, rfl⟩

/-! ## Other calls -/

/-- All declarations are as they were, and no id is taken back. -/
structure Spares (e e' : Engine) : Prop where
  decls : e'.store.decls = e.store.decls
  ids : e.ids.next ≤ e'.ids.next

theorem Spares.refl (e : Engine) : e.Spares e := ⟨rfl, Nat.le_refl _⟩

theorem Spares.trans {a b c : Engine} (h : a.Spares b) (h' : b.Spares c) : a.Spares c :=
  ⟨h'.decls.trans h.decls, Nat.le_trans h.ids h'.ids⟩

end Engine

namespace Request

open Engine (Spares)

theorem spares_update {f : Store → Except Error Store}
    (hf : ∀ {s s'}, f s = .ok s' → s'.decls = s.decls) : Moves Spares (update f) :=
  .update Spares.refl fun h => ⟨hf h, Nat.le_refl _⟩

theorem spares_commit (m : Change) : Moves Spares (commit m) :=
  .bind .trans (spares_update Store.decls_commit) fun _ _ => ⟨rfl, Nat.le_refl _⟩

theorem spares_draw : Moves Spares draw := fun e => ⟨rfl, Nat.le_of_lt e.ids.next_lt_next_rest⟩

theorem spares_drawFresh : Moves Spares drawFresh :=
  fun e => ⟨rfl, Nat.le_of_lt e.ids.next_lt_next_afterFresh⟩

theorem spares_createPool (title : Option QualName) (sup : Option Id) :
    Moves Spares (createPool title sup) := by
  refine .bind .trans (.read Spares.refl _) fun _ => .bind .trans spares_draw fun _ =>
    .bind .trans (spares_update fun {s s'} h => ?_) fun _ => Spares.refl
  unfold Store.addPool at h
  split at h <;> cases h
  rfl

theorem spares_handOff (pool process : Id) (rev : Rev) :
    Moves Spares (handOff pool process rev) := by
  refine .bind .trans (.read Spares.refl _) fun _ =>
    .bind .trans (spares_update fun {s s'} h => ?_) fun _ => Spares.refl
  unfold Store.addLiability at h
  split at h
  · cases h
  split at h <;> cases h
  rfl

theorem spares_createProcess (c : Creation) : Moves Spares (createProcess c) :=
  .bind .trans spares_drawFresh fun _ => .bind .trans (.read Spares.refl _) fun _ =>
    .bind .trans (spares_commit _) fun _ => Spares.refl

theorem spares_step (spec : StepSpec) : Moves Spares (step .none spec) :=
  .bind .trans (.bind .trans spares_drawFresh fun _ => .read Spares.refl _) fun _ =>
    .bind .trans (spares_update fun h => by cases h; rfl) fun _ =>
      .bind .trans (spares_commit _) fun _ => Spares.refl

theorem spares_take (spec : StepSpec) : Moves Spares (take (fun _ => .none) spec) :=
  fun e => Moves.takeFrom Spares.refl .trans spares_step _ 0 _ spec e

end Request

namespace Engine

/-- A request that is about no type leaves all declarations as they are, or declares a signature. -/
inductive Aside (e : Engine) (request : Request Unit) : Prop
  | spares (h : e.Spares (resulting (request e)))
  | sig {sig : Signature} {e' : Engine} (h : request e = .ok () e')
    (hd : e.store.decls.declareSig sig = .ok e'.store.decls) (hi : e.ids.next ≤ e'.ids.next)
    (hsig : e.Drew e' sig.id)

theorem aside_createSig (spec : SignatureSpec) (e : Engine) :
    e.Aside (Request.createSig spec).ignore := by
  have hlt := e.ids.next_lt_next_rest
  have hspares : e.Spares { e with ids := e.ids.rest } := ⟨rfl, Nat.le_of_lt hlt⟩
  have happly := Request.createSig_apply spec e
  dsimp only at happly
  split at happly
  · refine .spares ?_
    rw [resulting_ignore, happly]
    exact hspares
  split at happly
  · refine .spares ?_
    rw [resulting_ignore, happly]
    exact hspares
  next r hr =>
  exact .sig (Request.ignore_eq_ok happly) hr (Nat.le_of_lt hlt) ⟨Nat.le_refl _, hlt⟩

theorem aside_of_definition? {call : Call} (h : call.definition? = none) (e : Engine) :
    e.Aside call.request := by
  cases call with
  | incept | createType | modifyType => cases h
  | createSig spec => exact aside_createSig spec e
  | createPool title sup => exact .spares ((Request.spares_createPool title sup).ignore e)
  | handOff pool process rev => exact .spares ((Request.spares_handOff pool process rev).ignore e)
  | create c => exact .spares ((Request.spares_createProcess c).ignore e)
  | step spec => exact .spares ((Request.spares_step spec).ignore e)
  | take spec => exact .spares (Request.spares_take spec e)

/-- A call that fails leaves all declarations as they are. -/
theorem decls_after_of_failed {call : Call} (h : returned? (call.request e) = none) :
    (call.after e).store.decls = e.store.decls := by
  cases hd : call.definition? with
  | none =>
    rcases aside_of_definition? hd e with hs | ⟨hok, -, -, -⟩
    · exact hs.decls
    · rw [hok] at h
      cases h
  | some d =>
    obtain ⟨hdefines, hrequest⟩ := defines_of_definition? hd e
    rw [Call.after]
    rw [hrequest] at h ⊢
    rcases hdefines with ⟨hf, hdecls, -⟩ | ⟨hok, -⟩ | ⟨-, hok, -⟩
    · rw [resulting_ignore, hf]
      exact hdecls
    · rw [Request.ignore_eq_ok hok] at h
      cases h
    · rw [Request.ignore_eq_ok hok] at h
      cases h

/-! ## Runs -/

/-- The declarations of an engine tell what has been submitted, and its ids are new to them. -/
structure Recorded (e : Engine) (log : List Submission) : Prop where
  history : e.store.decls.History log
  new : ∀ {id : Id}, e.ids.next ≤ id.value → e.store.decls.New id

theorem recorded_start (settings : Settings) (ids : Supply) : (start settings ids).Recorded [] :=
  ⟨Registry.history_empty, fun _ => ⟨rfl, rfl, rfl⟩⟩

section Recorded

variable {e e' : Engine} {log : List Submission}

/-- What a call without a definition does is not about types. -/
theorem Recorded.spares (h : e.Recorded log) (hs : e.Spares e') : e'.Recorded log := by
  refine ⟨?_, fun hid => ?_⟩
  · rw [hs.decls]
    exact h.history
  · rw [hs.decls]
    exact h.new (Nat.le_trans hs.ids hid)

theorem Recorded.declareSig (h : e.Recorded log) {sig : Signature}
    (hd : e.store.decls.declareSig sig = .ok e'.store.decls) (hi : e.ids.next ≤ e'.ids.next)
    (hsig : e.Drew e' sig.id) : e'.Recorded log := by
  refine ⟨h.history.declareSig hd, fun hid => (h.new (Nat.le_trans hi hid)).declareSig hd ?_⟩
  rintro rfl
  exact Nat.not_lt.2 hid hsig.2

/-- Records that were drawn are new. -/
theorem Recorded.node_new (h : e.Recorded log) {recs : List TypeRec}
    (hrecs : ∀ rec ∈ recs, e.Drew e' rec.id) :
    ∀ rec ∈ recs, e.store.decls.nodes.get? rec.id = none :=
  fun rec hrec => (h.new (hrecs rec hrec).1).node

/-- A definition that is put on record is spelt out there. -/
theorem Lowers.rel {title : QualName} {root : Option Id} {recs : List TypeRec}
    {spec : Option SessionType} (h : e.Lowers title root recs spec)
    (ho : ∀ t, spec = some t → t.Ordered) {r' : Registry} {decl : TypeDecl}
    (hp : e.store.decls.Puts r' decl) (htitle : decl.title = title)
    (hnodes : r'.nodes = Registry.addNodes e.store.decls.nodes recs) :
    Option.Rel r'.Spells root spec := by
  cases h with
  | name => exact .none
  | tree t hlinks =>
    refine .some ⟨?_, fun name hname => ?_⟩
    · rw [hnodes]
      exact Registry.storedAt_addNodes_lower (ho t rfl) e.ids
    · obtain rfl | ⟨old, hold⟩ := Registry.eq_or_declared_of_checkLinks hlinks name hname
      · exact ⟨decl, htitle ▸ hp.typeNamed?_title⟩
      · exact hp.exists_typeNamed? hold

/-- A request for a definition goes on with the history if it goes through. -/
theorem Recorded.defines (h : e.Recorded log) {request : Request DeclRef}
    {spec : Option SessionType} (hd : e.Defines request spec)
    (ho : ∀ t, spec = some t → t.Ordered) :
    (resulting (request e)).Recorded
      (log ++ ((returned? (request e)).map fun ref => (⟨ref, spec⟩ : Submission)).toList) := by
  cases hd with
  | fails hf hdecls hi =>
    rw [hf, returned?, Option.map_none, Option.toList_none, List.append_nil]
    exact h.spares ⟨hdecls, hi⟩
  | @declares e' decl recs hok hd hrev hl hi hdecl hrecs =>
    obtain ⟨hp, hnodes, hversions⟩ := Registry.puts_of_declareType hd (h.node_new hrecs)
    rw [hok]
    refine ⟨h.history.declareType hp hversions (h.new hdecl.1).type hrev
      (hl.rel ho hp rfl hnodes), fun {id} hid => ?_⟩
    refine (h.new (Nat.le_trans hi hid)).declareType hd ?_ ?_
    · rintro rfl
      exact Nat.not_lt.2 hid hdecl.2
    · rintro rec hrec rfl
      exact Nat.not_lt.2 hid (hrecs rec hrec).2
  | @redefines e' id stored root recs hstored hok hd hl hi hrecs =>
    -- the declaration carries the id that it is stored under
    obtain ⟨rfl, hname, -⟩ := h.history.known hstored
    obtain ⟨hp, hnodes, hversions⟩ := Registry.puts_of_redefineType hd hname (h.node_new hrecs)
    rw [hok]
    refine ⟨h.history.redefineType hstored rfl hp hversions (hl.rel ho hp rfl hnodes),
      fun {id} hid => ?_⟩
    refine (h.new (Nat.le_trans hi hid)).redefineType hd ?_
    rintro rec hrec rfl
    exact Nat.not_lt.2 hid (hrecs rec hrec).2

/-- A call goes on with the history by what it submits, if it submits anything. -/
theorem Recorded.after (h : e.Recorded log) {call : Call} (ho : call.Ordered) :
    (call.after e).Recorded (log ++ (call.submission? e).toList) := by
  cases hd : call.definition? with
  | none =>
    rw [Call.submission?, hd, Option.bind_none, Option.toList_none, List.append_nil, Call.after]
    rcases aside_of_definition? hd e with hs | ⟨hok, hsig, hi, hnew⟩
    · exact h.spares hs
    · rw [hok]
      exact h.declareSig hsig hi hnew
  | some d =>
    obtain ⟨hdefines, hrequest⟩ := defines_of_definition? hd e
    rw [Call.submission?, hd, Option.bind_some, Call.after, hrequest, resulting_ignore]
    refine h.defines hdefines fun t ht => ?_
    cases call <;> cases hd <;> cases ht <;> exact ho

/-- A run of calls keeps the history of what it submits. -/
theorem Recorded.final (h : e.Recorded log) {calls : List Call}
    (ho : ∀ call ∈ calls, call.Ordered) :
    (e.final calls).Recorded (log ++ e.submissions calls) := by
  induction calls generalizing e log with
  | nil => rwa [submissions, List.append_nil]
  | cons call rest ih =>
    obtain ⟨hcall, hrest⟩ := List.forall_mem_cons.1 ho
    rw [submissions, ← List.append_assoc]
    exact ih (h.after hcall) hrest

end Recorded

/-- The types of an engine tell exactly what has been submitted to it. All that was submitted is on
record under its title, a title stands for one declaration, every declaration answers from its
history, and a call that fails leaves all of this as it is. -/
theorem types_keep_history (settings : Settings) (ids : Supply) (calls : List Call)
    (ho : ∀ call ∈ calls, call.Ordered) :
    let e := (start settings ids).final calls
    let log := (start settings ids).submissions calls
    (∀ s ∈ log, ∃ decl, e.store.decls.types.get? s.ref.id = some decl ∧
      s.ref.title = decl.title ∧ Rev.initial.value ≤ s.ref.rev.value ∧
      s.ref.rev.value ≤ decl.rev.value) ∧
    (∀ id id' decl decl', e.store.decls.types.get? id = some decl →
      e.store.decls.types.get? id' = some decl' → decl.title = decl'.title → id = id') ∧
    (∀ id decl, e.store.decls.types.get? id = some decl → e.store.decls.Recounts log id decl) ∧
    ∀ call : Call, returned? (call.request e) = none →
      (call.after e).store.decls = e.store.decls := by
  have h : ((start settings ids).final calls).store.decls.History _ :=
    ((recorded_start settings ids).final ho).history
  exact ⟨fun s hs => h.exists_decl hs, fun id id' decl decl' => h.id_eq, fun id decl => h.recounts,
    fun call => decls_after_of_failed⟩

/-! A tree is a node with a forest below it, and a forest is a list of trees. The name of trees is
taken first. Calls that fail come in between: a name that is taken, a revision that has passed, an
alias that nothing is declared under. -/

namespace Small

def tree : QualName := ⟨"tree", by decide⟩

def forest : QualName := ⟨"forest", by decide⟩

def trees : SessionType := .plus [("cons", .tensor (.link tree) (.link forest)), ("nil", .one)]

def grove : List Call := [
  .incept tree,
  .createType forest trees,
  .createType tree .one,
  .modifyType ⟨0⟩ ⟨1⟩ (.tensor .one (.link forest)),
  .modifyType ⟨0⟩ ⟨1⟩ .one,
  .modifyType ⟨0⟩ ⟨2⟩ (.link unit),
  .modifyType ⟨0⟩ ⟨2⟩ (.up (.link forest))]

end Small

open Engine.Small in
theorem types_keep_history_grove :
    (∀ call ∈ grove, call.Ordered) ∧
      let r := ((start {} ⟨0⟩).final grove).store.decls
      r.typeViewAt ⟨0⟩ ⟨1⟩ = .ok ⟨⟨0⟩, tree, ⟨1⟩, none⟩ ∧
      r.typeViewAt ⟨0⟩ ⟨2⟩ = .ok ⟨⟨0⟩, tree, ⟨2⟩, some (.tensor .one (.link forest))⟩ ∧
      r.typeView ⟨0⟩ = .ok ⟨⟨0⟩, tree, ⟨3⟩, some (.up (.link forest))⟩ ∧
      r.typeViewAt ⟨0⟩ ⟨4⟩ = r.typeView ⟨0⟩ ∧
      r.typeViewAt ⟨0⟩ ⟨0⟩ = .error (.notFound .type "tree@r0") := by
  have htrees : trees.Ordered := ⟨by decide, ⟨trivial, trivial⟩, trivial, trivial⟩
  have ho : ∀ call ∈ grove, call.Ordered := by
    simp [grove, htrees, Call.Ordered, SessionType.Ordered]
  obtain ⟨-, -, hrecounts, -⟩ := types_keep_history {} ⟨0⟩ grove ho
  obtain ⟨root, hd⟩ : ∃ root, ((start {} ⟨0⟩).final grove).store.decls.types.get? ⟨0⟩ =
    some ⟨⟨0⟩, tree, root, ⟨3⟩⟩ := ⟨_, rfl⟩
  have h := hrecounts _ _ hd
  have hpast : ∀ {rev : Rev} {spec : Option SessionType}, 1 ≤ rev.value → rev.value ≤ 3 →
      (Registry.submissionsOf ((start {} ⟨0⟩).submissions grove) ⟨0⟩).filter (·.ref.rev = rev) =
        [⟨⟨⟨0⟩, tree, rev⟩, spec⟩] →
      ((start {} ⟨0⟩).final grove).store.decls.typeViewAt ⟨0⟩ rev = .ok ⟨⟨0⟩, tree, rev, spec⟩ := by
    intro rev spec hfirst hlast hlog
    obtain ⟨spec', hlog', hview⟩ := h.past rev hfirst hlast
    cases hlog.symm.trans hlog'
    exact hview
  refine ⟨ho, hpast (by decide) (by decide) rfl, hpast (by decide) (by decide) rfl, ?_,
    h.beyond ⟨4⟩ (Nat.lt_succ_self 3), (h.before ⟨0⟩ (by decide)).trans rfl⟩
  rw [h.now]
  exact hpast h.started (Nat.le_refl 3) rfl

end Engine

end Rendezvous
