import Mathlib.Data.Option.Defs
import Rendezvous.Proofs.Lowering

/-!
# The history of a declaration

What a registry has on record for a declaration is told by what has been submitted for it: a list of
`Submission`s, each with the reference that was handed out. `Registry.Chronicle` goes through the
versions of a declaration and its submissions side by side. All versions but the last end where the
next one starts, and each has the tree of its submission on record.

- In a chronicle every revision from the first on is covered once (`Chronicle.countP_covers`). The
  version found for it is that of its submission (`Chronicle.exists_find?`), and the last version
  from the current revision on (`Chronicle.find?_of_le`).
- `Registry.History` says that every declaration has such a chronicle, that its title leads to it
  alone, and that nothing else is on record. New names and new definitions go on with it
  (`History.declareType`, `History.redefineType`), since what was on record stays there
  (`Registry.Puts`).
- `Registry.Recounts` is what a registry with a history answers about a declaration
  (`History.recounts`).
-/

namespace Rendezvous

/-! ## Revisions -/

theorem Rev.value_next (rev : Rev) : rev.next.value = rev.value + 1 := rfl

theorem Rev.next_le_of_ne {first rev : Rev} (hle : first.value ≤ rev.value) (hne : rev ≠ first) :
    first.next.value ≤ rev.value :=
  Nat.lt_of_le_of_ne hle fun heq => hne (congrArg Rev.mk heq.symm)

section Covers

variable {id : Id} {root : Option Id} {start rev : Rev}

/-- An open version is in force from its start on. -/
theorem covers_open :
    (⟨id, root, start, none⟩ : TypeVersion).covers rev = true ↔ start.value ≤ rev.value := by
  simp [TypeVersion.covers]

/-- A version that is superseded right after its start is in force at one revision. -/
theorem covers_superseded :
    (⟨id, root, start, some start.next⟩ : TypeVersion).covers rev = true ↔ rev = start := by
  simp only [TypeVersion.covers, Option.all_some, Bool.and_eq_true, decide_eq_true_eq,
    Rev.value_next]
  constructor
  · rintro ⟨hle, hlt⟩
    exact congrArg Rev.mk (Nat.le_antisymm (Nat.le_of_lt_succ (of_decide_eq_true hlt)) hle)
  · rintro rfl
    exact ⟨Nat.le_refl _, decide_eq_true (Nat.lt_succ_self _)⟩

end Covers

/-! ## Chronicles -/

/-- A definition that has gone on record: the reference handed out for it, and the tree that was
submitted, none for a name alone. -/
structure Submission where
  ref : DeclRef
  spec : Option SessionType

namespace Registry

variable {r r' : Registry} {decl : TypeDecl} {first rev : Rev} {versions : List TypeVersion}
  {log : List Submission}

/-- The versions of a declaration, in the order in which they came. -/
def versionsOf (r : Registry) (id : Id) : List TypeVersion := r.versions.filter (·.decl = id)

/-- What has been submitted for a declaration. -/
def submissionsOf (log : List Submission) (id : Id) : List Submission :=
  log.filter (·.ref.id = id)

/-- The versions of a declaration and its submissions, side by side from some revision on. -/
inductive Chronicle (r : Registry) (decl : TypeDecl) :
    Rev → List TypeVersion → List Submission → Prop
  | current {spec : Option SessionType} (h : Option.Rel r.Spells decl.root spec) :
    Chronicle r decl decl.rev [⟨decl.id, decl.root, decl.rev, none⟩] [⟨decl.ref, spec⟩]
  | superseded {rev : Rev} {root : Option Id} {spec : Option SessionType}
    {versions : List TypeVersion} {log : List Submission} (h : Option.Rel r.Spells root spec)
    (rest : Chronicle r decl rev.next versions log) :
    Chronicle r decl rev (⟨decl.id, root, rev, some rev.next⟩ :: versions)
      (⟨⟨decl.id, decl.title, rev⟩, spec⟩ :: log)

/-! ## What a chronicle tells -/

theorem Chronicle.first_le (h : r.Chronicle decl first versions log) :
    first.value ≤ decl.rev.value := by
  induction h with
  | current => exact Nat.le_refl _
  | superseded _ _ ih => exact Nat.le_of_succ_le ih

theorem Chronicle.exists_current (h : r.Chronicle decl first versions log) :
    ∃ spec, Option.Rel r.Spells decl.root spec := by
  induction h with
  | current h => exact ⟨_, h⟩
  | superseded _ _ ih => exact ih

theorem Chronicle.mem_log (h : r.Chronicle decl first versions log) {s : Submission}
    (hs : s ∈ log) : s.ref.title = decl.title ∧ first.value ≤ s.ref.rev.value ∧
      s.ref.rev.value ≤ decl.rev.value := by
  induction h with
  | current =>
    rw [List.mem_singleton.1 hs]
    exact ⟨rfl, Nat.le_refl _, Nat.le_refl _⟩
  | superseded _ rest ih =>
    have hle := rest.first_le
    rw [Rev.value_next] at hle ih
    rcases List.mem_cons.1 hs with rfl | hs
    · exact ⟨rfl, Nat.le_refl _, Nat.le_of_succ_le hle⟩
    · obtain ⟨htitle, hfirst, hlast⟩ := ih hs
      exact ⟨htitle, by omega, hlast⟩

/-- Each version starts where the one before it stops, and the last is open. -/
structure Windows (first : Rev) (versions : List TypeVersion) : Prop where
  first : versions.head?.map TypeVersion.start = some first
  next : versions.IsChain fun v w => v.stop = some w.start
  last : versions.getLast?.map TypeVersion.stop = some none

theorem Windows.cons {versions : List TypeVersion} (h : Windows first.next versions) (id : Id)
    (root : Option Id) : Windows first (⟨id, root, first, some first.next⟩ :: versions) := by
  obtain ⟨hfirst, hnext, hlast⟩ := h
  cases versions with
  | nil => cases hfirst
  | cons v rest =>
    refine ⟨rfl, .cons_cons ?_ hnext, ?_⟩
    · exact hfirst.symm
    · rwa [List.getLast?_cons_cons]

theorem Chronicle.windows (h : r.Chronicle decl first versions log) : Windows first versions := by
  induction h with
  | current => exact ⟨rfl, .singleton _, rfl⟩
  | superseded _ _ ih => exact ih.cons _ _

/-- Nothing is in force before the first revision. -/
theorem Chronicle.find?_of_lt (h : r.Chronicle decl first versions log)
    (hlt : rev.value < first.value) : versions.find? (·.covers rev) = none := by
  induction h with
  | current => exact List.find?_cons_of_neg (by rw [covers_open]; omega)
  | @superseded start root spec versions log _ _ ih =>
    rw [List.find?_cons_of_neg, ih (by rw [Rev.value_next]; omega)]
    rw [covers_superseded]
    rintro rfl
    exact Nat.lt_irrefl _ hlt

/-- Every revision is covered by one version, and only one. -/
theorem Chronicle.countP_covers (h : r.Chronicle decl first versions log)
    (hle : first.value ≤ rev.value) : versions.countP (·.covers rev) = 1 := by
  induction h with
  | current => rw [List.countP_cons, if_pos (covers_open.2 hle), List.countP_nil]
  | @superseded start root spec versions log _ rest ih =>
    by_cases hstart : rev = start
    · -- this version covers its own revision, and the later ones start after it
      have hfind : versions.find? (·.covers rev) = none :=
        rest.find?_of_lt (hstart ▸ Nat.lt_succ_self _)
      have hnone : versions.countP (·.covers rev) = 0 :=
        List.countP_eq_zero.2 (List.find?_eq_none.1 hfind)
      rw [List.countP_cons, if_pos (covers_superseded.2 hstart), hnone]
    · rw [List.countP_cons, if_neg (mt covers_superseded.1 hstart)]
      exact ih (Rev.next_le_of_ne hle hstart)

/-- From the current revision on, the current definition is in force. -/
theorem Chronicle.find?_of_le (h : r.Chronicle decl first versions log)
    (hle : decl.rev.value ≤ rev.value) :
    versions.find? (·.covers rev) = some ⟨decl.id, decl.root, decl.rev, none⟩ := by
  induction h with
  | current => exact List.find?_cons_of_pos (covers_open.2 hle)
  | @superseded start root spec versions log _ rest ih =>
    have hlt := rest.first_le
    rw [List.find?_cons_of_neg, ih]
    rw [covers_superseded]
    rintro rfl
    exact Nat.not_succ_le_self _ (Nat.le_trans hlt hle)

/-- Up to the current revision, one definition has been submitted for each, and it is in force. -/
theorem Chronicle.exists_find? (h : r.Chronicle decl first versions log)
    (hfirst : first.value ≤ rev.value) (hlast : rev.value ≤ decl.rev.value) :
    ∃ root stop spec, versions.find? (·.covers rev) = some ⟨decl.id, root, rev, stop⟩ ∧
      log.filter (·.ref.rev = rev) = [⟨⟨decl.id, decl.title, rev⟩, spec⟩] ∧
      Option.Rel r.Spells root spec := by
  induction h with
  | @current spec h =>
    obtain rfl : rev = decl.rev := congrArg Rev.mk (Nat.le_antisymm hlast hfirst)
    refine ⟨decl.root, none, spec, ?_, ?_, h⟩
    · exact List.find?_cons_of_pos (covers_open.2 hfirst)
    · exact List.filter_cons_of_pos (decide_eq_true rfl)
  | @superseded start root spec versions log h rest ih =>
    by_cases hstart : rev = start
    · subst hstart
      refine ⟨root, _, spec, List.find?_cons_of_pos (covers_superseded.2 rfl), ?_, h⟩
      rw [List.filter_cons, if_pos (decide_eq_true rfl), List.filter_eq_nil_iff.2]
      intro s hs heq
      have hlt := (rest.mem_log hs).2.1
      rw [of_decide_eq_true heq] at hlt
      exact Nat.not_succ_le_self _ hlt
    · obtain ⟨root', stop, spec', hfind, hlog, hspec⟩ := ih (Rev.next_le_of_ne hfirst hstart)
      refine ⟨root', stop, spec', ?_, ?_, hspec⟩
      · rw [List.find?_cons_of_neg, hfind]
        exact mt covers_superseded.1 hstart
      · rw [List.filter_cons_of_neg, hlog]
        exact fun heq => hstart (of_decide_eq_true heq).symm

/-! ## How a chronicle goes on -/

theorem Chronicle.mono (h : r.Chronicle decl first versions log)
    (hr : ∀ root t, r.Spells root t → r'.Spells root t) :
    r'.Chronicle decl first versions log := by
  have hrel : ∀ {root spec}, Option.Rel r.Spells root spec → Option.Rel r'.Spells root spec := by
    rintro _ _ (h | _)
    · exact .some (hr _ _ h)
    · exact .none
  induction h with
  | current h => exact .current (hrel h)
  | superseded h _ ih => exact .superseded (hrel h) ih

/-- A new definition ends the version in force and starts another. -/
theorem Chronicle.redefine (h : r.Chronicle decl first versions log) {root : Option Id}
    {spec : Option SessionType} (hspec : Option.Rel r.Spells root spec) :
    r.Chronicle { decl with root, rev := decl.rev.next } first
      (closeVersions decl.id decl.rev.next versions ++ [⟨decl.id, root, decl.rev.next, none⟩])
      (log ++ [⟨⟨decl.id, decl.title, decl.rev.next⟩, spec⟩]) := by
  induction h with
  | current h =>
    have hnext : r.Chronicle { decl with root, rev := decl.rev.next } decl.rev.next _ _ :=
      .current hspec
    simpa [closeVersions, TypeDecl.ref] using Chronicle.superseded h hnext
  | superseded h _ ih => simpa [closeVersions] using Chronicle.superseded h ih

theorem filter_closeVersions (id id' : Id) (stop : Rev) (versions : List TypeVersion) :
    (closeVersions id stop versions).filter (·.decl = id') =
      closeVersions id stop (versions.filter (·.decl = id')) := by
  rw [closeVersions, List.filter_map, closeVersions]
  congr 1
  refine List.filter_congr fun v _ => ?_
  simp only [Function.comp_apply]
  split <;> rfl

/-- Versions of other declarations are left alone. -/
theorem closeVersions_of_ne {id : Id} (stop : Rev) (h : ∀ v ∈ versions, v.decl ≠ id) :
    closeVersions id stop versions = versions := by
  rw [closeVersions]
  refine (List.map_congr_left fun v hv => ?_).trans (List.map_id _)
  exact if_neg fun hid => h v hv hid.1

/-! ## The history of a registry -/

/-- What is on record for a declaration tells what has been submitted for it. -/
structure Knows (r : Registry) (log : List Submission) (id : Id) (decl : TypeDecl) : Prop where
  keyed : decl.id = id
  named : r.typeNames.get? decl.title = some id
  told : r.Chronicle decl .initial (r.versionsOf id) (submissionsOf log id)

/-- Nothing is on record but what has been submitted. -/
structure History (r : Registry) (log : List Submission) : Prop where
  known : ∀ {id : Id} {decl : TypeDecl}, r.types.get? id = some decl → r.Knows log id decl
  unknown : ∀ {id : Id}, r.types.get? id = none →
    r.versionsOf id = [] ∧ submissionsOf log id = []

theorem history_empty : History ∅ [] := ⟨nofun, fun _ => ⟨rfl, rfl⟩⟩

theorem History.spelt (h : r.History log) : r.Spelt := by
  intro name decl root hd hroot
  obtain ⟨id, -, hdecl⟩ := Option.bind_eq_some_iff.1 hd
  obtain ⟨spec, hspec⟩ := (h.known hdecl).told.exists_current
  rw [hroot] at hspec
  cases hspec with
  | some ht => exact ⟨_, ht⟩

/-- A declaration is put on record, and what was on record stays there. -/
structure Puts (r r' : Registry) (decl : TypeDecl) : Prop where
  types : ∀ id, r'.types.get? id = if id = decl.id then some decl else r.types.get? id
  names : ∀ {name : QualName} {id : Id}, r.typeNames.get? name = some id →
    r'.typeNames.get? name = some id
  title : r'.typeNames.get? decl.title = some decl.id
  nodes : ∀ {id : Id} {n : TypeNode}, r.nodes.get? id = some n → r'.nodes.get? id = some n
  others : ∀ {id : Id}, id ≠ decl.id → r'.versionsOf id = r.versionsOf id

theorem Puts.typeNamed?_title (h : r.Puts r' decl) : r'.typeNamed? decl.title = some decl :=
  Option.bind_eq_some_iff.2 ⟨decl.id, h.title, by rw [h.types, if_pos rfl]⟩

theorem Puts.exists_typeNamed? (h : r.Puts r' decl) {name : QualName} {old : TypeDecl}
    (hd : r.typeNamed? name = some old) : ∃ new, r'.typeNamed? name = some new := by
  obtain ⟨id, hname, hold⟩ := Option.bind_eq_some_iff.1 hd
  by_cases hid : id = decl.id
  · exact ⟨decl, Option.bind_eq_some_iff.2 ⟨id, h.names hname, by rw [h.types, if_pos hid]⟩⟩
  · exact ⟨old, Option.bind_eq_some_iff.2
      ⟨id, h.names hname, by rw [h.types, if_neg hid, hold]⟩⟩

theorem Puts.spells (h : r.Puts r' decl) {root : Id} {t : SessionType} (ht : r.Spells root t) :
    r'.Spells root t where
  stored := ht.stored.transport (K := fun _ => True)
    (fun _ hn => ⟨h.nodes hn, fun _ _ => trivial⟩) trivial
  links name hname := by
    obtain ⟨old, hd⟩ := ht.links name hname
    exact h.exists_typeNamed? hd

theorem submissionsOf_append_self (log : List Submission) (s : Submission) :
    submissionsOf (log ++ [s]) s.ref.id = submissionsOf log s.ref.id ++ [s] := by
  simp [submissionsOf]

theorem submissionsOf_append_of_ne (log : List Submission) {s : Submission} {id : Id}
    (h : id ≠ s.ref.id) : submissionsOf (log ++ [s]) id = submissionsOf log id := by
  simp [submissionsOf, Ne.symm h]

/-- A declaration on record with one more submission goes on with the history. -/
theorem History.puts (h : r.History log) (hp : r.Puts r' decl) {spec : Option SessionType}
    (htold : r'.Chronicle decl .initial (r'.versionsOf decl.id)
      (submissionsOf log decl.id ++ [⟨decl.ref, spec⟩])) :
    r'.History (log ++ [⟨decl.ref, spec⟩]) := by
  have hself : submissionsOf (log ++ [⟨decl.ref, spec⟩]) decl.id = _ :=
    submissionsOf_append_self log ⟨decl.ref, spec⟩
  refine ⟨fun {id decl'} hget => ?_, fun {id} hget => ?_⟩
  · -- the declaration itself goes on, and all others are as they were
    rw [hp.types] at hget
    split at hget
    · next hid =>
      subst hid
      cases hget
      exact ⟨rfl, hp.title, by rwa [hself]⟩
    · next hid =>
      obtain ⟨hkeyed, hnamed, htold⟩ := h.known hget
      refine ⟨hkeyed, hp.names hnamed, ?_⟩
      rw [hp.others hid, submissionsOf_append_of_ne log hid]
      exact htold.mono fun _ _ => hp.spells
  · rw [hp.types] at hget
    split at hget
    · cases hget
    · next hid =>
      rw [hp.others hid, submissionsOf_append_of_ne log hid]
      exact h.unknown hget

theorem versionsOf_eq_append (h : r'.versions = versions ++ [⟨decl.id, decl.root, rev, none⟩]) :
    r'.versionsOf decl.id =
      versions.filter (·.decl = decl.id) ++ [⟨decl.id, decl.root, rev, none⟩] := by
  simp [versionsOf, h]

theorem versionsOf_eq_of_ne {id : Id}
    (h : r'.versions = versions ++ [⟨decl.id, decl.root, rev, none⟩]) (hid : id ≠ decl.id) :
    r'.versionsOf id = versions.filter (·.decl = id) := by
  simp [versionsOf, h, Ne.symm hid]

/-- Declaring a type puts it on record. -/
theorem puts_of_declareType {recs : List TypeRec} (hd : r.declareType decl recs = .ok r')
    (hrecs : ∀ rec ∈ recs, r.nodes.get? rec.id = none) :
    r.Puts r' decl ∧ r'.nodes = addNodes r.nodes recs ∧
      r'.versions = r.versions ++ [⟨decl.id, decl.root, decl.rev, none⟩] := by
  unfold declareType at hd
  split at hd
  · cases hd
  next hfree =>
  cases hd
  refine ⟨⟨fun id => Table.get?_insert .., ?_, Table.get?_insert_self .., ?_, ?_⟩, rfl, rfl⟩
  · intro name id hname
    show (r.typeNames.insert decl.title decl.id).get? name = some id
    rw [Table.get?_insert, if_neg, hname]
    rintro rfl
    exact hfree ((Table.contains_eq_true_iff _).2 ⟨id, hname⟩)
  · exact get?_addNodes_of_get? hrecs
  · exact versionsOf_eq_of_ne rfl

/-- A new definition puts its declaration on record. -/
theorem puts_of_redefineType {recs : List TypeRec} (hd : r.redefineType decl rev recs = .ok r')
    (hname : r.typeNames.get? decl.title = some decl.id)
    (hrecs : ∀ rec ∈ recs, r.nodes.get? rec.id = none) :
    r.Puts r' decl ∧ r'.nodes = addNodes r.nodes recs ∧
      r'.versions = closeVersions decl.id decl.rev r.versions ++
        [⟨decl.id, decl.root, decl.rev, none⟩] := by
  unfold redefineType at hd
  split at hd
  · cases hd
  split at hd
  · cases hd
  cases hd
  refine ⟨⟨fun id => Table.get?_insert .., id, hname, ?_, fun {id} hid => ?_⟩, rfl, rfl⟩
  · exact get?_addNodes_of_get? hrecs
  · refine (versionsOf_eq_of_ne rfl hid).trans ?_
    rw [filter_closeVersions, closeVersions_of_ne]
    · rfl
    · intro v hv heq
      exact hid ((of_decide_eq_true (List.mem_filter.1 hv).2).symm.trans heq)

/-- A new name, with a definition or without, starts a chronicle. -/
theorem History.declareType (h : r.History log) (hp : r.Puts r' decl)
    (hversions : r'.versions = r.versions ++ [⟨decl.id, decl.root, decl.rev, none⟩])
    (hnew : r.types.get? decl.id = none) (hrev : decl.rev = .initial)
    {spec : Option SessionType} (hspec : Option.Rel r'.Spells decl.root spec) :
    r'.History (log ++ [⟨decl.ref, spec⟩]) := by
  obtain ⟨hnone, hnone'⟩ := h.unknown hnew
  refine h.puts hp ?_
  have hv : r'.versionsOf decl.id = _ := versionsOf_eq_append hversions
  rw [hv, ← versionsOf, hnone, hnone', ← hrev]
  exact .current hspec

/-- A new definition goes on with the chronicle of its declaration. -/
theorem History.redefineType (h : r.History log) {stored : TypeDecl}
    (hstored : r.types.get? stored.id = some stored) {root : Option Id}
    (hdecl : decl = { stored with root, rev := stored.rev.next }) (hp : r.Puts r' decl)
    (hversions : r'.versions = closeVersions decl.id decl.rev r.versions ++
      [⟨decl.id, decl.root, decl.rev, none⟩])
    {spec : Option SessionType} (hspec : Option.Rel r'.Spells root spec) :
    r'.History (log ++ [⟨decl.ref, spec⟩]) := by
  refine h.puts hp ?_
  have hv : r'.versionsOf decl.id = _ := versionsOf_eq_append hversions
  rw [hv, filter_closeVersions, ← versionsOf]
  subst hdecl
  exact ((h.known hstored).told.mono fun _ _ => hp.spells).redefine hspec

/-- Signatures are not about types. -/
theorem History.declareSig (h : r.History log) {sig : Signature}
    (hd : r.declareSig sig = .ok r') : r'.History log := by
  unfold Registry.declareSig at hd
  split at hd
  · cases hd
  cases hd
  refine ⟨fun hget => ?_, h.unknown⟩
  obtain ⟨hkeyed, hnamed, htold⟩ := h.known hget
  exact ⟨hkeyed, hnamed, htold.mono fun _ _ ht => ⟨ht.stored, ht.links⟩⟩

/-- The aliases of a definition that is accepted are declared, or stand for its own name. -/
theorem eq_or_declared_of_checkLinks {title : QualName} {names : List QualName}
    (h : r.checkLinks title names = .ok ()) :
    ∀ name ∈ names, name = title ∨ ∃ decl, r.typeNamed? name = some decl := by
  induction names with
  | nil => nofun
  | cons name rest ih =>
    rw [checkLinks] at h
    split at h
    · cases h
    next hname =>
    refine List.forall_mem_cons.2 ⟨?_, ih h⟩
    by_cases htitle : name = title
    · exact .inl htitle
    · right
      rw [← Option.ne_none_iff_exists']
      exact fun hnone => hname ⟨htitle, hnone⟩

/-! ## What a registry answers -/

/-- The answers of a registry about a declaration, and the history that they tell. -/
structure Recounts (r : Registry) (log : List Submission) (id : Id) (decl : TypeDecl) : Prop where
  /-- The versions follow each other without a gap, from the first revision on. -/
  windows : Windows .initial (r.versionsOf id)
  /-- From the first revision on, every revision is covered by exactly one version. -/
  covered : ∀ rev, Rev.initial.value ≤ rev.value → (r.versionsOf id).countP (·.covers rev) = 1
  /-- Up to the current revision, each answers with the one definition submitted for it. -/
  past : ∀ rev, Rev.initial.value ≤ rev.value → rev.value ≤ decl.rev.value →
    ∃ spec, (submissionsOf log id).filter (·.ref.rev = rev) = [⟨⟨id, decl.title, rev⟩, spec⟩] ∧
      r.typeViewAt id rev = .ok ⟨id, decl.title, rev, spec⟩
  /-- The current revision is one of them. -/
  started : Rev.initial.value ≤ decl.rev.value
  /-- What has not come yet answers with the current version. -/
  beyond : ∀ rev, decl.rev.value < rev.value → r.typeViewAt id rev = r.typeView id
  /-- A type as it is, is the type as it was at its current revision. -/
  now : r.typeView id = r.typeViewAt id decl.rev
  /-- Nothing was in force before the first revision. -/
  before : ∀ rev, rev.value < Rev.initial.value → r.typeViewAt id rev =
    .error (.notFound .type (decl.title.text ++ "@" ++ rev.text))

theorem specOf_of_rel (h : r.Spelt) {root : Option Id} {spec : Option SessionType}
    (hspec : Option.Rel r.Spells root spec) : r.specOf root = .ok spec := by
  cases hspec with
  | some ht => exact specOf_of_spells h ht
  | none => rfl

theorem versionAt?_eq (r : Registry) (id : Id) (rev : Rev) :
    r.versionAt? id rev = (r.versionsOf id).find? (·.covers rev) := by
  rw [versionAt?, versionsOf, List.find?_filter]
  congr 1
  funext v
  simp

theorem typeView_eq {id : Id} (hd : r.types.get? id = some decl) :
    r.typeView id = (r.specOf decl.root).map fun spec => ⟨id, decl.title, decl.rev, spec⟩ := by
  simp only [typeView, typeDecl, hd, bind, Except.bind]
  cases r.specOf decl.root <;> rfl

theorem typeViewAt_eq {id : Id} (hd : r.types.get? id = some decl) (rev : Rev) :
    r.typeViewAt id rev = match (r.versionsOf id).find? (·.covers rev) with
      | some v => (r.specOf v.root).map fun spec => ⟨id, decl.title, v.start, spec⟩
      | none => .error (.notFound .type (decl.title.text ++ "@" ++ rev.text)) := by
  simp only [typeViewAt, typeDecl, hd, versionAt?_eq, bind, Except.bind]
  cases (r.versionsOf id).find? (·.covers rev) with
  | none => rfl
  | some v => cases r.specOf v.root <;> rfl

/-- A registry with a history answers from it. -/
theorem History.recounts (h : r.History log) {id : Id} (hd : r.types.get? id = some decl) :
    r.Recounts log id decl := by
  obtain ⟨rfl, -, htold⟩ := h.known hd
  -- from the current revision on, the version in force is the current one
  have hcurrent : ∀ rev : Rev, decl.rev.value ≤ rev.value →
      r.typeViewAt decl.id rev = r.typeView decl.id := by
    intro rev hle
    rw [typeViewAt_eq hd, htold.find?_of_le hle, typeView_eq hd]
  refine ⟨htold.windows, fun rev => htold.countP_covers, fun rev hfirst hlast => ?_,
    htold.first_le, fun rev hlt => hcurrent rev (Nat.le_of_lt hlt),
    (hcurrent decl.rev (Nat.le_refl _)).symm, fun rev hlt => ?_⟩
  · obtain ⟨root, stop, spec, hfind, hlog, hspec⟩ := htold.exists_find? hfirst hlast
    refine ⟨spec, hlog, ?_⟩
    rw [typeViewAt_eq hd, hfind]
    show (r.specOf root).map _ = _
    rw [specOf_of_rel h.spelt hspec]
    rfl
  · rw [typeViewAt_eq hd, htold.find?_of_lt hlt]

/-- Titles are unique. -/
theorem History.id_eq (h : r.History log) {id id' : Id} {decl' : TypeDecl}
    (hd : r.types.get? id = some decl) (hd' : r.types.get? id' = some decl')
    (htitle : decl.title = decl'.title) : id = id' := by
  have hname := (h.known hd).named
  rw [htitle, (h.known hd').named] at hname
  exact (Option.some.inj hname).symm

/-- What has been submitted is on record. -/
theorem History.exists_decl (h : r.History log) {s : Submission} (hs : s ∈ log) :
    ∃ decl, r.types.get? s.ref.id = some decl ∧ s.ref.title = decl.title ∧
      Rev.initial.value ≤ s.ref.rev.value ∧ s.ref.rev.value ≤ decl.rev.value := by
  have hmem : s ∈ submissionsOf log s.ref.id := List.mem_filter.2 ⟨hs, decide_eq_true rfl⟩
  cases hd : r.types.get? s.ref.id with
  | none =>
    rw [(h.unknown hd).2] at hmem
    cases hmem
  | some decl => exact ⟨decl, rfl, (h.known hd).told.mem_log hmem⟩

end Registry

end Rendezvous
