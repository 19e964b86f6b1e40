import Rendezvous.Proofs.Bisimilarity

/-!
# Where aliases lead

`Env.Reaches` is the way that aliases make from a type: from a link to the current root of its name,
past that name, and on from there. There is one such way. It may stop, at a node that is no link or
where something is missing, or go on for ever (`Env.Endless`).

- `Reaches.total`: of two ways from one type, one goes on where the other ends;
- `Reaches.round`: a link by a name that was passed leads back to itself, so whatever is reached
  goes on (`Reaches.exists_links`), also where another link went by that name;
- `Env.Outcome` says how a way comes out and what is reported of it, and `outcome_resolveFrom` that
  resolving a type reports just that.

The main statement, `Env.resolve_exact`, reads each report as a property of the way alone.
-/

namespace Rendezvous

namespace Env

variable {env : Env} {a b c x y : Id} {name : QualName} {names names' : List QualName}

/-! ## Ways along aliases -/

/-- The type `a` is a link by `name`, whose current root is `b`. -/
def Links (env : Env) (a : Id) (name : QualName) (b : Id) : Prop :=
  env.types.get? a = some (.link name) ∧ env.names.get? name = some (some b)

/-- Following links from one type, past some names, leads to another. -/
inductive Reaches (env : Env) : Id → List QualName → Id → Prop
  | stay {a : Id} : Reaches env a [] a
  | hop {a b c : Id} {name : QualName} {names : List QualName} (h : env.Links a name b)
    (hr : Reaches env b names c) : Reaches env a (name :: names) c

/-- There is no link to follow. -/
def Stops (env : Env) (a : Id) : Prop := ∀ name b, ¬ env.Links a name b

/-- The links from a type can be followed for ever. -/
def Endless (env : Env) (a : Id) : Prop :=
  ∃ walk : Nat → Id, walk 0 = a ∧ ∀ n, ∃ name, env.Links (walk n) name (walk (n + 1))

theorem Links.unique {name' : QualName} {b' : Id} (h : env.Links a name b)
    (h' : env.Links a name' b') : name = name' ∧ b = b' := by
  cases h.1.symm.trans h'.1
  cases h.2.symm.trans h'.2
  exact ⟨rfl, rfl⟩

namespace Reaches

theorem snoc (h : env.Reaches a names b) (hl : env.Links b name c) :
    env.Reaches a (names ++ [name]) c := by
  induction h with
  | stay => exact .hop hl .stay
  | hop hl' _ ih => exact .hop hl' (ih hl)

/-- Of two ways from one type, one goes on where the other ends. -/
theorem total (h : env.Reaches a names x) (h' : env.Reaches a names' y) :
    (∃ rest, names' = names ++ rest ∧ env.Reaches x rest y) ∨
      ∃ rest, names = names' ++ rest ∧ env.Reaches y rest x := by
  induction h generalizing names' with
  | stay => exact .inl ⟨names', rfl, h'⟩
  | hop hl hr ih =>
    cases h' with
    | stay => exact .inr ⟨_, rfl, .hop hl hr⟩
    | hop hl' hr' =>
      obtain ⟨rfl, rfl⟩ := hl.unique hl'
      rcases ih hr' with ⟨rest, rfl, hrest⟩ | ⟨rest, rfl, hrest⟩
      · exact .inl ⟨rest, rfl, hrest⟩
      · exact .inr ⟨rest, rfl, hrest⟩

theorem eq_of_stops (h : env.Reaches a names b) (hs : env.Stops a) : a = b := by
  cases h with
  | stay => rfl
  | hop hl => exact absurd hl (hs _ _)

/-- A way stops at one type. -/
theorem stop_unique (h : env.Reaches a names x) (hx : env.Stops x) (h' : env.Reaches a names' y)
    (hy : env.Stops y) : x = y := by
  rcases h.total h' with ⟨_, -, hrest⟩ | ⟨_, -, hrest⟩
  · exact hrest.eq_of_stops hx
  · exact (hrest.eq_of_stops hy).symm

/-- A link by a name that was passed leads back to itself. -/
theorem round (h : env.Reaches a names x) (hx : env.types.get? x = some (.link name))
    (hname : name ∈ names) : ∃ b rest, env.Links x name b ∧ env.Reaches b rest x := by
  induction h with
  | stay => cases hname
  | hop hl hr ih =>
    rcases List.mem_cons.1 hname with rfl | hmem
    · -- the name has one root, whichever link goes by it
      exact ⟨_, _, ⟨hx, hl.2⟩, hr⟩
    · exact ih hx hmem

/-- Where a link leads back to itself, it is ahead of everything that is reached. -/
theorem ahead (hx : env.Links x name b) (hb : env.Reaches b names x) {rest : List QualName}
    (ha : env.Reaches a rest x) (h : env.Reaches a names' y) : ∃ rest, env.Reaches y rest x := by
  induction h generalizing rest with
  | stay => exact ⟨_, ha⟩
  | hop hl _ ih =>
    cases ha with
    | stay =>
      obtain ⟨-, rfl⟩ := hx.unique hl
      exact ih hb
    | hop hl' hr' =>
      obtain ⟨-, rfl⟩ := hl'.unique hl
      exact ih hr'

/-- Past a name that comes twice there is always a link to follow. -/
theorem exists_links (h : env.Reaches a names x) (hx : env.types.get? x = some (.link name))
    (hname : name ∈ names) (hy : env.Reaches a names' y) : ∃ name b, env.Links y name b := by
  obtain ⟨b, _, hlink, hround⟩ := h.round hx hname
  obtain ⟨_, hrest⟩ := ahead hlink hround h hy
  cases hrest with
  | stay => exact ⟨_, _, hlink⟩
  | hop hl => exact ⟨_, _, hl⟩

end Reaches

/-! ## Ways without an end -/

/-- A way that goes on from whatever it reaches is endless. -/
theorem endless_of_exists_links
    (h : ∀ names y, env.Reaches a names y → ∃ name b, env.Links y name b) : env.Endless a := by
  have hnext : ∀ y, ∃ b, ∀ names, env.Reaches a names y → ∃ name, env.Links y name b := by
    intro y
    by_cases hy : ∃ names, env.Reaches a names y
    · obtain ⟨names, hr⟩ := hy
      obtain ⟨name, b, hl⟩ := h names y hr
      exact ⟨b, fun _ _ => ⟨name, hl⟩⟩
    · exact ⟨y, fun names hr => absurd ⟨names, hr⟩ hy⟩
  obtain ⟨next, hnext⟩ := Classical.axiomOfChoice hnext
  let walk : Nat → Id := Nat.rec a fun _ y => next y
  have hreach : ∀ n, ∃ names, env.Reaches a names (walk n) := by
    intro n
    induction n with
    | zero => exact ⟨[], .stay⟩
    | succ n ih =>
      obtain ⟨names, hr⟩ := ih
      obtain ⟨name, hl⟩ := hnext (walk n) names hr
      exact ⟨_, hr.snoc hl⟩
  refine ⟨walk, rfl, fun n => ?_⟩
  obtain ⟨names, hr⟩ := hreach n
  exact hnext (walk n) names hr

/-- An endless way does not stop. -/
theorem Endless.not_stops (h : env.Endless a) (hr : env.Reaches a names b) : ¬ env.Stops b := by
  induction hr with
  | stay =>
    obtain ⟨walk, rfl, hwalk⟩ := h
    obtain ⟨name, hl⟩ := hwalk 0
    exact fun hs => hs _ _ hl
  | hop hl _ ih =>
    obtain ⟨walk, rfl, hwalk⟩ := h
    obtain ⟨name, hl'⟩ := hwalk 0
    obtain ⟨-, rfl⟩ := hl'.unique hl
    exact ih ⟨fun n => walk (n + 1), rfl, fun n => hwalk (n + 1)⟩

/-! ## How a way comes out -/

/-- What is reported where a way stops: the node there, or what is missing to go on. -/
inductive Report (env : Env) (x : Id) : Except Error (Id × TypeNode) → Prop
  | node {n : TypeNode} (hx : env.types.get? x = some n) (hlink : ∀ name, n ≠ .link name) :
    Report env x (.ok (x, n))
  | noNode (hx : env.types.get? x = none) : Report env x (.error (.noSuch .typeTerm x))
  | typeless {name : QualName} (hx : env.types.get? x = some (.link name))
    (hname : env.names.get? name = some none) : Report env x (.error (.typeless name))
  | noName {name : QualName} (hx : env.types.get? x = some (.link name))
    (hname : env.names.get? name = none) : Report env x (.error (.notFound .type name.text))

/-- What is reported of the way from a type: what there is where it stops, or the first name that
comes twice. -/
inductive Outcome (env : Env) (a : Id) : Except Error (Id × TypeNode) → Prop
  | stop {x : Id} {names : List QualName} {r : Except Error (Id × TypeNode)}
    (hr : env.Reaches a names x) (hx : env.Report x r) : Outcome env a r
  | circle {x : Id} {name : QualName} {names : List QualName} (hr : env.Reaches a names x)
    (hx : env.types.get? x = some (.link name)) (hname : name ∈ names) (hn : names.Nodup) :
    Outcome env a (.error (.linkCycle name))

variable {r r' : Except Error (Id × TypeNode)}

theorem Report.stops (h : env.Report x r) : env.Stops x := by
  intro name b hl
  cases h with
  | node hx hlink =>
    cases hx.symm.trans hl.1
    exact hlink name rfl
  | noNode hx => cases hx.symm.trans hl.1
  | typeless hx hname =>
    cases hx.symm.trans hl.1
    cases hname.symm.trans hl.2
  | noName hx hname =>
    cases hx.symm.trans hl.1
    cases hname.symm.trans hl.2

theorem Report.unique (h : env.Report x r) (h' : env.Report x r') : r = r' := by
  cases h <;> cases h' <;> grind

/-- There is one outcome. -/
theorem Outcome.unique (h : env.Outcome a r) (h' : env.Outcome a r') : r = r' := by
  cases h with
  | stop hr hx =>
    cases h' with
    | stop hr' hx' =>
      obtain rfl := hr.stop_unique hx.stops hr' hx'.stops
      exact hx.unique hx'
    | circle hr' hx' hname' =>
      obtain ⟨_, _, hl⟩ := hr'.exists_links hx' hname' hr
      exact absurd hl (hx.stops _ _)
  | @circle x name names hr hx hname hn =>
    cases h' with
    | stop hr' hx' =>
      obtain ⟨_, _, hl⟩ := hr.exists_links hx hname hr'
      exact absurd hl (hx'.stops _ _)
    | @circle y name' names' hr' hx' hname' hn' =>
      -- the way that goes on passes the name of the other's end a second time
      rcases hr.total hr' with ⟨_, rfl, hrest⟩ | ⟨_, rfl, hrest⟩
      · cases hrest with
        | stay => cases hx.symm.trans hx'; rfl
        | hop hl =>
          cases hx.symm.trans hl.1
          exact absurd rfl ((List.nodup_append.1 hn').2.2 _ hname _ List.mem_cons_self)
      · cases hrest with
        | stay => cases hx.symm.trans hx'; rfl
        | hop hl =>
          cases hx'.symm.trans hl.1
          exact absurd rfl ((List.nodup_append.1 hn).2.2 _ hname' _ List.mem_cons_self)

/-! ## Resolving -/

theorem node_eq_error {e : Error} :
    env.node x = .error e ↔ env.types.get? x = none ∧ e = .noSuch .typeTerm x := by
  unfold node
  cases env.types.get? x <;> simp [eq_comm]

theorem rootOf_eq_error {e : Error} :
    env.rootOf name = .error e ↔ (env.names.get? name = some none ∧ e = .typeless name) ∨
      (env.names.get? name = none ∧ e = .notFound .type name.text) := by
  unfold rootOf
  cases env.names.get? name with
  | none => simp [eq_comm]
  | some o => cases o <;> simp [eq_comm]

/-- Resolving on from a type that was reached reports how the way comes out, if the names that were
passed are those on the way and none of them came twice. -/
theorem outcome_resolveFrom {seen : List QualName} (hr : env.Reaches a names x)
    (hseen : ∀ name, name ∈ seen ↔ name ∈ names) (hn : names.Nodup) :
    env.Outcome a (env.resolveFrom seen x) := by
  fun_induction resolveFrom env seen x generalizing names with
  | case1 seen x e he =>
    obtain ⟨hx, rfl⟩ := node_eq_error.1 he
    exact .stop hr (.noNode hx)
  | case2 seen x name hx hold => exact .circle hr (node_eq_ok.1 hx) ((hseen name).1 hold) hn
  | case3 seen x name hx hnew e he =>
    rcases rootOf_eq_error.1 he with ⟨hname, rfl⟩ | ⟨hname, rfl⟩
    · exact .stop hr (.typeless (node_eq_ok.1 hx) hname)
    · exact .stop hr (.noName (node_eq_ok.1 hx) hname)
  | case4 seen x name hx hnew root hroot ih =>
    refine ih (hr.snoc ⟨node_eq_ok.1 hx, rootOf_eq_ok.1 hroot⟩) (fun other => ?_) ?_
    · rw [List.mem_cons, List.mem_append, List.mem_singleton, hseen, or_comm]
    · refine List.nodup_append.2 ⟨hn, by simp, fun other hother last hlast heq => hnew ?_⟩
      rw [List.mem_singleton] at hlast
      exact (hseen name).2 (hlast ▸ heq ▸ hother)
  | case5 seen x n hlink hx =>
    exact .stop hr (.node (node_eq_ok.1 hx) fun name h => hlink name h)

/-- Resolving a type reports how its way comes out. -/
theorem resolve_eq_iff : env.resolve a = r ↔ env.Outcome a r := by
  have h : env.Outcome a (env.resolve a) :=
    outcome_resolveFrom .stay (fun _ => Iff.rfl) List.nodup_nil
  exact ⟨fun heq => heq ▸ h, h.unique⟩

/-- A link cycle is reported of endless ways, and of no other. -/
theorem resolve_eq_linkCycle_iff :
    (∃ name, env.resolve a = .error (.linkCycle name)) ↔ env.Endless a := by
  constructor
  · rintro ⟨name, h⟩
    cases resolve_eq_iff.1 h with
    | stop _ hx => cases hx
    | circle hr hx hname => exact endless_of_exists_links fun _ _ => hr.exists_links hx hname
  · intro h
    have hout : env.Outcome a (env.resolve a) := resolve_eq_iff.1 rfl
    generalize env.resolve a = r at hout ⊢
    cases hout with
    | stop hr hx => exact absurd hx.stops (h.not_stops hr)
    | circle => exact ⟨_, rfl⟩

/-- **Resolving a type is to follow its aliases.** In any environment, for any type:

- it comes to an end, within one look for each name and one more;
- it gives a node exactly if the way along links comes to that node, which is no link;
- it reports a link cycle exactly if the way is endless, wherever the way enters its circle, and the
  name it reports is the first that comes twice;
- it reports a typeless name, a missing node or a missing name exactly if the way comes to it;
- and where it gave a node, the node resolves to itself. -/
theorem resolve_exact (env : Env) (a : Id) :
    (∀ more, env.resolveWithin (env.names.size + 1 + more) [] a = some (env.resolve a)) ∧
    (∀ r n, env.resolve a = .ok (r, n) ↔
      (∃ names, env.Reaches a names r) ∧ env.types.get? r = some n ∧ ∀ name, n ≠ .link name) ∧
    ((∃ name, env.resolve a = .error (.linkCycle name)) ↔ env.Endless a) ∧
    (∀ name, env.resolve a = .error (.linkCycle name) ↔
      ∃ names x, env.Reaches a names x ∧ env.types.get? x = some (.link name) ∧ name ∈ names ∧
        names.Nodup) ∧
    (∀ name, env.resolve a = .error (.typeless name) ↔
      ∃ names x, env.Reaches a names x ∧ env.types.get? x = some (.link name) ∧
        env.names.get? name = some none) ∧
    (∀ entity what, env.resolve a = .error (.notFound entity what) ↔
      ∃ names x, env.Reaches a names x ∧
        ((env.types.get? x = none ∧ entity = .typeTerm ∧ what = x.short) ∨
          ∃ name, env.types.get? x = some (.link name) ∧ env.names.get? name = none ∧
            entity = .type ∧ what = name.text)) ∧
    ∀ r n, env.resolve a = .ok (r, n) → env.resolve r = .ok (r, n) := by
  refine ⟨fun more => resolveWithin_eq_some ?_, fun r n => ?_, resolve_eq_linkCycle_iff,
    fun name => ?_, fun name => ?_, fun entity what => ?_, fun r n h => ?_⟩
  · have hle : unseen env.names.keys [] ≤ env.names.size :=
      List.countP_le_length.trans (List.length_map _).le
    omega
  · rw [resolve_eq_iff]
    constructor
    · rintro (⟨hr, ⟨hx, hlink⟩⟩)
      exact ⟨⟨_, hr⟩, hx, hlink⟩
    · rintro ⟨⟨names, hr⟩, hx, hlink⟩
      exact .stop hr (.node hx hlink)
  · rw [resolve_eq_iff]
    constructor
    · intro h
      cases h with
      | stop _ hx => cases hx
      | circle hr hx hname hn => exact ⟨_, _, hr, hx, hname, hn⟩
    · rintro ⟨names, x, hr, hx, hname, hn⟩
      exact .circle hr hx hname hn
  · rw [resolve_eq_iff]
    constructor
    · rintro (⟨hr, hx⟩)
      cases hx with
      | typeless hx hname => exact ⟨_, _, hr, hx, hname⟩
    · rintro ⟨names, x, hr, hx, hname⟩
      exact .stop hr (.typeless hx hname)
  · rw [resolve_eq_iff]
    constructor
    · rintro (⟨hr, hx⟩)
      cases hx with
      | noNode hx => exact ⟨_, _, hr, .inl ⟨hx, rfl, rfl⟩⟩
      | noName hx hname => exact ⟨_, _, hr, .inr ⟨_, hx, hname, rfl, rfl⟩⟩
    · rintro ⟨names, x, hr, ⟨hx, rfl, rfl⟩ | ⟨name, hx, hname, rfl, rfl⟩⟩
      · exact .stop hr (.noNode hx)
      · exact .stop hr (.noName hx hname)
  · cases resolve_eq_iff.1 h with
    | stop _ hx => cases hx with
      | node hx hlink => exact resolve_eq_iff.2 (.stop .stay (.node hx hlink))

/-- A way that enters its circle after a link of its own, and comes back to it by another link of
the same name; and one that comes to a node. -/
theorem resolve_exact_detour :
    let id (n : Nat) : Id := ⟨n⟩
    let entry : QualName := ⟨"ring.entry", by decide⟩
    let first : QualName := ⟨"ring.first", by decide⟩
    let second : QualName := ⟨"ring.second", by decide⟩
    let exit : QualName := ⟨"ring.exit", by decide⟩
    let env : Env := { (∅ : Env) with
      types := Table.ofList [(id 0, .link entry), (id 1, .link first), (id 2, .link second),
        (id 3, .link first), (id 4, .link exit), (id 5, .one)]
      names := Table.ofList [(entry, some (id 1)), (first, some (id 2)), (second, some (id 3)),
        (exit, some (id 5))] }
    env.resolve (id 0) = .error (.linkCycle first) ∧ env.Endless (id 0) ∧
      env.resolve (id 4) = .ok (id 5, .one) ∧ env.resolve (id 5) = .ok (id 5, .one) := by
  intro id entry first second exit env
  obtain ⟨-, -, hendless, hcycle, -⟩ := resolve_exact env (id 0)
  obtain ⟨-, hok, -, -, -, -, hagain⟩ := resolve_exact env (id 4)
  have hring : env.resolve (id 0) = .error (.linkCycle first) :=
    (hcycle first).2 ⟨[entry, first, second], id 3,
      .hop (b := id 1) ⟨by decide, by decide⟩ (.hop (b := id 2) ⟨by decide, by decide⟩
        (.hop (b := id 3) ⟨by decide, by decide⟩ .stay)), by decide, by decide, by decide⟩
  have hnode : env.resolve (id 4) = .ok (id 5, .one) :=
    (hok (id 5) .one).2 ⟨⟨[exit], .hop ⟨by decide, by decide⟩ .stay⟩, by decide, nofun⟩
  exact ⟨hring, hendless.1 ⟨_, hring⟩, hnode, hagain _ _ hnode⟩

end Env

end Rendezvous
