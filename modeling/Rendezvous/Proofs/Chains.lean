import Rendezvous.Proofs.Causes

/-!
# Chains of steps

A chain takes a step, the step that it leads to, and so on. `Engine.Leads` is the relation behind
it, and `Engine.Ends` lists the three ways in which a chain of at most so many steps comes to an
end: a step waits, a step fails, or the limit is reached (`Engine.ends_takeFrom`).

A chain that was cut off goes on where it stopped: with what is left of the limit, the loop is at
the same step on the same engine (`Request.takeFrom_of_leads`), and the limit makes no difference to a
step. So a chain that is resumed ends as it would have ended in one go (`Engine.Resumes`).
-/

namespace Rendezvous

/-! ## Limits -/

namespace Engine

/-- The engine with another limit on chains. -/
def limited (e : Engine) (limit : Nat) : Engine := { e with settings := ⟨limit⟩ }

@[simp] theorem store_limited (e : Engine) (limit : Nat) : (e.limited limit).store = e.store := rfl

@[simp] theorem ids_limited (e : Engine) (limit : Nat) : (e.limited limit).ids = e.ids := rfl

@[simp] theorem journal_limited (e : Engine) (limit : Nat) :
    (e.limited limit).journal = e.journal := rfl

@[simp] theorem limited_limited (e : Engine) (l m : Nat) : (e.limited l).limited m = e.limited m :=
  rfl

end Engine

namespace Request

variable {spec : StepSpec} {next : Option StepSpec} {e e' : Engine} {err : Error}

/-- The same result with another engine. -/
def onEngine {α : Type} (f : Engine → Engine) :
    EStateM.Result Error Engine α → EStateM.Result Error Engine α
  | .ok a e => .ok a (f e)
  | .error err e => .error err (f e)

/-- A step does not look at the limit. -/
theorem step_limited (limit : Nat) (spec : StepSpec) (e : Engine) :
    step .none spec (e.limited limit) = onEngine (·.limited limit) (step .none spec e) := by
  rw [step_apply, step_apply, Engine.store_limited, Engine.ids_limited]
  cases e.store.deriveStep e.ids.fresh spec with
  | error err => rfl
  | ok r =>
    dsimp only
    cases e.store.commit r.2 <;> rfl

theorem takeFrom_succ (limit taken n : Nat) (spec : StepSpec) (e : Engine) :
    takeFrom (fun _ => .none) limit taken (n + 1) spec e = match step .none spec e with
      | .error err e' => .error (stopped taken spec err) e'
      | .ok none e' => .ok () e'
      | .ok (some next) e' => takeFrom (fun _ => .none) limit (taken + 1) n next e' := rfl

/-- A step that succeeds enters one change in the journal. -/
theorem journal_step_ok (h : step .none spec e = .ok next e') :
    ∃ m, e'.journal = e.journal ++ [m] := by
  rw [step_apply] at h
  split at h
  · cases h
  next next' m hd =>
    split at h
    · cases h
    · cases h
      exact ⟨m, rfl⟩

/-- A step that fails leaves the store and the journal. -/
theorem step_error (h : step .none spec e = .error err e') :
    e'.store = e.store ∧ e'.journal = e.journal := by
  rw [step_apply] at h
  split at h
  · cases h
    exact ⟨rfl, rfl⟩
  · split at h
    · cases h
      exact ⟨rfl, rfl⟩
    · cases h

end Request

/-! ## Steps that lead to steps -/

namespace Engine

/-- Taking `spec` and the steps it leads to, `n` of them have been committed, and the last has led
to the step that is given. -/
inductive Leads : Engine → StepSpec → Nat → Engine → StepSpec → Prop
  | refl {e : Engine} {spec : StepSpec} : Leads e spec 0 e spec
  | step {e e₁ e₂ : Engine} {spec next last : StepSpec} {n : Nat}
    (h : Request.step .none spec e = .ok (some next) e₁) (hl : Leads e₁ next n e₂ last) :
    Leads e spec (n + 1) e₂ last

namespace Leads

variable {e e₁ : Engine} {spec last : StepSpec} {n : Nat}

theorem limited (h : e.Leads spec n e₁ last) (limit : Nat) :
    (e.limited limit).Leads spec n (e₁.limited limit) last := by
  induction h with
  | refl => exact .refl
  | step h _ ih => exact .step (by rw [Request.step_limited, h, Request.onEngine]) ih

theorem eq_of_zero (h : e.Leads spec n e₁ last) (hn : n = 0) : e₁ = e ∧ last = spec := by
  cases h with
  | refl => exact ⟨rfl, rfl⟩
  | step => cases hn

/-- Each step enters one change in the journal. -/
theorem journal (h : e.Leads spec n e₁ last) :
    ∃ changes, e₁.journal = e.journal ++ changes ∧ changes.length = n := by
  induction h with
  | refl => exact ⟨[], (List.append_nil _).symm, rfl⟩
  | step h _ ih =>
    obtain ⟨m, hm⟩ := Request.journal_step_ok h
    obtain ⟨changes, hc, hn⟩ := ih
    exact ⟨m :: changes, by rw [hc, hm, List.append_assoc]; rfl, by rw [List.length_cons, hn]⟩

end Leads

/-- How a chain of at most `n` steps ends that has taken `taken` steps before. -/
inductive Ends (limit taken n : Nat) (e : Engine) (spec : StepSpec) :
    EStateM.Result Error Engine Unit → Prop
  /-- A step waits. -/
  | waits {j : Nat} {e₁ e' : Engine} {last : StepSpec} (hl : e.Leads spec j e₁ last) (hj : j < n)
    (hs : Request.step .none last e₁ = .ok none e') : Ends limit taken n e spec (.ok () e')
  /-- A step fails. -/
  | fails {j : Nat} {e₁ e' : Engine} {last : StepSpec} {source : Error}
    (hl : e.Leads spec j e₁ last) (hj : j < n)
    (hs : Request.step .none last e₁ = .error source e') :
    Ends limit taken n e spec (.error (Request.stopped (taken + j) last source) e')
  /-- The limit is reached. -/
  | cut {e₁ : Engine} {last : StepSpec} (hl : e.Leads spec n e₁ last) :
    Ends limit taken n e spec (.error (Request.stopped (taken + n) last (.stepLimit limit)) e₁)

/-- A first step in front of a chain. -/
theorem Ends.cons {limit taken n : Nat} {e e₁ : Engine} {spec next : StepSpec}
    {r : EStateM.Result Error Engine Unit} (hs : Request.step .none spec e = .ok (some next) e₁)
    (h : Ends limit (taken + 1) n e₁ next r) : Ends limit taken (n + 1) e spec r := by
  have hcount : ∀ j, taken + 1 + j = taken + (j + 1) := fun j => by omega
  cases h with
  | waits hl hj hw => exact .waits (.step hs hl) (Nat.succ_lt_succ hj) hw
  | fails hl hj hf =>
    rw [hcount]
    exact .fails (.step hs hl) (Nat.succ_lt_succ hj) hf
  | cut hl =>
    rw [hcount]
    exact .cut (.step hs hl)

theorem ends_takeFrom (limit taken n : Nat) (e : Engine) (spec : StepSpec) :
    Ends limit taken n e spec (Request.takeFrom (fun _ => .none) limit taken n spec e) := by
  induction n generalizing taken e spec with
  | zero => exact .cut .refl
  | succ n ih =>
    cases hs : Request.step .none spec e with
    | error source e' =>
      rw [Request.takeFrom_succ, hs]
      exact .fails .refl (Nat.succ_pos n) hs
    | ok next e₁ =>
      cases next with
      | none =>
        rw [Request.takeFrom_succ, hs]
        exact .waits .refl (Nat.succ_pos n) hs
      | some next =>
        rw [Request.takeFrom_succ, hs]
        exact .cons hs (ih (taken + 1) e₁ next)

/-- The changes that a chain commits: one for each step that has led to the next, and one more for
a step that waits. -/
theorem Ends.journal {limit taken n : Nat} {e : Engine} {spec : StepSpec}
    {r : EStateM.Result Error Engine Unit} (h : Ends limit taken n e spec r) :
    ∃ changes, (resulting r).journal = e.journal ++ changes ∧ changes.length ≤ n ∧
      ((∃ e₁ last, e.Leads spec changes.length e₁ last) ∨
        ∃ j e₁ last e', changes.length = j + 1 ∧ e.Leads spec j e₁ last ∧
          Request.step .none last e₁ = .ok none e') := by
  cases h with
  | waits hl hj hs =>
    obtain ⟨changes, hc, rfl⟩ := hl.journal
    obtain ⟨m, hm⟩ := Request.journal_step_ok hs
    refine ⟨changes ++ [m], by rw [resulting_ok, hm, hc, List.append_assoc], ?_, ?_⟩
    · rw [List.length_append]
      exact hj
    · exact .inr ⟨_, _, _, _, List.length_append, hl, hs⟩
  | fails hl hj hs =>
    obtain ⟨changes, hc, rfl⟩ := hl.journal
    refine ⟨changes, ?_, Nat.le_of_lt hj, .inl ⟨_, _, hl⟩⟩
    rw [resulting_error, (Request.step_error hs).2, hc]
  | cut hl =>
    obtain ⟨changes, hc, rfl⟩ := hl.journal
    exact ⟨changes, hc, Nat.le_refl _, .inl ⟨_, _, hl⟩⟩

end Engine

namespace Request

open Engine (Leads Ends)

variable {e e₁ : Engine} {spec last : StepSpec} {j : Nat}

/-- The loop goes on after some steps with what is left of the limit. -/
theorem takeFrom_of_leads (h : e.Leads spec j e₁ last) (limit taken n : Nat) :
    takeFrom (fun _ => .none) limit taken (j + n) spec e =
      takeFrom (fun _ => .none) limit (taken + j) n last e₁ := by
  induction h generalizing taken with
  | refl => rw [Nat.zero_add, Nat.add_zero]
  | @step e e₁ e₂ spec next last j h _ ih =>
    rw [Nat.add_right_comm, takeFrom_succ, h]
    dsimp only
    rw [ih, Nat.add_assoc, Nat.add_comm 1 j]

/-- There is one way in which a chain ends. -/
theorem takeFrom_of_ends {limit taken n : Nat} {r : EStateM.Result Error Engine Unit}
    (h : Ends limit taken n e spec r) :
    takeFrom (fun _ => .none) limit taken n spec e = r := by
  have hlast : ∀ {j : Nat} {e₁ : Engine} {last : StepSpec}, e.Leads spec j e₁ last → j < n →
      ∃ i, takeFrom (fun _ => .none) limit taken n spec e =
        takeFrom (fun _ => .none) limit (taken + j) (i + 1) last e₁ := by
    intro j e₁ last hl hj
    obtain ⟨i, rfl⟩ := Nat.exists_eq_add_of_lt hj
    exact ⟨i, takeFrom_of_leads hl limit taken (i + 1)⟩
  cases h with
  | waits hl hj hs =>
    obtain ⟨i, hi⟩ := hlast hl hj
    rw [hi, takeFrom_succ, hs]
  | fails hl hj hs =>
    obtain ⟨i, hi⟩ := hlast hl hj
    rw [hi, takeFrom_succ, hs]
  | cut hl => exact takeFrom_of_leads hl limit taken 0

theorem take_limited (limit : Nat) (spec : StepSpec) (e : Engine) :
    take (fun _ => .none) spec (e.limited limit) =
      takeFrom (fun _ => .none) limit 0 limit spec (e.limited limit) := rfl

end Request

namespace Engine

/-! ## Chains that stop -/

section

variable {limit n taken : Nat} {e e' : Engine} {spec pending : StepSpec} {err source : Error}

theorem eq_of_stopped_eq {k : Nat} {last : StepSpec} (hplain : ∀ t p s, err ≠ .interrupted t p s)
    (h : Request.stopped k last err = .interrupted taken pending source) :
    k ≠ 0 ∧ k = taken ∧ last = pending ∧ err = source := by
  unfold Request.stopped at h
  split at h
  · exact absurd h (hplain _ _ _)
  next hk =>
    cases h
    exact ⟨hk, rfl, rfl, rfl⟩

theorem ne_interrupted_of_step (h : Request.step .none spec e = .error err e') :
    ∀ t p s, err ≠ .interrupted t p s := by
  rintro t p s rfl
  cases Request.ofChain_step h

/-- An interrupted chain has taken some steps, and then there was no next one. -/
theorem Ends.of_interrupted
    (h : Ends limit 0 n e spec (.error (.interrupted taken pending source) e')) :
    1 ≤ taken ∧ ∃ e₁, e.Leads spec taken e₁ pending ∧
      (source = .stepLimit limit ∧ taken = n ∧ e' = e₁ ∨
        Request.step .none pending e₁ = .error source e') := by
  generalize hr : (.error (.interrupted taken pending source) e' :
    EStateM.Result Error Engine Unit) = r at h
  cases h with
  | waits => cases hr
  | @fails j e₁ e' last err hl hj hs =>
    injection hr with herr he
    rw [Nat.zero_add] at herr
    obtain ⟨hpos, rfl, rfl, rfl⟩ := eq_of_stopped_eq (ne_interrupted_of_step hs) herr.symm
    exact ⟨Nat.pos_of_ne_zero hpos, e₁, hl, .inr (he ▸ hs)⟩
  | @cut e₁ last hl =>
    injection hr with herr he
    rw [Nat.zero_add] at herr
    have hplain : ∀ t p s, Error.stepLimit limit ≠ .interrupted t p s := fun _ _ _ h => nomatch h
    obtain ⟨hpos, rfl, rfl, rfl⟩ := eq_of_stopped_eq hplain herr.symm
    exact ⟨Nat.pos_of_ne_zero hpos, e₁, hl, .inl ⟨rfl, rfl, he⟩⟩

/-- A chain that fails with another error has not begun. -/
theorem Ends.store_eq (h : Ends limit 0 n e spec (.error err e'))
    (hplain : ∀ t p s, err ≠ .interrupted t p s) : e'.store = e.store := by
  have hzero : ∀ {k : Nat} {last : StepSpec} {source : Error},
      err = Request.stopped k last source → k = 0 := by
    intro k last source herr
    by_contra hk
    exact hplain k last source (herr.trans (if_neg hk))
  generalize hr : (.error err e' : EStateM.Result Error Engine Unit) = r at h
  cases h with
  | waits => cases hr
  | fails hl hj hs =>
    injection hr with herr he
    have hj := hzero herr
    rw [Nat.zero_add] at hj
    rw [he, (Request.step_error hs).1, (hl.eq_of_zero hj).1]
  | cut hl =>
    injection hr with herr he
    have hn := hzero herr
    rw [Nat.zero_add] at hn
    rw [he, (hl.eq_of_zero hn).1]

end

/-- A chain that is resumed at `pending`, after `m` of its steps and with `k` more to go, against
the chain that is taken in one go. -/
structure Resumes (m k : Nat) (pending : StepSpec)
    (rest whole : EStateM.Result Error Engine Unit) : Prop where
  store_eq : (resulting rest).store = (resulting whole).store
  ok_iff : (∃ e', rest = .ok () e') ↔ ∃ e', whole = .ok () e'
  /-- Both stop at the same step and for the same cause, up to the limit that it names. -/
  error : ∀ err e', rest = .error err e' → ∃ taken last source source' e'',
    err = Request.stopped taken last source ∧ (taken = 0 → last = pending) ∧
      whole = .error (.interrupted (m + taken) last source') e'' ∧
      (source = source' ∧ source.ofChain = false ∨
        source = .stepLimit k ∧ source' = .stepLimit (m + k))

theorem resumes_of_leads {e e₁ : Engine} {spec pending : StepSpec} {m : Nat} (hm : 0 < m)
    (h : e.Leads spec m e₁ pending) (k : Nat) :
    Resumes m k pending (Request.take (fun _ => .none) pending (e₁.limited k))
      (Request.take (fun _ => .none) spec (e.limited (m + k))) := by
  have hwhole : Request.take (fun _ => .none) spec (e.limited (m + k)) =
      Request.takeFrom (fun _ => .none) (m + k) m k pending (e₁.limited (m + k)) := by
    rw [Request.take_limited, Request.takeFrom_of_leads (h.limited (m + k)), Nat.zero_add]
  rw [hwhole, Request.take_limited]
  have hends := ends_takeFrom k 0 k (e₁.limited k) pending
  have hstep := Request.step_limited (m + k)
  have hcount : ∀ j last source, Request.stopped (m + j) last source =
      .interrupted (m + j) last source := fun j last source => if_neg (by omega)
  -- what the rest has gone through is gone through in one go as well
  generalize Request.takeFrom (fun _ => .none) k 0 k pending (e₁.limited k) = r at hends
  cases hends with
  | waits hl hj hs =>
    have hwaits : Ends (m + k) m k (e₁.limited (m + k)) pending _ :=
      .waits (hl.limited (m + k)) hj ((hstep _ _).trans (congrArg _ hs))
    rw [Request.takeFrom_of_ends hwaits]
    exact ⟨rfl, ⟨fun _ => ⟨_, rfl⟩, fun _ => ⟨_, rfl⟩⟩, fun _ _ h => nomatch h⟩
  | @fails j e₂ e' last source hl hj hs =>
    have hfails : Ends (m + k) m k (e₁.limited (m + k)) pending _ :=
      .fails (hl.limited (m + k)) hj ((hstep _ _).trans (congrArg _ hs))
    rw [Request.takeFrom_of_ends hfails, hcount, Nat.zero_add]
    refine ⟨rfl, ⟨fun ⟨_, h⟩ => (nomatch h), fun ⟨_, h⟩ => (nomatch h)⟩, ?_⟩
    rintro _ _ ⟨⟩
    exact ⟨j, last, source, source, _, rfl, fun hj => (hl.eq_of_zero hj).2, rfl,
      .inl ⟨rfl, Request.ofChain_step hs⟩⟩
  | @cut e₂ last hl =>
    have hcut : Ends (m + k) m k (e₁.limited (m + k)) pending _ := .cut (hl.limited (m + k))
    rw [Request.takeFrom_of_ends hcut, hcount, Nat.zero_add]
    refine ⟨rfl, ⟨fun ⟨_, h⟩ => (nomatch h), fun ⟨_, h⟩ => (nomatch h)⟩, ?_⟩
    rintro _ _ ⟨⟩
    exact ⟨k, last, _, _, _, rfl, fun hk => (hl.eq_of_zero hk).2, rfl, .inr ⟨rfl, rfl⟩⟩

/-- **A chain that is interrupted is resumed exactly.** With limit `m`

- no more than `m` steps are committed;
- an interrupted chain has taken the steps that it says, and is stopped by the limit or by the error
  of its pending step;
- any other error leaves the store as it was;
- a chain that the limit has stopped ends, when its pending step is taken with limit `k`, as the
  chain ends that is taken with limit `m + k`. -/
theorem take_resumes (e : Engine) (spec : StepSpec) (m k : Nat) :
    let first := Request.take (fun _ => .none) spec (e.limited m)
    (∃ changes, (resulting first).journal = e.journal ++ changes ∧ changes.length ≤ m) ∧
      (∀ taken pending source e', first = .error (.interrupted taken pending source) e' →
        1 ≤ taken ∧ ∃ e₁, (e.limited m).Leads spec taken e₁ pending ∧ e'.store = e₁.store ∧
          (source = .stepLimit m ∧ taken = m ∨
            Request.step .none pending e₁ = .error source e')) ∧
      (∀ err e', first = .error err e' →
        (∀ taken pending source, err ≠ .interrupted taken pending source) →
          e'.store = e.store) ∧
      ∀ taken pending limit e', first = .error (.interrupted taken pending (.stepLimit limit)) e' →
        Resumes m k pending (Request.take (fun _ => .none) pending (e'.limited k))
          (Request.take (fun _ => .none) spec (e.limited (m + k))) := by
  intro first
  have hends : Ends m 0 m (e.limited m) spec first := ends_takeFrom m 0 m (e.limited m) spec
  refine ⟨?_, ?_, ?_, ?_⟩
  · obtain ⟨changes, hc, hn, -⟩ := hends.journal
    exact ⟨changes, hc, hn⟩
  · intro taken pending source e' h
    rw [h] at hends
    obtain ⟨hpos, e₁, hl, ⟨hlimit, htaken, rfl⟩ | hs⟩ := hends.of_interrupted
    · exact ⟨hpos, e', hl, rfl, .inl ⟨hlimit, htaken⟩⟩
    · exact ⟨hpos, e₁, hl, (Request.step_error hs).1, .inr hs⟩
  · intro err e' h hplain
    rw [h] at hends
    exact hends.store_eq hplain
  · intro taken pending limit e' h
    rw [h] at hends
    obtain ⟨hpos, e₁, hl, ⟨-, rfl, rfl⟩ | hs⟩ := hends.of_interrupted
    · exact resumes_of_leads hpos hl k
    · exact nomatch Request.ofChain_step hs

/-- The process calls another of its kind, and waits for it before it closes. -/
def callStep : StepSpec :=
  ⟨.nth 3, .nth 5, .call "y" (.nth 2) [] (.wait "y" (.close "x"))⟩

/-- With room for one step the chain is cut off after the call; the wait goes through when it is
taken by itself. -/
theorem take_resumes_call :
    ∃ pending e', Request.take (fun _ => .none) callStep (founded.limited 1) =
        .error (.interrupted 1 pending (.stepLimit 1)) e' ∧
      Resumes 1 1 pending (Request.take (fun _ => .none) pending (e'.limited 1))
        (Request.take (fun _ => .none) callStep (founded.limited 2)) ∧
      ∃ e'', Request.take (fun _ => .none) callStep (founded.limited 2) = .ok () e'' := by
  have hnext :
      (returned? (Request.step .none callStep (founded.limited 1))).join.isSome = true := by
    decide +kernel
  obtain ⟨next, hnext⟩ := Option.isSome_iff_exists.1 hnext
  have hs := eq_ok_of_returned? (Option.join_eq_some_iff.1 hnext)
  have hends : Ends 1 0 1 (founded.limited 1) callStep _ := .cut (.step hs .refl)
  have hcut := Request.takeFrom_of_ends hends
  obtain ⟨_, hwhole⟩ := exists_of_returned? (r := Request.take (fun _ => .none) callStep
    (founded.limited 2)) (by decide +kernel)
  exact ⟨next, _, hcut, (take_resumes founded callStep 1 1).2.2.2 1 next 1 _ hcut, _, hwhole⟩

end Engine

end Rendezvous
