import Rendezvous.Proofs.Chains
import Rendezvous.Proofs.Copies

/-!
# Why chains end

A step is taken with a term that was submitted, or with one that a pending service has kept. Either
way a part of a term is used up: the terms in hand and in pending services together
(`Store.pendingSize`) get smaller with every step (`Engine.size_step_lt`), whatever the step and
whatever the store. So no chain is longer than that sum to begin with, and a limit as large is never
reached.
-/

namespace Rendezvous

/-- What has stopped a chain, or the error itself if it is not about a chain that has stopped. -/
def Error.cause : Error → Error
  | .interrupted _ _ source => source.cause
  | e => e

theorem Error.cause_of_ofChain {err : Error} (h : err.ofChain = false) : err.cause = err := by
  cases err <;> first | rfl | cases h

theorem Request.cause_stopped (taken : Nat) (pending : StepSpec) (err : Error) :
    (stopped taken pending err).cause = err.cause := by
  unfold stopped
  split <;> rfl

/-! ## Sizes -/

namespace Term

mutual

/-- The number of constructors of a term. -/
def size : Term → Nat
  | .close _ | .send .. | .lab .. | .fwd .. | .acquire _ | .detach _ => 1
  | .wait _ cont | .recv _ _ cont | .call _ _ _ cont | .spawn _ _ _ _ cont | .accept _ cont
  | .release _ cont => cont.size + 1
  | .case _ conts => sizeOfBranches conts + 1

/-- The number of constructors of the branches of a case. -/
def sizeOfBranches : List (Sym × Term) → Nat
  | [] => 0
  | (_, cont) :: rest => cont.size + sizeOfBranches rest

end

theorem size_pos (t : Term) : 0 < t.size := by
  cases t <;> rw [size] <;> exact Nat.succ_pos _

theorem size_le_sizeOfBranches {label : Sym} {cont : Term} {conts : List (Sym × Term)}
    (h : Table.find? label conts = some cont) : cont.size ≤ sizeOfBranches conts := by
  induction conts with
  | nil => cases h
  | cons entry rest ih =>
    obtain ⟨label', cont'⟩ := entry
    rw [Table.find?] at h
    rw [sizeOfBranches]
    split at h
    · cases h
      exact Nat.le_add_right _ _
    · exact Nat.le_trans (ih h) (Nat.le_add_left _ _)

end Term

/-- The number of constructors of the terms that a handler keeps. -/
def Handler.size : Handler → Nat
  | .wait cont | .recv _ cont | .accept cont | .release cont => cont.size
  | .case conts => Term.sizeOfBranches conts

/-- The number of constructors of the terms that a half keeps. -/
def Half.size : Half → Nat
  | .service svc => svc.handler.size
  | .message _ | .forward _ => 0

@[simp] theorem Half.size_movedTo (z : Id) (half : Half) : (half.movedTo z).size = half.size := by
  cases half <;> rfl

/-- The number of constructors of all terms that pending services keep. -/
def Store.pendingSize (s : Store) : Nat := s.halves.weigh Half.size

/-- The number of constructors of the term to go on with, if there is one. -/
def StepSpec.sizeOf? (next : Option StepSpec) : Nat := next.elim 0 fun spec => spec.term.size

/-! ## Steps -/

theorem Service.size_le_of_reply {svc : Service} {payload : Payload} {term : Term}
    (h : svc.reply payload = some term) : term.size ≤ svc.handler.size := by
  unfold reply at h
  cases hh : svc.handler <;> rw [hh] at h <;> cases payload
  case wait.close | accept.acquire | release.detach =>
    cases h
    exact Nat.le_refl _
  case recv.send value next =>
    dsimp only at h
    split at h
    · cases h
    · cases h
      exact Nat.le_refl _
  case case.lab label next => exact Term.size_le_sizeOfBranches h
  all_goals cases h

theorem Term.size_handler {term : Term} {handler : Handler} (h : term.handler? = some handler) :
    handler.size < term.size := by
  cases term <;> cases h <;> exact Nat.lt_succ_self _

/-- Where a half lands, the term that goes on comes out of a service. -/
theorem size_joins_le {z : Id} {half : Half} {pending : Option Half} {j : Joined}
    (hj : Joins z half pending j) (halves : Table Id Half)
    (hp : ∀ half', pending = some half' → halves.get? z = some half') :
    StepSpec.sizeOf? j.next + (j.slots.foldl Store.applySlot halves).weigh Half.size ≤
      halves.weigh Half.size + half.size := by
  cases hj with
  | wait =>
    have hput := halves.weigh_insert_le (f := Half.size) (half.movedTo z).channel (half.movedTo z)
    rw [Half.size_movedTo] at hput
    exact Nat.le_trans (Nat.le_of_eq (Nat.zero_add _)) hput
  | @serve msg svc term h =>
    have hterm := Service.size_le_of_reply h
    have htake := halves.weigh_erase (f := Half.size) z
    rw [hp _ rfl] at htake
    have htake' : (halves.erase z).weigh Half.size + svc.handler.size = halves.weigh Half.size :=
      htake
    show term.size + (halves.erase z).weigh _ ≤ _ + 0
    omega
  | @fetch msg svc term h =>
    have hterm := Service.size_le_of_reply h
    have htake := halves.weigh_erase_le (f := Half.size) z
    show term.size + (halves.erase z).weigh _ ≤ _ + svc.handler.size
    omega

/-- What a term offers is smaller than the term. -/
theorem size_offers_lt {env : Env} {cfg : Configuration} {fresh : Fresh} {term : Term}
    {ep : Endpoint} {own : List Mark} {half : Half} (ho : Offers env cfg fresh term ep own half) :
    half.size < term.size := by
  cases ho with
  | consume hh => exact Term.size_handler hh
  | _ => exact Term.size_pos _

/-- A move leaves less to do. -/
theorem size_moves_lt {s : Store} {env : Env} {cfg : Configuration} {fresh : Fresh} {term : Term}
    {pl : Plan} (hs : s.Sights cfg) (h : Moves env cfg fresh term pl) :
    StepSpec.sizeOf? pl.next + (pl.slots.foldl Store.applySlot s.halves).weigh Half.size <
      term.size + s.pendingSize := by
  unfold Store.pendingSize
  cases h with
  | @offer _ ep own half l j ho hl hj =>
    obtain ⟨hleads, hhalf⟩ := Configuration.landing?_eq_some_iff.1 hl
    have hoffer := size_offers_lt ho
    obtain ⟨htakes, hstay⟩ := weigh_takes_le Half.size l s.halves
    have hjoin := size_joins_le hj (l.takes.foldl Store.applySlot s.halves) fun half' hhalf' => by
      rw [hstay _ hleads.notMem]
      exact hs.halves (hhalf ▸ hhalf')
    rw [List.foldl_append]
    dsimp only
    omega
  | @relay via target x y l hx hy hl hnone =>
    obtain ⟨htakes, -⟩ := weigh_takes_le Half.size l s.halves
    have hput := (l.takes.foldl Store.applySlot s.halves).weigh_insert_le (f := Half.size)
      y.channel (.forward ⟨y.channel, cfg.pool, cfg.process, l.channel⟩)
    rw [List.foldl_append]
    exact Nat.lt_of_le_of_lt (Nat.le_of_eq (Nat.zero_add _))
      (Nat.lt_of_le_of_lt (Nat.le_trans hput htakes) (Nat.lt_add_of_pos_left (Term.size_pos _)))
  | @redirect via target x y l left id node j hx hy hl hleft hnode hown hj =>
    obtain ⟨hleads, hhalf⟩ := Configuration.landing?_eq_some_iff.1 hl
    obtain ⟨htakes, hstay⟩ := weigh_takes_le Half.size l s.halves
    set halves := l.takes.foldl Store.applySlot s.halves
    have hne : l.channel ≠ y.channel := Joins.channel_ne (hhalf ▸ hj) hleft
    have htake := halves.weigh_erase (f := Half.size) y.channel
    rw [hstay _ (hleads.notMem_of_ownDirection hleft hown), hs.halves hleft,
      Option.elim_some] at htake
    have hjoin := size_joins_le hj (halves.erase y.channel) fun half' hhalf' => by
      rw [Table.get?_erase, if_neg hne, hstay _ hleads.notMem]
      exact hs.halves (hhalf ▸ hhalf')
    have hpos := Term.size_pos (.fwd via target)
    rw [List.foldl_append, List.foldl_cons]
    change StepSpec.sizeOf? j.next +
      (j.slots.foldl Store.applySlot (halves.erase y.channel)).weigh _ < _
    omega
  | call => exact Nat.add_lt_add_right (Nat.lt_succ_self _) _
  | spawn => exact Nat.add_lt_add_right (Nat.lt_succ_self _) _

namespace Engine

variable {e e₁ : Engine} {spec last : StepSpec} {n : Nat}

/-- A step leaves less to do. -/
theorem size_step_lt {next : Option StepSpec} (h : Request.step .none spec e = .ok next e₁) :
    StepSpec.sizeOf? next + e₁.store.pendingSize < spec.term.size + e.store.pendingSize := by
  obtain ⟨m, hd, hc, -⟩ := step_eq_ok h
  obtain ⟨read, cfg, env, ctx, hread, -, -, haim, -, -, htrans⟩ := Store.deriveStep_eq_ok_iff.1 hd
  obtain ⟨pl, hmoves, rfl, hdraft⟩ := transition_eq_ok_iff.1 htrans
  have hsights := ((Store.sights_configuration hread).1.aim haim).1
  have hfills := (Plan.drafts_of_draft? hdraft).toFills
  obtain ⟨-, -, -, hs⟩ := Store.commit_eq_ok_iff.1 hc
  have hhalves : e₁.store.pendingSize =
      (pl.slots.foldl Store.applySlot e.store.halves).weigh Half.size := by
    rw [Store.pendingSize, hs, Store.halves_apply, hfills.slots]
  rw [hhalves]
  exact size_moves_lt hsights hmoves

/-- Each step of a chain uses up one constructor at least. -/
theorem Leads.size_le (h : e.Leads spec n e₁ last) :
    n + (last.term.size + e₁.store.pendingSize) ≤ spec.term.size + e.store.pendingSize := by
  induction h with
  | refl => exact Nat.le_of_eq (Nat.zero_add _)
  | step hs _ ih =>
    have hlt := size_step_lt hs
    rw [StepSpec.sizeOf?, Option.elim_some] at hlt
    omega

/-- **Every chain of steps ends by itself.** It commits no more steps than there are constructors in
its term and in the terms that pending services keep; with a limit that large, it is never stopped
by the limit. -/
theorem take_bounded (e : Engine) (spec : StepSpec) :
    let r := Request.take (fun _ => .none) spec e
    let bound := spec.term.size + e.store.pendingSize
    (∃ changes, (resulting r).journal = e.journal ++ changes ∧ changes.length ≤ bound) ∧
      (bound ≤ e.settings.maxSteps → ∀ err e', r = .error err e' →
        ∀ limit, err.cause ≠ .stepLimit limit) := by
  intro r bound
  have hends : Ends e.settings.maxSteps 0 e.settings.maxSteps e spec r :=
    ends_takeFrom e.settings.maxSteps 0 e.settings.maxSteps e spec
  generalize r = r at hends
  constructor
  · obtain ⟨changes, hc, -, ⟨e₁, last, hl⟩ | ⟨j, e₁, last, e', hlength, hl, hs⟩⟩ := hends.journal
    · have hle := hl.size_le
      exact ⟨changes, hc, by omega⟩
    · have hle := hl.size_le
      have hlt := size_step_lt hs
      exact ⟨changes, hc, by omega⟩
  · rintro hbound err e' hr limit hcause
    cases hends with
    | waits => cases hr
    | fails hl hj hs =>
      cases hr
      have hplain := Request.ofChain_step hs
      rw [Request.cause_stopped, Error.cause_of_ofChain hplain] at hcause
      rw [hcause] at hplain
      cases hplain
    | @cut _ last hl =>
      have hle := hl.size_le
      have hpos := last.term.size_pos
      omega

/-- The call, the wait and the close have one constructor each, and nothing is pending: a limit of
three is enough. -/
theorem take_bounded_call :
    callStep.term.size + (founded.limited 3).store.pendingSize ≤ 3 ∧
      ∀ err e', Request.take (fun _ => .none) callStep (founded.limited 3) = .error err e' →
        ∀ limit, err.cause ≠ .stepLimit limit := by
  have hbound : callStep.term.size + (founded.limited 3).store.pendingSize ≤ 3 := by decide +kernel
  exact ⟨hbound, (take_bounded (founded.limited 3) callStep).2 hbound⟩

end Engine

end Rendezvous
