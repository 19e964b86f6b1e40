import Rendezvous.Proofs.Causes
import Rendezvous.Proofs.Whole

/-!
# What is loaded suffices

A term is checked, and its change is drafted, in an environment loaded for it. The outcome is that in
an environment with all that is declared, errors and their wording included, and no declaration is
missed on the way (`Engine.load_suffices`).

Two computations `Agree` if they come to the same and miss no declaration. Sequences of computations
agree if their parts do, so the proof goes through checks and drafts part by part. A check is left
with types of the part only, as long as its context started with such types (`Context.Over`): what it
binds are children of nodes, and roots of names, that it has read. A draft reads types of channels
alone.
-/

namespace Rendezvous

/-! ## Checks that agree -/

/-- The types of a context are of a kind. -/
def Context.Over (T : Id → Prop) (Γ : Context) : Prop :=
  ∀ side ph type, Γ.bound? side ph = some type → T type

namespace Checking

variable {α β : Type} {T : Id → Prop}

/-- Two checks that come to the same in contexts over `T`: they miss no declaration, and what they
return satisfies `Q`. -/
structure Agree (T : Id → Prop) (Q : α → Prop) (x y : Checking α) : Prop where
  eq : ∀ {Γ}, Γ.Over T → x Γ = y Γ
  ok : ∀ {Γ a Δ}, Γ.Over T → x Γ = .ok a Δ → Δ.Over T ∧ Q a
  error : ∀ {Γ e Δ}, Γ.Over T → x Γ = .error e Δ → e.undeclared = false

namespace Agree

variable {Q : α → Prop} {R : β → Prop}

theorem pure {a : α} (ha : Q a) : Agree T Q (pure a) (pure a) :=
  ⟨fun _ => rfl, fun hΓ h => by cases h; exact ⟨hΓ, ha⟩, fun _ h => nomatch h⟩

theorem throw {e : Error} (h : e.undeclared = false) :
    Agree T Q (throw e : Checking α) (throw e) :=
  ⟨fun _ => rfl, fun _ h => (nomatch h), fun _ he => by cases he; exact h⟩

theorem bind {x y : Checking α} {f g : α → Checking β} (hx : Agree T Q x y)
    (hf : ∀ a, Q a → Agree T R (f a) (g a)) : Agree T R (x >>= f) (y >>= g) := by
  have hbind : ∀ (z : Checking α) (k : α → Checking β) (Γ : Context), (z >>= k) Γ =
      EStateM.bind z k Γ := fun _ _ _ => rfl
  refine ⟨fun {Γ} hΓ => ?_, fun {Γ b Δ} hΓ h => ?_, fun {Γ e Δ} hΓ h => ?_⟩
  · rw [hbind, hbind, EStateM.bind, EStateM.bind, ← hx.eq hΓ]
    cases hr : x Γ with
    | error e Γ' => rfl
    | ok a Γ' => exact (hf a (hx.ok hΓ hr).2).eq (hx.ok hΓ hr).1
  · obtain ⟨a, Γ', hr, h⟩ := estate_bind_eq_ok.1 h
    exact (hf a (hx.ok hΓ hr).2).ok (hx.ok hΓ hr).1 h
  · rw [hbind, EStateM.bind] at h
    cases hr : x Γ with
    | error err Γ' =>
      rw [hr] at h
      cases h
      exact hx.error hΓ hr
    | ok a Γ' =>
      rw [hr] at h
      exact (hf a (hx.ok hΓ hr).2).error (hx.ok hΓ hr).1 h

theorem get : Agree T (Context.Over T) get get :=
  ⟨fun _ => rfl, fun hΓ h => by cases h; exact ⟨hΓ, hΓ⟩, fun _ h => nomatch h⟩

theorem set {Γ : Context} (hΓ : Γ.Over T) : Agree T (fun _ => True) (set Γ) (set Γ) :=
  ⟨fun _ => rfl, fun _ h => by cases h; exact ⟨hΓ, trivial⟩, fun _ h => nomatch h⟩

theorem ofExcept {x y : Except Error α} (heq : x = y) (hx : Finds x)
    (hQ : ∀ a, x = .ok a → Q a) : Agree T Q (ofExcept x) (ofExcept y) := by
  subst heq
  cases x with
  | error e => exact throw (hx e rfl)
  | ok a => exact pure (hQ a rfl)

end Agree

end Checking

namespace Context

open Checking (Agree)
open Checking.Agree (pure throw bind get set ofExcept)

variable {T : Id → Prop} {Γ : Context}

theorem Over.without (h : Γ.Over T) (side : Side) (ph : Sym) : (Γ.without side ph).Over T := by
  intro side' ph' type hb
  refine h side' ph' type ?_
  cases side <;> cases side' <;> simp only [Context.without, bound?, Table.get?_erase] at hb ⊢ <;>
    grind

theorem over_ofChannels {pool : Id} {channels : Table Sym Endpoint}
    (h : ∀ ep ∈ channels.values, T ep.type) : (ofChannels pool channels).Over T := by
  intro side ph type hb
  obtain ⟨ep, hep, -, rfl⟩ := channel_of_bound? hb
  exact h ep (Table.mem_values_of_get?_eq_some hep)

/-! ### Checks without an environment -/

/-- What is bound is of the kind. -/
theorem Over.bind (h : Γ.Over T) (side : Side) {ph : Sym} {type : Id} (ht : T type) :
    Over T (match side with
      | .provider => { Γ with liabilities := Γ.liabilities.insert ph type }
      | .client => { Γ with assets := Γ.assets.insert ph type }) := by
  intro side' ph' type' hb
  have hold := h side' ph' type'
  cases side <;> cases side' <;> simp only [bound?, Table.get?_insert] at hb hold <;> grind

theorem agree_takeAsset (ph : Sym) : Agree T T (takeAsset ph) (takeAsset ph) :=
  bind get fun Γ hΓ => by
    split
    · next type hb => exact bind (set (hΓ.without .client ph)) fun _ _ => pure (hΓ .client ph type hb)
    · exact throw rfl

theorem agree_take (side : Side) (ph : Sym) : Agree T T (take side ph) (take side ph) := by
  cases side with
  | client => exact agree_takeAsset ph
  | provider =>
    refine bind get fun Γ hΓ => ?_
    split
    · next type hb =>
      exact bind (set (hΓ.without .provider ph)) fun _ _ => pure (hΓ .provider ph type hb)
    · exact throw rfl

theorem agree_put (side : Side) (ph : Sym) {type : Id} (ht : T type) :
    Agree T (fun _ => True) (put side ph type) (put side ph type) :=
  bind get fun Γ hΓ => by
    split
    · exact throw rfl
    · exact set (hΓ.bind .provider ht)
    · exact set (hΓ.bind .client ht)

theorem agree_finish : Agree T (fun _ => True) finish finish :=
  bind get fun Γ _ => by
    split
    · exact pure trivial
    · exact throw rfl

theorem agree_actingSide (asked : Option Side) (via : Sym) :
    Agree T (fun _ => True) (actingSide asked via) (actingSide asked via) :=
  bind get fun Γ _ => by
    split
    · exact pure trivial
    · exact pure trivial
    · exact throw rfl

theorem agree_misfit (op : Operation) (side : Side) (node : TypeNode) :
    Agree T (fun _ => True) (misfit op side node : Checking Unit) (misfit op side node) :=
  throw rfl

theorem agree_pick (side : Side) (via label : Sym) {choices : Table Sym Id}
    (h : ∀ c ∈ choices.values, T c) :
    Agree T (fun _ => True) (pick side via label choices) (pick side via label choices) := by
  unfold pick
  split
  · next cont hcont => exact agree_put _ _ (h _ (Table.mem_values_of_get?_eq_some hcont))
  · exact throw rfl

theorem agree_matchLabels (choices : Table Sym Id) (labels : List Sym) :
    Agree T (fun _ => True) (matchLabels choices labels) (matchLabels choices labels) := by
  unfold matchLabels
  dsimp only
  split
  · exact pure trivial
  · exact throw rfl

theorem agree_onCopy {c c' : Checking Unit} (hc : Agree T (fun _ => True) c c') :
    Agree T (fun _ => True) (onCopy c) (onCopy c') := by
  refine bind get fun Γ hΓ => ?_
  have hrun : c'.run Γ = c.run Γ := (hc.eq hΓ).symm
  rw [hrun]
  split
  · exact pure trivial
  · next e Δ h => exact throw (hc.error hΓ h)

/-! ### Checks in a part and in the whole -/

section

variable {env whole : Env} (h : env.PartOf whole)

include h

theorem agree_enter (asked : Option Side) (via : Sym) :
    Agree (· ∈ env.types.keys)
      (fun p => p.2.1 ∈ env.types.keys ∧ ∀ c ∈ p.2.2.children, c ∈ env.types.keys)
      (enter env asked via) (enter whole asked via) :=
  bind (agree_actingSide asked via) fun side _ => bind (agree_take side via) fun _ ht =>
    bind (ofExcept (h.resolve_eq ht).1 (h.resolve_eq ht).2 fun _ hp => h.children_of_resolve hp)
      fun _ hc => pure ⟨ht, hc⟩

theorem agree_demand {want got : Id} (hwant : want ∈ env.types.keys)
    (hgot : got ∈ env.types.keys) :
    Agree (· ∈ env.types.keys) (fun _ => True) (demand env want got) (demand whole want got) := by
  obtain ⟨heq, hfinds⟩ := h.eqType_eq hwant hgot
  refine bind (ofExcept heq hfinds fun _ _ => trivial) fun same _ => ?_
  rw [h.typeText_eq hwant, h.typeText_eq hgot]
  split
  · exact pure trivial
  · exact throw rfl

theorem agree_giveValue (value : Sym) {want : Id} (hwant : want ∈ env.types.keys) :
    Agree (· ∈ env.types.keys) (fun _ => True) (giveValue env value want)
      (giveValue whole value want) :=
  bind (agree_takeAsset value) fun _ hgot => agree_demand h hwant hgot

/-- Reading the root of a name that the part has. -/
theorem agree_rootOf {name : QualName} (hname : name ∈ env.names.keys) :
    Agree (· ∈ env.types.keys) (· ∈ env.types.keys) (Checking.ofExcept (env.rootOf name))
      (Checking.ofExcept (whole.rootOf name)) :=
  ofExcept (h.rootOf_eq hname).1 (h.rootOf_eq hname).2.1 fun _ => (h.rootOf_eq hname).2.2

theorem agree_giveValues {pairs : List (Sym × Parameter)}
    (hpairs : ∀ p ∈ pairs, p.2.type ∈ env.names.keys) :
    Agree (· ∈ env.types.keys) (fun _ => True) (giveValues env pairs) (giveValues whole pairs) := by
  induction pairs with
  | nil => exact pure trivial
  | cons pair rest ih =>
    obtain ⟨hpair, hrest⟩ := List.forall_mem_cons.1 hpairs
    exact bind (agree_rootOf h hpair) fun _ hwant => bind (agree_giveValue h _ hwant) fun _ _ =>
      ih hrest

theorem agree_joinWith {want : Id} (hwant : want ∈ env.types.keys) (target : Sym) :
    Agree (· ∈ env.types.keys) (fun _ => True) (joinWith env want target)
      (joinWith whole want target) :=
  bind get fun Γ _ => by
    have hrest := bind (agree_takeAsset target) fun _ hgot =>
      bind agree_finish fun _ _ => agree_demand h hwant hgot
    dsimp only
    split
    · exact bind (throw rfl) fun (_ : PUnit) (_ : True) => hrest
    · exact hrest

theorem agree_instantiate (via : Sym) {sigId : Id} (hsig : sigId ∈ env.sigs.keys)
    (values : List Sym) :
    Agree (· ∈ env.types.keys) (fun _ => True) (instantiate env via sigId values)
      (instantiate whole via sigId values) := by
  obtain ⟨sig, hsig, hwhole, hparams⟩ := h.exists_sig hsig
  unfold instantiate
  rw [hsig, hwhole]
  refine bind (pure (Q := fun found => found = sig) rfl) fun found hfound => ?_
  subst hfound
  have hgiven : ∀ p ∈ values.zip found.receptions, p.2.type ∈ env.names.keys := fun p hp =>
    hparams _ (List.mem_cons_of_mem _ (List.of_mem_zip hp).2)
  have hrest := bind (agree_giveValues h hgiven) fun _ _ =>
    bind (agree_rootOf h (hparams _ List.mem_cons_self)) fun _ ht => agree_put .client via ht
  split
  · exact bind (throw rfl) fun (_ : PUnit) (_ : True) => hrest
  · exact hrest

end

mutual

/-- A term is checked the same, if its signatures are in the part. -/
theorem agree_checkAs {env whole : Env} (h : env.PartOf whole) :
    ∀ (term : Term) (asked : Option Side),
    (∀ id ∈ term.mentions, id ∈ env.sigs.keys) →
    Agree (· ∈ env.types.keys) (fun _ => True) (checkAs env term asked) (checkAs whole term asked)
  | .close via, asked, _ => by
    rw [checkAs, checkAs]
    refine bind (agree_enter h asked via) ?_
    rintro ⟨side, type, node⟩ ⟨ht, hc⟩
    cases side <;> cases node
    case provider.one => exact agree_finish
    all_goals exact agree_misfit _ _ _
  | .wait via cont, asked, hs => by
    rw [checkAs, checkAs]
    refine bind (agree_enter h asked via) ?_
    rintro ⟨side, type, node⟩ ⟨ht, hc⟩
    cases side <;> cases node
    case client.one => exact agree_checkAs h cont none hs
    all_goals exact agree_misfit _ _ _
  | .send via value, asked, _ => by
    rw [checkAs, checkAs]
    refine bind (agree_enter h asked via) ?_
    rintro ⟨side, type, node⟩ ⟨ht, hc⟩
    cases side <;> cases node
    case provider.tensor want next | client.lolli want next =>
      have hwant := hc want List.mem_cons_self
      have hnext := hc next (List.mem_cons_of_mem _ List.mem_cons_self)
      exact bind (agree_giveValue h value hwant) fun _ _ => agree_put _ via hnext
    all_goals exact agree_misfit _ _ _
  | .recv via value cont, asked, hs => by
    rw [checkAs, checkAs]
    refine bind (agree_enter h asked via) ?_
    rintro ⟨side, type, node⟩ ⟨ht, hc⟩
    cases side <;> cases node
    case provider.lolli got next | client.tensor got next =>
      have hgot := hc got List.mem_cons_self
      have hnext := hc next (List.mem_cons_of_mem _ List.mem_cons_self)
      exact bind (agree_put _ via hnext) fun _ _ => bind (agree_put _ value hgot) fun _ _ =>
        agree_checkAs h cont none hs
    all_goals exact agree_misfit _ _ _
  | .lab via label, asked, _ => by
    rw [checkAs, checkAs]
    refine bind (agree_enter h asked via) ?_
    rintro ⟨side, type, node⟩ ⟨ht, hc⟩
    cases side <;> cases node
    case provider.plus choices | client.with choices => exact agree_pick _ via label hc
    all_goals exact agree_misfit _ _ _
  | .case via conts, asked, hs => by
    rw [checkAs, checkAs]
    refine bind (agree_enter h asked via) ?_
    rintro ⟨side, type, node⟩ ⟨ht, hc⟩
    cases side <;> cases node
    case provider.with choices | client.plus choices =>
      exact bind (agree_matchLabels choices _) fun _ _ => agree_checkBranches h _ via hc conts hs
    all_goals exact agree_misfit _ _ _
  | .fwd via target, asked, _ => by
    rw [checkAs, checkAs]
    refine bind (agree_enter h asked via) ?_
    rintro ⟨side, type, node⟩ ⟨ht, hc⟩
    cases side with
    | provider => exact agree_joinWith h ht target
    | client => exact agree_misfit _ _ _
  | .call via sig values cont, none, hs => by
    obtain ⟨hsig, hcont⟩ := List.forall_mem_cons.1 hs
    rw [checkAs, checkAs]
    exact bind (agree_instantiate h via hsig values) fun _ _ => agree_checkAs h cont none hcont
  | .call via sig values cont, some side, _ => by
    rw [checkAs, checkAs]
    exact bind (agree_enter h _ via) fun _ _ => agree_misfit _ _ _
  | .spawn via sig values pool cont, none, hs => by
    obtain ⟨hsig, hcont⟩ := List.forall_mem_cons.1 hs
    rw [checkAs, checkAs]
    exact bind (agree_instantiate h via hsig values) fun _ _ => agree_checkAs h cont none hcont
  | .spawn via sig values pool cont, some side, _ => by
    rw [checkAs, checkAs]
    exact bind (agree_enter h _ via) fun _ _ => agree_misfit _ _ _
  | .acquire via, asked, _ => by
    rw [checkAs, checkAs]
    refine bind (agree_enter h asked via) ?_
    rintro ⟨side, type, node⟩ ⟨ht, hc⟩
    cases side <;> cases node
    case client.up next => exact agree_put _ via (hc next List.mem_cons_self)
    all_goals exact agree_misfit _ _ _
  | .accept via cont, asked, hs => by
    rw [checkAs, checkAs]
    refine bind (agree_enter h asked via) ?_
    rintro ⟨side, type, node⟩ ⟨ht, hc⟩
    cases side <;> cases node
    case provider.up next =>
      exact bind (agree_put _ via (hc next List.mem_cons_self)) fun _ _ =>
        agree_checkAs h cont none hs
    all_goals exact agree_misfit _ _ _
  | .detach via, asked, _ => by
    rw [checkAs, checkAs]
    refine bind (agree_enter h asked via) ?_
    rintro ⟨side, type, node⟩ ⟨ht, hc⟩
    cases side <;> cases node
    case provider.down next => exact agree_put _ via (hc next List.mem_cons_self)
    all_goals exact agree_misfit _ _ _
  | .release via cont, asked, hs => by
    rw [checkAs, checkAs]
    refine bind (agree_enter h asked via) ?_
    rintro ⟨side, type, node⟩ ⟨ht, hc⟩
    cases side <;> cases node
    case client.down next =>
      exact bind (agree_put _ via (hc next List.mem_cons_self)) fun _ _ =>
        agree_checkAs h cont none hs
    all_goals exact agree_misfit _ _ _

theorem agree_checkBranches {env whole : Env} (h : env.PartOf whole) (side : Side) (via : Sym)
    {choices : Table Sym Id} (hc : ∀ c ∈ choices.values, c ∈ env.types.keys) :
    ∀ conts : List (Sym × Term), (∀ id ∈ Term.mentionsOfBranches conts, id ∈ env.sigs.keys) →
      Agree (· ∈ env.types.keys) (fun _ => True) (checkBranches env side via choices conts)
        (checkBranches whole side via choices conts)
  | [], _ => by
    rw [checkBranches, checkBranches]
    exact pure trivial
  | (label, cont) :: rest, hs => by
    rw [checkBranches, checkBranches]
    obtain ⟨hcont, hrest⟩ := List.forall_mem_append.1 hs
    exact bind (agree_onCopy (bind (agree_pick side via label hc) fun _ _ =>
      agree_checkAs h cont none hcont)) fun _ _ => agree_checkBranches h side via hc rest hrest

end

end Context

/-- A term is checked the same, if the types of all channels and its signatures are in the part. -/
theorem Env.PartOf.checkStep_eq {env whole : Env} (h : env.PartOf whole) {cfg : Configuration}
    {term : Term} (htypes : ∀ ep ∈ cfg.channels.values, ep.type ∈ env.types.keys)
    (hsigs : ∀ id ∈ term.mentions, id ∈ env.sigs.keys) (pool : Id) :
    checkStep pool env cfg term = checkStep pool whole cfg term ∧
      Finds (checkStep pool env cfg term) := by
  have hagree := Context.agree_checkAs h term none hsigs
  have hover : (Context.ofChannels pool cfg.channels).Over (· ∈ env.types.keys) :=
    Context.over_ofChannels htypes
  have hrun : (Context.check env term).run (.ofChannels pool cfg.channels) =
      (Context.check whole term).run (.ofChannels pool cfg.channels) := hagree.eq hover
  refine ⟨by rw [checkStep, checkStep, hrun], ?_⟩
  unfold checkStep
  split
  · exact .ok _
  · next e Δ he => exact .error (hagree.error hover he)

/-! ## Drafts that agree -/

namespace Drafting

variable {α β : Type}

/-- Two drafts that come to the same whatever has been drafted before, and miss no declaration. -/
def Agree (x y : Drafting α) : Prop := ∀ d, x d = y d ∧ Finds (x d)

namespace Agree

theorem pure (a : α) : Agree (pure a) (pure a) := fun d => ⟨rfl, .ok (a, d)⟩

theorem throw {e : Error} (h : e.undeclared = false) :
    Agree (throw e : Drafting α) (throw e) :=
  fun _ => ⟨rfl, .error h⟩

theorem bind {x y : Drafting α} {f g : α → Drafting β} (hx : Agree x y)
    (hf : ∀ a, Agree (f a) (g a)) : Agree (x >>= f) (y >>= g) := by
  intro d
  show (x d >>= fun p => f p.1 p.2) = (y d >>= fun p => g p.1 p.2) ∧
    Finds (x d >>= fun p => f p.1 p.2)
  obtain ⟨heq, hfinds⟩ := hx d
  rw [← heq]
  cases hr : x d with
  | error e => exact ⟨rfl, .error (hfinds e hr)⟩
  | ok p => exact hf p.1 p.2

theorem modify (f : Change → Change) : Agree (modify f) (modify f) :=
  fun d => ⟨rfl, .ok ((), f d)⟩

theorem get : Agree get get := fun d => ⟨rfl, .ok (d, d)⟩

theorem set (d : Change) : Agree (set d) (set d) := fun _ => ⟨rfl, .ok ((), d)⟩

theorem lift {x y : Except Error α} (heq : x = y) (hx : Finds x) : Agree (liftM x) (liftM y) := by
  subst heq
  intro d
  refine ⟨rfl, ?_⟩
  cases x with
  | error e => exact .error (hx e rfl)
  | ok a => exact .ok (a, d)

/-- Both read the same, and go on with it. -/
theorem read {x y : Except Error α} {a : α} {f g : α → Drafting β} (hx : x = .ok a)
    (hy : y = .ok a) (hf : Agree (f a) (g a)) : Agree (liftM x >>= f) (liftM y >>= g) := by
  subst hx hy
  exact hf

end Agree

open Agree (pure throw bind get set modify lift read)

/-! ### Drafts without an environment -/

/-- A draft that misses no declaration. -/
abbrev Sure (x : Drafting α) : Prop := Agree x x

variable (cfg : Configuration) (fresh : Fresh)

theorem sure_stamp (pool : Id) : Sure (stamp cfg pool) :=
  bind get fun draft => by
    split
    · exact pure _
    · exact bind (set _) fun _ => pure _
    · exact throw rfl

theorem sure_introduceFor (process pool : Id) (ph : Sym) (ep : Endpoint) :
    Sure (introduceFor cfg process pool ph ep) :=
  bind (sure_stamp cfg pool) fun _ => modify _

theorem sure_discardFor (process pool : Id) (ph : Sym) (ep : Endpoint) :
    Sure (discardFor cfg process pool ph ep) :=
  bind (sure_stamp cfg pool) fun _ => modify _

theorem sure_slot (op : SlotOp) : Sure (slot op) := modify _

/-- The channels that a draft reads are those of the process. -/
theorem agree_endpoint_bind {ph : Sym} {f g : Endpoint → Drafting β}
    (h : ∀ ep ∈ cfg.channels.values, Agree (f ep) (g ep)) :
    Agree (endpoint cfg ph >>= f) (endpoint cfg ph >>= g) := by
  unfold endpoint
  split
  · next ep hep => exact h ep (Table.mem_values_of_get?_eq_some hep)
  · exact throw rfl

theorem sure_advance (via : Sym) (ep : Endpoint) (type : Id) :
    Sure (advance cfg fresh via ep type) :=
  bind (sure_discardFor cfg _ _ via ep) fun _ =>
    bind (sure_introduceFor cfg _ _ via _) fun _ => pure _

theorem sure_land (channel : Id) : Sure (land cfg channel) := by
  unfold land
  split
  · exact bind (modify _) fun _ => pure _
  · exact throw rfl

theorem sure_proceed (svc : Service) (next : Endpoint) : Sure (proceed cfg svc next) := by
  refine bind ?_ fun home => sure_introduceFor cfg _ _ _ home
  unfold rehome
  dsimp only
  split
  · exact bind (modify _) fun _ => pure _
  · exact pure _

theorem sure_complete (payload : Payload) (svc : Service) : Sure (complete cfg payload svc) := by
  refine bind (sure_discardFor cfg _ _ _ _) fun _ => ?_
  have hrest : ∀ next cont, Sure (do
      proceed cfg svc next
      return (⟨svc.pool, svc.process, cont⟩ : StepSpec)) :=
    fun next cont => bind (sure_proceed cfg svc next) fun _ => pure _
  split
  · exact pure _
  · next value next ph cont _ =>
    have hreceive : Sure (do
        proceed cfg svc next
        introduceFor cfg svc.process svc.pool ph value
        return (⟨svc.pool, svc.process, cont⟩ : StepSpec)) :=
      bind (sure_proceed cfg svc next) fun _ =>
        bind (sure_introduceFor cfg _ _ ph value) fun _ => pure _
    split
    · exact bind (throw rfl) fun _ => hreceive
    · exact hreceive
  · split
    · exact hrest _ _
    · exact throw rfl
  · exact hrest _ _
  · exact hrest _ _
  · exact throw rfl

/-- What is taken off a channel is handed over. -/
theorem sure_serve (channel : Id) (payload : Payload) (svc : Service) :
    Sure (do
      slot (.take channel)
      some <$> complete cfg payload svc) :=
  bind (sure_slot _) fun _ => by
    rw [← bind_pure_comp]
    exact bind (sure_complete cfg payload svc) fun _ => pure _

theorem sure_produce (ep : Endpoint) (payload : Payload) : Sure (produce cfg ep payload) :=
  bind (sure_land cfg ep.channel) fun r => by
    split
    · exact bind (sure_slot _) fun _ => pure _
    · exact sure_serve cfg _ _ _
    · exact throw rfl

theorem sure_consume (via : Sym) (handler : Handler) : Sure (consume cfg via handler) :=
  agree_endpoint_bind cfg fun ep _ => bind (sure_land cfg ep.channel) fun r => by
    split
    · exact bind (sure_slot _) fun _ => pure _
    · exact sure_serve cfg _ _ _
    · exact throw rfl

theorem sure_join (channel : Id) (left : Half) (pending : Option Half) :
    Sure (join cfg channel left pending) := by
  unfold join
  split
  · exact bind (sure_slot _) fun _ => pure _
  · exact sure_serve cfg _ _ _
  · exact sure_serve cfg _ _ _
  · exact throw rfl
  · exact throw rfl

theorem sure_passOn (process pool : Id) (pairs : List (Sym × Parameter)) :
    Sure (passOn cfg process pool pairs) := by
  induction pairs with
  | nil => exact pure _
  | cons pair rest ih =>
    refine agree_endpoint_bind cfg fun ep _ => ?_
    have hrest := bind (sure_discardFor cfg cfg.process cfg.pool pair.1 ep) fun _ =>
      bind (sure_introduceFor cfg process pool pair.2.placeholder ep) fun _ => ih
    split
    · exact bind (throw rfl) fun _ => hrest
    · exact hrest

theorem sure_enlist (member : Member) : Sure (enlist cfg member) :=
  bind (modify _) fun _ => bind (sure_stamp cfg _) fun _ => modify _

theorem sure_endow (via : Sym) (sig : Signature) (provision : Endpoint) (values : List Sym)
    (cont : Term) : Sure (endow cfg fresh via sig provision values cont) :=
  bind (sure_introduceFor cfg _ _ _ _) fun _ => bind (sure_passOn cfg _ _ _) fun _ =>
    bind (sure_introduceFor cfg _ _ _ _) fun _ => pure _

/-- What a term does that passes its channel on, once the type of the continuation is known. -/
theorem sure_pass (via : Sym) (ep : Endpoint) (payload : Endpoint → Payload) (type : Id) :
    Sure (advance cfg fresh via ep type >>= fun next => produce cfg ep (payload next)) :=
  bind (sure_advance cfg fresh via ep type) fun _ => sure_produce cfg ep _

/-! ### Drafts in a part and in the whole -/

section

variable {env whole : Env} (h : env.PartOf whole) {cfg : Configuration}
  (htypes : ∀ ep ∈ cfg.channels.values, ep.type ∈ env.types.keys)

include h

theorem agree_nodeOf {ep : Endpoint} (hep : ep.type ∈ env.types.keys) :
    Agree (nodeOf env ep) (nodeOf whole ep) :=
  bind (lift (h.resolve_eq hep).1 (h.resolve_eq hep).2) fun _ => pure _

theorem agree_spawn (via : Sym) {sigId : Id} (hsig : sigId ∈ env.sigs.keys) (values : List Sym)
    (pool : Id) (cont : Term) :
    Agree (spawn env cfg fresh via sigId values pool cont)
      (spawn whole cfg fresh via sigId values pool cont) := by
  obtain ⟨sig, hsig, hwhole, hparams⟩ := h.exists_sig hsig
  obtain ⟨heq, hfinds, -⟩ := h.rootOf_eq (hparams sig.provision List.mem_cons_self)
  rw [spawn_eq, spawn_eq]
  refine read hsig hwhole ?_
  split
  · refine bind (lift heq hfinds) fun type => ?_
    split
    · exact throw rfl
    · exact bind (sure_enlist cfg _) fun _ => sure_endow cfg fresh via _ _ values cont
  · exact throw rfl

include htypes

theorem agree_forward (via target : Sym) :
    Agree (forward env cfg via target) (forward whole cfg via target) := by
  rw [forward_eq, forward_eq]
  refine agree_endpoint_bind cfg fun x _ => agree_endpoint_bind cfg fun y hy =>
    bind (sure_discardFor cfg _ _ via x) fun _ => bind (sure_discardFor cfg _ _ target y) fun _ =>
      bind (sure_land cfg x.channel) fun r => ?_
  unfold redirect
  split
  · exact bind (sure_slot _) fun _ => pure _
  · refine bind (agree_nodeOf h (htypes y hy)) fun node => ?_
    split
    · exact bind (sure_slot _) fun _ => sure_join cfg _ _ _
    · exact throw rfl

theorem agree_act {term : Term} (hsigs : ∀ id ∈ term.mentions, id ∈ env.sigs.keys) :
    Agree (act env cfg fresh term) (act whole cfg fresh term) := by
  cases term with
  | close via =>
    exact agree_endpoint_bind cfg fun ep _ => bind (sure_discardFor cfg _ _ via ep) fun _ =>
      sure_produce cfg ep .close
  | send via value =>
    refine agree_endpoint_bind cfg fun ep hep => bind (agree_nodeOf h (htypes ep hep)) fun node => ?_
    have hrest : ∀ type, Sure (do
        let given ← endpoint cfg value
        discard cfg value given
        let next ← advance cfg fresh via ep type
        produce cfg ep (.send given next)) := fun type =>
      agree_endpoint_bind cfg fun given _ =>
        bind (sure_discardFor cfg _ _ value given) fun _ =>
        bind (sure_advance cfg fresh via ep type) fun next => sure_produce cfg ep _
    split
    · exact hrest _
    · exact hrest _
    · exact bind (throw rfl) hrest
  | lab via label =>
    refine agree_endpoint_bind cfg fun ep hep => bind (agree_nodeOf h (htypes ep hep)) fun node => ?_
    have hpass := sure_pass cfg fresh via ep (.lab label)
    split
    · split
      · exact hpass _
      · exact bind (throw rfl) hpass
    · split
      · exact hpass _
      · exact bind (throw rfl) hpass
    · exact bind (throw rfl) hpass
  | acquire via =>
    refine agree_endpoint_bind cfg fun ep hep => bind (agree_nodeOf h (htypes ep hep)) fun node => ?_
    have hpass := sure_pass cfg fresh via ep .acquire
    split
    · exact hpass _
    · exact bind (throw rfl) hpass
  | detach via =>
    refine agree_endpoint_bind cfg fun ep hep => bind (agree_nodeOf h (htypes ep hep)) fun node => ?_
    have hpass := sure_pass cfg fresh via ep .detach
    split
    · exact hpass _
    · exact bind (throw rfl) hpass
  | fwd via target => exact agree_forward h htypes via target
  | call via sig values cont =>
    obtain ⟨hsig, -⟩ := List.forall_mem_cons.1 hsigs
    exact bind (modify _) fun _ => agree_spawn fresh h via hsig values _ cont
  | spawn via sig values pool cont =>
    obtain ⟨hsig, -⟩ := List.forall_mem_cons.1 hsigs
    exact agree_spawn fresh h via hsig values pool cont
  | wait via cont | recv via value cont | case via conts | accept via cont | release via cont =>
    exact sure_consume cfg via _

end

end Drafting

/-- A term changes the same, if the types of all channels and its signatures are in the part. -/
theorem Env.PartOf.transition_eq {env whole : Env} (h : env.PartOf whole) {cfg : Configuration}
    {term : Term} (htypes : ∀ ep ∈ cfg.channels.values, ep.type ∈ env.types.keys)
    (hsigs : ∀ id ∈ term.mentions, id ∈ env.sigs.keys) (fresh : Fresh) :
    transition env cfg fresh term = transition whole cfg fresh term ∧
      Finds (transition env cfg fresh term) := by
  rw [Drafting.transition_eq, Drafting.transition_eq]
  exact Drafting.agree_act fresh h htypes hsigs _

/-! ## Loading for a step -/

namespace Engine

/-- What is loaded for a term suffices, after any calls. Loading comes to an end, and succeeds exactly
if the types of all channels and the signatures that the term refers to are on record. With what it
loads, the term is checked and changes the same as with all that is declared, errors included, and
no type, type node or signature is missed. -/
theorem load_suffices (settings : Settings) (ids : Supply) (calls : List Call)
    (cfg : Configuration) (term : Term) :
    let r := ((start settings ids).final calls).store.decls
    (∀ more, r.loadWithin (r.nodes.size + 1 + more) cfg term = some (r.load cfg term)) ∧
    ((∃ env, r.load cfg term = .ok env) ↔
      (∀ ep ∈ cfg.channels.values, ep.type ∈ r.nodes.keys) ∧
        ∀ id ∈ term.mentions, id ∈ r.sigs.keys) ∧
    ∀ env, r.load cfg term = .ok env →
      (∀ pool, checkStep pool env cfg term = checkStep pool r.whole cfg term ∧
        Finds (checkStep pool env cfg term)) ∧
      ∀ fresh, transition env cfg fresh term = transition r.whole cfg fresh term ∧
        Finds (transition env cfg fresh term) := by
  refine ⟨fun more => Registry.loadWithin_eq_some (by omega) cfg term,
    (complete_final settings ids calls).exists_load_iff, fun env henv => ?_⟩
  obtain ⟨hclosed, htypes, hsigs⟩ := Registry.closed_of_load henv
  have hpart := Env.partOf_whole hclosed (Registry.within_load henv)
  exact ⟨hpart.checkStep_eq htypes hsigs, hpart.transition_eq htypes hsigs⟩

/-! A gift of the wrong type is refused with both types written out. The types lie below the channels
by several nodes and an alias. -/

namespace Small

def offered : List Call := [
  .createType unit .one,
  .createType pair (.tensor (.plus [("l", .link unit), ("r", .up .one)]) (.link unit))]

/-- A process that owes a pair on `x` and holds a channel of type `unit` on `y`. -/
def donor : Configuration :=
  ⟨.nth 9, .nth 10, .initial,
    Table.ofList [("x", ⟨.nth 11, .nth 2, .nth 10⟩), ("y", ⟨.nth 12, .nth 4, .nth 13⟩)], ∅, ∅⟩

end Small

open Engine.Small in
theorem load_suffices_donor :
    let r := ((start {} ⟨0⟩).final offered).store.decls
    ∃ env, r.load donor (.send "x" "y") = .ok env ∧
      (checkStep donor.pool env donor (.send "x" "y")).mapError Error.message =
        .error (Error.typeMismatch "+\x7bl: unit, r: up 1\x7d" "unit").message ∧
      ∀ fresh, transition env donor fresh (.send "x" "y") =
        transition r.whole donor fresh (.send "x" "y") := by
  have htypes : ∀ ep ∈ donor.channels.values,
      ep.type ∈ ((start {} ⟨0⟩).final offered).store.decls.nodes.keys := by
    decide +kernel
  have hwhole : (checkStep donor.pool ((start {} ⟨0⟩).final offered).store.decls.whole donor
      (.send "x" "y")).mapError Error.message =
        .error (Error.typeMismatch "+\x7bl: unit, r: up 1\x7d" "unit").message := by
    decide +kernel
  obtain ⟨-, hload, hsame⟩ := load_suffices {} ⟨0⟩ offered donor (.send "x" "y")
  obtain ⟨env, henv⟩ := hload.2 ⟨htypes, nofun⟩
  obtain ⟨hchecks, hchanges⟩ := hsame env henv
  exact ⟨env, henv, by rw [(hchecks donor.pool).1, hwhole], fun fresh => (hchanges fresh).1⟩

end Engine

end Rendezvous
