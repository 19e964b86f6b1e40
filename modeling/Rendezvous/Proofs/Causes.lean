import Rendezvous.Proofs.Calls
import Rendezvous.Proofs.Moves

/-!
# What a step fails with

Two errors are about chains of steps: that one is too long, and that one has stopped on its way
(`Error.ofChain`). No single step fails with either, whatever the store and the term
(`Request.ofChain_step`). Every part of a step is `Plain` in this sense, which a sequence of parts is
if they are; so this goes from loading and checking to transitions and commits.
-/

namespace Rendezvous

/-- Whether an error is about a chain of steps. -/
def Error.ofChain : Error → Bool
  | .stepLimit _ | .interrupted .. => true
  | _ => false

section

variable {α β : Type}

/-- A computation that fails with no error about chains. -/
def Plain (x : Except Error α) : Prop := ∀ e, x = .error e → e.ofChain = false

namespace Plain

theorem ok (a : α) : Plain (.ok a) := fun _ h => nomatch h

theorem error {e : Error} (h : e.ofChain = false) : Plain (.error e : Except Error α) :=
  fun _ he => by cases he; exact h

theorem bind {x : Except Error α} {f : α → Except Error β} (hx : Plain x) (hf : ∀ a, Plain (f a)) :
    Plain (x >>= f) := by
  cases x with
  | error e => exact error (hx e rfl)
  | ok a => exact hf a

theorem foldlM {f : β → α → Except Error β} (hf : ∀ b a, Plain (f b a)) (l : List α) (b : β) :
    Plain (l.foldlM f b) := by
  induction l generalizing b with
  | nil => exact ok b
  | cons a l ih => exact bind (hf b a) ih

end Plain

/-- A draft that is plain whatever has been drafted before. -/
def Drafting.Plain (x : Drafting α) : Prop := ∀ d, Rendezvous.Plain (x d)

namespace Drafting.Plain

theorem pure (a : α) : Plain (pure a) := fun d => .ok (a, d)

theorem throw {e : Error} (h : e.ofChain = false) : Plain (throw e : Drafting α) :=
  fun _ => Rendezvous.Plain.error h

theorem bind {x : Drafting α} {f : α → Drafting β} (hx : Plain x) (hf : ∀ a, Plain (f a)) :
    Plain (x >>= f) :=
  fun d => Rendezvous.Plain.bind (hx d) fun r => hf r.1 r.2

theorem modify (f : Change → Change) : Plain (modify f) := fun d => .ok ((), f d)

theorem lift {x : Except Error α} (hx : Rendezvous.Plain x) : Plain (liftM x) :=
  fun d => Rendezvous.Plain.bind hx fun a => .ok (a, d)

end Drafting.Plain

/-- A check that is plain in every context. -/
def Checking.Plain (x : Checking α) : Prop :=
  ∀ Γ e Γ', x Γ = .error e Γ' → e.ofChain = false

namespace Checking.Plain

theorem pure (a : α) : Plain (pure a) := fun _ _ _ h => nomatch h

theorem throw {e : Error} (h : e.ofChain = false) : Plain (throw e : Checking α) :=
  fun _ _ _ he => by cases he; exact h

theorem bind {x : Checking α} {f : α → Checking β} (hx : Plain x) (hf : ∀ a, Plain (f a)) :
    Plain (x >>= f) := by
  intro Γ e Γ' h
  change EStateM.bind x f Γ = _ at h
  rw [EStateM.bind] at h
  cases hr : x Γ with
  | error err Δ =>
    rw [hr] at h
    cases h
    exact hx Γ e Γ' hr
  | ok a Δ =>
    rw [hr] at h
    exact hf a Δ e Γ' h

theorem get : Plain get := fun _ _ _ h => nomatch h

theorem set (Γ : Context) : Plain (set Γ) := fun _ _ _ h => nomatch h

theorem ofExcept {x : Except Error α} (hx : Rendezvous.Plain x) : Plain (ofExcept x) := by
  cases x with
  | error e => exact throw (hx e rfl)
  | ok a => exact pure a

end Checking.Plain

end

/-! ## Types -/

namespace Env

variable (env : Env)

theorem plain_node (id : Id) : Plain (env.node id) := by
  unfold node
  split
  · exact .ok _
  · exact .error rfl

theorem plain_rootOf (name : QualName) : Plain (env.rootOf name) := by
  unfold rootOf
  split
  · exact .ok _
  · exact .error rfl
  · exact .error rfl

theorem plain_sig (id : Id) : Plain (env.sig id) := by
  unfold sig
  split
  · exact .ok _
  · exact .error rfl

theorem plain_resolveFrom (seen : List QualName) (id : Id) : Plain (env.resolveFrom seen id) := by
  fun_induction resolveFrom env seen id with
  | case1 seen id e h => exact .error (env.plain_node id e h)
  | case2 => exact .error rfl
  | case3 seen id name hn hseen e h => exact .error (env.plain_rootOf name e h)
  | case4 _ _ _ _ _ _ _ ih => exact ih
  | case5 => exact .ok _

theorem plain_resolve (id : Id) : Plain (env.resolve id) := env.plain_resolveFrom [] id

theorem plain_meetGoals (seen : List (Id × Id)) (goals : List Goal) :
    Plain (env.meetGoals seen goals) := by
  fun_induction meetGoals env seen goals with
  | case1 => exact .ok _
  | case2 => exact .ok _
  | case3 _ _ _ _ _ ih => exact ih
  | case4 _ a _ _ _ e h => exact .error (env.plain_resolve a e h)
  | case5 _ _ b _ _ _ _ _ e h => exact .error (env.plain_resolve b e h)
  | case6 => assumption
  | case7 => assumption

theorem plain_eqType (a b : Id) : Plain (env.eqType a b) := env.plain_meetGoals [] [.equal a b]

end Env

/-! ## Loading -/

namespace Registry

variable (r : Registry)

theorem plain_addName (name : QualName) (l : Loading) : Plain (r.addName name l) := by
  unfold addName
  split
  · exact .ok _
  · split
    · exact .error rfl
    · exact .ok _

theorem plain_addSig (id : Id) (l : Loading) : Plain (r.addSig id l) := by
  unfold addSig
  split
  · exact .ok _
  · split
    · exact .error rfl
    · refine .bind (.foldlM (fun l parameter => ?_) _ _) fun _ => .ok _
      exact r.plain_addName (Parameter.type parameter) l

theorem plain_addNode (id : Id) (node : TypeNode) (l : Loading) : Plain (r.addNode id node l) := by
  unfold addNode
  cases node with
  | link name => exact .bind (r.plain_addName name _) fun _ => .ok _
  | _ => exact .ok _

theorem plain_addAll (nodes : List (Id × TypeNode)) (l : Loading) : Plain (r.addAll nodes l) := by
  induction nodes generalizing l with
  | nil => exact .ok l
  | cons node rest ih =>
    rw [addAll]
    split
    · next e h => exact .error (r.plain_addNode _ _ l e h)
    · exact ih _

theorem plain_fetch (ids : List Id) : Plain (r.fetch ids) := by
  induction ids with
  | nil => exact .ok []
  | cons id rest ih =>
    rw [fetch]
    split
    · exact .error rfl
    · split
      · next e h => exact .error (ih e h)
      · exact .ok _

theorem plain_fill (l : Loading) : Plain (r.fill l) := by
  fun_induction fill r l with
  | case1 => exact .ok _
  | case2 l id ids hb e hf => exact .error (r.plain_fetch (id :: ids) e hf)
  | case3 l id ids hb nodes hf e ha => exact .error (r.plain_addAll nodes _ e ha)
  | case4 => assumption

theorem plain_load (cfg : Configuration) (term : Term) : Plain (r.load cfg term) :=
  .bind (.foldlM (fun l id => r.plain_addSig id l) _ _) r.plain_fill

end Registry

/-! ## Checking -/

namespace Context

open Checking.Plain (pure throw bind get set ofExcept)

variable (env : Env)

theorem plain_takeAsset (ph : Sym) : Checking.Plain (takeAsset ph) :=
  bind get fun Γ => by
    split
    · exact bind (set _) fun _ => pure _
    · exact throw rfl

theorem plain_takeLiability (ph : Sym) : Checking.Plain (takeLiability ph) :=
  bind get fun Γ => by
    split
    · exact bind (set _) fun _ => pure _
    · exact throw rfl

theorem plain_put (side : Side) (ph : Sym) (type : Id) : Checking.Plain (put side ph type) :=
  bind get fun Γ => by
    split
    · exact throw rfl
    · exact set _
    · exact set _

theorem plain_finish : Checking.Plain finish :=
  bind get fun Γ => by
    split
    · exact pure _
    · exact throw rfl

theorem plain_actingSide (asked : Option Side) (via : Sym) :
    Checking.Plain (actingSide asked via) :=
  bind get fun Γ => by
    split
    · exact pure _
    · exact pure _
    · exact throw rfl

theorem plain_enter (asked : Option Side) (via : Sym) : Checking.Plain (enter env asked via) := by
  refine bind (plain_actingSide asked via) fun side => bind ?_ fun type =>
    bind (ofExcept (env.plain_resolve type)) fun _ => pure _
  cases side with
  | provider => exact plain_takeLiability via
  | client => exact plain_takeAsset via

theorem plain_misfit {α : Type} (op : Operation) (side : Side) (node : TypeNode) :
    Checking.Plain (misfit op side node : Checking α) :=
  throw rfl

theorem plain_demand (want got : Id) : Checking.Plain (demand env want got) :=
  bind (ofExcept (env.plain_eqType want got)) fun same => by
    split
    · exact pure _
    · exact throw rfl

theorem plain_giveValue (value : Sym) (want : Id) : Checking.Plain (giveValue env value want) :=
  bind (plain_takeAsset value) fun got => plain_demand env want got

theorem plain_giveValues (pairs : List (Sym × Parameter)) :
    Checking.Plain (giveValues env pairs) := by
  induction pairs with
  | nil => exact pure _
  | cons pair rest ih =>
    exact bind (ofExcept (env.plain_rootOf _)) fun want =>
      bind (plain_giveValue env _ want) fun _ => ih

theorem plain_pick (side : Side) (via label : Sym) (choices : Table Sym Id) :
    Checking.Plain (pick side via label choices) := by
  unfold pick
  split
  · exact plain_put _ _ _
  · exact throw rfl

theorem plain_joinWith (want : Id) (target : Sym) : Checking.Plain (joinWith env want target) :=
  bind get fun Γ => by
    dsimp only
    have hrest := bind (plain_takeAsset target) fun got =>
      bind plain_finish fun _ => plain_demand env want got
    split
    · exact bind (throw rfl) fun _ => hrest
    · exact hrest

theorem plain_instantiate (via : Sym) (sigId : Id) (values : List Sym) :
    Checking.Plain (instantiate env via sigId values) :=
  bind (ofExcept (env.plain_sig sigId)) fun sig => by
    dsimp only
    have hrest := bind (plain_giveValues env (values.zip sig.receptions)) fun _ =>
      bind (ofExcept (env.plain_rootOf sig.provision.type)) fun provided =>
        plain_put .client via provided
    split
    · exact bind (throw rfl) fun _ => hrest
    · exact hrest

theorem plain_matchLabels (choices : Table Sym Id) (labels : List Sym) :
    Checking.Plain (matchLabels choices labels) := by
  unfold matchLabels
  dsimp only
  split
  · exact pure _
  · exact throw rfl

theorem plain_onCopy {c : Checking Unit} (hc : Checking.Plain c) : Checking.Plain (onCopy c) :=
  bind get fun Γ => by
    split
    · exact pure _
    · next e Γ' h => exact throw (hc Γ e Γ' h)

mutual

theorem plain_checkAs : ∀ (term : Term) (asked : Option Side),
    Checking.Plain (checkAs env term asked)
  | .close via, asked => by
    rw [checkAs]
    refine bind (plain_enter env asked via) fun entered => ?_
    split
    · exact plain_finish
    · exact plain_misfit _ _ _
  | .wait via cont, asked => by
    rw [checkAs]
    refine bind (plain_enter env asked via) fun entered => ?_
    split
    · exact plain_checkAs cont none
    · exact plain_misfit _ _ _
  | .send via value, asked => by
    rw [checkAs]
    refine bind (plain_enter env asked via) fun entered => ?_
    split
    · exact bind (plain_giveValue env value _) fun _ => plain_put _ _ _
    · exact bind (plain_giveValue env value _) fun _ => plain_put _ _ _
    · exact plain_misfit _ _ _
  | .recv via value cont, asked => by
    rw [checkAs]
    refine bind (plain_enter env asked via) fun entered => ?_
    split
    · exact bind (plain_put _ _ _) fun _ => bind (plain_put _ _ _) fun _ => plain_checkAs cont none
    · exact bind (plain_put _ _ _) fun _ => bind (plain_put _ _ _) fun _ => plain_checkAs cont none
    · exact plain_misfit _ _ _
  | .lab via label, asked => by
    rw [checkAs]
    refine bind (plain_enter env asked via) fun entered => ?_
    split
    · exact plain_pick _ _ _ _
    · exact plain_pick _ _ _ _
    · exact plain_misfit _ _ _
  | .case via conts, asked => by
    rw [checkAs]
    refine bind (plain_enter env asked via) fun entered => ?_
    split
    · exact bind (plain_matchLabels _ _) fun _ => plain_checkBranches _ _ _ conts
    · exact bind (plain_matchLabels _ _) fun _ => plain_checkBranches _ _ _ conts
    · exact plain_misfit _ _ _
  | .fwd via target, asked => by
    rw [checkAs]
    refine bind (plain_enter env asked via) fun entered => ?_
    split
    · exact plain_joinWith env _ _
    · exact plain_misfit _ _ _
  | .call via sig values cont, none => by
    rw [checkAs]
    exact bind (plain_instantiate env via sig values) fun _ => plain_checkAs cont none
  | .call via sig values cont, some side => by
    rw [checkAs]
    exact bind (plain_enter env _ via) fun _ => plain_misfit _ _ _
  | .spawn via sig values pool cont, none => by
    rw [checkAs]
    exact bind (plain_instantiate env via sig values) fun _ => plain_checkAs cont none
  | .spawn via sig values pool cont, some side => by
    rw [checkAs]
    exact bind (plain_enter env _ via) fun _ => plain_misfit _ _ _
  | .acquire via, asked => by
    rw [checkAs]
    refine bind (plain_enter env asked via) fun entered => ?_
    split
    · exact plain_put _ _ _
    · exact plain_misfit _ _ _
  | .accept via cont, asked => by
    rw [checkAs]
    refine bind (plain_enter env asked via) fun entered => ?_
    split
    · exact bind (plain_put _ _ _) fun _ => plain_checkAs cont none
    · exact plain_misfit _ _ _
  | .detach via, asked => by
    rw [checkAs]
    refine bind (plain_enter env asked via) fun entered => ?_
    split
    · exact plain_put _ _ _
    · exact plain_misfit _ _ _
  | .release via cont, asked => by
    rw [checkAs]
    refine bind (plain_enter env asked via) fun entered => ?_
    split
    · exact bind (plain_put _ _ _) fun _ => plain_checkAs cont none
    · exact plain_misfit _ _ _

theorem plain_checkBranches (side : Side) (via : Sym) (choices : Table Sym Id) :
    ∀ conts : List (Sym × Term), Checking.Plain (checkBranches env side via choices conts)
  | [] => by
    rw [checkBranches]
    exact pure _
  | (label, cont) :: rest => by
    rw [checkBranches]
    exact bind (plain_onCopy (bind (plain_pick _ _ _ _) fun _ => plain_checkAs cont none)) fun _ =>
      plain_checkBranches side via choices rest

end

end Context

theorem plain_checkStep (pool : Id) (env : Env) (cfg : Configuration) (term : Term) :
    Plain (checkStep pool env cfg term) := by
  unfold checkStep
  split
  · exact .ok _
  · next e Γ h => exact .error (Context.plain_checkAs env term none _ e Γ h)

/-! ## Transitions -/

namespace Drafting

open Drafting.Plain (pure throw bind modify lift)

variable (env : Env) (cfg : Configuration) (fresh : Fresh)

theorem plain_get : Plain get := fun d => .ok (d, d)

theorem plain_set (d : Change) : Plain (set d) := fun _ => .ok ((), d)

theorem plain_stamp (pool : Id) : Plain (stamp cfg pool) :=
  bind plain_get fun draft => by
    split
    · exact pure _
    · exact bind (plain_set _) fun _ => pure _
    · exact throw rfl

theorem plain_introduceFor (process pool : Id) (ph : Sym) (ep : Endpoint) :
    Plain (introduceFor cfg process pool ph ep) :=
  bind (plain_stamp cfg pool) fun _ => modify _

theorem plain_discardFor (process pool : Id) (ph : Sym) (ep : Endpoint) :
    Plain (discardFor cfg process pool ph ep) :=
  bind (plain_stamp cfg pool) fun _ => modify _

theorem plain_slot (op : SlotOp) : Plain (slot op) := modify _

theorem plain_endpoint (ph : Sym) : Plain (endpoint cfg ph) := by
  unfold endpoint
  split
  · exact pure _
  · exact throw rfl

theorem plain_nodeOf (ep : Endpoint) : Plain (nodeOf env ep) :=
  bind (lift (env.plain_resolve ep.type)) fun _ => pure _

theorem plain_advance (via : Sym) (ep : Endpoint) (type : Id) :
    Plain (advance cfg fresh via ep type) :=
  bind (plain_discardFor cfg _ _ via ep) fun _ =>
    bind (plain_introduceFor cfg _ _ via _) fun _ => pure _

theorem plain_land (channel : Id) : Plain (land cfg channel) := by
  unfold land
  split
  · exact bind (modify _) fun _ => pure _
  · exact throw rfl

theorem plain_proceed (svc : Service) (next : Endpoint) : Plain (proceed cfg svc next) := by
  refine bind ?_ fun home => plain_introduceFor cfg _ _ _ home
  unfold rehome
  dsimp only
  split
  · exact bind (modify _) fun _ => pure _
  · exact pure _

theorem plain_complete (payload : Payload) (svc : Service) :
    Plain (complete cfg payload svc) := by
  refine bind (plain_discardFor cfg _ _ _ _) fun _ => ?_
  have hrest : ∀ next cont, Plain (do
      proceed cfg svc next
      return (⟨svc.pool, svc.process, cont⟩ : StepSpec)) :=
    fun next cont => bind (plain_proceed cfg svc next) fun _ => pure _
  split
  · exact pure _
  · next value next ph cont _ =>
    have hreceive : Plain (do
        proceed cfg svc next
        introduceFor cfg svc.process svc.pool ph value
        return (⟨svc.pool, svc.process, cont⟩ : StepSpec)) :=
      bind (plain_proceed cfg svc next) fun _ =>
        bind (plain_introduceFor cfg _ _ ph value) fun _ => pure _
    split
    · exact bind (throw rfl) fun _ => hreceive
    · exact hreceive
  · split
    · exact hrest _ _
    · exact throw rfl
  · exact hrest _ _
  · exact hrest _ _
  · exact throw rfl

/-- What is taken off a channel is handed over. -/
theorem plain_serve (channel : Id) (payload : Payload) (svc : Service) :
    Plain (do
      slot (.take channel)
      some <$> complete cfg payload svc) :=
  bind (plain_slot _) fun _ => by
    rw [← bind_pure_comp]
    exact bind (plain_complete cfg payload svc) fun _ => pure _

theorem plain_produce (ep : Endpoint) (payload : Payload) : Plain (produce cfg ep payload) :=
  bind (plain_land cfg ep.channel) fun r => by
    split
    · exact bind (plain_slot _) fun _ => pure _
    · exact plain_serve cfg _ _ _
    · exact throw rfl

theorem plain_consume (via : Sym) (handler : Handler) : Plain (consume cfg via handler) :=
  bind (plain_endpoint cfg via) fun ep => bind (plain_land cfg ep.channel) fun r => by
    split
    · exact bind (plain_slot _) fun _ => pure _
    · exact plain_serve cfg _ _ _
    · exact throw rfl

theorem plain_join (channel : Id) (left : Half) (pending : Option Half) :
    Plain (join cfg channel left pending) := by
  unfold join
  split
  · exact bind (plain_slot _) fun _ => pure _
  · exact plain_serve cfg _ _ _
  · exact plain_serve cfg _ _ _
  · exact throw rfl
  · exact throw rfl

theorem plain_forward (via target : Sym) : Plain (forward env cfg via target) := by
  rw [forward_eq]
  refine bind (plain_endpoint cfg via) fun x => bind (plain_endpoint cfg target) fun y =>
    bind (plain_discardFor cfg _ _ via x) fun _ => bind (plain_discardFor cfg _ _ target y) fun _ =>
      bind (plain_land cfg x.channel) fun r => ?_
  unfold redirect
  split
  · exact bind (plain_slot _) fun _ => pure _
  · refine bind (plain_nodeOf env y) fun node => ?_
    split
    · exact bind (plain_slot _) fun _ => plain_join cfg _ _ _
    · exact throw rfl

theorem plain_passOn (process pool : Id) (pairs : List (Sym × Parameter)) :
    Plain (passOn cfg process pool pairs) := by
  induction pairs with
  | nil => exact pure _
  | cons pair rest ih =>
    refine bind (plain_endpoint cfg _) fun ep => ?_
    have hrest := bind (plain_discardFor cfg cfg.process cfg.pool pair.1 ep) fun _ =>
      bind (plain_introduceFor cfg process pool pair.2.placeholder ep) fun _ => ih
    split
    · exact bind (throw rfl) fun _ => hrest
    · exact hrest

theorem plain_spawn (via : Sym) (sigId : Id) (values : List Sym) (pool : Id) (cont : Term) :
    Plain (spawn env cfg fresh via sigId values pool cont) := by
  rw [spawn_eq]
  refine bind (lift (env.plain_sig sigId)) fun sig => ?_
  split
  · refine bind (lift (env.plain_rootOf _)) fun type => ?_
    split
    · exact throw rfl
    · refine bind ?_ fun _ => ?_
      · exact bind (modify _) fun _ => bind (plain_stamp cfg _) fun _ => modify _
      · exact bind (plain_introduceFor cfg _ _ _ _) fun _ => bind (plain_passOn cfg _ _ _) fun _ =>
          bind (plain_introduceFor cfg _ _ _ _) fun _ => pure _
  · exact throw rfl

/-- What a term does that passes its channel on, once the type of the continuation is known. -/
theorem plain_pass (via : Sym) (ep : Endpoint) (payload : Endpoint → Payload) (type : Id) :
    Plain (advance cfg fresh via ep type >>= fun next => produce cfg ep (payload next)) :=
  bind (plain_advance cfg fresh via ep type) fun _ => plain_produce cfg ep _

theorem plain_act (term : Term) : Plain (act env cfg fresh term) := by
  cases term with
  | close via =>
    exact bind (plain_endpoint cfg via) fun ep => bind (plain_discardFor cfg _ _ via ep) fun _ =>
      plain_produce cfg ep .close
  | send via value =>
    refine bind (plain_endpoint cfg via) fun ep => bind (plain_nodeOf env ep) fun node => ?_
    have hrest : ∀ type, Plain (do
        let given ← endpoint cfg value
        discard cfg value given
        let next ← advance cfg fresh via ep type
        produce cfg ep (.send given next)) := fun type =>
      bind (plain_endpoint cfg value) fun given =>
        bind (plain_discardFor cfg _ _ value given) fun _ =>
        bind (plain_advance cfg fresh via ep type) fun next => plain_produce cfg ep _
    split
    · exact hrest _
    · exact hrest _
    · exact bind (throw rfl) hrest
  | lab via label =>
    refine bind (plain_endpoint cfg via) fun ep => bind (plain_nodeOf env ep) fun node => ?_
    have hpass := plain_pass cfg fresh via ep (.lab label)
    split
    · split
      · exact hpass _
      · exact bind (throw rfl) hpass
    · split
      · exact hpass _
      · exact bind (throw rfl) hpass
    · exact bind (throw rfl) hpass
  | acquire via =>
    refine bind (plain_endpoint cfg via) fun ep => bind (plain_nodeOf env ep) fun node => ?_
    have hpass := plain_pass cfg fresh via ep .acquire
    split
    · exact hpass _
    · exact bind (throw rfl) hpass
  | detach via =>
    refine bind (plain_endpoint cfg via) fun ep => bind (plain_nodeOf env ep) fun node => ?_
    have hpass := plain_pass cfg fresh via ep .detach
    split
    · exact hpass _
    · exact bind (throw rfl) hpass
  | fwd via target => exact plain_forward env cfg via target
  | call via sig values cont =>
    exact bind (modify _) fun _ => plain_spawn env cfg fresh via sig values _ cont
  | spawn via sig values pool cont => exact plain_spawn env cfg fresh via sig values pool cont
  | wait via cont => exact plain_consume cfg via _
  | recv via value cont => exact plain_consume cfg via _
  | case via conts => exact plain_consume cfg via _
  | accept via cont => exact plain_consume cfg via _
  | release via cont => exact plain_consume cfg via _

end Drafting

theorem plain_transition (env : Env) (cfg : Configuration) (fresh : Fresh) (term : Term) :
    Plain (transition env cfg fresh term) := by
  rw [Drafting.transition_eq]
  exact Drafting.plain_act env cfg fresh term _

/-! ## Steps -/

namespace Store

variable (s : Store)

theorem plain_configuration (process : Id) : Plain (s.configuration process) := by
  unfold configuration
  split
  · exact .error rfl
  · split
    · exact .error rfl
    · exact .ok _

theorem plain_aim (cfg : Configuration) (term : Term) : Plain (s.aim cfg term) := by
  unfold aim
  split
  · split
    · exact .ok _
    · exact .error rfl
  · exact .ok _

theorem plain_deriveStep (fresh : Fresh) (spec : StepSpec) : Plain (s.deriveStep fresh spec) := by
  refine .bind (s.plain_configuration spec.process) fun cfg => ?_
  have hrest : ∀ cfg, Plain (do
      let cfg ← s.aim cfg spec.term
      let env ← s.decls.load cfg spec.term
      let _ ← checkStep spec.pool env cfg spec.term
      transition env cfg fresh spec.term) :=
    fun cfg => .bind (s.plain_aim cfg _) fun cfg => .bind (s.decls.plain_load cfg _) fun env =>
      .bind (plain_checkStep _ env cfg _) fun _ => plain_transition env cfg fresh _
  split
  · split
    · exact .bind (.error rfl) fun _ => .bind (.error rfl) fun _ => hrest cfg
    · exact .bind (.error rfl) fun _ => hrest cfg
  · split
    · exact .bind (.error rfl) fun _ => hrest cfg
    · exact hrest cfg

theorem plain_checkLocks (locks : List Lock) : Plain (s.checkLocks locks) := by
  induction locks with
  | nil => exact .ok _
  | cons lock rest ih =>
    rw [checkLocks]
    split
    · exact .error rfl
    · split
      · exact .error rfl
      · exact ih

theorem plain_checkPools (pools : List Pool) : Plain (s.checkPools pools) := by
  unfold checkPools
  split
  · exact .error rfl
  · exact .ok _

theorem plain_checkSlots (touched : Table Id Bool) (slots : List SlotOp) :
    Plain (s.checkSlots touched slots) := by
  induction slots generalizing touched with
  | nil => exact .ok _
  | cons op rest ih =>
    rw [checkSlots]
    split
    · exact .error rfl
    · exact ih _

theorem plain_commit (c : Change) : Plain (s.commit c) :=
  .bind (s.plain_checkLocks _) fun _ => .bind (s.plain_checkPools _) fun _ =>
    .bind (s.plain_checkSlots _ _) fun _ => .ok _

end Store

namespace Request

/-- A single step does not fail with an error about chains. -/
theorem ofChain_step {spec : StepSpec} {e e' : Engine} {err : Error}
    (h : step .none spec e = .error err e') : err.ofChain = false := by
  rw [step_apply] at h
  split at h
  next err' hd =>
    cases h
    exact e.store.plain_deriveStep _ _ _ hd
  next next m hd =>
    split at h
    next err' hc =>
      cases h
      exact e.store.plain_commit m _ hc
    · cases h

end Request

end Rendezvous
