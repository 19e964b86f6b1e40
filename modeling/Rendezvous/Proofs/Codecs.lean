import Rendezvous.Codec.Change
import Rendezvous.Codec.Types
import Rendezvous.Proofs.Reordering

/-!
# Written and read back

Types, terms, submitted steps and changes are read back from JSON as they were written
(`json_round_trip`), also if someone on the way lists the members of objects in another order. This
is about JSON values; which texts stand for them is the affair of the parser and the printer.

What can be written is what the fields of a record can hold: ids of 128 bits, revisions and stamps
of 64 bits, and branches by increasing label (`Storable`, and `SessionType.Ordered` for types). For
each kind of value there is one lemma `restores`. The readers of larger values are put together from
those of their parts: by `Fields.restores_record` for records, by `Json.Restores.variant` and
`Fields.restores_variant` for variants, and by induction for types and terms, over branches too.
-/

namespace Rendezvous

open Json (Restores)

/-! ## What a record can hold -/

/-- An id has 128 bits. -/
def Id.Storable (id : Id) : Prop := id.value < 2 ^ 128

/-- A revision has 64 bits. -/
def Rev.Storable (r : Rev) : Prop := r.value < UInt64.size

/-- A stamp has 64 bits, one of them for the sign. -/
def StorableStamp (stamp : Int) : Prop :=
  Int64.minValue.toInt ≤ stamp ∧ stamp ≤ Int64.maxValue.toInt

instance (id : Id) : Decidable id.Storable := inferInstanceAs (Decidable (_ < _))

instance (r : Rev) : Decidable r.Storable := inferInstanceAs (Decidable (_ < _))

instance (stamp : Int) : Decidable (StorableStamp stamp) := inferInstanceAs (Decidable (_ ∧ _))

namespace Term

mutual

/-- The ids of the term can be stored, and every case lists distinct labels in increasing order. -/
def Storable : Term → Prop
  | .close _ | .send .. | .lab .. | .fwd .. | .acquire _ | .detach _ => True
  | .wait _ cont | .recv _ _ cont | .accept _ cont | .release _ cont => cont.Storable
  | .case _ conts => (conts.map Prod.fst).Pairwise (· < ·) ∧ StorableBranches conts
  | .call _ sig _ cont => sig.Storable ∧ cont.Storable
  | .spawn _ sig _ pool cont => sig.Storable ∧ pool.Storable ∧ cont.Storable

/-- Every branch of a case is `Storable`. -/
def StorableBranches : List (Sym × Term) → Prop
  | [] => True
  | (_, cont) :: rest => cont.Storable ∧ StorableBranches rest

end

end Term

/-- The fields of the record can be stored. -/
structure Endpoint.Storable (ep : Endpoint) : Prop where
  channel : ep.channel.Storable
  type : ep.type.Storable
  pool : ep.pool.Storable

/-- The endpoints of the payload can be stored. -/
def Payload.Storable : Payload → Prop
  | .close => True
  | .send value cont => value.Storable ∧ cont.Storable
  | .lab _ cont | .acquire cont | .detach cont => cont.Storable

/-- What the handler goes on with can be stored. -/
def Handler.Storable : Handler → Prop
  | .wait cont | .recv _ cont | .accept cont | .release cont => cont.Storable
  | .case conts => (conts.map Prod.fst).Pairwise (· < ·) ∧ Term.StorableBranches conts

/-- The fields of the record can be stored. -/
structure Message.Storable (m : Message) : Prop where
  channel : m.channel.Storable
  pool : m.pool.Storable
  process : m.process.Storable
  payload : m.payload.Storable

/-- The fields of the record can be stored. -/
structure Service.Storable (s : Service) : Prop where
  channel : s.channel.Storable
  pool : s.pool.Storable
  process : s.process.Storable
  endpoint : s.endpoint.Storable
  handler : s.handler.Storable

/-- The fields of the record can be stored. -/
structure Forward.Storable (f : Forward) : Prop where
  channel : f.channel.Storable
  pool : f.pool.Storable
  process : f.process.Storable
  target : f.target.Storable

/-- The record of the half can be stored. -/
def Half.Storable : Half → Prop
  | .message m => m.Storable
  | .service s => s.Storable
  | .forward f => f.Storable

/-- The fields of the record can be stored. -/
structure Binding.Storable (b : Binding) : Prop where
  process : b.process.Storable
  endpoint : b.endpoint.Storable
  stamp : StorableStamp b.stamp

/-- The fields of the record can be stored. -/
structure Member.Storable (m : Member) : Prop where
  id : m.id.Storable
  pool : m.pool.Storable
  sig : m.sig.Storable

/-- The fields of the record can be stored. -/
structure Pool.Storable (p : Pool) : Prop where
  id : p.id.Storable
  sup : ∀ id ∈ p.sup, id.Storable
  rev : p.rev.Storable

/-- The fields of the record can be stored. -/
structure Liability.Storable (l : Liability) : Prop where
  pool : l.pool.Storable
  process : l.process.Storable
  stamp : StorableStamp l.stamp

/-- The fields of the record can be stored. -/
structure Lock.Storable (l : Lock) : Prop where
  pool : l.pool.Storable
  rev : l.rev.Storable

/-- What is put or taken can be stored. -/
def SlotOp.Storable : SlotOp → Prop
  | .put half => half.Storable
  | .take channel => channel.Storable

/-- All the records of the change can be stored. -/
structure Change.Storable (c : Change) : Prop where
  locks : ∀ l ∈ c.locks, l.Storable
  bindings : ∀ b ∈ c.bindings, b.Storable
  slots : ∀ op ∈ c.slots, op.Storable
  liabilities : ∀ l ∈ c.liabilities, l.Storable
  members : ∀ m ∈ c.members, m.Storable
  pools : ∀ p ∈ c.pools, p.Storable
  homes : ∀ ep ∈ c.homes, ep.Storable

/-- The ids of the step and its term can be stored. -/
structure StepSpec.Storable (s : StepSpec) : Prop where
  pool : s.pool.Storable
  process : s.process.Storable
  term : s.term.Storable

/-! ## Ids, names and revisions -/

namespace Id

/-- The groups of an id are its digits. -/
theorem ofGrouped?_grouped {ds : List Char} (h : ds.length = 32) :
    ofGrouped? (grouped ds) = ofDigits? ds := by
  have hrest (i : Nat) : (ds.drop i).take 4 ++ ds.drop (i + 4) = ds.drop i := by
    rw [← List.drop_drop, List.take_append_drop]
  have hjoin : ds.take 8 ++ (ds.drop 8).take 4 ++ (ds.drop 12).take 4 ++ (ds.drop 16).take 4 ++
      ds.drop 20 = ds := by
    simp only [List.append_assoc, hrest 16, hrest 12, hrest 8, List.take_append_drop]
  -- the lengths of the groups say where the hyphens are
  have h0 : (ds.take 8).length = 8 := by simp [h]
  have h1 : ((ds.drop 8).take 4).length = 4 := by simp [h]
  have h2 : ((ds.drop 12).take 4).length = 4 := by simp [h]
  have h3 : ((ds.drop 16).take 4).length = 4 := by simp [h]
  have h4 : (ds.drop 20).length = 12 := by simp [h]
  conv => rhs; rw [← hjoin]
  unfold grouped ofGrouped?
  generalize ds.take 8 = a at *
  generalize (ds.drop 8).take 4 = b at *
  generalize (ds.drop 12).take 4 = c at *
  generalize (ds.drop 16).take 4 = d at *
  generalize ds.drop 20 = e at *
  rw [if_pos]
  · simp [List.drop_append, h0, h1, h2, h3, List.drop_of_length_le]
  · simp [h0, h1, h2, h3, h4]

/-- An id is read back from its text. -/
theorem ofText?_text {id : Id} (h : id.Storable) : ofText? id.text = some id := by
  have hlength : (grouped id.digits).length = 36 := by simp [grouped]
  have hdigits : ofDigits? id.digits = some id := by
    rw [ofDigits?, if_pos id.length_digits, digits, Text.readHex_hexDigits]
    · rfl
    · -- 32 digits of four bits
      have h16 : 2 ^ 128 = Nat.pow 16 32 := by decide
      rwa [Storable, h16] at h
  unfold ofText? text
  simp only [String.toList_ofList, hlength]
  rw [if_neg (by decide), if_pos trivial, ofGrouped?_grouped id.length_digits, hdigits]

theorem restores {id : Id} (h : id.Storable) : Restores ofJson? id.toJson id := by
  intro j hj
  rw [hj.eq_str, ofJson?, ofText?_text h]

end Id

theorem QualName.restores (name : QualName) : Restores ofJson? name.toJson name := by
  intro j hj
  rw [hj.eq_str, ofJson?, name.parse?_text]

theorem Rev.restores {r : Rev} (h : r.Storable) : Restores ofJson? r.toJson r := by
  intro j hj
  have hr : (0 : Int) ≤ r.value ∧ (r.value : Int) < UInt64.size := by
    have := h
    unfold Storable at this
    omega
  rw [hj.eq_int, ofJson?, Json.nat64, if_pos hr]
  rfl

/-! ## Terms -/

namespace Term

theorem branchesToJson_eq (conts : List (Sym × Term)) :
    .obj (branchesToJson conts) = Json.ofEntries toJson conts := by
  rw [Json.ofEntries, Json.obj.injEq]
  induction conts with
  | nil => rfl
  | cons e rest ih =>
    rw [branchesToJson, ih]
    rfl

theorem branchesOfJson?_eq (members : List (String × Json)) :
    branchesOfJson? members = Json.entries ofJson? (.obj members) := by
  refine Json.eq_entries (g := branchesOfJson?) rfl (fun m rest => ?_) members
  rw [branchesOfJson?]
  cases ofJson? m.2 <;> cases branchesOfJson? rest <;> rfl

theorem contIn?_eq (members : List (String × Json)) :
    contIn? members = (Table.find? "cont" members).bind ofJson? := by
  induction members with
  | nil => rfl
  | cons m rest ih =>
    rw [contIn?, Table.find?, ih]
    split <;> rfl

theorem contsIn?_eq (members : List (String × Json)) :
    contsIn? members = (Table.find? "conts" members).bind (Json.entries ofJson?) := by
  induction members with
  | nil => rfl
  | cons m rest ih =>
    obtain ⟨name, j⟩ := m
    cases j with
    | obj members =>
      rw [contsIn?, Table.find?, ih, branchesOfJson?_eq]
      split <;> rfl
    | _ =>
      rw [contsIn?, Table.find?, ih]
      · split <;> rfl
      · intro _ hobj
        cases hobj

/-- A term is restored if its operation is assembled from its parts, found by their names. -/
theorem restores_operation {op : String} {members : List (String × Json)} {t : Term}
    (hn : (members.map Prod.fst).Nodup)
    (h : ∀ f : Fields, f.Gives members →
      assemble op f.members (fun _ => f.required "cont" ofJson?)
        (fun _ => f.required "conts" (Json.entries ofJson?)) = some t) :
    Restores ofJson? (.obj [(op, .obj members)]) t := by
  intro j hj
  obtain ⟨content, rfl, hcontent⟩ := hj.exists_variant
  obtain ⟨members', rfl, -, hgives⟩ := hcontent.exists_obj hn
  rw [ofJson?]
  simp only [contIn?_eq, contsIn?_eq]
  exact h ⟨members', false⟩ hgives

theorem symIn?_gives {f : Fields} {members : List (String × Json)} (hf : f.Gives members)
    (name : String) {s : Sym} (hs : Table.find? name members = some (.str s)) :
    symIn? name f.members = some s :=
  hf.required name hs (Json.restores_string s)

mutual

theorem restores : ∀ t : Term, t.Storable → Restores ofJson? t.toJson t
  | .close via, _ => by
    refine restores_operation (by simp) fun f hf => ?_
    simp [assemble, symIn?_gives hf "via" rfl]
  | .wait via cont, h => by
    refine restores_operation (by simp) fun f hf => ?_
    simp [assemble, symIn?_gives hf "via" rfl, hf.required "cont" rfl (restores cont h)]
  | .send via value, _ => by
    refine restores_operation (by simp) fun f hf => ?_
    simp [assemble, symIn?_gives hf "via" rfl, symIn?_gives hf "value" rfl]
  | .recv via value cont, h => by
    refine restores_operation (by simp) fun f hf => ?_
    simp [assemble, symIn?_gives hf "via" rfl, symIn?_gives hf "value" rfl,
      hf.required "cont" rfl (restores cont h)]
  | .lab via label, _ => by
    refine restores_operation (by simp) fun f hf => ?_
    simp [assemble, symIn?_gives hf "via" rfl, symIn?_gives hf "label" rfl]
  | .case via conts, h => by
    refine restores_operation (by simp) fun f hf => ?_
    obtain ⟨given, hgiven, hsorted⟩ :=
      hf.entries "conts" (congrArg some (branchesToJson_eq conts)) h.1 (restores_branches conts h.2)
    simp [assemble, symIn?_gives hf "via" rfl, hgiven, hsorted]
  | .fwd via target, _ => by
    refine restores_operation (by simp) fun f hf => ?_
    simp [assemble, symIn?_gives hf "via" rfl, symIn?_gives hf "target" rfl]
  | .call via sig values cont, h => by
    refine restores_operation (by simp) fun f hf => ?_
    have hsig : idIn? "sig" f.members = some sig := hf.required "sig" rfl (Id.restores h.1)
    have hvalues : valuesIn? f.members = some values :=
      hf.required "values" rfl (.list fun s _ => Json.restores_string s)
    simp [assemble, symIn?_gives hf "via" rfl, hsig, hvalues,
      hf.required "cont" rfl (restores cont h.2)]
  | .spawn via sig values pool cont, h => by
    refine restores_operation (by simp) fun f hf => ?_
    have hsig : idIn? "sig" f.members = some sig := hf.required "sig" rfl (Id.restores h.1)
    have hvalues : valuesIn? f.members = some values :=
      hf.required "values" rfl (.list fun s _ => Json.restores_string s)
    have hpool : idIn? "pool" f.members = some pool := hf.required "pool" rfl (Id.restores h.2.1)
    simp [assemble, symIn?_gives hf "via" rfl, hsig, hvalues, hpool,
      hf.required "cont" rfl (restores cont h.2.2)]
  | .acquire via, _ => by
    refine restores_operation (by simp) fun f hf => ?_
    simp [assemble, symIn?_gives hf "via" rfl]
  | .accept via cont, h => by
    refine restores_operation (by simp) fun f hf => ?_
    simp [assemble, symIn?_gives hf "via" rfl, hf.required "cont" rfl (restores cont h)]
  | .detach via, _ => by
    refine restores_operation (by simp) fun f hf => ?_
    simp [assemble, symIn?_gives hf "via" rfl]
  | .release via cont, h => by
    refine restores_operation (by simp) fun f hf => ?_
    simp [assemble, symIn?_gives hf "via" rfl, hf.required "cont" rfl (restores cont h)]

theorem restores_branches : ∀ conts : List (Sym × Term), StorableBranches conts →
    ∀ e ∈ conts, Restores ofJson? e.2.toJson e.2
  | [], _, _, he => nomatch he
  | (_, cont) :: rest, h, e, he => by
    rcases List.mem_cons.1 he with rfl | he
    · exact restores cont h.1
    · exact restores_branches rest h.2 e he

end

end Term

/-! ## Types -/

namespace SessionType

theorem choicesToJson_eq (choices : List (Sym × SessionType)) :
    .obj (choicesToJson choices) = Json.ofEntries toJson choices := by
  rw [Json.ofEntries, Json.obj.injEq]
  induction choices with
  | nil => rfl
  | cons e rest ih =>
    rw [choicesToJson, ih]
    rfl

theorem choicesOfJson?_eq (members : List (String × Json)) :
    choicesOfJson? members = Json.entries ofJson? (.obj members) := by
  refine Json.eq_entries (g := choicesOfJson?) rfl (fun m rest => ?_) members
  rw [choicesOfJson?]
  cases ofJson? m.2 <;> cases choicesOfJson? rest <;> rfl

theorem exists_choices {choices : List (Sym × SessionType)} {content : Json}
    (hc : (Json.obj (choicesToJson choices)).Reorders content)
    (ho : (choices.map Prod.fst).Pairwise (· < ·))
    (h : ∀ e ∈ choices, Restores ofJson? e.2.toJson e.2) :
    ∃ members given, content = .obj members ∧ choicesOfJson? members = some given ∧
      sortEntries given = choices := by
  rw [choicesToJson_eq] at hc
  obtain ⟨given, hgiven, hsorted⟩ := Option.map_eq_some_iff.1 (Restores.entries ho h content hc)
  obtain ⟨-, members, rfl, -⟩ := hc.exists_members
  exact ⟨members, given, rfl, (choicesOfJson?_eq members).trans hgiven, hsorted⟩

mutual

theorem restores : ∀ t : SessionType, t.Ordered → Restores ofJson? t.toJson t
  | .one, _ => by
    intro j hj
    rw [hj.eq_str]
    rfl
  | .link name, _ => by
    intro j hj
    obtain ⟨content, rfl, hcontent⟩ := hj.exists_variant
    rw [hcontent.eq_str]
    simp [ofJson?]
  | .tensor value cont, h => by
    intro j hj
    obtain ⟨content, rfl, hcontent⟩ := hj.exists_variant
    obtain ⟨value', cont', rfl, hvalue, hcont⟩ := hcontent.exists_pair
    simp [ofJson?, restores value h.1 value' hvalue, restores cont h.2 cont' hcont]
  | .lolli value cont, h => by
    intro j hj
    obtain ⟨content, rfl, hcontent⟩ := hj.exists_variant
    obtain ⟨value', cont', rfl, hvalue, hcont⟩ := hcontent.exists_pair
    simp [ofJson?, restores value h.1 value' hvalue, restores cont h.2 cont' hcont]
  | .plus choices, h => by
    intro j hj
    obtain ⟨content, rfl, hcontent⟩ := hj.exists_variant
    obtain ⟨members, given, rfl, hgiven, hsorted⟩ :=
      exists_choices hcontent h.1 (restores_choices choices h.2)
    simp [ofJson?, hgiven, hsorted]
  | .with choices, h => by
    intro j hj
    obtain ⟨content, rfl, hcontent⟩ := hj.exists_variant
    obtain ⟨members, given, rfl, hgiven, hsorted⟩ :=
      exists_choices hcontent h.1 (restores_choices choices h.2)
    simp [ofJson?, hgiven, hsorted]
  | .up cont, h => (restores cont h).variant fun _ hc => by
    unfold ofJson?
    simp [hc]
  | .down cont, h => (restores cont h).variant fun _ hc => by
    unfold ofJson?
    simp [hc]

theorem restores_choices : ∀ choices : List (Sym × SessionType), OrderedChoices choices →
    ∀ e ∈ choices, Restores ofJson? e.2.toJson e.2
  | [], _, _, he => nomatch he
  | (_, typ) :: rest, h, e, he => by
    rcases List.mem_cons.1 he with rfl | he
    · exact restores typ h.1
    · exact restores_choices rest h.2 e he

end

end SessionType

/-! ## Halves -/

theorem Endpoint.restores {ep : Endpoint} (h : ep.Storable) : Restores ofJson? ep.toJson ep := by
  refine Fields.restores_record (by simp) fun j f hf hgives => ?_
  have hchannel := hgives.required "chnl_id" rfl (Id.restores h.channel)
  have htype := hgives.required "type_id" rfl (Id.restores h.type)
  have hpool := hgives.required "pool_id" rfl (Id.restores h.pool)
  simp [ofJson?, hf, hchannel, htype, hpool]

theorem Payload.restores : ∀ {p : Payload}, p.Storable → Restores ofJson? p.toJson p
  | .close, _ => by
    intro j hj
    rw [hj.eq_str]
    rfl
  | .send value cont, h => by
    refine Fields.restores_variant (by simp) fun content f hf hgives => ?_
    have hvalue := hgives.required "value" rfl (Endpoint.restores h.1)
    have hcont := hgives.required "cont" rfl (Endpoint.restores h.2)
    simp [ofJson?, Json.variant?, hf, hvalue, hcont]
  | .lab label cont, h => by
    refine Fields.restores_variant (by simp) fun content f hf hgives => ?_
    have hlabel := hgives.required "label" rfl (Json.restores_string label)
    have hcont := hgives.required "cont" rfl (Endpoint.restores h)
    simp [ofJson?, Json.variant?, hf, hlabel, hcont]
  | .acquire cont, h => by
    refine Fields.restores_variant (by simp) fun content f hf hgives => ?_
    have hcont := hgives.required "cont" rfl (Endpoint.restores h)
    simp [ofJson?, Json.variant?, hf, hcont]
  | .detach cont, h => by
    refine Fields.restores_variant (by simp) fun content f hf hgives => ?_
    have hcont := hgives.required "cont" rfl (Endpoint.restores h)
    simp [ofJson?, Json.variant?, hf, hcont]

theorem Handler.branches?_eq :
    branches? = fun j => (Json.entries Term.ofJson? j).map sortEntries := by
  funext j
  cases j with
  | obj members => rw [branches?, Term.branchesOfJson?_eq]
  | _ => rfl

theorem Handler.restores : ∀ {handler : Handler}, handler.Storable →
    Restores ofJson? handler.toJson handler
  | .wait cont, h => by
    refine Fields.restores_variant (by simp) fun content f hf hgives => ?_
    have hcont := hgives.required "cont" rfl (Term.restores cont h)
    simp [ofJson?, Json.variant?, hf, hcont]
  | .recv value cont, h => by
    refine Fields.restores_variant (by simp) fun content f hf hgives => ?_
    have hvalue := hgives.required "value" rfl (Json.restores_string value)
    have hcont := hgives.required "cont" rfl (Term.restores cont h)
    simp [ofJson?, Json.variant?, hf, hvalue, hcont]
  | .case conts, h => by
    refine Fields.restores_variant (by simp) fun content f hf hgives => ?_
    have hconts : f.required "conts" branches? = some conts := by
      rw [branches?_eq]
      exact hgives.required "conts" (congrArg some (Term.branchesToJson_eq conts))
        (.entries h.1 (Term.restores_branches conts h.2))
    simp [ofJson?, Json.variant?, hf, hconts]
  | .accept cont, h => by
    refine Fields.restores_variant (by simp) fun content f hf hgives => ?_
    have hcont := hgives.required "cont" rfl (Term.restores cont h)
    simp [ofJson?, Json.variant?, hf, hcont]
  | .release cont, h => by
    refine Fields.restores_variant (by simp) fun content f hf hgives => ?_
    have hcont := hgives.required "cont" rfl (Term.restores cont h)
    simp [ofJson?, Json.variant?, hf, hcont]

theorem Message.restores {m : Message} (h : m.Storable) : Restores ofJson? m.toJson m := by
  refine Fields.restores_record (by simp) fun j f hf hgives => ?_
  have hchannel := hgives.required "chnl_id" rfl (Id.restores h.channel)
  have hpool := hgives.required "pool_id" rfl (Id.restores h.pool)
  have hprocess := hgives.required "proc_id" rfl (Id.restores h.process)
  have hpayload := hgives.required "val" rfl (Payload.restores h.payload)
  simp [ofJson?, hf, hchannel, hpool, hprocess, hpayload]

theorem Service.restores {s : Service} (h : s.Storable) : Restores ofJson? s.toJson s := by
  refine Fields.restores_record (by simp) fun j f hf hgives => ?_
  have hchannel := hgives.required "chnl_id" rfl (Id.restores h.channel)
  have hpool := hgives.required "pool_id" rfl (Id.restores h.pool)
  have hprocess := hgives.required "proc_id" rfl (Id.restores h.process)
  have hvia := hgives.required "via" rfl (Json.restores_string s.via)
  have hendpoint := hgives.required "ep" rfl (Endpoint.restores h.endpoint)
  have hhandler := hgives.required "cont" rfl (Handler.restores h.handler)
  simp [ofJson?, hf, hchannel, hpool, hprocess, hvia, hendpoint, hhandler]

theorem Forward.restores {r : Forward} (h : r.Storable) : Restores ofJson? r.toJson r := by
  refine Fields.restores_record (by simp) fun j f hf hgives => ?_
  have hchannel := hgives.required "chnl_id" rfl (Id.restores h.channel)
  have hpool := hgives.required "pool_id" rfl (Id.restores h.pool)
  have hprocess := hgives.required "proc_id" rfl (Id.restores h.process)
  have htarget := hgives.required "target" rfl (Id.restores h.target)
  simp [ofJson?, hf, hchannel, hpool, hprocess, htarget]

theorem Half.restores : ∀ {half : Half}, half.Storable → Restores ofJson? half.toJson half
  | .message _, h => (Message.restores h).variant fun _ hm => by simp [ofJson?, Json.variant?, hm]
  | .service _, h => (Service.restores h).variant fun _ hs => by simp [ofJson?, Json.variant?, hs]
  | .forward _, h => (Forward.restores h).variant fun _ hr => by simp [ofJson?, Json.variant?, hr]

/-! ## Changes -/

theorem Binding.restores {b : Binding} (h : b.Storable) : Restores ofJson? b.toJson b := by
  refine Fields.restores_record (by simp) fun j f hf hgives => ?_
  have hprocess := hgives.required "proc_id" rfl (Id.restores h.process)
  have hplaceholder := hgives.required "ph" rfl (Json.restores_string b.placeholder)
  have hendpoint := hgives.required "ep" rfl (Endpoint.restores h.endpoint)
  have hstamp := hgives.required "rev" rfl (Json.restores_int64 h.stamp)
  simp [ofJson?, hf, hprocess, hplaceholder, hendpoint, hstamp]

theorem Member.restores {m : Member} (h : m.Storable) : Restores ofJson? m.toJson m := by
  refine Fields.restores_record (by simp) fun j f hf hgives => ?_
  have hid := hgives.required "id" rfl (Id.restores h.id)
  have hpool := hgives.required "pool_id" rfl (Id.restores h.pool)
  have hsig := hgives.required "sig_id" rfl (Id.restores h.sig)
  simp [ofJson?, hf, hid, hpool, hsig]

theorem Pool.restores {p : Pool} (h : p.Storable) : Restores ofJson? p.toJson p := by
  refine Fields.restores_record (by simp) fun j f hf hgives => ?_
  have hid := hgives.required "id" rfl (Id.restores h.id)
  have htitle := hgives.optional "title" QualName.text rfl fun name _ => name.restores
  have hsup := hgives.optional "sup" Id.text rfl fun id hid => Id.restores (h.sup id hid)
  have hrev := hgives.required "rev" rfl (Rev.restores h.rev)
  simp [ofJson?, hf, hid, htitle, hsup, hrev]

theorem Liability.restores {l : Liability} (h : l.Storable) : Restores ofJson? l.toJson l := by
  refine Fields.restores_record (by simp) fun j f hf hgives => ?_
  have hpool := hgives.required "pool_id" rfl (Id.restores h.pool)
  have hprocess := hgives.required "proc_id" rfl (Id.restores h.process)
  have hstamp := hgives.required "rev" rfl (Json.restores_int64 h.stamp)
  simp [ofJson?, hf, hpool, hprocess, hstamp]

theorem Lock.restores {l : Lock} (h : l.Storable) : Restores ofJson? l.toJson l := by
  refine Fields.restores_record (by simp) fun j f hf hgives => ?_
  have hpool := hgives.required "pool_id" rfl (Id.restores h.pool)
  have hrev := hgives.required "rev" rfl (Rev.restores h.rev)
  simp [ofJson?, hf, hpool, hrev]

theorem SlotOp.restores : ∀ {op : SlotOp}, op.Storable → Restores ofJson? op.toJson op
  | .put _, h => (Half.restores h).variant fun _ hh => by simp [ofJson?, Json.variant?, hh]
  | .take _, h => (Id.restores h).variant fun _ hc => by simp [ofJson?, Json.variant?, hc]

theorem Change.restores {c : Change} (h : c.Storable) : Restores ofJson? c.toJson c := by
  refine Fields.restores_record (by simp) fun j f hf hgives => ?_
  have hlocks := hgives.required "locks" rfl (.list fun _ hx => Lock.restores (h.locks _ hx))
  have hbindings := hgives.required "bnds" rfl (.list fun _ hx => Binding.restores (h.bindings _ hx))
  have hslots := hgives.required "steps" rfl (.list fun _ hx => SlotOp.restores (h.slots _ hx))
  have hliabilities :=
    hgives.required "liabs" rfl (.list fun _ hx => Liability.restores (h.liabilities _ hx))
  have hmembers := hgives.required "procs" rfl (.list fun _ hx => Member.restores (h.members _ hx))
  have hpools := hgives.required "pools" rfl (.list fun _ hx => Pool.restores (h.pools _ hx))
  have hhomes := hgives.defaulted "homes" [] rfl (.list fun _ hx => Endpoint.restores (h.homes _ hx))
  simp [ofJson?, hf, hlocks, hbindings, hslots, hliabilities, hmembers, hpools, hhomes]

theorem StepSpec.restores {s : StepSpec} (h : s.Storable) : Restores ofJson? s.toJson s := by
  refine Fields.restores_record (by simp) fun j f hf hgives => ?_
  have hpool := hgives.required "pool_id" rfl (Id.restores h.pool)
  have hprocess := hgives.required "proc_id" rfl (Id.restores h.process)
  have hterm := hgives.required "term" rfl (Term.restores s.term h.term)
  simp [ofJson?, hf, hpool, hprocess, hterm]

/-! ## Round trips -/

/-- **What is written is read back.** A type, a term, a submitted step or a change whose fields hold
what they can is read from its JSON form as it was, and from any form that lists the members of
objects in another order. -/
theorem json_round_trip :
    (∀ t : SessionType, t.Ordered → SessionType.ofJson? t.toJson = some t ∧
      ∀ j, t.toJson.Reorders j → SessionType.ofJson? j = some t) ∧
    (∀ t : Term, t.Storable → Term.ofJson? t.toJson = some t ∧
      ∀ j, t.toJson.Reorders j → Term.ofJson? j = some t) ∧
    (∀ s : StepSpec, s.Storable → StepSpec.ofJson? s.toJson = some s ∧
      ∀ j, s.toJson.Reorders j → StepSpec.ofJson? j = some s) ∧
    ∀ c : Change, c.Storable → Change.ofJson? c.toJson = some c ∧
      ∀ j, c.toJson.Reorders j → Change.ofJson? j = some c := by
  refine ⟨fun t h => ?_, fun t h => ?_, fun s h => ?_, fun c h => ?_⟩
  · exact ⟨t.restores h _ (.refl _), t.restores h⟩
  · exact ⟨t.restores h _ (.refl _), t.restores h⟩
  · exact ⟨StepSpec.restores h _ (.refl _), StepSpec.restores h⟩
  · exact ⟨Change.restores h _ (.refl _), Change.restores h⟩

/-- A type with a choice, a step with a case below a spawn, and a change that leaves a case pending;
the step also with its parts listed the other way round. -/
theorem json_round_trip_nested :
    let id (n : Nat) : Id := ⟨n⟩
    let ep : Endpoint := ⟨id 1, id 2, id 3⟩
    let conts : List (Sym × Term) := [("go", .fwd "x" "y"), ("stop", .wait "x" (.close "y"))]
    let tree : SessionType :=
      .plus [("go", .tensor .one (.link ⟨"saved.type", by decide⟩)), ("stop", .up .one)]
    let term : Term := .spawn "x" (id 4) ["y", "z"] (id 3) (.case "x" conts)
    let spec : StepSpec := ⟨id 3, id 5, term⟩
    let change : Change := { (∅ : Change) with
      locks := [⟨id 3, ⟨7⟩⟩]
      bindings := [⟨id 5, "x", ep, -8⟩]
      slots := [.take (id 6), .put (.service ⟨id 1, id 3, id 5, "x", ep, .case conts⟩)]
      pools := [⟨id 9, some ⟨"saved.pool", by decide⟩, none, ⟨1⟩⟩] }
    SessionType.ofJson? tree.toJson = some tree ∧
      Term.ofJson? term.toJson = some term ∧
      StepSpec.ofJson? (.obj [("term", term.toJson), ("proc_id", (id 5).toJson),
        ("pool_id", (id 3).toJson)]) = some spec ∧
      Change.ofJson? change.toJson = some change := by
  intro id ep conts tree term spec change
  have hid : ∀ n ∈ [1, 2, 3, 4, 5, 6, 9], (id n).Storable := by decide
  have hep : ep.Storable := ⟨hid 1 (by decide), hid 2 (by decide), hid 3 (by decide)⟩
  have hconts : (conts.map Prod.fst).Pairwise (· < ·) ∧ Term.StorableBranches conts :=
    ⟨by decide, trivial, trivial, trivial⟩
  have htree : tree.Ordered := ⟨by decide, ⟨trivial, trivial⟩, trivial, trivial⟩
  have hterm : term.Storable := ⟨hid 4 (by decide), hid 3 (by decide), hconts⟩
  have hspec : spec.Storable := ⟨hid 3 (by decide), hid 5 (by decide), hterm⟩
  have hservice : Half.Storable (.service ⟨id 1, id 3, id 5, "x", ep, .case conts⟩) :=
    ⟨hid 1 (by decide), hid 3 (by decide), hid 5 (by decide), hep, hconts⟩
  have hchange : change.Storable := {
    locks := List.forall_mem_singleton.2 ⟨hid 3 (by decide), by decide⟩
    bindings := List.forall_mem_singleton.2 ⟨hid 5 (by decide), hep, by decide⟩
    slots := List.forall_mem_cons.2 ⟨hid 6 (by decide), List.forall_mem_singleton.2 hservice⟩
    liabilities := nofun
    members := nofun
    pools := List.forall_mem_singleton.2 ⟨hid 9 (by decide), nofun, by decide⟩
    homes := nofun }
  obtain ⟨htypes, hterms, hsteps, hchanges⟩ := json_round_trip
  refine ⟨(htypes tree htree).1, (hterms term hterm).1, (hsteps spec hspec).2 _ ?_,
    (hchanges change hchange).1⟩
  exact .obj (List.forall₂_same.2 fun m _ => .mk m.1 (.refl m.2)) (List.reverse_perm _).symm

end Rendezvous
