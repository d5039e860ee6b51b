import TagFormat.Proofs.Registry.Limits

/-! # The history of a registry

What a registry knows of an id is settled by the calls that it has answered: the last registration
of the id is in force unless the id was forgotten after it (`InForce`). A call changes what is known
of one id at most (`getElem?_answer`), so after any calls it is known by folding these
(`getElem?_after`), which comes to the registration in force (`getElem?_after_eq_some_iff`). Hence
what the registry answers about each id, and which ids it lists (`after_reflects`). -/

namespace TagFormat.Registry

/-! ### Calls -/

/-- What a registry is asked for. -/
inductive Call where
  | register (id : UInt64) (fresh : Payload)
  | registerDefault (id : UInt64) (kind : Kind)
  /-- To register a kind of slot, which gets the id as its own. -/
  | registerSlot (id : UInt64) (kind : ExplicitId → Kind)
  | remove (id : UInt64)
  | isRegistered (id : UInt64)
  | create (id : UInt64)
  | parse (bytes : Bytes)
  | parseInto (target : Tag) (bytes : Bytes)
  | read (source : Source)
  | readInto (target : Tag) (source : Source)
  | skip (source : Source)

/-- What a registry answers. -/
inductive Answer where
  | done
  | refused (refusal : Refusal)
  | told (b : Bool)
  | made (outcome : Except TagError Tag)
  | passed (outcome : Except TagError Nat)

/-- The answer to a registration, after which a registry that refused it is as before. -/
def settle (r : Registry) : Except Refusal Registry → Answer × Registry
  | .ok r' => (.done, r')
  | .error refusal => (.refused refusal, r)

/-- The answer to a call, and the registry after it. -/
def answer (r : Registry) : Call → Answer × Registry
  | .register id fresh => r.settle (r.register id fresh)
  | .registerDefault id kind => r.settle (r.registerDefault id kind)
  | .registerSlot id kind => r.settle (Slot.register r id kind)
  | .remove id => (.told (r.remove id).1, (r.remove id).2)
  | .isRegistered id => (.told (r.isRegistered id), r)
  | .create id => (.made (r.create id), r)
  | .parse bytes => (.made (r.parse bytes), r)
  | .parseInto target bytes => (.made (r.parseInto target bytes), r)
  | .read source => (.made (r.read.run [] source).1, r)
  | .readInto target source => (.made ((r.readInto target).run [] source).1, r)
  | .skip source => (.passed (r.skip.run [] source).1, r)

/-- The registry after some calls. -/
def after (r : Registry) (calls : List Call) : Registry :=
  calls.foldl (fun r call => (r.answer call).2) r

/-! ### What is in force -/

namespace Call

/-- The call registers the payload for the id, and is not refused. -/
inductive Registers (id : UInt64) : Call → Payload → Prop where
  | payload (hid : 32 ≤ id) (fresh : Payload) : Registers id (.register id fresh) fresh
  | default (hid : 32 ≤ id) (kind : Kind) : Registers id (.registerDefault id kind) kind.initial
  | slot (own : ExplicitId) (hid : 32 ≤ own.val) (ho : own.val = id) (kind : ExplicitId → Kind) :
      Registers id (.registerSlot id kind) (kind own).initial

/-- The call changes what is registered for the id. -/
def Changes (id : UInt64) (call : Call) : Prop :=
  (∃ fresh, call.Registers id fresh) ∨ call = .remove id

/-- The call is about the id. -/
def concerns (id : UInt64) : Call → Bool
  | .register id' _ | .registerDefault id' _ | .registerSlot id' _ | .remove id'
  | .isRegistered id' | .create id' => id' = id
  | .parse _ | .parseInto _ _ | .read _ | .readInto _ _ | .skip _ => false

/-- What is registered for the id after the call, if `found` is before it. -/
def effect (id : UInt64) (call : Call) (found : Option Payload) : Option Payload :=
  match call with
  | .register id' fresh => if id' = id ∧ Id.isReserved id = false then some fresh else found
  | .registerDefault id' kind =>
    if id' = id ∧ Id.isReserved id = false then some kind.initial else found
  | .registerSlot id' kind =>
    if id' = id ∧ Id.isReserved id = false then
      (ExplicitId.of id).toOption.map fun own => (kind own).initial
    else found
  | .remove id' => if id' = id then none else found
  | _ => found

end Call

/-- The payload was registered for the id, and after that the id was neither registered again nor
forgotten. -/
def InForce (calls : List Call) (id : UInt64) (fresh : Payload) : Prop :=
  ∃ before call after, calls = before ++ call :: after ∧ call.Registers id fresh ∧
    ∀ later ∈ after, ¬later.Changes id

variable {r r' : Registry} {id : UInt64} {fresh : Payload} {calls : List Call} {call : Call}

/-! ### One call -/

theorem isReserved_eq_true_iff : Id.isReserved id = true ↔ id < 32 := by
  unfold Id.isReserved
  rw [decide_eq_true_iff]

theorem isReserved_eq_false_iff : Id.isReserved id = false ↔ 32 ≤ id := by
  unfold Id.isReserved
  rw [decide_eq_false_iff_not, UInt64.not_lt]

theorem not_eq_and_free {id' : UInt64} (h : Id.isReserved id' = true) (id : UInt64) :
    ¬(id' = id ∧ Id.isReserved id = false) := by
  rintro ⟨rfl, hf⟩
  rw [h] at hf
  cases hf

theorem register_of_reserved (h : Id.isReserved id = true) (fresh : Payload) :
    r.register id fresh = .error (.reserved id) := by
  rw [register, if_pos h]

theorem registerSlot_of_reserved (h : Id.isReserved id = true) (kind : ExplicitId → Kind) :
    Slot.register r id kind = .error (.reserved id) := by
  rw [Slot.register, if_pos h]

/-- Under a free id, to register a kind of slot is to register that of a slot of this id. -/
theorem exists_registerSlot_eq (h : Id.isReserved id = false) : ∃ own : ExplicitId, own.val = id ∧
    ExplicitId.of id = .ok own ∧ ∀ (r : Registry) (kind : ExplicitId → Kind),
      Slot.register r id kind = r.registerDefault id (kind own) := by
  have h32 := UInt64.le_iff_toNat_le.mp (isReserved_eq_false_iff.mp h)
  have h16 : 16 ≤ id := by
    rw [UInt64.le_iff_toNat_le]
    change 32 ≤ id.toNat at h32
    change 16 ≤ id.toNat
    omega
  have hof : ExplicitId.of id = .ok ⟨id, h16⟩ := by
    rw [ExplicitId.of, dif_pos h16]
  refine ⟨⟨id, h16⟩, rfl, hof, fun r kind => ?_⟩
  rw [Slot.register, h, hof]
  rfl

theorem settings_settle_register (r : Registry) (id : UInt64) (fresh : Payload) :
    (r.settle (r.register id fresh)).2.settings = r.settings := by
  unfold register
  split_ifs <;> rfl

theorem getElem?_settle_register (r : Registry) (id' : UInt64) (fresh : Payload) (id : UInt64) :
    (r.settle (r.register id' fresh)).2.made[id]? =
      if id' = id ∧ Id.isReserved id = false then some fresh else r.made[id]? := by
  unfold register
  by_cases hr : Id.isReserved id' = true
  · rw [if_pos hr, if_neg (not_eq_and_free hr id)]
    rfl
  · rw [if_neg hr]
    rw [Bool.not_eq_true] at hr
    change (r.made.insert id' fresh)[id]? = _
    rw [Std.TreeMap.getElem?_insert]
    simp only [Std.LawfulEqOrd.compare_eq_iff_eq]
    by_cases he : id' = id
    · rw [if_pos he, if_pos ⟨he, he ▸ hr⟩]
    · rw [if_neg he, if_neg fun h => he h.1]

theorem settings_answer (r : Registry) (call : Call) :
    (r.answer call).2.settings = r.settings := by
  cases call with
  | register id fresh => exact settings_settle_register r id fresh
  | registerDefault id kind => exact settings_settle_register r id kind.initial
  | registerSlot id kind =>
    rw [answer]
    by_cases hr : Id.isReserved id = true
    · rw [registerSlot_of_reserved hr]
      rfl
    · obtain ⟨own, -, -, hslot⟩ := exists_registerSlot_eq (Bool.eq_false_iff.mpr hr)
      rw [hslot]
      exact settings_settle_register r id (kind own).initial
  | remove | isRegistered | create | parse | parseInto | read | readInto | skip => rfl

/-- **A call** changes what is registered for one id at most. -/
theorem getElem?_answer (r : Registry) (call : Call) (id : UInt64) :
    (r.answer call).2.made[id]? = call.effect id r.made[id]? := by
  cases call with
  | register id' fresh => exact getElem?_settle_register r id' fresh id
  | registerDefault id' kind => exact getElem?_settle_register r id' kind.initial id
  | registerSlot id' kind =>
    rw [answer, Call.effect]
    by_cases hr : Id.isReserved id' = true
    · rw [registerSlot_of_reserved hr, if_neg (not_eq_and_free hr id)]
      rfl
    · obtain ⟨own, hown, hof, hslot⟩ := exists_registerSlot_eq (Bool.eq_false_iff.mpr hr)
      rw [hslot, registerDefault, getElem?_settle_register]
      by_cases he : id' = id
      · rw [← he, hof]
        rfl
      · rw [if_neg fun h => he h.1, if_neg fun h => he h.1]
  | remove id' =>
    rw [answer, Call.effect]
    change (r.made.erase id')[id]? = _
    rw [Std.TreeMap.getElem?_erase]
    simp only [Std.LawfulEqOrd.compare_eq_iff_eq]
  | isRegistered | create | parse | parseInto | read | readInto | skip => rfl

namespace Call

variable {call : Call}

theorem Registers.effect_eq (h : call.Registers id fresh) (found : Option Payload) :
    call.effect id found = some fresh := by
  cases h with
  | payload hid | default hid => rw [effect, if_pos ⟨rfl, isReserved_eq_false_iff.mpr hid⟩]
  | slot own hid ho kind =>
    subst ho
    rw [effect, if_pos ⟨rfl, isReserved_eq_false_iff.mpr hid⟩, ExplicitId.of, dif_pos own.le_val]
    rfl

theorem effect_of_not_changes (h : ¬call.Changes id) (found : Option Payload) :
    call.effect id found = found := by
  cases call with
  | register id' fresh =>
    rw [effect, if_neg]
    rintro ⟨rfl, hf⟩
    exact h (.inl ⟨fresh, .payload (isReserved_eq_false_iff.mp hf) fresh⟩)
  | registerDefault id' kind =>
    rw [effect, if_neg]
    rintro ⟨rfl, hf⟩
    exact h (.inl ⟨_, .default (isReserved_eq_false_iff.mp hf) kind⟩)
  | registerSlot id' kind =>
    rw [effect, if_neg]
    rintro ⟨rfl, hf⟩
    obtain ⟨own, ho, -⟩ := exists_registerSlot_eq hf
    exact h (.inl ⟨_, .slot own (ho ▸ isReserved_eq_false_iff.mp hf) ho kind⟩)
  | remove id' =>
    rw [effect, if_neg]
    rintro rfl
    exact h (.inr rfl)
  | isRegistered | create | parse | parseInto | read | readInto | skip => rfl

/-- After a call a payload is registered for an id because the call registers it, or because it was
before and the call does not change this. -/
theorem effect_eq_some_iff {found : Option Payload} : call.effect id found = some fresh ↔
    call.Registers id fresh ∨ found = some fresh ∧ ¬call.Changes id := by
  by_cases hc : call.Changes id
  · rcases hc with ⟨fresh', hk⟩ | rfl
    · rw [hk.effect_eq]
      constructor
      · rintro ⟨⟩
        exact .inl hk
      · rintro (h | ⟨-, hn⟩)
        · rw [← hk.effect_eq found, h.effect_eq]
        · exact absurd (.inl ⟨fresh', hk⟩) hn
    · rw [effect, if_pos rfl]
      constructor
      · rintro ⟨⟩
      · rintro (h | ⟨-, hn⟩)
        · cases h
        · exact absurd (.inr rfl) hn
  · rw [effect_of_not_changes hc]
    constructor
    · exact fun h => .inr ⟨h, hc⟩
    · rintro (h | ⟨h, -⟩)
      · exact absurd (.inl ⟨fresh, h⟩) hc
      · exact h

theorem Changes.concerns (h : call.Changes id) : call.concerns id = true := by
  rcases h with ⟨fresh, _ | _ | ⟨_, _, rfl, _⟩⟩ | rfl <;> exact decide_eq_true rfl

end Call

/-! ### All calls -/

theorem settings_after (r : Registry) (calls : List Call) :
    (r.after calls).settings = r.settings := by
  induction calls generalizing r with
  | nil => rfl
  | cons call calls ih => exact (ih (r.answer call).2).trans (settings_answer r call)

/-- **What is registered for an id** after some calls is told by their effects on it. -/
theorem getElem?_after (r : Registry) (calls : List Call) (id : UInt64) :
    (r.after calls).made[id]? =
      calls.foldl (fun found call => call.effect id found) r.made[id]? := by
  induction calls generalizing r with
  | nil => rfl
  | cons call calls ih =>
    rw [List.foldl_cons, ← getElem?_answer]
    exact ih (r.answer call).2

theorem inForce_concat : InForce (calls ++ [call]) id fresh ↔
    call.Registers id fresh ∨ InForce calls id fresh ∧ ¬call.Changes id := by
  constructor
  · rintro ⟨before, last, after, heq, hlast, hafter⟩
    rcases List.eq_nil_or_concat after with rfl | ⟨after, later, rfl⟩
    · obtain ⟨-, hcall⟩ := List.append_inj' heq rfl
      obtain rfl := List.singleton_inj.mp hcall
      exact .inl hlast
    · rw [List.concat_eq_append] at heq hafter
      rw [← List.cons_append, ← List.append_assoc] at heq
      obtain ⟨hcalls, hcall⟩ := List.append_inj' heq rfl
      obtain rfl := List.singleton_inj.mp hcall
      exact .inr ⟨⟨before, last, after, hcalls, hlast, fun l hl =>
        hafter l (List.mem_append_left _ hl)⟩, hafter call (List.mem_append_right _ (by simp))⟩
  · rintro (h | ⟨⟨before, last, after, rfl, hlast, hafter⟩, hcall⟩)
    · exact ⟨calls, call, [], rfl, h, List.forall_mem_nil _⟩
    · refine ⟨before, last, after ++ [call], by simp, hlast, fun l hl => ?_⟩
      rcases List.mem_append.mp hl with hl | hl
      · exact hafter l hl
      · exact List.mem_singleton.mp hl ▸ hcall

/-- **The registration in force** is what the registry has for the id. -/
theorem getElem?_after_eq_some_iff (settings : Settings) (calls : List Call) :
    (after { settings } calls).made[id]? = some fresh ↔ InForce calls id fresh := by
  rw [getElem?_after]
  change calls.foldl _ (∅ : Std.TreeMap UInt64 Payload)[id]? = some fresh ↔ _
  rw [Std.TreeMap.getElem?_emptyc]
  induction calls using List.reverseRecOn generalizing fresh with
  | nil =>
    constructor
    · rintro ⟨⟩
    · rintro ⟨before, call, after, heq, -⟩
      exact absurd heq.symm (by simp)
  | append_singleton calls call ih =>
    rw [List.foldl_append, List.foldl_cons, List.foldl_nil, Call.effect_eq_some_iff, ih,
      inForce_concat]

/-- The calls about other ids leave no trace in what the registry has for an id. -/
theorem getElem?_after_filter (settings : Settings) (calls : List Call) (id : UInt64) :
    (after { settings } (calls.filter (·.concerns id))).made[id]? =
      (after { settings } calls).made[id]? := by
  rw [getElem?_after, getElem?_after, List.foldl_filter]
  congr 1
  funext found call
  split_ifs with hc
  · rfl
  · exact (Call.effect_of_not_changes (fun h => hc h.concerns) found).symm

theorem InForce.le (h : InForce calls id fresh) : 32 ≤ id := by
  obtain ⟨_, _, _, -, hcall, -⟩ := h
  cases hcall with
  | payload hid | default hid => exact hid
  | slot own hid ho => exact ho ▸ hid

/-! ### What the registry answers -/

theorem ofId?_eq_none_iff (hid : id < 32) :
    Standard.ofId? id = none ↔ id ∈ [15, 26, 27, 28, 29] := by
  have hall : ∀ n : Fin 32, Standard.ofId? (UInt64.ofNat n) = none ↔
      UInt64.ofNat n ∈ [15, 26, 27, 28, 29] := by decide
  have hn := hall ⟨id.toNat, UInt64.lt_iff_toNat_lt.mp hid⟩
  rwa [UInt64.ofNat_toNat] at hn

/-- The standard types come before all that is registered. -/
theorem create_standard (r : Registry) (type : Standard) :
    r.create type.id = .ok (.mk type.id (Kind.standard type).initial) := by
  rw [create, Registry.fresh, Standard.ofId?_id]
  rfl

theorem create_unassigned (r : Registry) (hid : id < 32) (ho : Standard.ofId? id = none) :
    r.create id = .error (.unsupportedId id.toNat) := by
  rw [create, Registry.fresh, ho, if_pos (isReserved_eq_true_iff.mpr hid)]
  rfl

/-- For a free id there is what is registered for it, or what the policy has for unknown ids. -/
theorem create_free (r : Registry) (hid : 32 ≤ id) :
    r.create id = match r.made[id]?, r.settings.unknown with
      | some fresh, _ => .ok (.mk id fresh)
      | none, .permissive => .ok (.mk id (.bytes []))
      | none, .strict => .error (.unsupportedId id.toNat) := by
  have hr := isReserved_eq_false_iff.mpr hid
  have ho : Standard.ofId? id = none := by
    refine Option.eq_none_iff_forall_ne_some.mpr fun type htype => ?_
    rw [← Standard.id_of_ofId? htype] at hr
    cases type <;> cases hr
  rw [create, Registry.fresh, ho, hr]
  cases r.made[id]? with
  | some fresh => rfl
  | none => cases r.settings.unknown <;> rfl

theorem isRegistered_eq_isSome (r : Registry) (id : UInt64) :
    r.isRegistered id = r.made[id]?.isSome :=
  Std.TreeMap.contains_eq_isSome_getElem?

/-- What is answered to a call about an id depends on the policy and on what there is for the id. -/
theorem answer_congr (hs : r.settings = r'.settings) (hm : r.made[id]? = r'.made[id]?)
    (hc : call.concerns id = true) : (r.answer call).1 = (r'.answer call).1 := by
  have hregister : ∀ fresh, (r.settle (r.register id fresh)).1 =
      (r'.settle (r'.register id fresh)).1 := by
    intro fresh
    unfold register
    split_ifs <;> rfl
  cases call with
  | register id' fresh =>
    obtain rfl := of_decide_eq_true hc
    exact hregister fresh
  | registerDefault id' kind =>
    obtain rfl := of_decide_eq_true hc
    exact hregister kind.initial
  | registerSlot id' kind =>
    obtain rfl := of_decide_eq_true hc
    rw [answer, answer]
    by_cases hr : Id.isReserved id' = true
    · rw [registerSlot_of_reserved hr, registerSlot_of_reserved hr]
      rfl
    · obtain ⟨own, -, -, hslot⟩ := exists_registerSlot_eq (Bool.eq_false_iff.mpr hr)
      rw [hslot, hslot]
      exact hregister (kind own).initial
  | remove id' =>
    obtain rfl := of_decide_eq_true hc
    exact congrArg (fun found : Option Payload => Answer.told found.isSome) hm
  | isRegistered id' =>
    obtain rfl := of_decide_eq_true hc
    rw [answer, answer, isRegistered_eq_isSome, isRegistered_eq_isSome, hm]
  | create id' =>
    obtain rfl := of_decide_eq_true hc
    rw [answer, answer, create, create, Registry.fresh, Registry.fresh, hm, hs]
  | parse | parseInto | read | readInto | skip => cases hc

theorem pairwise_ids (r : Registry) : r.ids.Pairwise (· < ·) :=
  Std.TreeMap.ordered_keys.imp Std.compare_eq_lt.mp

theorem mem_ids_iff : id ∈ r.ids ↔ ∃ fresh, r.made[id]? = some fresh := by
  rw [ids, Std.TreeMap.mem_keys, Std.TreeMap.mem_iff_isSome_getElem?, Option.isSome_iff_exists]

/-- What a registry with some settings answers after some calls. -/
structure Reflects (r : Registry) (settings : Settings) (calls : List Call) : Prop where
  /-- To the reserved ids belongs what belongs to them in a new registry: the standard types, and
  nothing to five of them. -/
  reserved : ∀ id < 32, r.create id = create { settings } id ∧
    ((∃ type : Standard, type.id = id ∧ r.create id = .ok (.mk id (Kind.standard type).initial)) ∨
      id ∈ [15, 26, 27, 28, 29] ∧ r.create id = .error (.unsupportedId id.toNat))
  created : ∀ id fresh, InForce calls id fresh → r.create id = .ok (.mk id fresh)
  unknown : ∀ id, 32 ≤ id → (¬∃ fresh, InForce calls id fresh) → r.create id =
    match settings.unknown with
    | .strict => .error (.unsupportedId id.toNat)
    | .permissive => .ok (.mk id (.bytes []))
  /-- Whether there is a registration for the id, and whether there was one to forget. -/
  told : ∀ id, ∃ b : Bool, (b = true ↔ ∃ fresh, InForce calls id fresh) ∧
    (r.answer (.isRegistered id)).1 = .told b ∧ (r.answer (.remove id)).1 = .told b
  accepted : ∀ id, 32 ≤ id → (∀ fresh, (r.answer (.register id fresh)).1 = .done) ∧
    (∀ kind, (r.answer (.registerDefault id kind)).1 = .done) ∧
    ∀ kind, (r.answer (.registerSlot id kind)).1 = .done
  refused : ∀ id < 32, (∀ fresh, r.answer (.register id fresh) = (.refused (.reserved id), r)) ∧
    (∀ kind, r.answer (.registerDefault id kind) = (.refused (.reserved id), r)) ∧
    ∀ kind, r.answer (.registerSlot id kind) = (.refused (.reserved id), r)
  /-- The answers about an id are as if there had been no calls but those about it. -/
  apart : ∀ id (call : Call), call.concerns id = true → (r.answer call).1 =
    ((after { settings } (calls.filter (·.concerns id))).answer call).1
  listed : ∃ ids : List UInt64, ids.Pairwise (· < ·) ∧
    (∀ id, id ∈ ids ↔ ∃ fresh, InForce calls id fresh) ∧
    r.text = "TagFactory \x7b config: " ++ settings.text ++ ", registered: [" ++
      ", ".intercalate (ids.map toString) ++ "] \x7d"

/-- **After any calls** a registry answers as the registrations in force have it. -/
theorem after_reflects (settings : Settings) (calls : List Call) :
    Reflects (after { settings } calls) settings calls := by
  have hs : (after { settings } calls).settings = settings := settings_after _ calls
  have hmade : ∀ id, (∃ fresh, (after { settings } calls).made[id]? = some fresh) ↔
      ∃ fresh, InForce calls id fresh := fun id =>
    exists_congr fun fresh => getElem?_after_eq_some_iff settings calls
  constructor
  case reserved =>
    intro id hid
    cases ho : Standard.ofId? id with
    | some type =>
      obtain rfl := Standard.id_of_ofId? ho
      have hcreate := create_standard (after { settings } calls) type
      exact ⟨hcreate.trans (create_standard _ type).symm, .inl ⟨type, rfl, hcreate⟩⟩
    | none =>
      have hcreate := create_unassigned (after { settings } calls) hid ho
      exact ⟨hcreate.trans (create_unassigned _ hid ho).symm,
        .inr ⟨(ofId?_eq_none_iff hid).mp ho, hcreate⟩⟩
  case created =>
    intro id fresh h
    rw [create_free _ h.le, (getElem?_after_eq_some_iff settings calls).mpr h]
  case unknown =>
    intro id hid h
    rw [← hmade, ← Option.isSome_iff_exists, Option.not_isSome_iff_eq_none] at h
    rw [create_free _ hid, h, hs]
    cases settings.unknown <;> rfl
  case told =>
    refine fun id => ⟨(after { settings } calls).made[id]?.isSome, ?_, ?_, rfl⟩
    · rw [Option.isSome_iff_exists, hmade]
    · rw [answer, isRegistered_eq_isSome]
  case accepted =>
    intro id hid
    have hr := isReserved_eq_false_iff.mpr hid
    obtain ⟨own, -, -, hslot⟩ := exists_registerSlot_eq hr
    have hregister : ∀ fresh, ((after { settings } calls).answer (.register id fresh)).1 = .done := by
      intro fresh
      rw [answer, register, hr]
      rfl
    refine ⟨hregister, fun kind => hregister kind.initial, fun kind => ?_⟩
    rw [answer, hslot]
    exact hregister (kind own).initial
  case refused =>
    intro id hid
    have hr := isReserved_eq_true_iff.mpr hid
    have hregister : ∀ fresh, (after { settings } calls).answer (.register id fresh) =
        (.refused (.reserved id), after { settings } calls) := by
      intro fresh
      rw [answer, register_of_reserved hr]
      rfl
    refine ⟨hregister, fun kind => hregister kind.initial, fun kind => ?_⟩
    rw [answer, registerSlot_of_reserved hr]
    rfl
  case apart =>
    intro id call hc
    refine answer_congr ?_ (getElem?_after_filter settings calls id).symm hc
    rw [settings_after, settings_after]
  case listed =>
    refine ⟨(after { settings } calls).ids, pairwise_ids _, fun id => ?_, ?_⟩
    · rw [mem_ids_iff, hmade]
    · unfold text
      rw [hs]

theorem after_reflects_replaced :
    let calls : List Call := [.registerDefault 40 (.standard .bool), .registerSlot 41 .text,
      .register 40 (.uint8 9), .register 7 (.bool true), .parse [0], .remove 41]
    let r := after {} calls
    r.create 40 = .ok (.mk 40 (.uint8 9)) ∧ r.create 41 = .error (.unsupportedId 41) ∧
      r.create 7 = create {} 7 ∧
      r.answer (.register 7 (.bool true)) = (.refused (.reserved 7), r) := by
  intro calls r
  have h := after_reflects {} calls
  refine ⟨h.created 40 (.uint8 9) ?_, h.unknown 41 (by decide) ?_,
    (h.reserved 7 (by decide)).1, (h.refused 7 (by decide)).1 _⟩
  · rw [← getElem?_after_eq_some_iff {}, getElem?_after]
    rfl
  · rintro ⟨fresh, hfresh⟩
    rw [← getElem?_after_eq_some_iff {}, getElem?_after] at hfresh
    cases hfresh

end TagFormat.Registry
