import TagFormat.Proofs.Registry.RoundTrip
import TagFormat.Registry.Slots

/-! # What is read is within the limits

Whatever the bytes, a tag that is parsed from them is labelled and sized as the registry has it, at
every depth: the id is one that the registry can create a tag of, with a payload of the same type;
sizes and depths are within the limits; slots are filled; integers of any length have the bytes that
were declared for them (`Tag.bytes_infix_of_mem_bigInts`); dictionaries are tidy
(`Registry.parse_vouches`). A slot stands under its own id if the registry was built by registrations
(`Registry.Built.ownIds`). -/

namespace TagFormat

open Cell

/-! ### Ids of slots -/

/-- The slot's own id, in kinds of slots. -/
def Kind.slotId? : Kind → Option UInt64
  | .coordinates id | .fixed _ id | .text id | .nested id => some id.val
  | _ => none

namespace Registry

/-- How registries come about: from an empty one, in which payloads are registered for ids and
forgotten again. A slot that is registered for an id gets it as its own. -/
inductive Built : Registry → Prop where
  | empty (settings : Settings) : Built { settings }
  | register {r r' : Registry} {id : UInt64} {fresh : Payload} (h : Built r)
      (hfresh : fresh.kind.slotId? = none) (hr : r.register id fresh = .ok r') : Built r'
  | registerSlot {r r' : Registry} {id : UInt64} {kind : ExplicitId → Kind} (h : Built r)
      (hkind : ∀ own, (kind own).slotId? = some own.val) (hr : Slot.register r id kind = .ok r') :
      Built r'
  | unregister {r : Registry} (h : Built r) (id : UInt64) : Built (r.unregister id)

/-- Slots are registered for their own ids. -/
def OwnIds (r : Registry) : Prop :=
  ∀ (id : UInt64) (kind : Kind) (own : UInt64),
    r.kind? id = some kind → kind.slotId? = some own → own = id

variable {r r' : Registry} {id : UInt64} {fresh : Payload} {kind : Kind}

theorem kind?_of_register (h : r.register id fresh = .ok r') (id' : UInt64) :
    r'.kind? id' = if id = id' then some fresh.kind else r.kind? id' := by
  unfold register at h
  split_ifs at h
  obtain rfl := Except.ok.inj h
  rw [kind?, kind?, Std.TreeMap.getElem?_insert]
  simp only [Std.LawfulEqOrd.compare_eq_iff_eq]
  split_ifs <;> rfl

theorem exists_of_registerSlot {kind : ExplicitId → Kind} (h : Slot.register r id kind = .ok r') :
    ∃ own : ExplicitId, own.val = id ∧ r.registerDefault id (kind own) = .ok r' := by
  unfold Slot.register ExplicitId.of at h
  split_ifs at h with hr hi
  · exact ⟨⟨id, hi⟩, rfl, h⟩
  · cases h

theorem OwnIds.register (h : r.OwnIds) (hfresh : ∀ own, fresh.kind.slotId? = some own → own = id)
    (hr : r.register id fresh = .ok r') : r'.OwnIds := by
  intro id' kind own hk ho
  rw [kind?_of_register hr] at hk
  split_ifs at hk with he
  · obtain rfl := Option.some.inj hk
    exact (hfresh own ho).trans he
  · exact h id' kind own hk ho

theorem OwnIds.unregister (h : r.OwnIds) (id : UInt64) : (r.unregister id).OwnIds := by
  intro id' kind own hk ho
  change (r.made.erase id)[id']?.map Payload.kind = some kind at hk
  rw [Std.TreeMap.getElem?_erase] at hk
  split_ifs at hk
  · cases hk
  · exact h id' kind own hk ho

/-- **In every registry that is built**, slots are registered for their own ids. -/
theorem Built.ownIds (h : r.Built) : r.OwnIds := by
  induction h with
  | empty settings =>
    intro id kind own hk
    change (∅ : Std.TreeMap UInt64 Payload)[id]?.map Payload.kind = some kind at hk
    rw [Std.TreeMap.getElem?_emptyc] at hk
    cases hk
  | register _ hfresh hr ih =>
    refine ih.register (fun own ho => ?_) hr
    rw [hfresh] at ho
    cases ho
  | registerSlot _ hkind hr ih =>
    obtain ⟨slot, rfl, hr⟩ := exists_of_registerSlot hr
    refine ih.register (fun own ho => ?_) hr
    rw [Kind.kind_initial, hkind] at ho
    exact (Option.some.inj ho).symm
  | unregister _ id ih => exact ih.unregister id

/-! ### Ids that a registry knows -/

/-- A registry has kinds for the ids of the standard types, for free ids that are registered, and,
if it is permissive, for all other free ids. -/
theorem kindOf_cases (h : r.kindOf id = .ok kind) :
    (∃ type : Standard, type.id = id ∧ kind = .standard type) ∨
      Id.isReserved id = false ∧ (r.kind? id = some kind ∨
        r.settings.unknown = .permissive ∧ kind = .standard .bytes) := by
  rw [kindOf_eq] at h
  split at h
  · next type htype =>
    exact Or.inl ⟨type, Standard.id_of_ofId? htype, (Except.ok.inj h).symm⟩
  · split_ifs at h with hr
    refine Or.inr ⟨Bool.eq_false_iff.mpr hr, ?_⟩
    split at h
    · next found hfound =>
      exact Or.inl (hfound.trans (congrArg some (Except.ok.inj h)))
    · next hpolicy =>
      exact Or.inr ⟨hpolicy, (Except.ok.inj h).symm⟩
    · cases h

theorem known_of_kindOf (h : r.kindOf id = .ok kind) :
    (∃ type : Standard, type.id = id) ∨ Id.isReserved id = false ∧
      (r.isRegistered id = true ∨ r.settings.unknown = .permissive) := by
  rcases kindOf_cases h with ⟨type, ht, -⟩ | ⟨hr, hk | ⟨hp, -⟩⟩
  · exact Or.inl ⟨type, ht⟩
  · refine Or.inr ⟨hr, Or.inl ?_⟩
    obtain ⟨fresh, hfresh, -⟩ := Option.map_eq_some_iff.mp hk
    rw [isRegistered, Std.TreeMap.contains_eq_isSome_getElem?, hfresh]
    rfl
  · exact Or.inr ⟨hr, Or.inr hp⟩

/-- No registry has a kind for a reserved id that no type has. -/
theorem not_mem_of_kindOf (h : r.kindOf id = .ok kind) : id ∉ [15, 26, 27, 28, 29] := by
  rcases kindOf_cases h with ⟨type, rfl, -⟩ | ⟨hr, -⟩
  · cases type <;> decide
  · intro hmem
    simp only [List.mem_cons, List.not_mem_nil, or_false] at hmem
    rcases hmem with rfl | rfl | rfl | rfl | rfl
    all_goals exact absurd hr (by decide)

/-- A slot stands under its own id. -/
theorem OwnIds.eq_id (h : r.OwnIds) {own : UInt64} (hk : r.kindOf id = .ok kind)
    (ho : kind.slotId? = some own) : own = id := by
  rcases kindOf_cases hk with ⟨type, -, rfl⟩ | ⟨-, hfound | ⟨-, rfl⟩⟩
  · cases ho
  · exact h id kind own hfound ho
  · cases ho

end Registry

/-! ### What comes from the wire -/

/-- The integers of any length in a payload. -/
def Payload.bigInts : Payload → List BigInt
  | .bigInt n => [n]
  | .bigDecimal d => [d.unscaled]
  | _ => []

theorem Payload.bytes_prefix_of_mem_bigInts {p : Payload} {n : BigInt} (h : n ∈ p.bigInts) :
    exacts n.bytes <+: p.cells ∧ p.cells.length = p.valueSize := by
  cases p with
  | bigInt m =>
    obtain rfl := List.mem_singleton.mp h
    have hcells : (bigInt n).cells = exacts n.bytes := cells_of_block rfl rfl
    rw [hcells, length_exacts]
    exact ⟨List.prefix_rfl, rfl⟩
  | bigDecimal d =>
    obtain rfl := List.mem_singleton.mp h
    have hbytes : (bigDecimal d).writing.bytes =
        d.unscaled.bytes ++ BigEndian.encode 4 d.scale.toUInt32.toNat := by
      rw [writing, Writing.bytes_append rfl, Writing.bytes_block, Writing.int32,
        Writing.bytes_block]
    have hcells : (bigDecimal d).cells = exacts (bigDecimal d).writing.bytes := rfl
    rw [hcells, hbytes, exacts_append, List.length_append, length_exacts, length_exacts,
      BigEndian.length_encode]
    exact ⟨List.prefix_append .., rfl⟩
  | _ => exact absurd h List.not_mem_nil

/-- The bytes of an integer stand behind a header that declares the size of the payload. -/
theorem Tag.bytes_infix_of_mem_bigInts {t : Tag} {n : BigInt} (h : n ∈ t.payload.bigInts) :
    exacts (Header.bytes t.id t.valueSize ++ n.bytes) <:+: t.cells := by
  obtain ⟨id, p⟩ := t
  obtain ⟨⟨rest, hrest⟩, hlength⟩ := Payload.bytes_prefix_of_mem_bigInts (p := p) h
  rw [cells_mk, hlength, ← hrest, exacts_append, ← List.append_assoc]
  exact (List.prefix_append ..).isInfix

namespace Registry

variable {r : Registry}

/-! ### Tags that are read -/

/-- Each step down to a tag inside takes up one of the levels left. -/
theorem Accepts.atDepth {u t : Tag} {d : Nat} (h : u.AtDepth d t) : ∀ {depth : Nat},
    r.Accepts depth t → d ≤ depth ∧ r.Accepts (depth - d + 1) u := by
  induction h with
  | self =>
    rintro (_ | depth) ha
    · exact ha.elim
    · exact ⟨Nat.succ_pos _, ha⟩
  | child hv _ ih =>
    rintro (_ | depth) ha
    · exact ha.elim
    · obtain ⟨hle, hu⟩ := ih (ha.2.children _ hv)
      rw [Nat.add_sub_add_right]
      exact ⟨Nat.succ_le_succ hle, hu⟩

/-- What a registry vouches for, of a tag `u` that stands at some depth of a tag parsed from the
bytes `b`. -/
structure Vouches (r : Registry) (b : Bytes) (d : Nat) (u : Tag) : Prop where
  /-- The payload is of the type with which the registry creates a tag of the id. -/
  kind : (r.create u.id).map (fun fresh => fresh.payload.kind) = .ok u.payload.kind
  known : (∃ type : Standard, type.id = u.id) ∨ Id.isReserved u.id = false ∧
    (r.isRegistered u.id = true ∨ r.settings.unknown = .permissive)
  assigned : u.id ∉ [15, 26, 27, 28, 29]
  depth : d ≤ r.settings.maxDepth.toNat
  declared : Id.isImplicit u.id = false →
    u.payload.cells.length ≤ r.settings.maxTagSize.toNat
  /-- The size in which the payload would be written is the declared one, unless an older version
  comes in. -/
  size : Id.isImplicit u.id = false → (∀ v : Tag, v.Inside u → v.payload.IsCurrent) →
    u.valueSize ≤ r.settings.maxTagSize.toNat
  fixedSize : ∀ n, Id.sizing u.id = .fixed n → u.valueSize = n
  filled : u.payload.IsFilled
  /-- The bytes of an integer are some that were read, at least one, and all that the header in
  front of them leaves to it. -/
  bigInts : ∀ n ∈ u.payload.bigInts, n.bytes ≠ [] ∧ n.bytes <:+: b ∧
    Header.bytes u.id u.valueSize ++ n.bytes <:+: b
  dictionary : ∀ m, u.payload = .dictionary m → m.Tidy
  stringDictionary : ∀ m, u.payload = .stringDictionary m → m.Tidy
  /-- Keys and texts in dictionaries are tags on the wire, one level further down. -/
  strings : ∀ s ∈ u.payload.strings, d + 1 ≤ r.settings.maxDepth.toNat ∧
    (Utf8.encode s).length ≤ r.settings.maxTagSize.toNat

variable {b : Bytes} {t u : Tag} {d depth : Nat}

/-- What holds of a tag at depth `d` that is accepted with `depth` levels below it. -/
theorem Accepts.vouches (ha : r.Accepts (depth + 1) u) (hd : d + depth ≤ r.settings.maxDepth.toNat)
    (hb : ∀ bytes, exacts bytes <:+: u.cells → bytes <:+: b) : r.Vouches b d u := by
  have hfill : u.payload.writing.failure = none :=
    (Tag.failure_writing_eq_none.mp ha.failure_writing).2
  obtain ⟨hallows, hh⟩ := ha
  have hread := hh.readable
  refine
    { kind := ?_
      known := known_of_kindOf hallows.kind
      assigned := not_mem_of_kindOf hallows.kind
      depth := by omega
      declared := hallows.size
      size := fun hi hc => ?_
      fixedSize := fun n hn => ?_
      filled := hread.isFilled
      bigInts := fun n hn => ⟨n.bytes_ne_nil, ?_, hb _ (Tag.bytes_infix_of_mem_bigInts hn)⟩
      dictionary := fun m hm => ?_
      stringDictionary := fun m hm => ?_
      strings := fun s hs => ?_ }
  · rw [create_map_kind, hallows.kind]
  · obtain ⟨hcur, hin⟩ := Tag.forall_inside_iff.mp hc
    have hlen := Payload.length_cells (fun v w hw hv => hin w hw v hv) hcur hfill
    rw [Tag.valueSize, ← hlen]
    exact hallows.size hi
  · have hi : Id.isImplicit u.id = true := Id.isImplicit_of_sizing_ne (by rw [hn]; simp)
    obtain ⟨type, ht, hk⟩ := exists_standard hallows.kind hi
    exact Payload.valueSize_of_fixed hk (ht ▸ hn)
  · exact (List.suffix_append ..).isInfix.trans (hb _ (Tag.bytes_infix_of_mem_bigInts hn))
  · rw [hm] at hread
    rw [show m = .ofList m.toList from hread]
    exact InsertionMap.tidy_ofList _
  · rw [hm] at hread
    rw [show m = .ofList m.toList from hread]
    exact InsertionMap.tidy_ofList _
  · obtain ⟨hpos, hlen⟩ := hh.strings s hs
    exact ⟨by omega, hlen⟩

/-- **Whatever is parsed is within the limits and well labelled**, at every depth. Where the
registry was built by registrations, slots stand under their own ids. -/
theorem parse_vouches (h : r.parse b = .ok t) : ∀ d u, Tag.AtDepth u d t →
    r.Vouches b d u ∧ (r.Built → ∀ own, u.payload.kind.slotId? = some own → own = u.id) := by
  intro d u hu
  obtain ⟨ha, hs⟩ := parse_eq_ok_iff.mp h
  obtain ⟨hle, hau⟩ := ha.atDepth hu
  refine ⟨hau.vouches ?_ fun bytes hbytes => ?_, fun hbuilt own ho => ?_⟩
  · have hlevels : r.levels = r.settings.maxDepth.toNat := rfl
    omega
  · exact hs.infix (hbytes.trans hu.inside.cells_infix)
  · exact hbuilt.ownIds.eq_id hau.1.kind ho

/-- An array with a slot that holds a truth value, in a registry where the slot was registered. -/
theorem parse_vouches_nested :
    let made : Std.TreeMap UInt64 Payload := ∅
    let r : Registry := { made := made.insert 40 (.nested ⟨⟨40, by decide⟩, none⟩) }
    let slot : Tag := .mk 40 (.nested ⟨⟨40, by decide⟩, some (.mk 1 (.bool true))⟩)
    r.Built ∧ r.parse [21, 5, 1, 40, 2, 1, 1] = .ok (.mk 21 (.tagArray [slot])) ∧
      r.Vouches [21, 5, 1, 40, 2, 1, 1] 2 slot ∧
      r.Vouches [21, 5, 1, 40, 2, 1, 1] 3 (.mk 1 (.bool true)) ∧
      ∀ own, slot.payload.kind.slotId? = some own → own = 40 := by
  intro made r slot
  have hregister : Slot.register {} 40 Kind.nested = .ok r := by rfl
  have hbuilt : r.Built := (Built.empty {}).registerSlot (fun _ => rfl) hregister
  have hparse : r.parse [21, 5, 1, 40, 2, 1, 1] = .ok (.mk 21 (.tagArray [slot])) := by
    simp only [made, r, slot]
    cbv
  have hslot : Tag.AtDepth slot 2 (.mk 21 (.tagArray [slot])) :=
    .child (List.mem_singleton_self _) .self
  have htruth : Tag.AtDepth (.mk 1 (.bool true)) 3 (.mk 21 (.tagArray [slot])) :=
    .child (List.mem_singleton_self _) (.child (List.mem_singleton_self _) .self)
  obtain ⟨hvouches, hown⟩ := parse_vouches hparse 2 slot hslot
  exact ⟨hbuilt, hparse, hvouches, (parse_vouches hparse 3 _ htruth).1, hown hbuilt⟩

end Registry

end TagFormat
