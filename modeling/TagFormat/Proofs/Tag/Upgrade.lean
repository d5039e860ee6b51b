import TagFormat.Proofs.Registry.Accepts

/-! # Tags in the current version

A versioned value remembers the version that it was read in, but is written in the current one.
`Tag.upgrade` makes all versioned values in a tag current and leaves all else as it is. The tag is
written as before (`Tag.writing_upgrade`), and where all is current already, and dictionaries are as
readers build them, nothing changes (`Tag.upgrade_eq_self`). -/

namespace TagFormat

/-! ### One level -/

namespace Payload

/-- The payload with other tags one level further down, one for each that is there. -/
def withChildren : Payload → List Tag → Payload
  | .tagArray _, us => .tagArray us
  | .tagSequence _, us => .tagSequence us
  | .dictionary m, us => .dictionary (.ofList (m.keys.zip us))
  | .document v, u :: _ => .document { v with inner := u }
  | .nested slot, u :: _ => .nested { slot with value := u }
  | p, _ => p

/-- The payload in the version in which it is written. -/
def upToDate : Payload → Payload
  | .point v => .point (Body.point.upToDate v.inner)
  | .document v => .document (Body.document.upToDate v.inner)
  | p => p

/-- The payload in the version in which it is written, with `f` done to the tags one level further
down. -/
def upgradeBy (f : Tag → Tag) (p : Payload) : Payload :=
  (p.withChildren (p.children.map f)).upToDate

variable {p : Payload} {f : Tag → Tag}

theorem upgradeBy_dictionary (m : InsertionMap String Tag) : (dictionary m).upgradeBy f =
    .dictionary (.ofList (m.toList.map fun e => (e.1, f e.2))) := by
  have hzip : m.keys.zip (m.values.map f) = m.toList.map fun e => (e.1, f e.2) := by
    rw [InsertionMap.keys, InsertionMap.values, List.map_map, List.zip_map']
    rfl
  change Payload.dictionary (.ofList (m.keys.zip (m.values.map f))) = _
  rw [hzip]

theorem kind_upgradeBy (f : Tag → Tag) (p : Payload) : (p.upgradeBy f).kind = p.kind := by
  cases p with
  | nested slot => obtain ⟨id, _ | t⟩ := slot <;> rfl
  | _ => rfl

theorem isCurrent_upgradeBy (f : Tag → Tag) (p : Payload) : (p.upgradeBy f).IsCurrent := by
  cases p with
  | nested slot => obtain ⟨id, _ | t⟩ := slot <;> trivial
  | point | document => rfl
  | _ => trivial

theorem IsFilled.upgradeBy (h : p.IsFilled) (f : Tag → Tag) : (p.upgradeBy f).IsFilled := by
  cases p with
  | nested slot =>
    obtain ⟨id, _ | t⟩ := slot
    · cases h
    · rfl
  | coordinates | fixed | text => exact h
  | _ => trivial

/-! ### Dictionaries -/

theorem IsBuilt.isSound (h : p.IsBuilt) : p.IsSound := by
  cases p with
  | dictionary m => exact InsertionMap.sound_of_eq_ofList h
  | stringDictionary m => exact InsertionMap.sound_of_eq_ofList h
  | _ => trivial

theorem IsReadable.isBuilt (h : p.IsReadable) : p.IsBuilt := by
  cases p with
  | dictionary | stringDictionary => exact h
  | _ => trivial

theorem IsBuilt.upgradeBy (h : p.IsBuilt) (f : Tag → Tag) : (p.upgradeBy f).IsBuilt := by
  cases p with
  | dictionary m =>
    have hsound := InsertionMap.sound_of_eq_ofList h
    rw [upgradeBy_dictionary, IsBuilt, hsound.toList_ofList_map]
  | stringDictionary m => exact h
  | nested slot => obtain ⟨id, _ | t⟩ := slot <;> trivial
  | _ => trivial

theorem IsBuilt.children_upgradeBy (h : p.IsBuilt) (f : Tag → Tag) :
    (p.upgradeBy f).children = p.children.map f := by
  cases p with
  | dictionary m =>
    have hsound := InsertionMap.sound_of_eq_ofList h
    rw [upgradeBy_dictionary, children, children, InsertionMap.values,
      hsound.toList_ofList_map, InsertionMap.values, List.map_map, List.map_map]
    rfl
  | nested slot => obtain ⟨id, _ | t⟩ := slot <;> rfl
  | _ => rfl

theorem IsBuilt.strings_upgradeBy (h : p.IsBuilt) (f : Tag → Tag) :
    (p.upgradeBy f).strings = p.strings := by
  cases p with
  | dictionary m =>
    have hsound := InsertionMap.sound_of_eq_ofList h
    rw [upgradeBy_dictionary, strings, strings, InsertionMap.keys, hsound.toList_ofList_map,
      InsertionMap.keys_map]
    rfl
  | nested slot => obtain ⟨id, _ | t⟩ := slot <;> rfl
  | _ => rfl

/-- **The payload is written as before** if the tags in it are. -/
theorem IsBuilt.writing_upgradeBy (h : p.IsBuilt)
    (hf : ∀ u ∈ p.children, (f u).writing = u.writing) :
    (p.upgradeBy f).writing = p.writing := by
  have htags : ∀ tags : List Tag, (∀ u ∈ tags, (f u).writing = u.writing) →
      (tags.map f).map Tag.writing = tags.map Tag.writing := fun tags htags => by
    rw [List.map_map]
    exact List.map_congr_left htags
  cases p with
  | tagArray tags =>
    change (tagArray (tags.map f)).writing = _
    rw [writing, writing, Tag.writings_eq, Tag.writings_eq, List.length_map, htags tags hf]
  | tagSequence tags =>
    change (tagSequence (tags.map f)).writing = _
    rw [writing, writing, Tag.writings_eq, Tag.writings_eq, htags tags hf]
  | dictionary m =>
    have hsound := InsertionMap.sound_of_eq_ofList h
    rw [upgradeBy_dictionary, writing_dictionary, writing_dictionary, hsound.size_ofList_map,
      hsound.toList_ofList_map, List.map_map]
    refine congrArg (fun entries => _ ++ Writing.concat entries)
      (List.map_congr_left fun e he => ?_)
    have he' : (f e.2).writing = e.2.writing := hf e.2 (List.mem_map_of_mem he)
    change Tag.stringWriting e.1 ++ (f e.2).writing = _
    rw [he']
  | document v =>
    change (document (Body.document.upToDate (f v.inner))).writing = _
    rw [Body.upToDate, writing, writing, hf v.inner (List.mem_singleton_self _)]
  | nested slot =>
    obtain ⟨id, _ | t⟩ := slot
    · rfl
    · change (nested ⟨id, some (f t)⟩).writing = _
      rw [writing, writing, hf t (List.mem_singleton_self _)]
  | _ => rfl

/-- **The payload stays as it is** if it is current and the tags in it stay. -/
theorem IsBuilt.upgradeBy_eq_self (h : p.IsBuilt) (hp : p.IsCurrent)
    (hf : ∀ u ∈ p.children, f u = u) : p.upgradeBy f = p := by
  have htags : ∀ tags : List Tag, (∀ u ∈ tags, f u = u) → tags.map f = tags := fun tags htags =>
    (List.map_congr_left htags).trans (List.map_id tags)
  cases p with
  | tagArray tags => exact congrArg tagArray (htags tags hf)
  | tagSequence tags => exact congrArg tagSequence (htags tags hf)
  | dictionary m =>
    have hm : m.toList.map (fun e => (e.1, f e.2)) = m.toList :=
      InsertionMap.map_eq_self fun e he => hf e.2 (List.mem_map_of_mem he)
    rw [upgradeBy_dictionary, hm, ← (h : m = _)]
  | point v =>
    obtain ⟨version, a⟩ := v
    obtain rfl : version = Point.currentVersion := hp
    rfl
  | document v =>
    obtain ⟨version, t⟩ := v
    obtain rfl : version = documentVersion := hp
    have ht : f t = t := hf t (List.mem_singleton_self _)
    change document ⟨documentVersion, f t⟩ = _
    rw [ht]
  | nested slot =>
    obtain ⟨id, _ | t⟩ := slot
    · rfl
    · have ht : f t = t := hf t (List.mem_singleton_self _)
      change nested ⟨id, some (f t)⟩ = _
      rw [ht]
  | _ => rfl

end Payload

/-! ### All levels -/

namespace Tag

/-- The tag with all versioned values in it in the version in which they are written. -/
def upgrade (t : Tag) : Tag :=
  t.fold fun t us => .mk t.id (t.payload.withChildren us).upToDate

theorem upgrade_eq (t : Tag) : t.upgrade = .mk t.id (t.payload.upgradeBy upgrade) :=
  t.fold_eq _

@[simp] theorem id_upgrade (t : Tag) : t.upgrade.id = t.id := by
  rw [upgrade_eq, id_mk]

@[simp] theorem payload_upgrade (t : Tag) : t.upgrade.payload = t.payload.upgradeBy upgrade := by
  rw [upgrade_eq, payload_mk]

/-- The dictionaries of the tag are built from their entries, and so are all inside it. -/
def IsBuilt (t : Tag) : Prop :=
  ∀ u : Tag, u.Inside t → u.payload.IsBuilt

variable {t : Tag}

theorem IsBuilt.child (h : t.IsBuilt) {u : Tag} (hu : u ∈ t.children) : u.IsBuilt :=
  fun v hv => h v (.child hu hv)

theorem IsBuilt.children_upgrade (h : t.IsBuilt) : t.upgrade.children = t.children.map upgrade := by
  rw [children, payload_upgrade]
  exact (h t .self).children_upgradeBy upgrade

/-- What is inside is what it was, upgraded. -/
theorem forall_inside_upgrade_iff {property : Tag → Prop} : ∀ t : Tag, t.IsBuilt →
    ((∀ u : Tag, u.Inside t.upgrade → property u) ↔
      ∀ u : Tag, u.Inside t → property u.upgrade) := by
  refine Tag.induction fun t ih h => ?_
  have hinside : (∀ u : Tag, u.Inside t → property u.upgrade) ↔ property t.upgrade ∧
      ∀ v ∈ t.children, ∀ u : Tag, u.Inside v → property u.upgrade := forall_inside_iff
  rw [forall_inside_iff, hinside, h.children_upgrade, List.forall_mem_map]
  refine and_congr_right fun _ => forall₂_congr fun u hu => ?_
  exact ih u hu (h.child hu)

theorem depth_upgrade_le_iff : ∀ t : Tag, t.IsBuilt → ∀ {n : Nat},
    t.upgrade.depth ≤ n ↔ t.depth ≤ n := by
  refine Tag.induction fun t ih h n => ?_
  cases n with
  | zero => exact iff_of_false (Nat.not_le.mpr t.upgrade.depth_pos) (Nat.not_le.mpr t.depth_pos)
  | succ n =>
    rw [depth_le_succ_iff, depth_le_succ_iff, h.children_upgrade, List.forall_mem_map,
      payload_upgrade, (h t .self).strings_upgradeBy]
    refine and_congr_right fun _ => forall₂_congr fun u hu => ?_
    exact ih u hu (h.child hu)

/-- **A tag is written as before**, also in its header. -/
theorem writing_upgrade : ∀ t : Tag, t.IsBuilt → t.writing.failure = none →
    t.upgrade.writing = t.writing ∧ t.upgrade.valueSize = t.valueSize := by
  refine Tag.induction fun t ih h hf => ?_
  obtain ⟨-, hp⟩ := failure_writing_eq_none.mp hf
  have hpayload : (t.payload.upgradeBy upgrade).writing = t.payload.writing := by
    refine (h t .self).writing_upgradeBy fun u hu => ?_
    exact (ih u hu (h.child hu) ((Inside.of_mem hu).within hf).1).1
  -- the same bytes, so the same number of them
  have hsize : (t.payload.upgradeBy upgrade).valueSize = t.payload.valueSize := by
    have hfills := (t.payload.upgradeBy upgrade).fills_writing fun u _ => u.fills
    rw [hpayload] at hfills
    rw [← hfills hp, ← t.payload.fills_writing (fun u _ => u.fills) hp]
  rw [valueSize, valueSize, payload_upgrade]
  refine ⟨?_, hsize⟩
  obtain ⟨id, p⟩ := t
  rw [payload_mk] at hpayload hsize
  rw [upgrade_eq, writing_mk, writing_mk, payload_mk, id_mk, hpayload, hsize]

theorem isCurrent_upgrade (h : t.IsBuilt) : ∀ u : Tag, u.Inside t.upgrade → u.payload.IsCurrent := by
  refine (forall_inside_upgrade_iff t h).mpr fun u _ => ?_
  rw [payload_upgrade]
  exact Payload.isCurrent_upgradeBy upgrade u.payload

theorem IsBuilt.upgrade (h : t.IsBuilt) : t.upgrade.IsBuilt := by
  refine (forall_inside_upgrade_iff t h).mpr fun u hu => ?_
  rw [payload_upgrade]
  exact (h u hu).upgradeBy Tag.upgrade

/-- **A tag stays as it is** if all versions in it are current. -/
theorem upgrade_eq_self : ∀ t : Tag, t.IsBuilt → (∀ u : Tag, u.Inside t → u.payload.IsCurrent) →
    t.upgrade = t := by
  refine Tag.induction fun t ih h hc => ?_
  have hself : t.payload.upgradeBy upgrade = t.payload := by
    refine (h t .self).upgradeBy_eq_self (hc t .self) fun u hu => ?_
    exact ih u hu (h.child hu) fun v hv => hc v (.child hu hv)
  rw [upgrade_eq, hself]
  cases t
  rfl

/-- **Upgrading twice** is upgrading once. -/
theorem upgrade_upgrade (h : t.IsBuilt) : t.upgrade.upgrade = t.upgrade :=
  upgrade_eq_self t.upgrade h.upgrade (isCurrent_upgrade h)

end Tag

end TagFormat
