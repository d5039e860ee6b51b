import TagFormat.Proofs.Input.Likewise
import TagFormat.Proofs.Registry.Limits
import TagFormat.Proofs.Registry.RoundTrip

/-! # Registries that accept more

What a registry accepts, another accepts that has no narrower limits. If the other has the same kind
for every id that the first has one for, it reads the same tag (`Registry.Accepts.mono`). If it lacks
some of the kinds but is permissive, the payloads of these are plain bytes to it, in which nothing
can go wrong, and all else is read likewise, down to the payloads themselves
(`Registry.likewise_readTag`); so no tag becomes unreadable for want of a kind. -/

namespace TagFormat

open Reading

/-! ### Payloads -/

/-- A payload is read likewise if what stands one level further down is. -/
theorem Kind.likewise_read {inner inner' : Inner}
    (ht : Likewise Whatever inner.tag inner'.tag) (hs : Likewise Eq inner.string inner'.string)
    (declared : Declared) (kind : Kind) :
    Likewise Whatever (kind.read inner declared) (kind.read inner' declared) := by
  cases kind with
  | standard type =>
    cases type with
    | tagArray => exact ht.counted.map fun _ _ _ => trivial
    | tagSequence =>
      exact (Likewise.framed fun size => ht.untilEndFrom size [] []).map fun _ _ _ => trivial
    | dictionary => exact (hs.entries ht).map fun _ _ _ => trivial
    | stringDictionary => exact (hs.entries hs.whatever).map fun _ _ _ => trivial
    | _ => exact (Likewise.refl _).whatever
  | document =>
    have hbody : Likewise Whatever (Body.document.readVersioned inner declared)
        (Body.document.readVersioned inner' declared) := by
      refine .after _ fun size => Likewise.exactly (.after _ fun version => ?_)
      split_ifs
      · exact ht.map fun _ _ _ => trivial
      · exact .fail
    exact hbody.map fun _ _ _ => trivial
  | nested id =>
    have hvalue : Likewise Whatever (Codec.nested.readValue inner declared)
        (Codec.nested.readValue inner' declared) :=
      .after _ fun size => ht.exactly
    exact hvalue.map fun _ _ _ => trivial
  | _ => exact (Likewise.refl _).whatever

theorem Header.likewise_readSize {limit limit' : UInt64} (h : limit ≤ limit') (id : UInt64) :
    Likewise (fun d d' => d = d' ∧ (Id.isImplicit id = false → ∃ n : UInt64, d = .exact n.toNat))
      (readSize id limit) (readSize id limit') := by
  cases hi : Id.isImplicit id with
  | true =>
    have hne : Id.sizing id ≠ .explicit := by
      rw [ne_eq, Id.sizing_eq_explicit_iff, hi]
      decide
    have hsame : readSize id limit = readSize id limit' := by
      unfold readSize
      split <;> trivial
    rw [hsame]
    exact (Likewise.refl _).mono fun _ _ hd => ⟨hd, fun hf => absurd hf (by decide)⟩
  | false =>
    intro left c declared hd
    obtain ⟨n, hn, rfl, rfl⟩ := (yields_readSize_of_explicit hi).mp hd
    have hn' : n ≤ limit' := UInt64.le_trans hn h
    exact ⟨_, (yields_readSize_of_explicit hi).mpr ⟨n, hn', rfl, rfl⟩, rfl, fun _ => ⟨n, rfl⟩⟩

namespace Registry

variable {r r' : Registry} {id : UInt64} {kind : Kind} {t : Tag} {b : Bytes}

/-- What is read as a payload of some kind can be read as plain bytes. -/
theorem likewise_bytes (depth : Nat) (n : UInt64) (inner' : Inner) :
    Likewise Whatever (kind.read (r.inner depth) (.exact n.toNat))
      ((Kind.standard .bytes).read inner' (.exact n.toNat)) := by
  intro left c p hp
  obtain ⟨-, hl, -⟩ := (yields_read_iff (r.readsBy depth) n.toNat_lt).mp hp
  refine ⟨.bytes c, ?_, trivial⟩
  exact yields_map.mpr ⟨c, yields_block.mpr ⟨hl, rfl⟩, rfl⟩

/-! ### The same tag -/

/-- The second registry has the kinds of the first, and its limits are no narrower. -/
structure Widens (r r' : Registry) : Prop where
  size : r.settings.maxTagSize ≤ r'.settings.maxTagSize
  kinds : ∀ id kind, r.kindOf id = .ok kind → r'.kindOf id = .ok kind

theorem Widens.acceptsString (h : r.Widens r') {depth depth' : Nat} (hd : depth ≤ depth')
    {s : String} (hs : r.AcceptsString depth s) : r'.AcceptsString depth' s :=
  ⟨hs.1.trans_le hd, hs.2.trans (UInt64.le_iff_toNat_le.mp h.size)⟩

/-- **What is accepted** is accepted by every registry that is wider, with no fewer levels. -/
theorem Accepts.mono (h : r.Widens r') : ∀ {depth depth' : Nat} {t : Tag}, depth ≤ depth' →
    r.Accepts depth t → r'.Accepts depth' t
  | 0, _, _, _, ht => ht.elim
  | depth + 1, depth' + 1, t, hd, ⟨ha, hh⟩ => by
    have hd' : depth ≤ depth' := Nat.le_of_succ_le_succ hd
    refine ⟨⟨h.kinds _ _ ha.kind, fun hi => ?_⟩, hh.readable, fun u hu => ?_, fun s hs => ?_⟩
    · exact (ha.size hi).trans (UInt64.le_iff_toNat_le.mp h.size)
    · exact (hh.children u hu).mono h hd'
    · exact h.acceptsString hd' (hh.strings s hs)

/-- The same kinds under the same policy, or the kinds of a strict registry and others. -/
theorem kindOf_mono (h : (∀ id : UInt64, r'.kind? id = r.kind? id) ∧
      r'.settings.unknown = r.settings.unknown ∨
    r.settings.unknown = .strict ∧
      ∀ (id : UInt64) (kind : Kind), r.kind? id = some kind → r'.kind? id = some kind)
    (hk : r.kindOf id = .ok kind) : r'.kindOf id = .ok kind := by
  rw [kindOf_eq] at hk ⊢
  cases hid : Standard.ofId? id with
  | some type =>
    rw [hid] at hk
    exact hk
  | none =>
    rw [hid] at hk
    simp only at hk ⊢
    split_ifs at hk ⊢ with hr
    rcases h with ⟨hkinds, hpolicy⟩ | ⟨hstrict, hkinds⟩
    · rw [hkinds, hpolicy]
      exact hk
    · rw [hstrict] at hk
      cases hfound : r.kind? id with
      | none =>
        rw [hfound] at hk
        cases hk
      | some found =>
        rw [hfound] at hk
        rw [hkinds id found hfound]
        exact hk

/-! ### Plain bytes for what is unknown -/

/-- A permissive registry has the kind that another has for an id, if it has one of its own, and
plain bytes otherwise. -/
theorem kindOf_permissive (hp : r'.settings.unknown = .permissive)
    (hkinds : ∀ (id : UInt64) (kind : Kind), r'.kind? id = some kind → r.kind? id = some kind)
    (hk : r.kindOf id = .ok kind) : r'.kindOf id = .ok kind ∨
      Id.isImplicit id = false ∧ r'.kindOf id = .ok (.standard .bytes) := by
  rw [kindOf_eq] at hk ⊢
  cases hid : Standard.ofId? id with
  | some type =>
    rw [hid] at hk
    exact .inl hk
  | none =>
    rw [hid] at hk
    simp only at hk ⊢
    split_ifs at hk ⊢ with hr
    rw [hp]
    cases hfound : r'.kind? id with
    | none =>
      have hi : Id.isImplicit id ≠ true := fun hi => hr (Id.isReserved_of_isImplicit hi)
      exact .inr ⟨Bool.eq_false_iff.mpr hi, rfl⟩
    | some found =>
      rw [hkinds id found hfound] at hk
      exact .inl hk

/-- What follows an id is read likewise by a registry with wider limits, if it has the same kind for
the id, or reads plain bytes. -/
theorem likewise_readBody {depth : Nat} {inner' : Inner} {kind' : Kind}
    (hsize : r.settings.maxTagSize ≤ r'.settings.maxTagSize)
    (ht : Likewise Whatever (r.inner depth).tag inner'.tag)
    (hs : Likewise Eq (r.inner depth).string inner'.string)
    (hk : kind' = kind ∨ Id.isImplicit id = false ∧ kind' = .standard .bytes) :
    Likewise (fun t t' : Tag => t.id = t'.id) (r.readBody (r.inner depth) id kind)
      (r'.readBody inner' id kind') := by
  refine (Header.likewise_readSize hsize id).bind fun declared _ hd => ?_
  obtain ⟨rfl, hexact⟩ := hd
  have hpayload : Likewise Whatever (kind.read (r.inner depth) declared)
      (kind'.read inner' declared) := by
    rcases hk with rfl | ⟨hi, rfl⟩
    · exact kind'.likewise_read ht hs declared
    · obtain ⟨n, rfl⟩ := hexact hi
      exact likewise_bytes depth n inner'
  exact hpayload.map fun _ _ _ => rfl

theorem likewise_readString (hsize : r.settings.maxTagSize ≤ r'.settings.maxTagSize) :
    ∀ {depth depth' : Nat}, depth ≤ depth' →
      Likewise Eq (r.readString depth) (r'.readString depth')
  | 0, _, _ => .fail
  | depth + 1, depth' + 1, _ => by
    intro left c s hs
    obtain ⟨hle, hc⟩ := yields_readString.mp hs
    exact ⟨s, yields_readString.mpr ⟨hle.trans (UInt64.le_iff_toNat_le.mp hsize), hc⟩, rfl⟩

/-- **A tag is read likewise** by a registry with wider limits that is permissive, whichever of the
kinds it has. -/
theorem likewise_readTag (hsize : r.settings.maxTagSize ≤ r'.settings.maxTagSize)
    (hp : r'.settings.unknown = .permissive)
    (hkinds : ∀ (id : UInt64) (kind : Kind), r'.kind? id = some kind → r.kind? id = some kind) :
    ∀ {depth depth' : Nat}, depth ≤ depth' →
      Likewise (fun t t' : Tag => t.id = t'.id) (r.readTag depth) (r'.readTag depth')
  | 0, _, _ => .fail
  | depth + 1, depth' + 1, hd => by
    have hd' : depth ≤ depth' := Nat.le_of_succ_le_succ hd
    have htag : Likewise Whatever (r.inner depth).tag (r'.inner depth').tag :=
      (likewise_readTag hsize hp hkinds hd').whatever
    refine .after Reading.varint fun id => ?_
    intro left c t ht
    obtain ⟨kind, hk, ht⟩ := yields_ofExcept_bind.mp ht
    have hbody : ∀ {kind' : Kind}, r'.kindOf id = .ok kind' →
        (kind' = kind ∨ Id.isImplicit id = false ∧ kind' = .standard .bytes) →
        ∃ t', ((ofExcept (r'.kindOf id)).bind fun kind =>
          r'.readBody (r'.inner depth') id kind).Yields left c t' ∧ t.id = t'.id := by
      intro kind' hk' h
      obtain ⟨t', ht', hid⟩ :=
        likewise_readBody hsize htag (likewise_readString hsize hd') h left c t ht
      exact ⟨t', yields_ofExcept_bind.mpr ⟨kind', hk', ht'⟩, hid⟩
    -- Without a kind for the id, the size that was declared still delimits the payload.
    rcases kindOf_permissive hp hkinds hk with hk' | ⟨hi, hk'⟩
    · exact hbody hk' (.inl rfl)
    · exact hbody hk' (.inr ⟨hi, rfl⟩)

/-! ### All of the bytes -/

/-- **A registry that is wider accepts more.** Let no limit of the second registry be narrower, and
let the first accept some bytes. If both have the same kinds and the same policy, or the first is
strict and the second has its kinds and maybe others, then the second reads the very same tag. If the
second is permissive and has some of the kinds, or none, it reads a tag with the same id. -/
theorem parse_mono (hsize : r.settings.maxTagSize ≤ r'.settings.maxTagSize)
    (hdepth : r.settings.maxDepth ≤ r'.settings.maxDepth) (h : r.parse b = .ok t) :
    ((∀ id : UInt64, r'.kind? id = r.kind? id) ∧ r'.settings.unknown = r.settings.unknown ∨
      r.settings.unknown = .strict ∧
        (∀ (id : UInt64) (kind : Kind), r.kind? id = some kind → r'.kind? id = some kind) →
      r'.parse b = .ok t) ∧
    (r'.settings.unknown = .permissive →
      (∀ (id : UInt64) (kind : Kind), r'.kind? id = some kind → r.kind? id = some kind) →
      ∃ t', r'.parse b = .ok t' ∧ t'.id = t.id) := by
  have hlevels : r.levels ≤ r'.levels := UInt32.le_iff_toNat_le.mp hdepth
  refine ⟨fun hkinds => ?_, fun hp hkinds => ?_⟩
  · obtain ⟨ha, hs⟩ := parse_eq_ok_iff.mp h
    have hw : r.Widens r' := ⟨hsize, fun _ _ hk => kindOf_mono hkinds hk⟩
    exact parse_eq_ok_iff.mpr ⟨ha.mono hw hlevels, hs⟩
  · obtain ⟨t', ht', hid⟩ :=
      likewise_readTag hsize hp hkinds hlevels none b t (parseWith_eq_ok_iff_yields.mp h)
    exact ⟨t', parseWith_eq_ok_iff_yields.mpr ht', hid.symm⟩

/-- A point of the first version in an array, read with its kind, with more kinds, and without. -/
theorem parse_mono_point :
    let none : Std.TreeMap UInt64 Payload := ∅
    let one := none.insert 33 Kind.point.initial
    let r : Registry := { made := one }
    let more : Registry :=
      { made := one.insert 40 Kind.document.initial, settings := { unknown := .permissive } }
    let less : Registry := { made := none, settings := { maxDepth := 200, unknown := .permissive } }
    let b : Bytes := [21, 6, 1, 33, 3, 0, 1, 7]
    r.parse b = .ok (.mk 21 (.tagArray [.mk 33 (.point ⟨1, ⟨7, 0⟩⟩)])) ∧
    more.parse b = .ok (.mk 21 (.tagArray [.mk 33 (.point ⟨1, ⟨7, 0⟩⟩)])) ∧
    (∃ t, less.parse b = .ok t ∧ t.id = 21) ∧
    less.parse b = .ok (.mk 21 (.tagArray [.mk 33 (.bytes [0, 1, 7])])) := by
  intro none one r more less b
  have hparse : r.parse b = .ok (.mk 21 (.tagArray [.mk 33 (.point ⟨1, ⟨7, 0⟩⟩)])) := by
    simp only [none, one, r, b]
    cbv
  have hbytes : less.parse b = .ok (.mk 21 (.tagArray [.mk 33 (.bytes [0, 1, 7])])) := by
    simp only [none, less, b]
    cbv
  have hmore : ∀ (id : UInt64) (kind : Kind), r.kind? id = some kind →
      more.kind? id = some kind := by
    intro id kind h
    have hid : id = 33 := by
      by_contra hne
      simp [kind?, r, one, none, Ne.symm hne] at h
    subst hid
    have hkept : more.kind? 33 = r.kind? 33 := by
      rw [kind?, Std.TreeMap.getElem?_insert, if_neg (by decide)]
      rfl
    rw [hkept, h]
  have hless : ∀ (id : UInt64) (kind : Kind), less.kind? id = some kind →
      r.kind? id = some kind := by
    intro id kind h
    simp [kind?, less, none] at h
  exact ⟨hparse, (parse_mono (by decide) (by decide) hparse).1 (.inr ⟨rfl, hmore⟩),
    (parse_mono (by decide) (by decide) hparse).2 rfl hless, hbytes⟩

end Registry

end TagFormat
