import TagFormat.Proofs.Registry.Locality
import TagFormat.Proofs.Registry.Reading
import TagFormat.Proofs.Tag.Overwriting
import TagFormat.Proofs.Varint.Decoding

/-! # Reading over a tag

A tag is read over what the registry makes for its id, of which only the kind matters
(`Registry.readTag_eq_readOver`). It is read over another tag by a program of its own, which takes
the id from the tag that is there and not the kind from the registry. Both programs start with an id
(`Registry.read_eq`, `Registry.readInto_eq`). If it is that of the tag, and the registry has the kind
of the tag for it, they go on alike, since nothing is kept of the payload that is there; with another
id, the tag is refused right behind it (`Registry.readInto_overwrites`). -/

namespace TagFormat.Registry

open Reading

variable {r : Registry} {u : Tag} {stops : List Nat} {s t : Source} {id : UInt64}

/-! ### Two programs that start with an id -/

theorem levels_eq_succ (h : 1 ≤ r.settings.maxDepth) : r.levels = r.levels - 1 + 1 := by
  have hpos : 1 ≤ r.levels := UInt32.le_iff_toNat_le.mp h
  omega

/-- Where a level is left, the id comes first, and then the kind that the registry has for it. -/
theorem read_eq (h : 1 ≤ r.settings.maxDepth) :
    r.read = Reading.varint.bind fun id => (ofExcept (r.kindOf id)).bind fun kind =>
      r.readBody (r.inner (r.levels - 1)) id kind := by
  rw [read, levels_eq_succ h]
  rfl

/-- Where a level is left, the id comes first, and then the kind of the tag that is there. -/
theorem readInto_eq (h : 1 ≤ r.settings.maxDepth) (u : Tag) :
    r.readInto u = (expectId u.id).bind fun _ =>
      r.readBody (r.inner (r.levels - 1)) u.id u.payload.kind := by
  rw [readInto, levels_eq_succ h]
  simp only [Payload.readOver_eq]
  rfl

/-- **A tag is read over what is made for its id**, whatever that holds. -/
theorem readTag_eq_readOver (r : Registry) (depth : Nat) : r.readTag (depth + 1) =
    Reading.varint.bind fun id => (ofExcept (r.fresh id)).bind fun fresh =>
      (Header.readSize id r.settings.maxTagSize).bind fun declared =>
        (fresh.readOver (r.inner depth) declared).bind fun payload => .done (.mk id payload) := by
  rw [readTag]
  refine congrArg Reading.varint.bind (funext fun id => ?_)
  rw [kindOf]
  cases r.fresh id with
  | error error => rfl
  | ok fresh =>
    simp only [Payload.readOver_eq]
    rfl

/-! ### What follows the id -/

theorem run_readInto_of_eq (h : 1 ≤ r.settings.maxDepth) (hk : r.kindOf u.id = .ok u.payload.kind)
    (hid : Reading.varint.run stops s = (.ok u.id, t)) :
    (r.readInto u).run stops s = r.read.run stops s := by
  have hexpect : (expectId u.id).run stops s = (.ok (), t) := by
    rw [expectId, bind_eq, run_bind_of_ok hid, if_pos rfl]
    rfl
  rw [readInto_eq h, read_eq h, run_bind_of_ok hexpect, run_bind_of_ok hid, hk]
  rfl

theorem run_readInto_of_ne (h : 1 ≤ r.settings.maxDepth)
    (hid : Reading.varint.run stops s = (.ok id, t)) (hne : id ≠ u.id) :
    (r.readInto u).run stops s = (.error (.unexpectedId u.id.toNat id.toNat), t) := by
  have hexpect : (expectId u.id).run stops s =
      (.error (.unexpectedId u.id.toNat id.toNat), t) := by
    rw [expectId, bind_eq, run_bind_of_ok hid, if_neg hne]
    rfl
  rw [readInto_eq h, run_bind_of_error hexpect]

/-- Where there is no id, both programs stop there. -/
theorem run_readInto_of_error (h : 1 ≤ r.settings.maxDepth) {error : TagError}
    (hid : Reading.varint.run stops s = (.error error, t)) :
    (r.readInto u).run stops s = (.error error, t) ∧ r.read.run stops s = (.error error, t) := by
  have hexpect : (expectId u.id).run stops s = (.error error, t) := by
    rw [expectId, bind_eq, run_bind_of_error hid]
  rw [readInto_eq h, read_eq h, run_bind_of_error hexpect, run_bind_of_error hid]
  exact ⟨rfl, rfl⟩

/-! ### Ids at the start of the bytes -/

theorem eq_advance_of_run_varint (hs : ∀ stop ∈ stops, s.pos ≤ stop)
    (h : Reading.varint.run stops s = (.ok id, t)) : t = s.advance (Varint.encodedSize id) := by
  obtain ⟨n, hn, rfl, -, hy⟩ := (run_eq_ok_iff hs).mp h
  have hlen := congrArg List.length (yields_varint.mp hy)
  rw [List.length_take, Nat.min_eq_left hn, Varint.length_encode] at hlen
  rw [hlen]

theorem run_varint_of_decode {b : Bytes} {n : Nat} (h : Varint.decode b = .ok (id, n)) :
    ∃ t, Reading.varint.run [] (.ofBytes b) = (.ok id, t) := by
  obtain ⟨-, rest, hb⟩ := (Varint.decode_eq_ok_iff _ _ _).mp h
  exact ⟨_, run_ofBytes_eq_ok_iff.mpr ⟨_, rest, hb.symm, rfl, yields_varint.mpr rfl⟩⟩

/-- **What a tag held before makes no difference** to what is read over it. Let the registry create
tags of the kind of `u` for its id. From any source that starts with this id, reading over `u` comes
to what reading a tag comes to: to the same tag or to the same error, after the same bytes. With
another id, `u` is refused when the bytes of that id have been read. So it is with a whole string of
bytes, of which none must be left over. -/
theorem readInto_overwrites (hdepth : 1 ≤ r.settings.maxDepth)
    (hkind : (r.create u.id).map (fun fresh => fresh.payload.kind) = .ok u.payload.kind) :
    (∀ (stops : List Nat) (s t : Source), (∀ stop ∈ stops, s.pos ≤ stop) →
      (Reading.varint.run stops s = (.ok u.id, t) →
        (r.readInto u).run stops s = r.read.run stops s) ∧
      (∀ id, Reading.varint.run stops s = (.ok id, t) → id ≠ u.id →
        (r.readInto u).run stops s = (.error (.unexpectedId u.id.toNat id.toNat),
          s.advance (Varint.encodedSize id))) ∧
      ∀ error, Reading.varint.run stops s = (.error error, t) →
        (r.readInto u).run stops s = (.error error, t) ∧
          r.read.run stops s = (.error error, t)) ∧
    ∀ (b : Bytes) (id : UInt64) (n : Nat), Varint.decode b = .ok (id, n) →
      (id = u.id → r.parseInto u b = r.parse b) ∧
      (id ≠ u.id → r.parseInto u b = .error (.unexpectedId u.id.toNat id.toNat)) := by
  have hk : r.kindOf u.id = .ok u.payload.kind := (create_map_kind r u.id).symm.trans hkind
  refine ⟨fun stops s t hs => ⟨fun hid => ?_, fun id hid hne => ?_, fun error hid => ?_⟩,
    fun b id n hb => ?_⟩
  · exact run_readInto_of_eq hdepth hk hid
  · rw [run_readInto_of_ne hdepth hid hne, eq_advance_of_run_varint hs hid]
  · exact run_readInto_of_error hdepth hid
  · obtain ⟨t, hid⟩ := run_varint_of_decode hb
    refine ⟨fun he => ?_, fun hne => ?_⟩
    · subst he
      rw [parseInto, parse, parseWith, parseWith, run_readInto_of_eq hdepth hk hid]
    · exact parseWith_of_error (run_readInto_of_ne hdepth hid hne)

/-- A point of the first version read over one of the second, inside a frame and from bytes of
its own; and a truth value that is refused. -/
theorem readInto_overwrites_point :
    let made : Std.TreeMap UInt64 Payload := ∅
    let r : Registry := { made := made.insert 33 Kind.point.initial }
    let u : Tag := .mk 33 (.point ⟨2, ⟨9, 8⟩⟩)
    let s : Source := { rest := [33, 3, 0, 1, 7, 5] }
    (r.create u.id).map (fun fresh => fresh.payload.kind) = .ok u.payload.kind ∧
    (r.readInto u).run [6] s = r.read.run [6] s ∧
    (r.readInto u).run [6] s = (.ok (.mk 33 (.point ⟨1, ⟨7, 0⟩⟩)), s.advance 5) ∧
    r.parseInto u [33, 3, 0, 1, 7, 5] = r.parse [33, 3, 0, 1, 7, 5] ∧
    r.parse [33, 3, 0, 1, 7, 5] = .error (.format (.trailingBytes "tag buffer" 1)) ∧
    r.parseInto u [1, 1] = .error (.unexpectedId 33 1) := by
  intro made r u s
  have hdepth : 1 ≤ r.settings.maxDepth := by decide
  have hkind : (r.create u.id).map (fun fresh => fresh.payload.kind) = .ok u.payload.kind := by
    simp only [made, r, u]
    cbv
  have hid : Reading.varint.run [6] s = (.ok 33, s.advance 1) := by
    simp only [s]
    cbv
  have hread : (r.readInto u).run [6] s =
      (.ok (.mk 33 (.point ⟨1, ⟨7, 0⟩⟩)), s.advance 5) := by
    simp only [made, r, u, s]
    cbv
  have htrailing : r.parse [33, 3, 0, 1, 7, 5] =
      .error (.format (.trailingBytes "tag buffer" 1)) := by
    simp only [made, r]
    cbv
  have hpoint : Varint.decode [33, 3, 0, 1, 7, 5] = .ok (33, 1) := by cbv
  have htruth : Varint.decode [1, 1] = .ok (1, 1) := by cbv
  obtain ⟨hrun, hparse⟩ := readInto_overwrites hdepth hkind
  exact ⟨hkind, (hrun [6] s _ (by decide)).1 hid, hread, (hparse _ _ _ hpoint).1 rfl, htrailing,
    (hparse _ _ _ htruth).2 (by decide)⟩

end TagFormat.Registry
