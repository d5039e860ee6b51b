import Mathlib.Data.List.Permutation
import TagFormat.Proofs.Registry.Guests

/-! # Versions

A versioned value is read in any supported version, and is written in the current one. What a reader
of any make loads starts with the version that it tells and takes all of the declared size
(`Body.loaded_of_load`), and a version that is not supported is refused as soon as it has been read
(`Body.load_of_unsupported`). Where the reader of the current version reads back what was written,
the value comes back as a current one, and stays so (`Body.Keeps.upgrades`). That is so of points and
of documents. Wherever such values stand among tags, the whole comes back with all versions in it
current, whatever has become of the sizes (`Body.Keeps.renews`, `Guests.upgrades`); and so does a tag
(`Registry.Accepts.upgrades`). -/

namespace TagFormat

open Reading

variable {α : Type}

namespace Body

variable {b : Body α} {n m : Nat} {stops stops' : List Nat} {s s' t t' : Source} {rest : Bytes}
  {v : Versioned α}

/-! ### Bodies that find their own end -/

/-- The body is read from the same bytes in every frame. -/
def FindsEnd (b : Body α) (inner : Inner) : Prop :=
  ∀ version left left' c a, (b.read version inner).Yields left c a →
    (b.read version inner).Yields left' c a

variable {inner : Inner} {v₀ v₀' v' : Versioned α}

/-- What comes of a run: the bytes of a version and those of a body of this version. -/
theorem Overwrites.of_run (ho : b.Overwrites) (hstops : ∀ stop ∈ stops, s.pos ≤ stop)
    (h : (b.readVersionedOver inner (.exact n) v₀).run stops s = (.ok v, t)) :
    ∃ c rest, s.rest = BigEndian.encode 2 v.version.toNat ++ (c ++ rest) ∧ 2 + c.length = n ∧
      (b.read v.version inner).Yields (some c.length) c v.inner := by
  rw [ho.readVersionedOver] at h
  obtain ⟨k, hk, -, -, hy⟩ := (run_eq_ok_iff hstops).mp h
  obtain ⟨hlen, -, c, hc, hbody⟩ := yields_readVersioned.mp hy
  refine ⟨c, s.rest.drop k, ?_, ?_, hbody⟩
  · rw [← List.append_assoc, ← hc, List.take_append_drop]
  · rw [← hlen, hc, List.length_append, BigEndian.length_encode]

/-- **No other size** is the right one for bytes that were read with theirs. -/
theorem FindsEnd.size_eq (h : b.FindsEnd inner) (ho : b.Overwrites)
    (hstops : ∀ stop ∈ stops, s.pos ≤ stop) (hstops' : ∀ stop ∈ stops', s'.pos ≤ stop)
    (hrun : (b.readVersionedOver inner (.exact n) v₀).run stops s = (.ok v, t))
    (hs : s'.rest = s.rest.take n ++ rest)
    (hrun' : (b.readVersionedOver inner (.exact m) v₀').run stops' s' = (.ok v', t')) : m = n := by
  obtain ⟨c, r, hc, hn, hbody⟩ := ho.of_run hstops hrun
  obtain ⟨c', r', hc', hm, hbody'⟩ := ho.of_run hstops' hrun'
  have htake : s.rest.take n = BigEndian.encode 2 v.version.toNat ++ c := by
    rw [hc, ← List.append_assoc]
    refine List.take_left' ?_
    rw [List.length_append, BigEndian.length_encode, hn]
  rw [hs, htake, List.append_assoc] at hc'
  obtain ⟨-, hversion⟩ :=
    (yields_uint16.mpr rfl).eq_of_append_eq (yields_uint16.mpr rfl) hc'
  rw [← hversion] at hc' hbody'
  have hsame := List.append_cancel_left hc'
  obtain ⟨rfl, -⟩ := (h _ _ none _ _ hbody).eq_of_append_eq (h _ _ none _ _ hbody') hsame
  omega

/-! ### Points and documents -/

theorem findsEnd_point (inner : Inner) : point.FindsEnd inner := by
  intro version left left' c a h
  exact Point.yields_read.mpr (Point.yields_read.mp h)

theorem findsEnd_document (r : Registry) (depth : Nat) : document.FindsEnd (r.inner depth) := by
  intro version left left' c t h
  exact ((r.readsBy depth).tag _ _ _).mpr (((r.readsBy depth).tag _ _ _).mp h)

/-- **Every point** is read again as it was. -/
theorem keeps_point (inner : Inner) (a₀ a : Point) :
    point.Keeps (fun version => (point.readOver version inner a₀).run) a a := by
  have hyields : ∀ left, (point.readOver point.current inner a₀).Yields left
      (point.writing a).bytes a := by
    intro left
    change (point.read Point.currentVersion inner).Yields left a.writing.bytes a
    refine Point.yields_read.mpr ⟨fun h => absurd h (by decide), ?_⟩
    rw [Point.bytes_writing, if_neg (by decide)]
  exact keeps_of_yields rfl rfl (a.fills_writing rfl) hyields ⟨rfl, rfl⟩

/-! ### Among tags -/

/-- The versioned values of a body as guests, under ids of their own. -/
def guests (b : Body α) (own : UInt64 → Bool) (free : ∀ {id}, own id → Id.isReserved id = false)
    (read : Registry → Nat → UInt16 → Reader α) : Guests (Versioned α) where
  written := b.written
  reader? id := if own id then some fun r depth => b.load (read r depth) else none
  free h := by
    obtain ⟨_, h⟩ := Option.isSome_iff_exists.mp h
    exact free (Option.ite_none_right_eq_some.mp h).1

variable {own : UInt64 → Bool} {free : ∀ {id}, own id → Id.isReserved id = false}
  {read : Registry → Nat → UInt16 → Reader α} {r : Registry} {depth : Nat}

theorem load_of_reader? {id : UInt64} {load : Registry → Nat → Declared → Reader (Versioned α)}
    (h : (b.guests own free read).reader? id = some load) :
    load = fun r depth => b.load (read r depth) :=
  (Option.some.inj (Option.ite_none_right_eq_some.mp h).2).symm

theorem stays_guests (h : ∀ r depth version, (read r depth version).Stays) :
    (b.guests own free read).Stays := by
  intro id load hload r depth declared
  rw [load_of_reader? hload]
  exact makes_load (P := fun _ => True) (fun version => (h r depth version).makes) declared

/-- **A versioned value among tags** comes back in the current version if its reader reads back what
was written. -/
theorem Keeps.renews {a : α} (h : b.Keeps (read r depth) v.inner a) (id : UInt64) :
    (b.guests own free read).Renews r depth id v (b.upToDate a) := by
  obtain ⟨hwritten, -, hsize, hreads, hagain⟩ := h.upgrades
  obtain ⟨hf, hbytes⟩ := Writing.toBytes_eq_ok_iff.mp hwritten
  obtain ⟨hwriting, hsizes⟩ := h.alike
  rw [← hbytes] at hsize hreads
  refine ⟨hf, fun _ => hsize, fun load hload => ?_, ?_⟩
  · rw [load_of_reader? hload]
    rw [hsize] at hreads
    exact hreads
  · change b.written (b.upToDate a) = b.written v
    rw [Body.written, Body.written, versionedWriting, versionedSize, upToDate, hwriting, hsizes]
    rfl

end Body

namespace Registry

variable {r r' : Registry} {depth depth' : Nat} {t : Tag} {b : Bytes}

/-- **A document that was read** is read again with its tag in the current version. -/
theorem Accepts.keeps (h : r.Accepts depth t) (hc : r'.Covers t) (hd : depth ≤ depth') (t₀ : Tag) :
    Body.document.Keeps
      (fun version => (Body.document.readOver version (r'.inner depth') t₀).run) t t.upgrade := by
  have hb := h.isBuilt
  have hf := h.failure_writing
  obtain ⟨hwriting, hvalue⟩ := Tag.writing_upgrade t hb hf
  have hyields := (h.fitsAt_upgrade hc hd).yields
  rw [hwriting, t.upgrade.compact_eq_self hb.upgrade] at hyields
  refine Body.keeps_of_yields (beq_self_eq_true _) hf (t.fills hf) hyields ⟨hwriting, ?_⟩
  change t.upgrade.size = t.size
  rw [Tag.size_eq, Tag.size_eq, Tag.headerSize, Tag.headerSize, hvalue, Tag.id_upgrade]

/-! ### Tags inside tags -/

/-- A tag is written into `bytes`, as many as it says, with all sizes in it as they have become. From
these it is read with all versions current and all else as it was, and so it stays. -/
structure Upgrades (r : Registry) (t : Tag) (bytes : Bytes) : Prop where
  written : t.toBytes = .ok bytes
  size : bytes.length = t.size
  frames : ∀ u : Tag, u.Inside t → ∃ part, part <:+: bytes ∧
    Header.Frames u.id u.valueSize u.payload.writing.bytes part
  parsed : r.parse bytes = .ok t.upgrade
  current : ∀ u : Tag, u.Inside t.upgrade → u.payload.IsCurrent
  again : t.upgrade.toBytes = .ok bytes
  same : t.upgrade.upgrade = t.upgrade

theorem Accepts.upgrades (h : r.Accepts r.levels t) (hc : r'.Covers t) (hl : r.levels ≤ r'.levels) :
    r'.Upgrades t t.writing.bytes := by
  have hb := h.isBuilt
  have hf := h.failure_writing
  obtain ⟨hdepth, hsuits⟩ := h.fitsAt_upgrade hc hl
  have hwriting := (Tag.writing_upgrade t hb hf).1
  have hbytes : t.toBytes = .ok t.writing.bytes := Writing.toBytes_of_none hf
  have hparse := parse_writing hsuits
  rw [if_pos hdepth, hwriting, t.upgrade.compact_eq_self hb.upgrade] at hparse
  refine ⟨hbytes, t.fills hf, fun u hu => ?_, hparse, Tag.isCurrent_upgrade hb, ?_,
    Tag.upgrade_upgrade hb⟩
  · obtain ⟨hfu, hpart⟩ := hu.within hf
    exact ⟨_, hpart, Tag.frames hfu⟩
  · rw [Tag.toBytes, hwriting]
    exact hbytes

theorem accepts_of_document {n : Nat} {stops : List Nat} {s s' : Source} {v₀ v : Versioned Tag}
    (hstops : ∀ stop ∈ stops, s.pos ≤ stop)
    (h : (Body.document.readVersionedOver (r.inner depth) (.exact n) v₀).run stops s = (.ok v, s')) :
    r.Accepts depth v.inner := by
  obtain ⟨c, -, -, -, hbody⟩ := Body.overwrites_document.of_run hstops h
  exact (((r.readsBy depth).tag _ _ _).mp hbody).1

end Registry

/-! ### All together -/

/-- What holds of a payload of `n` bytes that a reader of any make may load from `s`. If a value is
loaded, the reader has taken all the bytes after the version, which is the one that is told; whoever
reads back what is written of the value gets it in the current version. If the version is not
supported, or the reader ends anywhere but behind the payload, there is no value. -/
structure Body.Migrates (b : Body α) (read : UInt16 → Reader α) (n : Nat) (stops : List Nat)
    (s : Source) : Prop where
  loaded : ∀ v t, b.load read (.exact n) stops s = (.ok v, t) → b.Loaded read n stops s v t
  upgrades : ∀ v t, b.load read (.exact n) stops s = (.ok v, t) → ∀ read' a,
    b.Keeps read' v.inner a →
      ∃ bytes, b.Upgrades read' v a bytes ∧ b.Upgrades read' (b.upToDate a) a bytes
  unsupported : ∀ (version : UInt16) rest, s.rest = BigEndian.encode 2 version.toNat ++ rest →
    2 ≤ n → b.supports version = false → (∀ stop ∈ stops, s.pos + 2 ≤ stop) →
      b.load read (.exact n) stops s =
        (.error (.format (.unsupportedVersion what version.toNat)), s.advance 2)
  exact : ∀ (version : UInt16) rest, s.rest = BigEndian.encode 2 version.toNat ++ rest →
    (read version ((s.pos + n) :: stops) (s.advance 2)).2 ≠ s.advance n →
      ∃ error, (b.load read (.exact n) stops s).1 = .error error

theorem Body.migrates (b : Body α) {read : UInt16 → Reader α} {n : Nat} {stops : List Nat}
    {s : Source} (hread : ∀ version, (read version).Stays) (hstops : ∀ stop ∈ stops, s.pos ≤ stop) :
    b.Migrates read n stops s where
  loaded _ _ h := loaded_of_load hread hstops h
  upgrades _ _ _ _ _ ha := ⟨_, ha.upgrades, by
    have hagain := ha.again.upgrades (v := b.upToDate _)
    rw [upToDate, ha.alike.1] at hagain
    exact hagain⟩
  unsupported _ _ hs hn hv hfit := load_of_unsupported hn hs hfit hv
  exact _ _ hs hend := load_of_ne hread hstops hs hend

/-- **Versions are upgraded by writing and reading.** Of any type, whoever reads it, a payload in a
supported version tells its version, is written in the current one, and is read from these bytes as a
current value, after which writing and reading are inverse; one in another version is refused after
two bytes, and one whose body is shorter or longer than declared is never read. The programs of a
body are such readers. Points are read back as they were, and documents with their tag upgraded,
which it is already where nothing older stands inside it; bytes that are read as either with one
size are not read with another. Values that come back from their own bytes come back wherever they
stand among tags, whatever has become of the sizes of what holds them: any guests, be they payloads
of a registry's own kinds or not, and so the versioned values of any body, in the current version. A
tag that one registry read comes back to a registry that covers it with all versions in it
current. -/
theorem versions_upgrade :
    (∀ {α : Type} (b : Body α) (read : UInt16 → Reader α) (n : Nat) (stops : List Nat) (s : Source),
      (∀ version, (read version).Stays) → (∀ stop ∈ stops, s.pos ≤ stop) →
      b.Migrates read n stops s) ∧
    (∀ {α : Type} (b : Body α) (inner : Inner) (v : Versioned α),
      (∀ version, Reader.Stays (b.readOver version inner v.inner).run) ∧
      ∀ declared stops s, (b.readVersionedOver inner declared v).run stops s =
        b.load (fun version => (b.readOver version inner v.inner).run) declared stops s) ∧
    (∀ (inner : Inner) (a₀ a : Point),
      Body.point.Keeps (fun version => (Body.point.readOver version inner a₀).run) a a) ∧
    (∀ (r r' : Registry) (depth depth' n : Nat) (stops : List Nat) (s s' : Source)
      (v₀ v : Versioned Tag) (t₀ : Tag), (∀ stop ∈ stops, s.pos ≤ stop) →
      (Body.document.readVersionedOver (r.inner depth) (.exact n) v₀).run stops s = (.ok v, s') →
      r'.Covers v.inner → depth ≤ depth' →
      Body.document.Keeps
        (fun version => (Body.document.readOver version (r'.inner depth') t₀).run)
        v.inner v.inner.upgrade ∧
      ((∀ u : Tag, u.Inside v.inner → u.payload.IsCurrent) → v.inner.upgrade = v.inner)) ∧
    (∀ {α : Type} (b : Body α) (inner : Inner), b.Overwrites → b.FindsEnd inner →
      ∀ (n m : Nat) (stops stops' : List Nat) (s s' t : Source) (rest : Bytes)
        (v₀ v₀' v : Versioned α),
      (∀ stop ∈ stops, s.pos ≤ stop) → (∀ stop ∈ stops', s'.pos ≤ stop) →
      (b.readVersionedOver inner (.exact n) v₀).run stops s = (.ok v, t) →
      s'.rest = s.rest.take n ++ rest → m ≠ n →
      ∃ error, ((b.readVersionedOver inner (.exact m) v₀').run stops' s').1 = .error error) ∧
    ((∀ inner, Body.point.Overwrites ∧ Body.point.FindsEnd inner) ∧
      ∀ (r : Registry) depth, Body.document.Overwrites ∧ Body.document.FindsEnd (r.inner depth)) ∧
    (∀ {α : Type} (g : Guests α) (f : α → α) (r r' : Registry) (b : Bytes) (m : Mixed α), g.Stays →
      g.parse r b = .ok m → g.Covers r' m → g.RenewsIn r' f r'.levels m → r.levels ≤ r'.levels →
      ∃ bytes, g.Upgrades r' f m bytes) ∧
    (∀ {α : Type} (g : Guests α) (r : Registry) (p : α → Payload),
      (∀ id read, g.reader? id = some read → ∃ kind, r.kindOf id = .ok kind ∧
        ∀ depth declared, (read r depth declared).Agrees p (kind.read (r.inner depth) declared)) →
      ∀ depth, (g.read r depth).Agrees (Mixed.toTag p) (r.readTag depth)) ∧
    (∀ {α : Type} (b : Body α) (own : UInt64 → Bool)
      (free : ∀ {id}, own id → Id.isReserved id = false)
      (read : Registry → Nat → UInt16 → Reader α) (back : α → α) (r r' : Registry) (bytes : Bytes)
      (m : Mixed (Versioned α)), (∀ r depth version, (read r depth version).Stays) →
      (b.guests own free read).parse r bytes = .ok m → (b.guests own free read).Covers r' m →
      (∀ id v d, (Mixed.guest id v).AtDepth d m →
        b.Keeps (read r' (r'.levels - d)) v.inner (back v.inner)) →
      r.levels ≤ r'.levels →
      ∃ bytes', (b.guests own free read).Upgrades r' (fun v => b.upToDate (back v.inner)) m bytes') ∧
    ∀ (r r' : Registry) (b : Bytes) (t : Tag), r.parse b = .ok t → r'.Covers t →
      r.levels ≤ r'.levels → ∃ bytes, r'.Upgrades t bytes ∧
        ((∀ u : Tag, u.Inside t → u.payload.IsCurrent) → t.upgrade = t) := by
  refine ⟨fun b read n stops s => b.migrates, fun b inner v => ⟨fun version => onward_run _, ?_⟩,
    Body.keeps_point, ?_, ?_, ⟨fun inner => ?_, fun r depth => ?_⟩, ?_,
    fun g r p => Guests.agrees_read, ?_, ?_⟩
  · exact fun declared stops s => b.run_readVersionedOver inner declared v stops s
  · intro r r' depth depth' n stops s s' v₀ v t₀ hstops h hc hd
    have ha := Registry.accepts_of_document hstops h
    exact ⟨ha.keeps hc hd t₀, Tag.upgrade_eq_self _ ha.isBuilt⟩
  · intro α b inner ho hb n m stops stops' s s' t rest v₀ v₀' v hstops hstops' hrun hs hne
    rcases hrun' : (b.readVersionedOver inner (.exact m) v₀').run stops' s' with ⟨error | v', t'⟩
    · exact ⟨error, rfl⟩
    · exact absurd (hb.size_eq ho hstops hstops' hrun hs hrun') hne
  · exact ⟨Body.overwrites_point, Body.findsEnd_point inner⟩
  · exact ⟨Body.overwrites_document, Body.findsEnd_document r depth⟩
  · intro α g f r r' b m hg h hc hin hl
    exact ⟨_, Guests.upgrades hg h hc hin hl⟩
  · intro α b own free read back r r' bytes m hread h hc hkeeps hl
    have hin : (b.guests own free read).RenewsIn r' (fun v => b.upToDate (back v.inner)) r'.levels
        m :=
      fun id v d hd => (hkeeps id v d hd).renews id
    exact ⟨_, Guests.upgrades (Body.stays_guests hread) h hc hin hl⟩
  · intro r r' b t h hc hl
    have ha := (Registry.parse_eq_ok_iff.mp h).1
    exact ⟨_, ha.upgrades hc hl, Tag.upgrade_eq_self t ha.isBuilt⟩

/-- A point of the first version in an array comes back in the current one, and the array has become
longer; a version that no point has is refused. A value of another body, which has lost a byte in its
current version, comes back from an array in a dictionary, and both have become shorter. -/
theorem versions_upgrade_array :
    let made : Std.TreeMap UInt64 Payload := ∅
    let r : Registry := { made := made.insert 33 Kind.point.initial }
    let s : Source := { rest := [0, 3, 9] }
    let shorter : Body UInt8 :=
      { current := 2, initial := 0, supports version := version == 1 || version == 2, size _ := 1
        writing n := Writing.block [n]
        readOver version _ _ :=
          if version < 2 then byte.bind fun n => byte.bind fun _ => .done n else byte }
    let free : ∀ {id : UInt64}, (id == 33) = true → Id.isReserved id = false := fun h => by
      rw [beq_iff_eq.mp h]
      rfl
    let g : Guests (Versioned UInt8) := shorter.guests (· == 33) free fun r depth version =>
      (shorter.readOver version (r.inner depth) 0).run
    let m : Mixed (Versioned UInt8) := .holding 30
      (.dictionary (.ofList [("", .holding 21 (.array [.guest 33 ⟨1, 7⟩]))]))
    r.parse [21, 6, 1, 33, 3, 0, 1, 7] = .ok (.mk 21 (.tagArray [.mk 33 (.point ⟨1, ⟨7, 0⟩⟩)])) ∧
    (Tag.mk 21 (.tagArray [.mk 33 (.point ⟨1, ⟨7, 0⟩⟩)])).toBytes =
      .ok [21, 7, 1, 33, 4, 0, 2, 7, 0] ∧
    r.Upgrades (.mk 21 (.tagArray [.mk 33 (.point ⟨1, ⟨7, 0⟩⟩)])) [21, 7, 1, 33, 4, 0, 2, 7, 0] ∧
    (Body.point.readVersionedOver (r.inner 3) (.exact 3) ⟨2, ⟨1, 1⟩⟩).run [] s =
      (.error (.format (.unsupportedVersion Body.what 3)), s.advance 2) ∧
    g.parse {} [30, 12, 1, 17, 0, 21, 7, 1, 33, 4, 0, 1, 7, 5] = .ok m ∧
    g.Upgrades {} (fun v => shorter.upToDate v.inner) m
      [30, 11, 1, 17, 0, 21, 6, 1, 33, 3, 0, 2, 7] := by
  intro made r s shorter free g m
  have hparse : r.parse [21, 6, 1, 33, 3, 0, 1, 7] =
      .ok (.mk 21 (.tagArray [.mk 33 (.point ⟨1, ⟨7, 0⟩⟩)])) := by
    simp only [r, made]
    cbv
  have hbytes : (Tag.mk 21 (.tagArray [.mk 33 (.point ⟨1, ⟨7, 0⟩⟩)])).toBytes =
      .ok [21, 7, 1, 33, 4, 0, 2, 7, 0] := by cbv
  have hcovers : r.Covers (.mk 21 (.tagArray [.mk 33 (.point ⟨1, ⟨7, 0⟩⟩)])) := by
    have hall : ∀ u : Tag, u.Inside (.mk 21 (.tagArray [.mk 33 (.point ⟨1, ⟨7, 0⟩⟩)])) →
        r.kindOf u.id = .ok u.payload.kind ∧
          (Id.isImplicit u.id = false → u.valueSize ≤ r.settings.maxTagSize.toNat) := by
      refine Tag.forall_inside_iff.mpr ⟨⟨rfl, fun _ => ?_⟩, List.forall_mem_singleton.mpr
        (Tag.forall_inside_iff.mpr ⟨⟨?_, fun _ => ?_⟩, List.forall_mem_nil _⟩)⟩
      · simp only [r]
        cbv
      · simp only [r, made]
        cbv
      · simp only [r]
        cbv
    exact ⟨fun u hu => (hall u hu).1, fun u hu => (hall u hu).2⟩
  obtain ⟨hany, hprogram, -, -, -, -, -, -, hamong, htree⟩ := versions_upgrade
  obtain ⟨bytes, hup, -⟩ := htree r r _ _ hparse hcovers le_rfl
  obtain rfl := Except.ok.inj (hup.written.symm.trans hbytes)
  obtain ⟨hstays, hload⟩ := hprogram Body.point (r.inner 3) ⟨2, ⟨1, 1⟩⟩
  have hmigrates := hany Body.point _ 3 [] s hstays (List.forall_mem_nil _)
  have hunsupported := hmigrates.unsupported 3 [9] rfl (by decide) rfl (List.forall_mem_nil _)
  rw [← hload] at hunsupported
  -- the value of the other body, and what it stands in
  have hm : g.parse {} [30, 12, 1, 17, 0, 21, 7, 1, 33, 4, 0, 1, 7, 5] = .ok m := by
    simp only [g, m, shorter]
    cbv
  have hmbytes : (m.written g.written).writing.toBytes =
      .ok [30, 11, 1, 17, 0, 21, 6, 1, 33, 3, 0, 2, 7] := by
    simp only [g, m, shorter]
    cbv
  have hinside : ∀ {u : Mixed (Versioned UInt8)} {d : Nat}, u.AtDepth d m →
      (u = .guest 33 ⟨1, 7⟩ ∨
          ∃ id h, u = .holding id h ∧ ({} : Registry).kindOf id = .ok h.form.kind) ∧
        (u.payload g.written).size ≤ 11 := by
    have harray : ((Mixed.holding 21 (.array [.guest 33 ⟨1, 7⟩])).payload g.written).size = 6 := by
      simp only [g, shorter]
      cbv
    have hdictionary : (m.payload g.written).size = 11 := by
      simp only [g, m, shorter]
      cbv
    rintro u _ (_ | ⟨hv, _ | ⟨hw, _ | ⟨hx, -⟩⟩⟩)
    · exact ⟨.inr ⟨30, _, rfl, rfl⟩, hdictionary.le⟩
    · obtain rfl := List.mem_singleton.mp hv
      exact ⟨.inr ⟨21, _, rfl, rfl⟩, harray.trans_le (by decide)⟩
    · obtain rfl := List.mem_singleton.mp hv
      obtain rfl := List.mem_singleton.mp hw
      exact ⟨.inl rfl, show 2 + 1 ≤ 11 by decide⟩
    · obtain rfl := List.mem_singleton.mp hv
      obtain rfl := List.mem_singleton.mp hw
      exact absurd hx List.not_mem_nil
  have hmcovers : g.Covers {} m := by
    refine ⟨fun t ht => ?_, fun id h hh => ?_, fun u hu _ => ?_⟩
    · obtain ⟨d, hd⟩ := ht.exists_atDepth
      obtain ⟨h | ⟨_, _, h, -⟩, -⟩ := hinside hd <;> cases h
    · obtain ⟨d, hd⟩ := hh.exists_atDepth
      obtain ⟨h | ⟨_, _, h, hk⟩, -⟩ := hinside hd
      · cases h
      · cases h
        exact hk
    · obtain ⟨d, hd⟩ := hu.exists_atDepth
      exact (hinside hd).2.trans (by decide)
  have hkeeps : ∀ inner, shorter.Keeps (fun version => (shorter.readOver version inner 0).run) 7 7 :=
    fun inner => Body.keeps_of_yields rfl rfl rfl (fun _ => yields_byte.mpr rfl) ⟨rfl, rfl⟩
  obtain ⟨mbytes, hmup⟩ := hamong shorter (· == 33) free _ id {} {} _ m
    (fun _ _ _ => onward_run _) hm hmcovers (fun _ v d hd => by
      obtain ⟨h | ⟨_, _, h, -⟩, -⟩ := hinside hd
      · cases h
        exact hkeeps _
      · cases h) le_rfl
  obtain rfl := Except.ok.inj (hmup.written.symm.trans hmbytes)
  exact ⟨hparse, hbytes, hup, hunsupported, hm, hmup⟩

end TagFormat
