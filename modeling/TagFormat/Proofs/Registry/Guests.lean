import Mathlib.Algebra.Order.BigOperators.Group.List
import TagFormat.Proofs.Registry.Depth
import TagFormat.Proofs.Registry.Holding
import TagFormat.Proofs.Tag.Mixed
import TagFormat.Proofs.Tag.Upgrade

/-! # Registries with guests

Guests are values of another type that are read under ids of their own, by readers of any make
(`Guests`). With them, a registry reads mixed tags (`Guests.read`), and the tags that it reads alone
where the guests are payloads of its kinds, or where there are none (`Guests.agrees_read`). What it
makes of any bytes is built from what was read inside it (`Guests.makes_read`). If guests come back
from their own bytes, so does every mixed tag, with all versions in it current and all sizes as they
have become (`Guests.Fits.regains`), so that what one registry has read, another may read again
(`Guests.upgrades`). -/

namespace TagFormat

open Reading

variable {α β : Type}

/-! ### Tags without guests -/

namespace Registry

variable {r r' : Registry} {depth depth' : Nat} {t : Tag}

/-- The registry has the kinds of the tag and of all inside it, and their sizes, as they would be
written, are within its limit. -/
structure Covers (r : Registry) (t : Tag) : Prop where
  kind : ∀ u : Tag, u.Inside t → r.kindOf u.id = .ok u.payload.kind
  size : ∀ u : Tag, u.Inside t → Id.isImplicit u.id = false →
    u.valueSize ≤ r.settings.maxTagSize.toNat

theorem Accepts.isBuilt (h : r.Accepts depth t) : t.IsBuilt :=
  fun u hu => (h.inside u hu).2.isBuilt

/-- **What one registry accepts** may be read in the current version by another that covers it. -/
theorem Accepts.fitsAt_upgrade (h : r.Accepts depth t) (hc : r'.Covers t) (hd : depth ≤ depth') :
    r'.FitsAt depth' t.upgrade := by
  have hb := h.isBuilt
  refine ⟨(Tag.depth_upgrade_le_iff t hb).mpr (h.depth_le.trans hd), ?_⟩
  refine (Tag.forall_inside_upgrade_iff t hb).mpr fun u hu => ?_
  obtain ⟨-, hreadable⟩ := h.inside u hu
  have hbu : u.IsBuilt := fun w hw => hb w (hw.trans hu)
  have hfu := (hu.within h.failure_writing).1
  refine ⟨?_, fun hi => ?_, ?_, Tag.isCurrent_upgrade hbu _ .self, ?_⟩
  · rw [Tag.id_upgrade, Tag.payload_upgrade, Payload.kind_upgradeBy]
    exact hc.kind u hu
  · rw [Tag.id_upgrade] at hi
    rw [(Tag.writing_upgrade u hbu hfu).2]
    exact hc.size u hu hi
  · rw [Tag.payload_upgrade]
    exact hreadable.isFilled.upgradeBy Tag.upgrade
  · exact (hbu.upgrade _ .self).isSound

/-- Reads the size in a header, and lets a reader read the payload. -/
def sized (r : Registry) (id : UInt64) (payload : Declared → Reader β) : Reader β :=
  Reader.bind (Header.readSize id r.settings.maxTagSize).run payload

theorem gives_sized {id : UInt64} {payload : Declared → Reader β} {w : Written} {b : β}
    (hi : Id.isImplicit id = false) (hsize : w.size ≤ r.settings.maxTagSize.toNat)
    (h : (payload (.exact w.size)).Gives w.writing.bytes b) :
    (r.sized id payload).Gives (Header.sizeBytes id w.size ++ w.writing.bytes) b := by
  have hn : (UInt64.ofNat w.size).toNat = w.size :=
    UInt64.toNat_ofNat_of_lt' (hsize.trans_lt r.settings.maxTagSize.toNat_lt)
  refine Reader.Gives.bind (Reader.gives_run fun left => ?_) h
  refine (Header.yields_readSize_of_explicit hi).mpr ⟨UInt64.ofNat w.size, ?_, ?_, ?_⟩
  · rwa [UInt64.le_iff_toNat_le, hn]
  · rw [Header.sizeBytes, hi]
    rfl
  · rw [hn]

/-- Tags are held only under ids with which the size is written. -/
theorem isImplicit_of_form {id : UInt64} {form : Holding.Form} (h : r.kindOf id = .ok form.kind) :
    Id.isImplicit id = false := by
  by_contra hi
  obtain ⟨type, rfl, hk⟩ := exists_standard h (Bool.not_eq_false _ ▸ hi)
  cases form with
  | array | sequence | dictionary =>
    cases hk
    exact hi rfl
  | _ => cases hk

end Registry

theorem Id.isImplicit_of_free {id : UInt64} (h : isReserved id = false) : isImplicit id = false := by
  by_contra hi
  rw [isReserved_of_isImplicit (Bool.not_eq_false _ ▸ hi)] at h
  cases h

/-- A payload under an id with which its size is written. -/
theorem Written.writing_framed {id : UInt64} (hi : Id.isImplicit id = false) {w : Written}
    (hf : w.writing.failure = none) : (w.framed id).writing.failure = none ∧
      (w.framed id).writing.bytes =
        Varint.encode id ++ (Header.sizeBytes id w.size ++ w.writing.bytes) := by
  have hfault : Header.fault? id w.size = none := by
    rw [Header.fault?, (Id.sizing_eq_explicit_iff id).mpr hi]
  have hheader : (Header.writing id (UInt64.ofNat w.size)).failure = none := by
    rw [Header.writing, hi]
    rfl
  have hframed : (w.framed id).writing = Header.writing id (UInt64.ofNat w.size) ++ w.writing := by
    rw [framed, Header.framing, hfault]
  rw [hframed, Writing.bytes_append hheader, ← List.append_assoc, ← Header.bytes_eq]
  exact ⟨Writing.failure_append_eq_none.mpr ⟨hheader, hf⟩, rfl⟩

/-- The mixed tag with `f` done to its guests, and all else in the version in which it is written. -/
def Mixed.renew (f : α → α) (m : Mixed α) : Mixed α :=
  m.fold (fun id a => .guest id (f a)) (fun t => .plain t.upgrade) fun id h => .holding id h.upToDate

theorem Mixed.renew_holding (f : α → α) (id : UInt64) (h : Holding (Mixed α)) :
    (holding id h).renew f = .holding id (h.map (renew f)).upToDate := by
  rw [renew, fold_holding]
  rfl

/-- What is in the version in which it is written, where it is told of which guests that is true. -/
def Mixed.IsCurrent (current : α → Prop) : Mixed α → Prop
  | guest _ a => current a
  | plain t => t.payload.IsCurrent
  | holding _ (.document v) => v.version = Payload.documentVersion
  | holding _ _ => True

/-! ### Guests -/

/-- Values of another type: how they are written, and who reads them. -/
structure Guests (α : Type) where
  written : α → Written
  /-- Who reads the payload under an id if it is a guest, for a registry and with some levels left. -/
  reader? : UInt64 → Option (Registry → Nat → Declared → Reader α)
  free : ∀ {id}, (reader? id).isSome → Id.isReserved id = false

/-- The result of a reader over all of the bytes. -/
def Reader.parse (read : Reader β) (bytes : Bytes) : Except TagError β :=
  match read [] (.ofBytes bytes) with
  | (.error error, _) => .error error
  | (.ok b, s) =>
    if s.rest.isEmpty then .ok b
    else .error (.format (.trailingBytes "tag buffer" s.rest.length))

theorem Reader.parse_of_gives {read : Reader β} {bytes : Bytes} {b : β} (h : read.Gives bytes b) :
    read.parse bytes = .ok b := by
  have hread := h [] (.ofBytes bytes) [] (List.append_nil _).symm (List.forall_mem_nil _)
  have hrest : ((Source.ofBytes bytes).advance bytes.length).rest = [] := List.drop_length
  rw [parse, hread]
  simp only [hrest]
  rfl

theorem Reader.of_parse {read : Reader β} {bytes : Bytes} {b : β} (h : read.parse bytes = .ok b) :
    (read [] (.ofBytes bytes)).1 = .ok b := by
  unfold parse at h
  rcases hread : read [] (.ofBytes bytes) with ⟨error | b', s⟩
  · rw [hread] at h
    cases h
  · rw [hread] at h
    simp only at h
    split_ifs at h
    exact h

namespace Guests

variable {g : Guests α} {r r' : Registry} {depth levels : Nat} {f : α → α} {m u : Mixed α}

/-- Reads what follows the id of a mixed tag that is no guest, with a reader of what it holds if it
holds tags. -/
def readBody (r : Registry) (depth : Nat) (item : Reader (Mixed α)) (id : UInt64) (kind : Kind) :
    Reader (Mixed α) :=
  match Holding.Form.ofKind? kind with
  | some form => r.sized id fun declared =>
    (form.read (r.readString depth).run item declared).map (.holding id)
  | none => Reader.map .plain (r.readBody (r.inner depth) id kind).run

theorem readBody_form (r : Registry) (depth : Nat) (item : Reader (Mixed α)) (id : UInt64)
    (form : Holding.Form) : readBody r depth item id form.kind = r.sized id fun declared =>
      (form.read (r.readString depth).run item declared).map (.holding id) := by
  rw [readBody, Holding.Form.ofKind?_eq_some_iff.mpr rfl]

theorem readBody_plain {kind : Kind} (h : Holding.Form.ofKind? kind = none) (r : Registry)
    (depth : Nat) (item : Reader (Mixed α)) (id : UInt64) : readBody r depth item id kind =
      Reader.map .plain (r.readBody (r.inner depth) id kind).run := by
  rw [readBody, h]

/-- Reads a mixed tag with some levels left: a guest where its id is that of guests, and otherwise
by the kind that the registry has for the id. -/
def read (g : Guests α) (r : Registry) : (depth : Nat) → Reader (Mixed α)
  | 0 => Reading.run r.refuseDepth
  | depth + 1 => Reader.bind varint.run fun id =>
    match g.reader? id with
    | some read => r.sized id fun declared => (read r depth declared).map (.guest id)
    | none => Reader.bind (ofExcept (r.kindOf id)).run (readBody r depth (g.read r depth) id)

/-- The mixed tag that the bytes spell, all of them. -/
def parse (g : Guests α) (r : Registry) (bytes : Bytes) : Except TagError (Mixed α) :=
  (g.read r r.levels).parse bytes

/-- **Where guests are payloads of the registry's kinds**, it reads the tags that the mixed ones
become. -/
theorem agrees_read {p : α → Payload} (hg : ∀ id read, g.reader? id = some read → ∃ kind,
      r.kindOf id = .ok kind ∧ ∀ depth declared,
        (read r depth declared).Agrees p (kind.read (r.inner depth) declared)) :
    ∀ depth, (g.read r depth).Agrees (Mixed.toTag p) (r.readTag depth)
  | 0 => Reader.agrees_fail _ _
  | depth + 1 => .after fun id => by
    have ih := agrees_read hg depth
    cases hr : g.reader? id with
    | some read =>
      obtain ⟨kind, hk, hread⟩ := hg id read hr
      rw [hk]
      exact .after fun declared => (hread depth declared).map fun _ => rfl
    | none =>
      refine .after fun kind => ?_
      cases hform : Holding.Form.ofKind? kind with
      | some form =>
        obtain rfl := Holding.Form.ofKind?_eq_some_iff.mp hform
        rw [readBody_form]
        have hstring : Reader.Agrees (r.readString depth).run _ (r.inner depth).string :=
          Reader.agrees_run (r.readString depth)
        have hholds := form.agrees_read hstring ih
        exact .after fun declared => (hholds declared).map fun h => Mixed.toTag_holding p id h
      | none =>
        rw [readBody_plain hform]
        intro stops s
        rw [Reader.map_map]
        exact congrFun (congrFun (Reader.map_id _).symm stops) s

/-! ### What is made -/

/-- Those who read guests stay in their frames. -/
def Stays (g : Guests α) : Prop :=
  ∀ id read, g.reader? id = some read → ∀ r depth declared,
    (read r depth declared).Makes fun _ => True

/-- What a registry makes with some levels left: tags are accepted, and what holds mixed tags is
built from them. -/
inductive Made (g : Guests α) (r : Registry) : Nat → Mixed α → Prop where
  | guest {depth : Nat} {id : UInt64} {a : α} : (g.reader? id).isSome →
    Made g r (depth + 1) (.guest id a)
  | plain {depth : Nat} {t : Tag} : g.reader? t.id = none →
    Holding.Form.ofKind? t.payload.kind = none → r.Accepts (depth + 1) t →
      Made g r (depth + 1) (.plain t)
  | holding {depth : Nat} {id : UInt64} {h : Holding (Mixed α)} : g.reader? id = none → h.IsBuilt →
    h.IsFilled → (∀ m ∈ h.items, Made g r depth m) → Made g r (depth + 1) (.holding id h)

theorem makes_plain {id : UInt64} {kind : Kind} (hr : g.reader? id = none)
    (hk : r.kindOf id = .ok kind) (hform : Holding.Form.ofKind? kind = none) :
    Reader.Makes (Reader.map .plain (r.readBody (r.inner depth) id kind).run)
      (g.Made r (depth + 1)) := by
  refine Reader.Makes.map (P := fun t => t.id = id ∧ t.payload.kind = kind ∧
    r.Accepts (depth + 1) t) (Reader.makes_run fun left c t hy => ?_) ?_
  · obtain rfl := Registry.id_of_yields_readBody hy
    obtain ⟨id, p⟩ := t
    obtain ⟨ha, hh, -⟩ := (Registry.yields_readBody (r.readsBy depth) hk).mp hy
    exact ⟨rfl, Except.ok.inj (ha.kind.symm.trans hk), ha, hh⟩
  · rintro t ⟨rfl, rfl, ha⟩
    exact .plain hr hform ha

/-- **What is read** is built from what was read inside it. -/
theorem makes_read (hg : g.Stays) (r : Registry) : ∀ depth, (g.read r depth).Makes (g.Made r depth)
  | 0 => Reader.makes_fail _
  | depth + 1 => .after fun id => by
    have ih := makes_read hg r depth
    cases hr : g.reader? id with
    | some read =>
      refine .after fun declared => (hg id read hr r depth declared).map fun a _ => ?_
      exact .guest (by rw [hr]; rfl)
    | none =>
      have hkind : Reader.Makes (ofExcept (r.kindOf id)).run fun kind => r.kindOf id = .ok kind :=
        Reader.makes_run fun _ _ _ hy => (yields_ofExcept.mp hy).2
      refine hkind.bind fun kind hk => ?_
      cases hform : Holding.Form.ofKind? kind with
      | some form =>
        obtain rfl := Holding.Form.ofKind?_eq_some_iff.mp hform
        rw [readBody_form]
        have hholds := form.makes_read (onward_run (r.readString depth)) ih
        exact .after fun declared => (hholds declared).map fun h hh =>
          .holding hr hh.built hh.filled hh.items
      | none =>
        rw [readBody_plain hform]
        exact makes_plain hr hk hform

theorem made_of_parse (hg : g.Stays) {bytes : Bytes} (h : g.parse r bytes = .ok m) :
    g.Made r r.levels m :=
  (makes_read hg r r.levels [] (.ofBytes bytes) (List.forall_mem_nil _)).2 m (Reader.of_parse h)

/-! ### What comes back -/

/-- From what is written of the guest `a`, as many bytes as it says, `a'` is read under the id, which
is written likewise. -/
structure Renews (g : Guests α) (r : Registry) (depth : Nat) (id : UInt64) (a a' : α) : Prop where
  written : (g.written a).writing.failure = none
  honest : (g.written a).Honest
  reads : ∀ read, g.reader? id = some read →
    (read r depth (.exact (g.written a).size)).Gives (g.written a).writing.bytes a'
  alike : g.written a' = g.written a

/-- A mixed tag that comes back: each guest as `f` makes it, and all else as tags do. -/
inductive Fits (g : Guests α) (r : Registry) (f : α → α) : Nat → Mixed α → Prop where
  | guest {depth : Nat} {id : UInt64} {a : α} : (g.reader? id).isSome →
    g.Renews r depth id a (f a) → (g.written a).size ≤ r.settings.maxTagSize.toNat →
      Fits g r f (depth + 1) (.guest id a)
  | plain {depth : Nat} {t : Tag} : g.reader? t.id = none →
    Holding.Form.ofKind? t.payload.kind = none → t.IsBuilt → t.writing.failure = none →
      r.FitsAt (depth + 1) t.upgrade → Fits g r f (depth + 1) (.plain t)
  | holding {depth : Nat} {id : UInt64} {h : Holding (Mixed α)} : g.reader? id = none →
    r.kindOf id = .ok h.form.kind →
      (h.map (Mixed.written g.written)).written.size ≤ r.settings.maxTagSize.toNat → h.IsBuilt →
        h.IsFilled → (∀ m ∈ h.items, Fits g r f depth m) → Fits g r f (depth + 1) (.holding id h)

/-- Behind its id, a payload is given by whoever reads under this id. -/
theorem gives_behind {id : UInt64} {next : UInt64 → Reader β} {bytes : Bytes} {b : β}
    (h : (next id).Gives bytes b) :
    (Reader.bind varint.run next).Gives (Varint.encode id ++ bytes) b :=
  Reader.Gives.bind (Reader.gives_run fun _ => yields_varint.mpr rfl) h

theorem length_encode_append_pos (id : UInt64) (bytes : Bytes) :
    0 < (Varint.encode id ++ bytes).length := by
  have hpos := Varint.encodedSize_pos id
  rw [List.length_append, Varint.length_encode]
  omega

theorem Renews.regains {id : UInt64} {a a' : α} (h : g.Renews r depth id a a')
    (hr : (g.reader? id).isSome) (hsize : (g.written a).size ≤ r.settings.maxTagSize.toNat) :
    (g.read r (depth + 1)).Regains ((g.written a).framed id) (.guest id a') := by
  have hi := Id.isImplicit_of_free (g.free hr)
  obtain ⟨read, hr⟩ := Option.isSome_iff_exists.mp hr
  obtain ⟨hf, hbytes⟩ := Written.writing_framed hi h.written
  refine ⟨hf, h.honest.framed id, ?_, ?_⟩
  · rw [hbytes]
    exact length_encode_append_pos id _
  · rw [hbytes]
    refine gives_behind ?_
    rw [hr]
    exact Registry.gives_sized hi hsize ((h.reads read hr).map (Mixed.guest id))

theorem regains_plain {t : Tag} (hr : g.reader? t.id = none)
    (hform : Holding.Form.ofKind? t.payload.kind = none) (hb : t.IsBuilt)
    (hf : t.writing.failure = none) (ht : r.FitsAt (depth + 1) t.upgrade) :
    (g.read r (depth + 1)).Regains t.written (.plain t.upgrade) := by
  have hk : r.kindOf t.id = .ok t.payload.kind := by
    have hkind := (ht.2 _ .self).kind
    rwa [Tag.id_upgrade, Tag.payload_upgrade, Payload.kind_upgradeBy] at hkind
  have hbytes : t.writing.bytes =
      Varint.encode t.id ++ (Header.sizeBytes t.id t.valueSize ++ t.payload.writing.bytes) := by
    rw [(Tag.frames hf).eq, ← List.append_assoc, ← Header.bytes_eq]
    rfl
  refine ⟨hf, t.fills, ?_, fun stops s rest hs hstops => ?_⟩
  · change 0 < t.writing.bytes.length
    rw [hbytes]
    exact length_encode_append_pos t.id _
  -- behind the id, the program for tags goes on like the one for mixed tags
  have hyields := ht.yields
  rw [(Tag.writing_upgrade t hb hf).1, t.upgrade.compact_eq_self hb.upgrade] at hyields
  have hrun := run_of_yields hs hstops (hyields _)
  have hid : varint.run stops s = (.ok t.id, s.advance (Varint.encode t.id).length) := by
    change s.rest = t.writing.bytes ++ rest at hs
    change ∀ stop ∈ stops, s.pos + t.writing.bytes.length ≤ stop at hstops
    rw [hbytes] at hs hstops
    rw [List.append_assoc] at hs
    refine run_of_yields hs (fun stop hmem => ?_) (yields_varint.mpr rfl)
    have := hstops stop hmem
    rw [List.length_append] at this
    omega
  change (varint.bind fun id => (ofExcept (r.kindOf id)).bind fun kind =>
    r.readBody (r.inner depth) id kind).run stops s = _ at hrun
  rw [run_bind_of_ok hid, hk] at hrun
  rw [read, Reader.bind_of_ok hid, hr, hk]
  change readBody r depth (g.read r depth) t.id t.payload.kind stops _ = _
  rw [readBody_plain hform]
  exact Reader.map_eq_ok_iff.mpr ⟨t.upgrade, hrun, rfl⟩

/-- The text of a key is no longer than what holds it. -/
theorem length_encode_le {h : Holding β} {w : β → Written} {k : String} (hk : k ∈ h.strings) :
    (Utf8.encode k).length ≤ (h.map w).written.size := by
  cases h with
  | dictionary m =>
    obtain ⟨e, he, rfl⟩ := List.mem_map.mp hk
    have hentry : Tag.stringSize e.1 + (w e.2).size ∈
        m.toList.map fun e => Tag.stringSize e.1 + (w e.2).size := List.mem_map_of_mem he
    have hsum := List.le_sum_of_mem hentry
    have hsize : ((Holding.dictionary m).map w).written.size =
        Varint.encodedSize (UInt64.ofNat m.size) +
          (m.toList.map fun e => Tag.stringSize e.1 + (w e.2).size).sum := by
      rw [Holding.map, Holding.written, InsertionMap.toList_map, List.map_map]
      rfl
    have hstring : (Utf8.encode e.1).length ≤ Tag.stringSize e.1 := by
      rw [Tag.stringSize]
      exact Nat.le_add_left _ _
    omega
  | _ => exact absurd hk List.not_mem_nil

theorem regains_holding {id : UInt64} {h : Holding (Mixed α)} (hr : g.reader? id = none)
    (hk : r.kindOf id = .ok h.form.kind)
    (hsize : (h.map (Mixed.written g.written)).written.size ≤ r.settings.maxTagSize.toNat)
    (hb : h.IsBuilt) (hf : h.IsFilled) (hdepth : ∀ m ∈ h.items, 0 < depth)
    (hitems : ∀ m ∈ h.items, (g.read r depth).Regains (m.written g.written) (m.renew f)) :
    (g.read r (depth + 1)).Regains ((Mixed.holding id h).written g.written)
      ((Mixed.holding id h).renew f) := by
  have hi := Registry.isImplicit_of_form hk
  have hstrings : ∀ k ∈ h.strings,
      Reader.Gives (r.readString depth).run (Tag.stringWriting k).bytes k := by
    intro k hmem
    obtain ⟨m, hm⟩ : ∃ m, m ∈ h.items := by
      cases h with
      | dictionary d =>
        obtain ⟨e, he, rfl⟩ := List.mem_map.mp hmem
        exact ⟨e.2, List.mem_map_of_mem he⟩
      | _ => exact absurd hmem List.not_mem_nil
    refine Reader.gives_run fun left => ((r.readsBy depth).string _ _ _).mpr ⟨⟨hdepth m hm, ?_⟩, ?_⟩
    · exact (length_encode_le hmem).trans hsize
    · exact Cell.spells_exacts.mpr rfl
  have hread := Holding.gives_read (hsize.trans_lt r.settings.maxTagSize.toNat_lt) rfl hb hf hitems
    hstrings
  have hwritten := Holding.failure_written hf fun m hm => (hitems m hm).written
  have hhonest : (h.map (Mixed.written g.written)).written.Honest := Holding.honest (by
    rw [Holding.items_map, List.forall_mem_map]
    exact fun m hm => (hitems m hm).honest)
  obtain ⟨hfailure, hbytes⟩ := Written.writing_framed hi hwritten
  rw [Mixed.written_holding, Mixed.renew_holding]
  refine ⟨hfailure, hhonest.framed id, ?_, ?_⟩
  · rw [hbytes]
    exact length_encode_append_pos id _
  · rw [hbytes]
    refine gives_behind ?_
    rw [hr, hk]
    change Reader.Gives (readBody r depth (g.read r depth) id h.form.kind) _ _
    rw [readBody_form]
    exact Registry.gives_sized hi hsize (hread.map (Mixed.holding id))

theorem Fits.depth_pos (h : g.Fits r f depth m) : 0 < depth := by
  cases h <;> exact Nat.succ_pos _

/-- **A mixed tag comes back** if its guests do. -/
theorem Fits.regains (h : g.Fits r f depth m) :
    (g.read r depth).Regains (m.written g.written) (m.renew f) := by
  induction h with
  | guest hr ha hsize => exact ha.regains hr hsize
  | plain hr hform hb hf ht => exact regains_plain hr hform hb hf ht
  | holding hr hk hsize hb hf hitems ih =>
    exact regains_holding hr hk hsize hb hf (fun m hm => (hitems m hm).depth_pos) ih

/-- What comes back is written as before. -/
theorem Fits.written_renew (h : g.Fits r f depth m) :
    (m.renew f).written g.written = m.written g.written := by
  induction h with
  | guest _ ha _ => exact congrArg (Written.framed _) ha.alike
  | @plain depth t _ _ hb hf _ =>
    obtain ⟨hwriting, hvalue⟩ := Tag.writing_upgrade t hb hf
    have hsize : t.upgrade.size = t.size := by
      rw [Tag.size_eq, Tag.size_eq, Tag.headerSize, Tag.headerSize, hvalue, Tag.id_upgrade]
    change t.upgrade.written = t.written
    rw [Tag.written, Tag.written, hwriting, hsize]
  | @holding depth id h _ _ _ _ _ _ ih =>
    rw [Mixed.renew_holding, Mixed.written_holding, Mixed.written_holding, ← Holding.map_upToDate,
      Holding.written_upToDate, Holding.map_map]
    exact congrArg (fun held => (Holding.written held).framed id) (Holding.map_congr ih)

/-- **All in what comes back is current**: the guests as `f` makes them, and all else in the version
in which it is written. -/
theorem Fits.current (h : g.Fits r f depth m) (hu : u.Inside (m.renew f)) :
    u.IsCurrent fun a => ∃ a₀, a = f a₀ := by
  induction h with
  | @guest _ _ a =>
    cases hu with
    | self => exact ⟨a, rfl⟩
    | child hv _ => exact absurd hv List.not_mem_nil
  | plain _ _ hb _ _ =>
    obtain ⟨v, hv, rfl⟩ := Mixed.inside_plain hu
    exact Tag.isCurrent_upgrade hb v hv
  | @holding _ _ held _ _ _ _ _ _ ih =>
    rw [Mixed.renew_holding] at hu
    cases hu with
    | self =>
      cases held with
      | document => rfl
      | _ => trivial
    | child hv hin =>
      rw [Mixed.children, Holding.items_upToDate, Holding.items_map] at hv
      obtain ⟨v, hmem, rfl⟩ := List.mem_map.mp hv
      exact ih v hmem hin

/-! ### From one registry to another -/

/-- The registry has the kinds of all that is no guest, and the sizes, as they would be written, are
within its limit. -/
structure Covers (g : Guests α) (r : Registry) (m : Mixed α) : Prop where
  plain : ∀ t, (Mixed.plain t).Inside m → r.Covers t
  kind : ∀ id h, (Mixed.holding id h).Inside m → r.kindOf id = .ok h.form.kind
  size : ∀ u : Mixed α, u.Inside m → Id.isImplicit u.id = false →
    (u.payload g.written).size ≤ r.settings.maxTagSize.toNat

/-- The guests in the mixed tag come back as `f` makes them, each with the levels that are left where
it stands. -/
def RenewsIn (g : Guests α) (r : Registry) (f : α → α) (levels : Nat) (m : Mixed α) : Prop :=
  ∀ id a d, (Mixed.guest id a).AtDepth d m → g.Renews r (levels - d) id a (f a)

theorem Covers.child (h : g.Covers r m) (hu : u ∈ m.children) : g.Covers r u where
  plain t ht := h.plain t (.child hu ht)
  kind id held hin := h.kind id held (.child hu hin)
  size v hv := h.size v (.child hu hv)

theorem RenewsIn.child (h : g.RenewsIn r f (levels + 1) m) (hu : u ∈ m.children) :
    g.RenewsIn r f levels u := by
  intro id a d hd
  have hrenews := h id a (d + 1) (.child hu hd)
  rwa [Nat.add_sub_add_right] at hrenews

theorem RenewsIn.honest (h : g.RenewsIn r f levels m) {id : UInt64} {a : α}
    (ha : (Mixed.guest id a).Inside m) : (g.written a).Honest := by
  obtain ⟨d, hd⟩ := ha.exists_atDepth
  exact (h id a d hd).honest

/-- **What one registry makes** comes back with another that covers it. -/
theorem Made.fits (h : g.Made r depth m) (hc : g.Covers r' m) (hg : g.RenewsIn r' f levels m)
    (hd : depth ≤ levels) : g.Fits r' f levels m := by
  induction h generalizing levels with
  | @guest depth id a hr =>
    obtain ⟨levels, rfl⟩ : ∃ n, levels = n + 1 := ⟨levels - 1, by omega⟩
    exact .guest hr (hg id a 1 .self) (hc.size _ .self (Id.isImplicit_of_free (g.free hr)))
  | @plain depth t hr hform ha =>
    obtain ⟨levels, rfl⟩ : ∃ n, levels = n + 1 := ⟨levels - 1, by omega⟩
    exact .plain hr hform ha.isBuilt ha.failure_writing
      (ha.fitsAt_upgrade (hc.plain t .self) hd)
  | @holding depth id held hr hb hf _ ih =>
    obtain ⟨levels, rfl⟩ : ∃ n, levels = n + 1 := ⟨levels - 1, by omega⟩
    have hk := hc.kind id held .self
    refine .holding hr hk (hc.size _ .self (Registry.isImplicit_of_form hk)) hb hf fun m hm => ?_
    exact ih m hm (hc.child hm) (hg.child hm) (by omega)

/-- A mixed tag is written into `bytes`, as many as it says, with all sizes in it as they have
become. From these it is read with `f` done to its guests and all other versions current, and so it
stays. -/
structure Upgrades (g : Guests α) (r : Registry) (f : α → α) (m : Mixed α) (bytes : Bytes) :
    Prop where
  written : (m.written g.written).writing.toBytes = .ok bytes
  size : bytes.length = (m.written g.written).size
  frames : ∀ u : Mixed α, u.Inside m → ∃ part, part <:+: bytes ∧
    part.length = (u.written g.written).size ∧
      Header.Frames u.id (u.payload g.written).size (u.payload g.written).writing.bytes part
  parsed : g.parse r bytes = .ok (m.renew f)
  current : ∀ u : Mixed α, u.Inside (m.renew f) → u.IsCurrent fun a => ∃ a₀, a = f a₀
  again : ((m.renew f).written g.written).writing.toBytes = .ok bytes

/-- **What one registry has read among guests** comes back to another that covers it, with the guests
as `f` makes them, if these do. -/
theorem upgrades (hg : g.Stays) {bytes : Bytes} (h : g.parse r bytes = .ok m)
    (hc : g.Covers r' m) (hin : g.RenewsIn r' f r'.levels m) (hl : r.levels ≤ r'.levels) :
    g.Upgrades r' f m (m.written g.written).writing.bytes := by
  have hfits := (made_of_parse hg h).fits hc hin hl
  have hregains := hfits.regains
  have hbytes := Writing.toBytes_of_none hregains.written
  refine ⟨hbytes, hregains.honest hregains.written, fun u hu => ?_,
    Reader.parse_of_gives hregains.gives, fun u => hfits.current, ?_⟩
  · exact Mixed.exists_frames (fun id a => hin.honest) hregains.written hu
  · rw [hfits.written_renew]
    exact hbytes

end Guests

end TagFormat
