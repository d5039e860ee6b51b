import TagFormat.Proofs.InsertionMap.Edits
import TagFormat.Proofs.Registry.Depth
import TagFormat.Proofs.Tag.Entries

/-! # Dictionaries are lists of pairs with distinct keys

A tag that a registry may read is read back from its own bytes (`Registry.FitsAt.yields`), and so
are the keys of a dictionary, which are tags of their own. So pairs that stand one after the other,
with their number before them, are read as the dictionary that lists them if no key comes twice;
otherwise the first key that came before is told (`readsPairs_entries`). A dictionary that
any edits made is written as the pairs that the edits leave, and comes back as these
(`Registry.comesBack`). Both together are `Registry.dictionary_pairs`. -/

namespace TagFormat

open Reading

/-! ### Pairs -/

/-- The payload of a dictionary: the number of the pairs, and each key as text in a tag of its own
before the tag of its value. -/
def Entries.payload {α : Type} (value : α → Tag) (l : List (String × α)) : Bytes :=
  entryBytes (fun k => (Tag.ofString k).writing.bytes) (fun a => (value a).writing.bytes) l

theorem Entries.lookup_of_mem {K V : Type} [DecidableEq K] {l : List (K × V)}
    (h : (l.map Prod.fst).Nodup) {e : K × V} (he : e ∈ l) : l.lookup e.1 = some e.2 := by
  obtain ⟨before, after, rfl⟩ := List.append_of_mem he
  rw [List.map_append, List.map_cons, List.nodup_append] at h
  obtain ⟨-, hafter, hbefore⟩ := h
  have honce : OnceAt (before ++ e :: after) e.1 before e.2 after :=
    ⟨rfl, fun hmem => hbefore e.1 hmem e.1 List.mem_cons_self rfl,
      (List.nodup_cons.mp hafter).1⟩
  exact honce.lookup

section Pairs

variable {α β γ : Type}

/-- From `c`, which holds the pairs `l`, the program reads a dictionary that lists them in their
order and has the value of each under its key, if no key comes twice. Otherwise it tells the key of
the first pair whose key came before. -/
structure ReadsPairs (p : Reading γ) (f : InsertionMap String α → γ) (what : String) (c : Bytes)
    (l : List (String × α)) : Prop where
  distinct : (l.map Prod.fst).Nodup → ∀ (stops : List Nat) (s : Source) (rest : Bytes),
    s.rest = c ++ rest → (∀ stop ∈ stops, s.pos + c.length ≤ stop) →
      ∃ m, p.run stops s = (.ok (f m), s.advance c.length) ∧ m.toList = l ∧
        ∀ e ∈ l, m.get? e.1 = some e.2
  repeated : ¬(l.map Prod.fst).Nodup → ∀ (stops : List Nat) (s : Source) (rest : Bytes),
    s.rest = c ++ rest → (∀ stop ∈ stops, s.pos + c.length ≤ stop) →
      ∃ before e after, l = before ++ e :: after ∧ (before.map Prod.fst).Nodup ∧
        e.1 ∈ before.map Prod.fst ∧
        (p.run stops s).1 = .error (.format (.duplicateKey what e.1))

theorem readsPairs_entries {key : Reading String} {item : Reading α} {keyBytes : String → Bytes}
    {itemBytes : β → Bytes} {g : β → α} {l : List (String × β)} (what : String)
    (f : InsertionMap String α → Payload) (hl : ReadsEach key item keyBytes itemBytes g l)
    (hpos : ∀ e ∈ l, 0 < (keyBytes e.1).length)
    (hsize : (entryBytes keyBytes itemBytes l).length < 2 ^ 64) :
    ReadsPairs ((entries what (.exact (entryBytes keyBytes itemBytes l).length) key item).bind
        fun m => .done (f m)) f what (entryBytes keyBytes itemBytes l)
      (l.map fun e => (e.1, g e.2)) := by
  have hkeys := InsertionMap.keys_map (K := String) g
  constructor
  · intro hd stops s rest hs hstops
    have hrun := (run_entries what hl hpos hsize hs hstops).1 (by rwa [hkeys] at hd)
    refine ⟨_, run_bind_of_ok hrun, InsertionMap.toList_ofList hd, fun e he => ?_⟩
    rw [(InsertionMap.sound_ofList _).get?_eq_lookup, InsertionMap.toList_ofList hd]
    exact Entries.lookup_of_mem hd he
  · intro hd stops s rest hs hstops
    rw [hkeys] at hd
    obtain ⟨before, e, after, t, rfl, hbefore, he, hrun⟩ :=
      (run_entries what hl hpos hsize hs hstops).2 hd
    refine ⟨before.map fun e => (e.1, g e.2), (e.1, g e.2), after.map fun e => (e.1, g e.2),
      by rw [List.map_append, List.map_cons], by rwa [hkeys], by rwa [hkeys], ?_⟩
    rw [run_bind_of_error hrun]

end Pairs

/-! ### Keys and values -/

theorem Tag.writing_ofString (s : String) : (ofString s).writing = stringWriting s := by
  rw [ofString, writing_mk]
  rfl

namespace Registry

variable {r : Registry} {depth : Nat} {t : Tag} {s : String}

theorem FitsAt.yields_string (h : r.FitsAt depth (Tag.ofString s)) (left : Option Nat) :
    (r.readString depth).Yields left (Tag.ofString s).writing.bytes s := by
  have hdepth : 0 < depth := (Tag.depth_pos _).trans_le h.1
  have hsize : (Utf8.encode s).length ≤ r.settings.maxTagSize.toNat := (h.2 _ .self).size rfl
  refine ((r.readsBy depth).string _ _ _).mpr ⟨⟨hdepth, hsize⟩, Cell.spells_exacts.mpr ?_⟩
  rw [Tag.writing_ofString]
  rfl

theorem length_writing_ofString_pos (s : String) : 0 < (Tag.ofString s).writing.bytes.length := by
  rw [Tag.writing_ofString]
  exact Tag.length_stringWriting_pos s

theorem readsPairs_dictionary {l : List (String × Tag)}
    (hl : ∀ e ∈ l, r.FitsAt depth (Tag.ofString e.1) ∧ r.FitsAt depth e.2)
    (hsize : (Entries.payload (fun t => t) l).length < 2 ^ 64) :
    ReadsPairs (Standard.dictionary.read (r.inner depth)
        (.exact (Entries.payload (fun t => t) l).length)) .dictionary "dictionary"
      (Entries.payload (fun t => t) l) (l.map fun e => (e.1, e.2.compact)) := by
  have heach : ReadsEach (r.readString depth) (r.readTag depth)
      (fun k => (Tag.ofString k).writing.bytes) (fun t => t.writing.bytes) Tag.compact l := by
    intro e he left
    obtain ⟨hk, hv⟩ := hl e he
    exact ⟨hk.yields_string left, hv.yields left⟩
  exact readsPairs_entries "dictionary" .dictionary heach
    (fun e _ => length_writing_ofString_pos e.1) hsize

theorem readsPairs_stringDictionary {l : List (String × String)}
    (hl : ∀ e ∈ l, r.FitsAt depth (Tag.ofString e.1) ∧ r.FitsAt depth (Tag.ofString e.2))
    (hsize : (Entries.payload Tag.ofString l).length < 2 ^ 64) :
    ReadsPairs (Standard.stringDictionary.read (r.inner depth)
        (.exact (Entries.payload Tag.ofString l).length)) .stringDictionary "string dictionary"
      (Entries.payload Tag.ofString l) l := by
  have heach : ReadsEach (r.readString depth) (r.readString depth)
      (fun k => (Tag.ofString k).writing.bytes) (fun s => (Tag.ofString s).writing.bytes)
      (fun s => s) l := by
    intro e he left
    obtain ⟨hk, hv⟩ := hl e he
    exact ⟨hk.yields_string left, hv.yields_string left⟩
  have hread := readsPairs_entries "string dictionary" .stringDictionary heach
    (fun e _ => length_writing_ofString_pos e.1) hsize
  rwa [List.map_id'] at hread

/-! ### Tags of dictionaries -/

/-- A header that declares an allowed size for the kind of its id leads to the payload. -/
theorem run_readTag {id : UInt64} {kind : Kind} {size : Nat} (hk : r.kindOf id = .ok kind)
    (hi : Id.isImplicit id = false) (hsize : size ≤ r.settings.maxTagSize.toNat)
    {stops : List Nat} {s : Source} {rest : Bytes} (hs : s.rest = Header.bytes id size ++ rest)
    (hstops : ∀ stop ∈ stops, s.pos + (Header.bytes id size).length ≤ stop) :
    (r.readTag (depth + 1)).run stops s =
      ((kind.read (r.inner depth) (.exact size)).bind fun p => .done (.mk id p)).run stops
        (s.advance (Header.bytes id size).length) := by
  have hbytes : Header.bytes id size = Varint.encode id ++ Varint.encode (UInt64.ofNat size) := by
    rw [Header.bytes_eq, Header.sizeBytes, hi]
    rfl
  rw [hbytes, List.append_assoc] at hs
  rw [hbytes, List.length_append] at hstops ⊢
  have hid : Reading.varint.run stops s = (.ok id, s.advance (Varint.encode id).length) :=
    run_of_yields hs (fun stop h => by have := hstops stop h; omega) (yields_varint.mpr rfl)
  have hn : (UInt64.ofNat size).toNat = size :=
    UInt64.toNat_ofNat_of_lt' (hsize.trans_lt r.settings.maxTagSize.toNat_lt)
  have hyields : (Header.readSize id r.settings.maxTagSize).Yields
      (roomAt stops (s.advance (Varint.encode id).length).pos)
      (Varint.encode (UInt64.ofNat size)) (.exact size) :=
    (Header.yields_readSize_of_explicit hi).mpr
      ⟨_, by rwa [UInt64.le_iff_toNat_le, hn], rfl, by rw [hn]⟩
  have hdeclared := run_of_yields (Source.rest_advance hs) (fun stop h => by
    have := hstops stop h
    rw [Source.advance_pos]
    omega) hyields
  rw [Source.advance_advance] at hdeclared
  rw [readTag, bind_eq, run_bind_of_ok hid, hk]
  change (r.readBody (r.inner depth) id kind).run stops _ = _
  rw [readBody, bind_eq, run_bind_of_ok hdeclared]
  rfl

/-- What is read from the payload is read from the tag around it. -/
theorem ReadsPairs.tag {α : Type} {id : UInt64} {kind : Kind}
    {f : InsertionMap String α → Payload} {what : String} {c : Bytes} {l : List (String × α)}
    (hk : r.kindOf id = .ok kind) (hi : Id.isImplicit id = false)
    (hsize : c.length ≤ r.settings.maxTagSize.toNat)
    (h : ReadsPairs (kind.read (r.inner depth) (.exact c.length)) f what c l) :
    ReadsPairs (r.readTag (depth + 1)) (fun m => .mk id (f m)) what
      (Header.bytes id c.length ++ c) l := by
  have hrun : ∀ {stops : List Nat} {s : Source} {rest : Bytes},
      s.rest = Header.bytes id c.length ++ c ++ rest →
      (∀ stop ∈ stops, s.pos + (Header.bytes id c.length ++ c).length ≤ stop) →
      (s.advance (Header.bytes id c.length).length).rest = c ++ rest ∧
      (∀ stop ∈ stops,
        (s.advance (Header.bytes id c.length).length).pos + c.length ≤ stop) ∧
      (r.readTag (depth + 1)).run stops s =
        ((kind.read (r.inner depth) (.exact c.length)).bind fun p => .done (.mk id p)).run stops
          (s.advance (Header.bytes id c.length).length) := by
    intro stops s rest hs hstops
    rw [List.append_assoc] at hs
    rw [List.length_append] at hstops
    refine ⟨Source.rest_advance hs, fun stop h => ?_,
      run_readTag hk hi hsize hs fun stop h => by have := hstops stop h; omega⟩
    have := hstops stop h
    rw [Source.advance_pos]
    omega
  constructor
  · intro hd stops s rest hs hstops
    obtain ⟨hrest, hfit, heq⟩ := hrun hs hstops
    obtain ⟨m, hm, hlist, hget⟩ := h.distinct hd stops _ rest hrest hfit
    refine ⟨m, ?_, hlist, hget⟩
    rw [heq, run_bind_of_ok hm, Source.advance_advance, List.length_append]
    rfl
  · intro hd stops s rest hs hstops
    obtain ⟨hrest, hfit, heq⟩ := hrun hs hstops
    obtain ⟨before, e, after, hl, hbefore, he, herror⟩ := h.repeated hd stops _ rest hrest hfit
    refine ⟨before, e, after, hl, hbefore, he, ?_⟩
    rw [heq, run_bind_of_error (Prod.ext herror rfl)]

/-! ### Dictionaries that were edited -/

section Edited

open InsertionMap

variable {α : Type} {id : UInt64} {f : InsertionMap String α → Payload} {value : α → Tag}
  {back : α → α} {edits : List (Edit String α)}

/-- The dictionary that edits make is written as the pairs that they leave, with their number before
them. It comes back as a dictionary of these pairs in their order, and of a key that was removed and
not put again there is no entry. -/
structure ComesBack (r : Registry) (id : UInt64) (f : InsertionMap String α → Payload)
    (value : α → Tag) (back : α → α) (edits : List (Edit String α)) : Prop where
  size : (edited edits).size = (listed edits).length
  written : (Tag.mk id (f (edited edits))).toBytes = .ok
    (Header.bytes id (Entries.payload value (listed edits)).length ++
      Entries.payload value (listed edits))
  parsed : ∃ m, r.parse (Header.bytes id (Entries.payload value (listed edits)).length ++
      Entries.payload value (listed edits)) = .ok (.mk id (f m)) ∧
    m.toList = (listed edits).map (fun e => (e.1, back e.2)) ∧
    m.size = (listed edits).length ∧
    (∀ e ∈ listed edits, m.get? e.1 = some (back e.2)) ∧
    ∀ before k after, edits = before ++ .remove k :: after → (∀ e ∈ after, ¬e.Puts k) →
      m.get? k = none

theorem comesBack (h : r.WellFormed (.mk id (f (edited edits))))
    (hpayload : ∀ m : InsertionMap String α, m.Sound → (f m).writing.failure = none →
      (f m).writing.bytes = Entries.payload value m.toList)
    (hcompact : ∀ m : InsertionMap String α,
      (f m).compact = f (.ofList (m.toList.map fun e => (e.1, back e.2)))) :
    r.ComesBack id f value back edits := by
  obtain ⟨hsound, hlist⟩ := lists_edited edits
  have hsize : (edited edits).size = (listed edits).length := by
    rw [← hlist]
    exact hsound.length_toList.symm
  -- the bytes are those of the pairs
  have hf := h.failure_writing
  have hbytes : (Tag.mk id (f (edited edits))).writing.bytes =
      Header.bytes id (Entries.payload value (listed edits)).length ++
        Entries.payload value (listed edits) := by
    have hp := hpayload (edited edits) hsound (Tag.failure_writing_eq_none.mp hf).2
    rw [hlist] at hp
    have hframes := Tag.frames hf
    rw [hframes.eq, ← hframes.payload_length, Tag.payload_mk, Tag.id_mk, hp]
    rfl
  -- and they are read as a map that is made of the pairs
  have hkeys := keys_map back (listed edits)
  have hnodup : ((listed edits).map Prod.fst).Nodup := by
    rw [← hlist]
    exact hsound.nodup_keys
  have hmap : (InsertionMap.ofList ((listed edits).map fun e => (e.1, back e.2))).toList =
      (listed edits).map fun e => (e.1, back e.2) := toList_ofList (by rwa [hkeys])
  have hmaps := sound_ofList ((listed edits).map fun e => (e.1, back e.2))
  refine ⟨hsize, ?_, .ofList ((listed edits).map fun e => (e.1, back e.2)), ?_, hmap, ?_,
    fun e he => ?_, fun before k after hedits hafter => ?_⟩
  · rw [← hbytes]
    exact Writing.toBytes_of_none hf
  · rw [← hbytes, parse_writing h.inside, if_pos h.depth, Tag.compact, hcompact, hlist]
  · rw [← hmaps.length_toList, hmap, List.length_map]
  · rw [hmaps.get?_eq_lookup, hmap]
    exact Entries.lookup_of_mem (by rwa [hkeys])
      (List.mem_map_of_mem (f := fun e => (e.1, back e.2)) he)
  · rw [hmaps.get?_eq_lookup, hmap]
    refine Entries.lookup_of_not_mem ?_
    rw [hkeys, hedits]
    exact not_mem_listed hafter

theorem comesBack_dictionary {edits : List (Edit String Tag)}
    (h : r.WellFormed (.mk id (.dictionary (edited edits)))) :
    r.ComesBack id .dictionary (fun t => t) Tag.compact edits := by
  refine comesBack h (fun m hm hf => ?_) Payload.compact_dictionary
  rw [Payload.writing_dictionary] at hf ⊢
  obtain ⟨h₁, h₂⟩ := Writing.failure_append_eq_none.mp hf
  rw [Writing.failure_concat_eq_none] at h₂
  rw [Writing.bytes_append h₁, Writing.bytes_block, Writing.bytes_concat h₂, Entries.payload,
    entryBytes, hm.length_toList]
  refine congrArg (_ ++ ·) (List.flatMap_congr fun e he => ?_)
  obtain ⟨hk, -⟩ := Writing.failure_append_eq_none.mp (h₂ e he)
  rw [Writing.bytes_append hk, Tag.writing_ofString]

theorem comesBack_stringDictionary {edits : List (Edit String String)}
    (h : r.WellFormed (.mk id (.stringDictionary (edited edits)))) :
    r.ComesBack id .stringDictionary Tag.ofString (fun s => s) edits := by
  refine comesBack h (fun m hm _ => ?_) fun m => ?_
  · have hf : ∀ e ∈ m.toList, (Tag.stringWriting e.1 ++ Tag.stringWriting e.2).failure = none :=
      fun e _ => Writing.failure_append_eq_none.mpr
        ⟨Tag.failure_stringWriting e.1, Tag.failure_stringWriting e.2⟩
    rw [Payload.writing_stringDictionary, Writing.bytes_append rfl, Writing.bytes_block,
      Writing.bytes_concat hf, Entries.payload, entryBytes, hm.length_toList]
    refine congrArg (_ ++ ·) (List.flatMap_congr fun e _ => ?_)
    rw [Writing.bytes_append (Tag.failure_stringWriting e.1), Tag.writing_ofString,
      Tag.writing_ofString]
  · rw [Payload.compact, List.map_id']

end Edited

/-! ### Both dictionaries -/

theorem isImplicit_of_dictionary {id : UInt64} {type : Standard}
    (h : r.kindOf id = .ok (.standard type)) (hd : Id.isImplicit type.id = false) :
    Id.isImplicit id = false := by
  by_contra hi
  obtain ⟨type', rfl, hk⟩ := exists_standard h (Bool.not_eq_false _ ▸ hi)
  cases hk
  exact hi hd

/-- **A dictionary is a list of pairs with distinct keys.** Pairs of texts and tags that fit, one
after the other and with their number before them, are read as the dictionary that lists them, or
the first key that came before is told; so they are in a tag of any id of that kind, and where the
tags have no traces of removals, they are read as they are. The same goes for pairs of texts. What
edits make of an empty dictionary is written as the pairs that they leave and comes back as
these. -/
theorem dictionary_pairs (r : Registry) :
    (∀ (depth : Nat) (l : List (String × Tag)) (c : Bytes),
      (∀ e ∈ l, r.FitsAt depth (Tag.ofString e.1) ∧ r.FitsAt depth e.2) →
      c = Entries.payload (fun t => t) l → c.length ≤ r.settings.maxTagSize.toNat →
      ReadsPairs (Standard.dictionary.read (r.inner depth) (.exact c.length)) .dictionary
        "dictionary" c (l.map fun e => (e.1, e.2.compact)) ∧
      (∀ id : UInt64, r.kindOf id = .ok (.standard .dictionary) →
        ReadsPairs (r.readTag (depth + 1)) (fun m => .mk id (.dictionary m)) "dictionary"
          (Header.bytes id c.length ++ c) (l.map fun e => (e.1, e.2.compact))) ∧
      ((∀ e ∈ l, ∀ u : Tag, u.Inside e.2 → u.payload.IsBuilt) →
        (l.map fun e => (e.1, e.2.compact)) = l)) ∧
    (∀ (depth : Nat) (l : List (String × String)) (c : Bytes),
      (∀ e ∈ l, r.FitsAt depth (Tag.ofString e.1) ∧ r.FitsAt depth (Tag.ofString e.2)) →
      c = Entries.payload Tag.ofString l → c.length ≤ r.settings.maxTagSize.toNat →
      ReadsPairs (Standard.stringDictionary.read (r.inner depth) (.exact c.length))
        .stringDictionary "string dictionary" c l ∧
      ∀ id : UInt64, r.kindOf id = .ok (.standard .stringDictionary) →
        ReadsPairs (r.readTag (depth + 1)) (fun m => .mk id (.stringDictionary m))
          "string dictionary" (Header.bytes id c.length ++ c) l) ∧
    (∀ (id : UInt64) (edits : List (InsertionMap.Edit String Tag)),
      r.WellFormed (.mk id (.dictionary (InsertionMap.edited edits))) →
      r.ComesBack id .dictionary (fun t => t) Tag.compact edits) ∧
    ∀ (id : UInt64) (edits : List (InsertionMap.Edit String String)),
      r.WellFormed (.mk id (.stringDictionary (InsertionMap.edited edits))) →
      r.ComesBack id .stringDictionary Tag.ofString (fun s => s) edits := by
  have hlimit : ∀ {n : Nat}, n ≤ r.settings.maxTagSize.toNat → n < 2 ^ 64 := fun h =>
    h.trans_lt r.settings.maxTagSize.toNat_lt
  refine ⟨fun depth l c hl hc hsize => ?_, fun depth l c hl hc hsize => ?_,
    fun id edits h => comesBack_dictionary h, fun id edits h => comesBack_stringDictionary h⟩
  · subst hc
    have hpairs := readsPairs_dictionary hl (hlimit hsize)
    refine ⟨hpairs, fun id hk => ?_, fun hbuilt => ?_⟩
    · have hi := isImplicit_of_dictionary hk (by decide)
      exact ReadsPairs.tag hk hi hsize hpairs
    · exact InsertionMap.map_eq_self fun e he => e.2.compact_eq_self (hbuilt e he)
  · subst hc
    have hpairs := readsPairs_stringDictionary hl (hlimit hsize)
    refine ⟨hpairs, fun id hk => ?_⟩
    have hi := isImplicit_of_dictionary hk (by decide)
    exact ReadsPairs.tag hk hi hsize hpairs

/-- A key that comes twice, and a dictionary from which one key was removed and the other was put
anew. -/
theorem dictionary_pairs_repeated :
    ((readTag {} 8).run [] (.ofBytes [30, 9, 2, 17, 1, 97, 0, 17, 1, 97, 0])).1 =
        .error (.format (.duplicateKey "dictionary" "a")) ∧
    ComesBack {} 31 .stringDictionary Tag.ofString (fun s => s)
      [.put "a" "x", .put "b" "y", .remove "a", .compact, .put "b" "z"] ∧
    (Tag.mk 31 (.stringDictionary (InsertionMap.edited
      [.put "a" "x", .put "b" "y", .remove "a", .compact, .put "b" "z"]))).toBytes =
        .ok [31, 7, 1, 17, 1, 98, 17, 1, 122] := by
  have hkey : FitsAt {} 7 (Tag.ofString "a") := by
    refine ⟨by decide, Tag.forall_inside_iff.mpr ⟨?_, List.forall_mem_nil _⟩⟩
    exact ⟨rfl, fun _ => by decide, trivial, trivial, trivial⟩
  have hvalue : FitsAt {} 7 Tag.null := by
    refine ⟨by decide, Tag.forall_inside_iff.mpr ⟨?_, List.forall_mem_nil _⟩⟩
    exact ⟨rfl, fun h => absurd h (by decide), trivial, trivial, trivial⟩
  have hw : WellFormed {} (.mk 31 (.stringDictionary (InsertionMap.edited
      [.put "a" "x", .put "b" "y", .remove "a", .compact, .put "b" "z"]))) := by
    refine ⟨by decide, Tag.forall_inside_iff.mpr ⟨?_, List.forall_mem_nil _⟩⟩
    exact ⟨rfl, fun _ => by decide, trivial, trivial, (InsertionMap.lists_edited _).1⟩
  obtain ⟨hpairs, -, -, hback⟩ := dictionary_pairs {}
  obtain ⟨-, htag, -⟩ := hpairs 7 [("a", .null), ("a", .null)] _
    (fun e he => by
      simp only [List.mem_cons, List.not_mem_nil, or_false, or_self] at he
      subst he
      exact ⟨hkey, hvalue⟩) rfl (by decide)
  obtain ⟨before, e, after, hl, -, -, herror⟩ := (htag 30 rfl).repeated (by decide) []
    (.ofBytes [30, 9, 2, 17, 1, 97, 0, 17, 1, 97, 0]) [] (by decide) (List.forall_mem_nil _)
  have hmem : e ∈ ([("a", .null), ("a", .null)] : List (String × Tag)).map
      fun e => (e.1, e.2.compact) := by
    rw [hl]
    exact List.mem_append_right _ List.mem_cons_self
  have hfirst : e.1 = "a" := by
    simp only [List.map_cons, List.map_nil, List.mem_cons, List.not_mem_nil, or_false,
      or_self] at hmem
    rw [hmem]
  rw [hfirst] at herror
  exact ⟨herror, hback 31 _ hw, by decide⟩

end Registry

end TagFormat
