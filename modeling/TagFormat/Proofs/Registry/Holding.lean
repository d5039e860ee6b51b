import TagFormat.Proofs.Registry.Bodies
import TagFormat.Proofs.Tag.Entries

/-! # Reading what holds tags

There are five forms in which tags are held (`Holding.Form`). A reader of what stands in their place
makes a reader of each form, of which the programs of the kind are one case
(`Holding.Form.agrees_read`). What is held comes back from its bytes if each thing in it does, in the
current version if it is a document (`Holding.gives_read`), and all that is read is built from what
was read in it (`Holding.Form.makes_read`). -/

namespace TagFormat

open Reading

variable {α β δ : Type}

/-! ### Slots -/

namespace Codec

/-- Lets a reader read the value of a slot, in exactly the declared size. -/
def load (c : Codec α) (read : Declared → Reader β) (declared : Declared) : Reader β :=
  Reader.bind (ofExcept (declared.bytes c.name)).run fun size =>
    (read (.exact size)).exactly c.name size

variable {c : Codec α} {read : Declared → Reader β}

theorem agrees_load {inner : Inner} {f : β → α}
    (h : ∀ declared, (read declared).Agrees f (c.read inner declared)) (declared : Declared) :
    (c.load read declared).Agrees f (c.readValue inner declared) :=
  .after fun size => (h (.exact size)).exactly c.name size

theorem gives_load {bytes : Bytes} {a : β} {size : Nat} (hsize : bytes.length = size)
    (h : (read (.exact size)).Gives bytes a) : (c.load read (.exact size)).Gives bytes a :=
  h.exactly hsize

theorem makes_load {P : β → Prop} (h : ∀ declared, (read declared).Makes P) (declared : Declared) :
    (c.load read declared).Makes P :=
  .after fun size => (h (.exact size)).exactly c.name size

end Codec

/-- What is written of a thing can be written, is as long as it says, and is read back as `a`. -/
structure Reader.Regains (read : Reader α) (w : Written) (a : α) : Prop where
  written : w.writing.failure = none
  honest : w.Honest
  pos : 0 < w.writing.bytes.length
  gives : read.Gives w.writing.bytes a

/-! ### Forms -/

/-- The forms in which tags are held. That of a slot includes the slot's own id. -/
inductive Holding.Form where
  | array
  | sequence
  | dictionary
  | document
  | nested (id : ExplicitId)

namespace Holding

/-- The form of what is held. -/
def form : Holding α → Form
  | .array _ => .array
  | .sequence _ => .sequence
  | .dictionary _ => .dictionary
  | .document _ => .document
  | .nested slot => .nested slot.id

/-- The kind of payloads of a form. -/
def Form.kind : Form → Kind
  | array => .standard .tagArray
  | sequence => .standard .tagSequence
  | dictionary => .standard .dictionary
  | document => .document
  | nested id => .nested id

/-- The form of payloads of a kind, if they hold tags. -/
def Form.ofKind? : Kind → Option Form
  | .standard .tagArray => some .array
  | .standard .tagSequence => some .sequence
  | .standard .dictionary => some .dictionary
  | .document => some .document
  | .nested id => some (.nested id)
  | _ => none

theorem Form.ofKind?_eq_some_iff {kind : Kind} {form : Form} :
    ofKind? kind = some form ↔ kind = form.kind := by
  constructor
  · intro h
    cases kind with
    | standard type => cases type <;> cases h <;> rfl
    | document | nested => cases h; rfl
    | _ => cases h
  · rintro rfl
    cases form <;> rfl

/-- The texts that are held, each in a tag of its own. -/
def strings : Holding α → List String
  | .dictionary m => m.keys
  | _ => []

/-- A dictionary is built from its entries. -/
def IsBuilt : Holding α → Prop
  | .dictionary m => m = .ofList m.toList
  | _ => True

/-- A slot is not empty. -/
def IsFilled : Holding α → Prop
  | .nested slot => slot.value.isSome
  | _ => True

/-- The same in the version in which it is written. -/
def upToDate : Holding α → Holding α
  | .document v => .document ⟨Payload.documentVersion, v.inner⟩
  | h => h

@[simp] theorem items_upToDate (h : Holding α) : h.upToDate.items = h.items := by
  cases h <;> rfl

theorem written_upToDate (h : Holding Written) : h.upToDate.written = h.written := by
  cases h <;> rfl

theorem map_upToDate (f : α → β) (h : Holding α) : (h.map f).upToDate = h.upToDate.map f := by
  cases h <;> rfl

/-- Reads what a payload of a form holds, with readers of what stands for tags and texts. -/
def Form.read (string : Reader String) (item : Reader α) (declared : Declared) :
    Form → Reader (Holding α)
  | array => (item.counted "tag array" declared).map .array
  | sequence => (item.sequence "tag sequence" declared).map .sequence
  | dictionary => (Reader.entries "dictionary" declared string item).map .dictionary
  | document => (Body.document.load (fun _ => item) declared).map .document
  | nested id => (Codec.nested.load (fun _ => item) declared).map fun a => .nested ⟨id, some a⟩

/-- **The programs of a kind that holds tags** read as these readers do. -/
theorem Form.agrees_read {string : Reader String} {item : Reader α} {inner : Inner} {f : α → Tag}
    (hs : string.Agrees id inner.string) (ht : item.Agrees f inner.tag) (declared : Declared)
    (form : Form) : (form.read string item declared).Agrees (fun h => (h.map f).payload)
      (form.kind.read inner declared) := by
  cases form with
  | array => exact (ht.counted "tag array" declared).map fun _ => rfl
  | sequence => exact (ht.sequence "tag sequence" declared).map fun _ => rfl
  | dictionary => exact (ht.entries hs "dictionary" declared).map fun _ => rfl
  | document => exact (Body.agrees_load (fun _ => ht) declared).map fun _ => rfl
  | nested id => exact (Codec.agrees_load (c := .nested) (fun _ => ht) declared).map fun _ => rfl

/-! ### What comes back -/

section Gives

variable {h : Holding δ} {w : δ → Written} {back : δ → α} {string : Reader String}
  {item : Reader α} {size : Nat}

theorem failure_written (hf : h.IsFilled) (hw : ∀ d ∈ h.items, (w d).writing.failure = none) :
    (h.map w).written.writing.failure = none := by
  have hconcat : ∀ l : List δ, (∀ d ∈ l, (w d).writing.failure = none) →
      (Writing.concat ((l.map w).map Written.writing)).failure = none := fun l hl => by
    rw [List.map_map]
    exact Writing.failure_concat_eq_none.mpr hl
  cases h with
  | array items => exact Writing.failure_append_eq_none.mpr ⟨rfl, hconcat items hw⟩
  | sequence items => exact hconcat items hw
  | dictionary m =>
    refine Writing.failure_append_eq_none.mpr ⟨rfl, ?_⟩
    rw [InsertionMap.toList_map, List.map_map]
    refine Writing.failure_concat_eq_none.mpr fun e he => Writing.failure_append_eq_none.mpr ?_
    exact ⟨Tag.failure_stringWriting e.1, hw e.2 (List.mem_map_of_mem he)⟩
  | document v => exact Writing.failure_append_eq_none.mpr ⟨rfl, hw v.inner List.mem_cons_self⟩
  | nested slot =>
    obtain ⟨id, _ | d⟩ := slot
    · cases hf
    · exact hw d List.mem_cons_self

/-- The bytes of things side by side. -/
theorem bytes_concat_map {l : List δ} (hw : ∀ d ∈ l, (w d).writing.failure = none) :
    (Writing.concat ((l.map w).map Written.writing)).bytes =
      l.flatMap fun d => (w d).writing.bytes := by
  rw [List.map_map]
  exact Writing.bytes_concat hw

theorem bytes_array (items : List δ) (hw : ∀ d ∈ items, (w d).writing.failure = none) :
    ((array items).map w).written.writing.bytes =
      Varint.encode (UInt64.ofNat items.length) ++ items.flatMap fun d => (w d).writing.bytes := by
  rw [← bytes_concat_map hw, map, written, Writing.bytes_append rfl, Writing.bytes_block,
    List.length_map]

theorem bytes_dictionary {m : InsertionMap String δ} (hb : (dictionary m).IsBuilt)
    (hw : ∀ d ∈ m.values, (w d).writing.failure = none) :
    ((dictionary m).map w).written.writing.bytes = entryBytes
      (fun k => (Tag.stringWriting k).bytes) (fun d => (w d).writing.bytes) m.toList := by
  have hsound := InsertionMap.sound_of_eq_ofList hb
  have hentry : ∀ e ∈ m.toList, (Tag.stringWriting e.1 ++ (w e.2).writing).failure = none :=
    fun e he => Writing.failure_append_eq_none.mpr
      ⟨Tag.failure_stringWriting e.1, hw e.2 (List.mem_map_of_mem he)⟩
  rw [map, written, Writing.bytes_append rfl, Writing.bytes_block, InsertionMap.toList_map,
    InsertionMap.size_map, List.map_map, entryBytes, hsound.length_toList]
  refine congrArg (_ ++ ·) ((Writing.bytes_concat hentry).trans
    (List.flatMap_congr fun e he => ?_))
  exact Writing.bytes_append (Tag.failure_stringWriting e.1)

theorem bytes_document (v : Versioned δ) : ((document v).map w).written.writing.bytes =
    BigEndian.encode 2 Payload.documentVersion.toNat ++ (w v.inner).writing.bytes := by
  rw [map, written, Writing.bytes_append rfl, Writing.uint16, Writing.bytes_block]
  rfl

/-- **What is held comes back** if all in it does: each thing as `back` makes it, and a document in
the current version. -/
theorem gives_read (hlt : size < 2 ^ 64) (hsize : (h.map w).written.size = size) (hb : h.IsBuilt)
    (hf : h.IsFilled) (hitems : ∀ d ∈ h.items, item.Regains (w d) (back d))
    (hstrings : ∀ k ∈ h.strings, string.Gives (Tag.stringWriting k).bytes k) :
    (h.form.read string item (.exact size)).Gives (h.map w).written.writing.bytes
      (h.map back).upToDate := by
  have hwritten : ∀ d ∈ h.items, (w d).writing.failure = none := fun d hd => (hitems d hd).written
  have hhonest : (h.map w).written.Honest := Holding.honest (by
    rw [items_map, List.forall_mem_map]
    exact fun d hd => (hitems d hd).honest)
  have hlength := hhonest (failure_written hf hwritten)
  rw [hsize] at hlength
  cases h with
  | array items =>
    rw [bytes_array items hwritten] at hlength ⊢
    exact (Reader.gives_counted (fun d hd => (hitems d hd).gives)
      (fun d hd => (hitems d hd).pos) hlt hlength).map array
  | sequence items =>
    have hbytes : ((sequence items).map w).written.writing.bytes =
        items.flatMap fun d => (w d).writing.bytes := bytes_concat_map hwritten
    rw [hbytes] at hlength ⊢
    exact (Reader.gives_sequence (fun d hd => (hitems d hd).gives)
      (fun d hd => (hitems d hd).pos) hlength).map sequence
  | dictionary m =>
    have hnodup := (InsertionMap.sound_of_eq_ofList hb).nodup_keys
    have hmap : m.map back = .ofList (m.toList.map fun e => (e.1, back e.2)) := by
      rw [← InsertionMap.map_ofList, ← (hb : m = _)]
    rw [bytes_dictionary hb hwritten] at hlength ⊢
    have hgives : (Reader.entries "dictionary" (.exact size) string item).Gives
        (entryBytes (fun k => (Tag.stringWriting k).bytes) (fun d => (w d).writing.bytes) m.toList)
        (.ofList (m.toList.map fun e => (e.1, back e.2))) := Reader.gives_entries
      (fun e he => ⟨hstrings e.1 (List.mem_map_of_mem he),
        (hitems e.2 (List.mem_map_of_mem he)).gives⟩)
      (fun e _ => Tag.length_stringWriting_pos e.1) hnodup hlt hlength
    rw [← hmap] at hgives
    exact hgives.map dictionary
  | document v =>
    have hv := hitems v.inner List.mem_cons_self
    rw [bytes_document] at hlength ⊢
    rw [List.length_append, BigEndian.length_encode] at hlength
    have hload : (Body.document.load (fun _ => item) (.exact size)).Gives
        (BigEndian.encode 2 Payload.documentVersion.toNat ++ (w v.inner).writing.bytes)
        ⟨Payload.documentVersion, back v.inner⟩ :=
      Body.gives_load (beq_self_eq_true _) (fun stops s rest hs hstops =>
        hv.gives _ s rest hs (List.forall_mem_cons.mpr ⟨Nat.le_refl _, hstops⟩)) hlength
    exact hload.map document
  | nested slot =>
    obtain ⟨id, _ | d⟩ := slot
    · cases hf
    · exact (Codec.gives_load (c := .nested) hlength
        (hitems d List.mem_cons_self).gives).map fun a => nested ⟨id, some a⟩

end Gives

/-- What was read of a form: it is built from what was read in it. -/
structure Whole (form : Form) (P : α → Prop) (h : Holding α) : Prop where
  form : h.form = form
  built : h.IsBuilt
  filled : h.IsFilled
  items : ∀ a ∈ h.items, P a

theorem Form.makes_read {string : Reader String} {item : Reader α} {P : α → Prop}
    (hs : string.Stays) (h : item.Makes P) (declared : Declared) (form : Form) :
    (form.read string item declared).Makes (Whole form P) := by
  cases form with
  | array => exact (h.counted _ declared).map fun _ hl => ⟨rfl, trivial, trivial, hl⟩
  | sequence => exact (h.sequence _ declared).map fun _ hl => ⟨rfl, trivial, trivial, hl⟩
  | dictionary =>
    exact (h.entries hs _ declared).map fun m hm => ⟨rfl, hm.1, trivial, List.forall_mem_map.mpr hm.2⟩
  | document =>
    exact (Body.makes_load (fun _ => h) declared).map fun v hv =>
      ⟨rfl, trivial, trivial, List.forall_mem_singleton.mpr hv⟩
  | nested id =>
    exact (Codec.makes_load (fun _ => h) declared).map fun a ha =>
      ⟨rfl, trivial, rfl, List.forall_mem_singleton.mpr ha⟩

end Holding

end TagFormat
