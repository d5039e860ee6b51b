import TagFormat.Proofs.Input.Curbed
import TagFormat.Proofs.Registry.Locality

/-! # Where readers call for the level below

A reader of payloads is handed the programs for the level below. `Calls f` is an account of where
the reader `f` calls them, step by step as it is written; every kind of payload has one
(`Kind.calls`). What is kept by each such step is kept by every reader: so a reader whose level
below gives up earlier gives up earlier itself, with the same error (`Calls.curbed`). -/

namespace TagFormat

open Reading

/-- An account of where a reader calls the programs for the level below. -/
inductive Calls : {α : Type} → (Inner → Reading α) → Type 1 where
  /-- The reader does not call them. -/
  | none {α : Type} (p : Reading α) : Calls fun _ => p
  | tag : Calls fun inner => inner.tag
  | string : Calls fun inner => inner.string
  | bind {α β : Type} {f : Inner → Reading α} {g : α → Inner → Reading β} (first : Calls f)
      (next : ∀ a, Calls (g a)) : Calls fun inner => (f inner).bind fun a => g a inner
  | room {α : Type} {g : Option Nat → Inner → Reading α} (next : ∀ left, Calls (g left)) :
      Calls fun inner => .room fun left => g left inner
  | exactly {α : Type} (what : String) (size : Nat) {f : Inner → Reading α} (body : Calls f) :
      Calls fun inner => .exactly what size (f inner)

namespace Calls

variable {α β : Type} {f g : Inner → Reading α}

/-! ### Readers of payloads -/

/-- One of two readers. -/
def ite {c : Prop} : [_inst : Decidable c] → Calls f → Calls g →
    Calls fun inner => if c then f inner else g inner
  | .isTrue _, yes, _ => yes
  | .isFalse _, _, no => no

/-- A reader of which the result is changed. -/
def map (h : Calls f) (change : α → β) :
    Calls fun inner => (f inner).bind fun a => done (change a) :=
  h.bind fun a => .none (done (change a))

/-- Items one after another. -/
def timesFrom (item : Calls f) : (count : Nat) → (read : List α) →
    Calls fun inner => (f inner).timesFrom count read
  | 0, read => .none (done read.reverse)
  | count + 1, read => item.bind fun a => item.timesFrom count (a :: read)

/-- Items until the frame is used up. -/
def untilEndFrom (item : Calls f) : (most : Nat) → (read : List α) →
    Calls fun inner => (f inner).untilEndFrom most read
  | 0, read => .none (done read.reverse)
  | most + 1, read => .room fun
    | some 0 => .none (done read.reverse)
    | some (_ + 1) => item.bind fun a => item.untilEndFrom most (a :: read)
    | Option.none => item.bind fun a => item.untilEndFrom most (a :: read)

/-- A frame of the declared size. -/
def framed (what : String) (minimum : Nat) (declared : Declared) {g : Nat → Inner → Reading α}
    (body : ∀ size, Calls (g size)) :
    Calls fun inner => Reading.framed what minimum declared fun size => g size inner :=
  (Calls.none (ofExcept (declared.atLeast what minimum))).bind fun size =>
    (body size).exactly what size

/-- Items with a count before them. -/
def counted (what : String) (declared : Declared) (item : Calls f) :
    Calls fun inner => Reading.counted what declared (f inner) :=
  framed what 1 declared fun _ => (Calls.none varint).bind fun count =>
    (Calls.none (ensureFits what count.toNat)).bind fun _ => item.timesFrom count.toNat []

/-- Entries one after another. -/
def entriesInto (what : String) {key : Inner → Reading String} (hk : Calls key) (hv : Calls f) :
    (count : Nat) → (m : InsertionMap String α) →
      Calls fun inner => Reading.entriesInto what (key inner) (f inner) count m
  | 0, m => .none (done m)
  | count + 1, m => hk.bind fun k => hv.bind fun v =>
    ite (.none (fail (.format (.duplicateKey what k))))
      (hk.entriesInto what hv count (m.insert k v))

/-- A dictionary. -/
def entries (what : String) (declared : Declared) {key : Inner → Reading String} (hk : Calls key)
    (hv : Calls f) : Calls fun inner => Reading.entries what declared (key inner) (f inner) :=
  framed what 1 declared fun _ => (Calls.none varint).bind fun count =>
    (Calls.none (ensureFits what count.toNat)).bind fun _ =>
      hk.entriesInto what hv count.toNat ∅

end Calls

/-- Programs for the level below that are never called. -/
def Inner.uncalled : Inner where
  tag := .fail (.unsupportedId 0)
  string := .fail (.unsupportedId 0)

/-- Where readers of standard types call for the level below. -/
def Standard.calls (declared : Declared) (type : Standard) :
    Calls fun inner => type.read inner declared := by
  have leaf : Calls fun _ => type.read .uncalled declared := .none _
  cases type
  case tagArray => exact (Calls.tag.counted "tag array" declared).map Payload.tagArray
  case tagSequence =>
    exact (Calls.framed "tag sequence" 0 declared fun size => Calls.tag.untilEndFrom size []).map
      Payload.tagSequence
  case dictionary =>
    exact (Calls.string.entries "dictionary" declared Calls.tag).map Payload.dictionary
  case stringDictionary =>
    exact (Calls.string.entries "string dictionary" declared Calls.string).map
      Payload.stringDictionary
  all_goals exact leaf

/-- Where readers of versioned payloads call for the level below. -/
def Body.calls {α : Type} (b : Body α) (hb : ∀ version, Calls fun inner => b.read version inner)
    (declared : Declared) : Calls fun inner => b.readVersioned inner declared :=
  (Calls.none (ofExcept (declared.atLeast what 2))).bind fun size =>
    .exactly what size ((Calls.none uint16).bind fun version =>
      .ite ((hb version).map (Versioned.mk version))
        (.none (fail (.format (.unsupportedVersion what version.toNat)))))

/-- Where codecs call for the level below. -/
def Codec.calls {α : Type} (c : Codec α) (hc : ∀ declared, Calls fun inner => c.read inner declared)
    (declared : Declared) : Calls fun inner => c.readValue inner declared :=
  (Calls.none (ofExcept (declared.bytes c.name))).bind fun size =>
    (hc (.exact size)).exactly c.name size

/-- **Where readers of payloads call** for the level below. -/
def Kind.calls (declared : Declared) : (kind : Kind) → Calls fun inner => kind.read inner declared
  | standard type => type.calls declared
  | point => .none (Kind.point.read .uncalled declared)
  | document => (Body.document.calls (fun _ => .tag) declared).map Payload.document
  | coordinates id => .none ((Kind.coordinates id).read .uncalled declared)
  | fixed width id => .none ((Kind.fixed width id).read .uncalled declared)
  | text id => .none ((Kind.text id).read .uncalled declared)
  | nested id => (Codec.nested.calls (fun _ => .tag) declared).map fun t =>
    Payload.nested ⟨id, some t⟩

namespace Registry

variable (r : Registry)

/-- Where reading what follows an id calls for the level below. -/
def bodyCalls (id : UInt64) (kind : Kind) : Calls fun inner => r.readBody inner id kind :=
  (Calls.none (Header.readSize id r.settings.maxTagSize)).bind fun declared =>
    (kind.calls declared).map (Tag.mk id)

/-- Reads a tag, whatever the programs for the level below. -/
def readLevel (inner : Inner) : Reading Tag :=
  varint.bind fun id => (ofExcept (r.kindOf id)).bind fun kind => r.readBody inner id kind

theorem readTag_succ (depth : Nat) : r.readTag (depth + 1) = r.readLevel (r.inner depth) := rfl

/-- Where reading a tag calls for the level below. -/
def levelCalls : Calls r.readLevel :=
  (Calls.none varint).bind fun id => (Calls.none (ofExcept (r.kindOf id))).bind fun kind =>
    r.bodyCalls id kind

end Registry

/-! ### Levels below that give up earlier -/

/-- A reader whose level below gives up earlier gives up earlier. -/
theorem Calls.curbed {α : Type} {f : Inner → Reading α} (h : Calls f) {error : TagError}
    {inner inner' : Inner} (ht : Curbed error inner.tag inner'.tag)
    (hs : Curbed error inner.string inner'.string) : Curbed error (f inner) (f inner') := by
  induction h with
  | none p => exact .refl p
  | tag => exact ht
  | string => exact hs
  | bind first next ih ihn => exact ih.bind ihn
  | room next ih => exact .room ih
  | exactly what size body ih => exact ih.exactly what size

namespace Registry

variable (r : Registry)

/-- The error with which tags are refused that are nested too deep. -/
def depthError : TagError :=
  .format (.tooDeep r.levels)

theorem curbed_readString {depth depth' : Nat} (h : depth ≤ depth') :
    Curbed r.depthError (r.readString depth) (r.readString depth') := by
  rcases depth with _ | depth
  · exact .replaced _
  · obtain ⟨d, rfl⟩ := Nat.exists_eq_succ_of_ne_zero (show depth' ≠ 0 by omega)
    exact .refl _

/-- **With fewer levels left**, tags are read by the same program, but for those that are
refused. -/
theorem curbed_readTag : ∀ {depth depth' : Nat}, depth ≤ depth' →
    Curbed r.depthError (r.readTag depth) (r.readTag depth')
  | 0, _, _ => .replaced _
  | depth + 1, depth', h => by
    obtain ⟨d, rfl⟩ := Nat.exists_eq_succ_of_ne_zero (show depth' ≠ 0 by omega)
    have hd : depth ≤ d := by omega
    have htag : Curbed r.depthError (r.inner depth).tag (r.inner d).tag := curbed_readTag hd
    have hstring : Curbed r.depthError (r.inner depth).string (r.inner d).string :=
      r.curbed_readString hd
    exact r.levelCalls.curbed htag hstring

end Registry

end TagFormat
