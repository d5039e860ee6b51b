import TagFormat.Registry.Settings
import TagFormat.Tag.Reading

/-!
# Registries

A registry makes the payload with which a tag of some id starts out, and over which such a tag is
read: the standard ones, those that were registered for free ids, and, if its policy is to keep
unknown tags, plain bytes for all others. The kind of the payload is what matters for reading.
-/

namespace TagFormat

/-- What is registered for free ids, and the settings. -/
structure Registry where
  settings : Settings := {}
  /-- The payloads that are made for free ids. -/
  made : Std.TreeMap UInt64 Payload := ∅

namespace Registry

/-- Registers what is made for an id, in place of anything before it. -/
def register (r : Registry) (id : UInt64) (fresh : Payload) : Except Refusal Registry :=
  if Id.isReserved id then .error (.reserved id)
  else .ok { r with made := r.made.insert id fresh }

/-- Registers for an id what a kind starts out with. -/
def registerDefault (r : Registry) (id : UInt64) (kind : Kind) : Except Refusal Registry :=
  r.register id kind.initial

/-- Forgets what is made for an id. -/
def unregister (r : Registry) (id : UInt64) : Registry :=
  { r with made := r.made.erase id }

/-- Forgets what is made for an id and tells whether there was anything. -/
def remove (r : Registry) (id : UInt64) : Bool × Registry :=
  (r.made[id]?.isSome, r.unregister id)

/-- Whether anything is registered for the id. -/
def isRegistered (r : Registry) (id : UInt64) : Bool :=
  r.made.contains id

/-- The registered ids, in ascending order. -/
def ids (r : Registry) : List UInt64 :=
  r.made.keys

/-- The payload with which tags of an id start out. -/
def fresh (r : Registry) (id : UInt64) : Except TagError Payload :=
  match Standard.ofId? id with
  | some type => .ok type.initial
  | none =>
    if Id.isReserved id then .error (.unsupportedId id.toNat)
    else
      match r.made[id]?, r.settings.unknown with
      | some payload, _ => .ok payload
      | none, .permissive => .ok (.bytes [])
      | none, .strict => .error (.unsupportedId id.toNat)

/-- A tag as it starts out. -/
def create (r : Registry) (id : UInt64) : Except TagError Tag :=
  (r.fresh id).map (Tag.mk id)

/-- The kind of payload that is registered for an id. -/
def kind? (r : Registry) (id : UInt64) : Option Kind :=
  r.made[id]?.map Payload.kind

/-- The kind of payload that belongs to an id. -/
def kindOf (r : Registry) (id : UInt64) : Except TagError Kind :=
  (r.fresh id).map Payload.kind

theorem kindOf_eq (r : Registry) (id : UInt64) : r.kindOf id =
    match Standard.ofId? id with
    | some type => .ok (.standard type)
    | none =>
      if Id.isReserved id then .error (.unsupportedId id.toNat)
      else
        match r.kind? id, r.settings.unknown with
        | some kind, _ => .ok kind
        | none, .permissive => .ok (.standard .bytes)
        | none, .strict => .error (.unsupportedId id.toNat) := by
  rw [kindOf, fresh, kind?]
  cases Standard.ofId? id with
  | some type => exact congrArg Except.ok (Kind.kind_initial (.standard type))
  | none =>
    by_cases hr : Id.isReserved id = true
    · simp only [if_pos hr]
      rfl
    · simp only [if_neg hr]
      cases r.made[id]? with
      | some payload => rfl
      | none => cases r.settings.unknown <;> rfl

theorem create_map_kind (r : Registry) (id : UInt64) :
    (r.create id).map (fun t => t.payload.kind) = r.kindOf id := by
  rw [create, kindOf]
  cases r.fresh id <;> rfl

/-- A description of the registry. -/
def text (r : Registry) : String :=
  "TagFactory \x7b config: " ++ r.settings.text ++ ", registered: [" ++
    ", ".intercalate (r.ids.map toString) ++ "] \x7d"

end Registry

end TagFormat
