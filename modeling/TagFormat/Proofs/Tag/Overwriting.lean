import TagFormat.Proofs.Input.Items
import TagFormat.Tag.Reading

/-! # Reading over a payload

A payload that is read over another of its kind is the payload that would be read into a fresh one:
nothing of what was there is kept, and nothing that is done hangs on it (`Payload.readOver_eq`). Of
the parts that are changed one by one this asks that each of them is set, whatever the version. -/

namespace TagFormat

open Reading

/-! ### Versioned values -/

/-- The value over which a body is read makes no difference. -/
def Body.Overwrites {α : Type} (b : Body α) : Prop :=
  ∀ version inner a, b.readOver version inner a = b.read version inner

theorem Body.Overwrites.readVersionedOver {α : Type} {b : Body α} (h : b.Overwrites)
    (inner : Inner) (declared : Declared) (v : Versioned α) :
    b.readVersionedOver inner declared v = b.readVersioned inner declared := by
  simp only [Body.readVersionedOver, h _ _ v.inner, Body.readVersioned_eq]

/-- A point keeps neither coordinate, also in the version that has no second one. -/
theorem Body.overwrites_point : Body.point.Overwrites :=
  fun _ _ _ => rfl

theorem Body.overwrites_document : Body.document.Overwrites :=
  fun _ _ _ => rfl

/-! ### Payloads -/

/-- **Nothing is kept** of the payload over which another is read. -/
theorem Payload.readOver_eq (inner : Inner) (declared : Declared) (p : Payload) :
    p.readOver inner declared = p.kind.read inner declared := by
  cases p with
  | point v =>
    rw [readOver, Body.overwrites_point.readVersionedOver]
    rfl
  | document v =>
    rw [readOver, Body.overwrites_document.readVersionedOver]
    rfl
  | _ => rfl

end TagFormat
