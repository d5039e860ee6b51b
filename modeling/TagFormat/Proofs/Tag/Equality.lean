import Mathlib.Data.List.Forall2
import Mathlib.Data.List.Permutation
import TagFormat.Proofs.Tag.Written

/-! # Equality of tags

Two tags are equal if their ids are and their payloads are *alike*: equal as numbers, or with equal
tags at the same places, or the same (`Tag.equal_iff`). What is shown of likeness one level at a time
holds of whole tags by induction on one of the two: equality is symmetric and transitive, and a tag
equals itself unless there is a NaN in it. Likewise equal tags have the same size and are written
alike, but for the signs of zeros (`Tag.sameBut_writing`). -/

namespace TagFormat

/-! ### Numbers -/

namespace Binary

variable {f : Binary} {a b c : Nat}

theorem equal_iff : f.equal a b = true ↔ (f.isNaN a = false ∧ f.isNaN b = false) ∧
    (a = b ∨ f.isZero a = true ∧ f.isZero b = true) := by
  simp [equal]

theorem equal_self_iff : f.equal a a = true ↔ f.isNaN a = false := by
  simp [equal]

theorem equal_symm (h : f.equal a b = true) : f.equal b a = true := by
  obtain ⟨hn, hv⟩ := equal_iff.mp h
  exact equal_iff.mpr ⟨hn.symm, hv.imp Eq.symm And.symm⟩

theorem equal_trans (hab : f.equal a b = true) (hbc : f.equal b c = true) :
    f.equal a c = true := by
  obtain ⟨⟨ha, -⟩, hab⟩ := equal_iff.mp hab
  obtain ⟨⟨-, hc⟩, hbc⟩ := equal_iff.mp hbc
  refine equal_iff.mpr ⟨⟨ha, hc⟩, ?_⟩
  rcases hab with rfl | ⟨hza, hzb⟩
  · exact hbc
  · rcases hbc with rfl | ⟨-, hzc⟩
    · exact .inr ⟨hza, hzb⟩
    · exact .inr ⟨hza, hzc⟩

/-- A zero of 32 bits has no bit but the sign. -/
theorem eq_of_isZero_single {n : UInt32} (h : single.isZero n.toNat = true) :
    n = 0 ∨ n = 0x80000000 := by
  have hn := n.toNat_lt
  simp [isZero, exponent, fraction, single, Nat.shiftRight_eq_div_pow] at h
  simp only [← UInt32.toNat_inj]
  change n.toNat = 0 ∨ n.toNat = 2147483648
  omega

/-- A zero of 64 bits has no bit but the sign. -/
theorem eq_of_isZero_double {n : UInt64} (h : double.isZero n.toNat = true) :
    n = 0 ∨ n = 0x8000000000000000 := by
  have hn := n.toNat_lt
  simp [isZero, exponent, fraction, double, Nat.shiftRight_eq_div_pow] at h
  simp only [← UInt64.toNat_inj]
  change n.toNat = 0 ∨ n.toNat = 9223372036854775808
  omega

end Binary

/-! ### Lists -/

section Lists

variable {α β γ : Type} {R S : α → β → Prop} {T : β → γ → Prop} {as : List α} {bs : List β}
  {cs : List γ}

theorem forall₂_imp_of_mem (h : List.Forall₂ R as bs) (hRS : ∀ a ∈ as, ∀ b, R a b → S a b) :
    List.Forall₂ S as bs :=
  ((List.forall₂_and_left (p := fun a => ∀ b, R a b → S a b) as bs).mpr ⟨hRS, h⟩).imp
    fun _ b hb => hb.1 b hb.2

theorem forall₂_comp (h : List.Forall₂ R as bs) (h' : List.Forall₂ T bs cs) :
    List.Forall₂ (fun a c => ∃ b, R a b ∧ T b c) as cs := by
  induction h generalizing cs with
  | nil =>
    cases h'
    exact .nil
  | cons hab _ ih =>
    obtain _ | ⟨hbc, hrest⟩ := h'
    exact .cons ⟨_, hab, hbc⟩ (ih hrest)

theorem map_eq_of_forall₂ {f : α → γ} {g : β → γ}
    (h : List.Forall₂ (fun a b => f a = g b) as bs) : as.map f = bs.map g := by
  rw [← List.forall₂_eq_eq_eq, List.forall₂_map_left_iff, List.forall₂_map_right_iff]
  exact h

end Lists

/-! ### Signs -/

/-- Bytes that differ in the sign of the first at most. -/
theorem SameBut.head {b c : UInt8} (h : b = c ∨ b ^^^ c = 0x80) (x : Bytes) :
    SameBut (fun i => i = 0) (b :: x) (c :: x) := by
  refine ⟨rfl, fun i d e hd he => ?_⟩
  rcases i with _ | i
  · obtain rfl := Option.some.inj hd
    obtain rfl := Option.some.inj he
    exact h.imp_right fun hs => ⟨rfl, hs⟩
  · exact .inl (Option.some.inj (hd.symm.trans he))

/-- **Equal numbers are written alike**, but for the sign of a zero. -/
theorem Binary.sameBut_single {m n : UInt32} (h : single.equal m.toNat n.toNat = true) :
    SameBut (fun i => single.isZero m.toNat = true ∧ i = 0) (Scalar.float32 m).encode
      (Scalar.float32 n).encode := by
  obtain ⟨-, heq | ⟨hm, hn⟩⟩ := equal_iff.mp h
  · rw [UInt32.toNat_inj.mp heq]
    exact .refl _ _
  · refine SameBut.mono ?_ fun i hi => ⟨hm, hi⟩
    rcases eq_of_isZero_single hm with rfl | rfl <;> rcases eq_of_isZero_single hn with rfl | rfl
    all_goals exact .head (by decide) [0, 0, 0]

theorem Binary.sameBut_double {m n : UInt64} (h : double.equal m.toNat n.toNat = true) :
    SameBut (fun i => double.isZero m.toNat = true ∧ i = 0) (Scalar.float64 m).encode
      (Scalar.float64 n).encode := by
  obtain ⟨-, heq | ⟨hm, hn⟩⟩ := equal_iff.mp h
  · rw [UInt64.toNat_inj.mp heq]
    exact .refl _ _
  · refine SameBut.mono ?_ fun i hi => ⟨hm, hi⟩
    rcases eq_of_isZero_double hm with rfl | rfl <;> rcases eq_of_isZero_double hn with rfl | rfl
    all_goals exact .head (by decide) [0, 0, 0, 0, 0, 0, 0]

/-! ### Payloads that are alike -/

namespace Payload

/-- The payload equals itself only: it holds no number of floating point, no tags and no map. -/
def IsPlain : Payload → Prop
  | .float32 _ | .float64 _ | .tagArray _ | .tagSequence _ | .dictionary _ | .stringDictionary _
  | .document _ => False
  | .nested slot => slot.value = none
  | _ => True

/-- The payloads are equal if the tags one level further down are that `R` relates. -/
inductive Alike (R : Tag → Tag → Prop) : Payload → Payload → Prop where
  | plain {p : Payload} (h : p.IsPlain) : Alike R p p
  | float32 {m n : UInt32} (h : Binary.single.equal m.toNat n.toNat = true) :
    Alike R (.float32 m) (.float32 n)
  | float64 {m n : UInt64} (h : Binary.double.equal m.toNat n.toNat = true) :
    Alike R (.float64 m) (.float64 n)
  | tagArray {ts us : List Tag} (h : List.Forall₂ R ts us) : Alike R (.tagArray ts) (.tagArray us)
  | tagSequence {ts us : List Tag} (h : List.Forall₂ R ts us) :
    Alike R (.tagSequence ts) (.tagSequence us)
  | dictionary {m n : InsertionMap String Tag} (size : m.size = n.size)
    (h : List.Forall₂ (fun e e' => e.1 = e'.1 ∧ R e.2 e'.2) m.toList n.toList) :
    Alike R (.dictionary m) (.dictionary n)
  | stringDictionary {m n : InsertionMap String String} (size : m.size = n.size)
    (h : m.toList = n.toList) : Alike R (.stringDictionary m) (.stringDictionary n)
  | document {version : UInt16} {t u : Tag} (h : R t u) :
    Alike R (.document ⟨version, t⟩) (.document ⟨version, u⟩)
  | nested {id : ExplicitId} {t u : Tag} (h : R t u) :
    Alike R (.nested ⟨id, some t⟩) (.nested ⟨id, some u⟩)

/-- Whether the payload is a NaN. -/
def IsNaN : Payload → Prop
  | .float32 bits => Binary.single.isNaN bits.toNat = true
  | .float64 bits => Binary.double.isNaN bits.toNat = true
  | _ => False

variable {R S : Tag → Tag → Prop} {p q r : Payload}

namespace Alike

theorem imp (h : Alike R p q) (hRS : ∀ t ∈ p.children, ∀ u, R t u → S t u) : Alike S p q := by
  cases h with
  | plain h => exact .plain h
  | float32 h => exact .float32 h
  | float64 h => exact .float64 h
  | tagArray h => exact .tagArray (forall₂_imp_of_mem h hRS)
  | tagSequence h => exact .tagSequence (forall₂_imp_of_mem h hRS)
  | dictionary size h =>
    refine .dictionary size (forall₂_imp_of_mem h fun e he e' hee => ?_)
    exact ⟨hee.1, hRS e.2 (List.mem_map_of_mem he) e'.2 hee.2⟩
  | stringDictionary size h => exact .stringDictionary size h
  | document h => exact .document (hRS _ (List.mem_singleton_self _) _ h)
  | nested h => exact .nested (hRS _ (List.mem_singleton_self _) _ h)

theorem flip (h : Alike R p q) : Alike (fun t u => R u t) q p := by
  cases h with
  | plain h => exact .plain h
  | float32 h => exact .float32 (Binary.equal_symm h)
  | float64 h => exact .float64 (Binary.equal_symm h)
  | tagArray h => exact .tagArray h.flip
  | tagSequence h => exact .tagSequence h.flip
  | dictionary size h => exact .dictionary size.symm (h.flip.imp fun _ _ he => ⟨he.1.symm, he.2⟩)
  | stringDictionary size h => exact .stringDictionary size.symm h.symm
  | document h => exact .document h
  | nested h => exact .nested h

theorem eq_of_isPlain (h : Alike R p q) (hp : p.IsPlain) : q = p := by
  cases h with
  | plain => rfl
  | nested => cases hp
  | _ => exact hp.elim

theorem comp (h : Alike R p q) (h' : Alike S q r) :
    Alike (fun t v => ∃ u, R t u ∧ S u v) p r := by
  cases h with
  | plain h =>
    rw [h'.eq_of_isPlain h]
    exact .plain h
  | float32 h =>
    cases h' with
    | plain h' => exact h'.elim
    | float32 h' => exact .float32 (Binary.equal_trans h h')
  | float64 h =>
    cases h' with
    | plain h' => exact h'.elim
    | float64 h' => exact .float64 (Binary.equal_trans h h')
  | tagArray h =>
    cases h' with
    | plain h' => exact h'.elim
    | tagArray h' => exact .tagArray (forall₂_comp h h')
  | tagSequence h =>
    cases h' with
    | plain h' => exact h'.elim
    | tagSequence h' => exact .tagSequence (forall₂_comp h h')
  | dictionary size h =>
    cases h' with
    | plain h' => exact h'.elim
    | dictionary size' h' =>
      refine .dictionary (size.trans size') ((forall₂_comp h h').imp ?_)
      rintro e e'' ⟨e', ⟨hk, hv⟩, hk', hv'⟩
      exact ⟨hk.trans hk', e'.2, hv, hv'⟩
  | stringDictionary size h =>
    cases h' with
    | plain h' => exact h'.elim
    | stringDictionary size' h' => exact .stringDictionary (size.trans size') (h.trans h')
  | document h =>
    cases h' with
    | plain h' => exact h'.elim
    | document h' => exact .document ⟨_, h, h'⟩
  | nested h =>
    cases h' with
    | plain h' => cases h'
    | nested h' => exact .nested ⟨_, h, h'⟩

/-- Only a NaN keeps a payload from being alike itself, if the tags in it are. -/
theorem self_iff : Alike R p p ↔ ¬p.IsNaN ∧ ∀ t ∈ p.children, R t t := by
  have hnan : ∀ b : Bool, b = false ↔ ¬b = true := by decide
  constructor
  · intro h
    cases h with
    | plain h =>
      cases p with
      | nested slot =>
        obtain ⟨id, value⟩ := slot
        obtain rfl : value = none := h
        exact ⟨not_false, List.forall_mem_nil _⟩
      | float32 | float64 | tagArray | tagSequence | dictionary | document => exact h.elim
      | _ => exact ⟨not_false, List.forall_mem_nil _⟩
    | float32 h => exact ⟨(hnan _).mp (Binary.equal_self_iff.mp h), List.forall_mem_nil _⟩
    | float64 h => exact ⟨(hnan _).mp (Binary.equal_self_iff.mp h), List.forall_mem_nil _⟩
    | tagArray h => exact ⟨not_false, List.forall₂_same.mp h⟩
    | tagSequence h => exact ⟨not_false, List.forall₂_same.mp h⟩
    | dictionary size h =>
      refine ⟨not_false, List.forall_mem_map.mpr fun e he => ?_⟩
      exact (List.forall₂_same.mp h e he).2
    | stringDictionary size h => exact ⟨not_false, List.forall_mem_nil _⟩
    | document h => exact ⟨not_false, List.forall_mem_singleton.mpr h⟩
    | nested h => exact ⟨not_false, List.forall_mem_singleton.mpr h⟩
  · rintro ⟨hn, hc⟩
    cases p with
    | float32 m => exact .float32 (Binary.equal_self_iff.mpr ((hnan _).mpr hn))
    | float64 m => exact .float64 (Binary.equal_self_iff.mpr ((hnan _).mpr hn))
    | tagArray tags => exact .tagArray (List.forall₂_same.mpr hc)
    | tagSequence tags => exact .tagSequence (List.forall₂_same.mpr hc)
    | dictionary m =>
      refine .dictionary rfl (List.forall₂_same.mpr fun e he => ⟨rfl, ?_⟩)
      exact hc e.2 (List.mem_map_of_mem he)
    | stringDictionary m => exact .stringDictionary rfl rfl
    | document v => exact .document (hc _ (List.mem_singleton_self _))
    | nested slot =>
      obtain ⟨id, _ | t⟩ := slot
      · exact .plain rfl
      · exact .nested (hc _ (List.mem_singleton_self _))
    | _ => exact .plain trivial

theorem kind_eq (h : Alike R p q) : p.kind = q.kind := by
  cases h <;> rfl

/-! ### Sizes and bytes -/

theorem valueSize_eq (h : Alike (fun t u => t.size = u.size) p q) :
    p.valueSize = q.valueSize := by
  cases h with
  | tagArray h =>
    rw [valueSize, valueSize, Tag.sizes_eq, Tag.sizes_eq, h.length_eq, map_eq_of_forall₂ h]
  | tagSequence h =>
    rw [valueSize, valueSize, Tag.sizes_eq, Tag.sizes_eq, map_eq_of_forall₂ h]
  | dictionary size h =>
    rw [valueSize_dictionary, valueSize_dictionary, size]
    refine congrArg (fun sizes => _ + List.sum sizes) (map_eq_of_forall₂ (h.imp fun e e' he => ?_))
    rw [he.1, he.2]
  | stringDictionary size h => rw [valueSize, valueSize, size, h]
  | document h => rw [valueSize, valueSize, h]
  | nested h => rw [valueSize, valueSize, h]
  | _ => rfl

/-- **Payloads that are alike** are written alike if the tags in them are. -/
theorem sameBut_writing (h : Alike (fun t u => t.writing.SameBut t.HasZeroAt u.writing) p q) :
    p.writing.SameBut p.HasZeroAt q.writing := by
  cases h with
  | plain h => exact .refl _ _
  | float32 h => exact .block ((Binary.sameBut_single h).mono fun _ => .inl)
  | float64 h => exact .block ((Binary.sameBut_double h).mono fun _ => .inl)
  | tagArray h =>
    rw [writing, writing, Tag.writings_eq, Tag.writings_eq, ← h.length_eq]
    have htags := Writing.SameBut.concat (fun t _ => t.fills) h
    refine (htags.append_left _ (Writing.fills_varint _)).mono ?_
    rintro _ ⟨_, rfl, m, v, k, hm, hk, rfl⟩
    exact .inr ⟨_, v, k, ⟨m, hm, rfl⟩, hk, (Nat.add_assoc ..).symm⟩
  | tagSequence h =>
    rw [writing, writing, Tag.writings_eq, Tag.writings_eq]
    exact (Writing.SameBut.concat (fun t _ => t.fills) h).mono fun _ => .inr
  | @dictionary m n size h =>
    let signs (e : String × Tag) (i : Nat) : Prop :=
      ∃ j, i = Tag.stringSize e.1 + j ∧ e.2.HasZeroAt j
    have hentries : List.Forall₂ (fun e e' => Writing.SameBut (signs e)
        (Tag.stringWriting e.1 ++ e.2.writing) (Tag.stringWriting e'.1 ++ e'.2.writing))
        m.toList n.toList := h.imp fun e e' he => by
      rw [← he.1]
      exact he.2.append_left _ (Tag.fills_stringWriting e.1)
    have hall := Writing.SameBut.concat
      (f := fun e : String × Tag => Tag.stringWriting e.1 ++ e.2.writing)
      (fun e _ => (Tag.fills_stringWriting e.1).append e.2.fills) hentries
    rw [writing_dictionary, writing_dictionary, size]
    refine (hall.append_left _ (Writing.fills_varint _)).mono ?_
    rintro _ ⟨_, rfl, i, e, _, hi, ⟨k, rfl, hk⟩, rfl⟩
    refine .inr ⟨_, e.2, k, ⟨e.1, i, hi, rfl⟩, hk, ?_⟩
    rw [size]
    omega
  | stringDictionary size h =>
    rw [writing_stringDictionary, writing_stringDictionary, size, h]
    exact .refl _ _
  | document h =>
    rw [writing, writing]
    refine (h.append_left _ (Writing.fills_uint16 _)).mono ?_
    rintro _ ⟨k, rfl, hk⟩
    exact .inr ⟨2, _, k, ⟨rfl, rfl⟩, hk, rfl⟩
  | nested h =>
    rw [writing, writing]
    exact h.mono fun k hk => .inr ⟨0, _, k, ⟨rfl, rfl⟩, hk, (Nat.zero_add k).symm⟩

end Alike

end Payload

/-! ### Tags that are equal -/

theorem Tag.equalAll_iff : ∀ {ts us : List Tag},
    equalAll ts us = true ↔ List.Forall₂ (fun t u => t.equal u = true) ts us
  | [], [] => by simp [equalAll]
  | [], u :: us => by simp [equalAll]
  | t :: ts, [] => by simp [equalAll]
  | t :: ts, u :: us => by
    rw [equalAll, Bool.and_eq_true, equalAll_iff, List.forall₂_cons]

theorem Tag.equalEntries_iff : ∀ {slots : List (Option (String × Tag))} {es : List (String × Tag)},
    equalEntries slots es = true ↔
      List.Forall₂ (fun e e' => e.1 = e'.1 ∧ e.2.equal e'.2 = true) (InsertionMap.entries slots) es
  | [], [] => by simp [equalEntries]
  | [], e :: es => by simp [equalEntries]
  | none :: slots, es => by
    rw [equalEntries, equalEntries_iff, InsertionMap.entries_none_cons]
  | some (k, t) :: slots, [] => by simp [equalEntries]
  | some (k, t) :: slots, (l, u) :: es => by
    rw [equalEntries, Bool.and_eq_true, Bool.and_eq_true, beq_iff_eq, equalEntries_iff,
      InsertionMap.entries_some_cons, List.forall₂_cons]

namespace Payload

variable {p q : Payload}

theorem alike_of_equal (h : p.equal q = true) : Alike (fun t u => t.equal u = true) p q := by
  cases p with
  | null => cases q with
    | null => exact .plain trivial
    | _ => cases h
  | float32 a => cases q with
    | float32 b => exact .float32 h
    | _ => cases h
  | float64 a => cases q with
    | float64 b => exact .float64 h
    | _ => cases h
  | tagArray ts => cases q with
    | tagArray us => exact .tagArray (Tag.equalAll_iff.mp h)
    | _ => cases h
  | tagSequence ts => cases q with
    | tagSequence us => exact .tagSequence (Tag.equalAll_iff.mp h)
    | _ => cases h
  | dictionary m => cases q with
    | dictionary n =>
      obtain ⟨hs, he⟩ := Bool.and_eq_true_iff.mp h
      exact .dictionary (eq_of_beq hs) (Tag.equalEntries_iff.mp he)
    | _ => cases h
  | stringDictionary m => cases q with
    | stringDictionary n =>
      obtain ⟨hs, he⟩ := Bool.and_eq_true_iff.mp h
      exact .stringDictionary (eq_of_beq hs) (eq_of_beq he)
    | _ => cases h
  | document v => cases q with
    | document w =>
      obtain ⟨hv, ht⟩ := Bool.and_eq_true_iff.mp h
      obtain ⟨v, t⟩ := v
      obtain ⟨w, u⟩ := w
      obtain rfl := eq_of_beq hv
      exact .document ht
    | _ => cases h
  | fixed width s => cases q with
    | fixed width' s' =>
      obtain ⟨hw, hs⟩ := Bool.and_eq_true_iff.mp h
      obtain rfl := eq_of_beq hw
      obtain rfl := eq_of_beq hs
      exact .plain trivial
    | _ => cases h
  | nested slot =>
    obtain ⟨i, _ | t⟩ := slot
    · cases q with
      | nested slot' =>
        obtain ⟨j, _ | u⟩ := slot'
        · obtain rfl := eq_of_beq h
          exact .plain rfl
        · cases h
      | _ => cases h
    · cases q with
      | nested slot' =>
        obtain ⟨j, _ | u⟩ := slot'
        · cases h
        · obtain ⟨hi, ht⟩ := Bool.and_eq_true_iff.mp h
          obtain rfl := eq_of_beq hi
          exact .nested ht
      | _ => cases h
  | _ =>
    -- What holds neither tags nor a floating-point number is compared as a whole.
    cases q <;> first
      | cases h
      | obtain rfl := eq_of_beq h
        exact .plain trivial

theorem equal_of_alike (h : Alike (fun t u => t.equal u = true) p q) : p.equal q = true := by
  cases h with
  | plain h =>
    cases p with
    | null => rfl
    | float32 | float64 | tagArray | tagSequence | dictionary | stringDictionary | document =>
      exact h.elim
    | fixed width slot => simp [equal]
    | nested slot =>
      obtain ⟨id, value⟩ := slot
      obtain rfl : value = none := h
      exact beq_self_eq_true id
    | _ => exact beq_self_eq_true _
  | float32 h => exact h
  | float64 h => exact h
  | tagArray h => exact Tag.equalAll_iff.mpr h
  | tagSequence h => exact Tag.equalAll_iff.mpr h
  | @dictionary m n size h =>
    obtain ⟨⟨slots⟩, index, count⟩ := m
    exact Bool.and_eq_true_iff.mpr ⟨beq_iff_eq.mpr size, Tag.equalEntries_iff.mpr h⟩
  | stringDictionary size h =>
    exact Bool.and_eq_true_iff.mpr ⟨beq_iff_eq.mpr size, beq_iff_eq.mpr h⟩
  | document h => exact Bool.and_eq_true_iff.mpr ⟨beq_self_eq_true _, h⟩
  | nested h => exact Bool.and_eq_true_iff.mpr ⟨beq_self_eq_true _, h⟩

end Payload

namespace Tag

variable {t u v : Tag}

/-- **Tags are equal** if they have one id, and payloads that are alike with equal tags inside. -/
theorem equal_iff : t.equal u = true ↔
    t.id = u.id ∧ Payload.Alike (fun t u => t.equal u = true) t.payload u.payload := by
  obtain ⟨i, p⟩ := t
  obtain ⟨j, q⟩ := u
  rw [equal, Bool.and_eq_true, beq_iff_eq]
  exact and_congr_right fun _ => ⟨Payload.alike_of_equal, Payload.equal_of_alike⟩

theorem equal_symm : ∀ t u : Tag, t.equal u = true → u.equal t = true := by
  refine Tag.induction fun t ih u h => ?_
  obtain ⟨hid, hp⟩ := equal_iff.mp h
  exact equal_iff.mpr ⟨hid.symm, (hp.imp (S := fun t u => u.equal t = true) ih).flip⟩

theorem equal_trans : ∀ t u v : Tag, t.equal u = true → u.equal v = true → t.equal v = true := by
  refine Tag.induction fun t ih u v htu huv => ?_
  obtain ⟨hid, hp⟩ := equal_iff.mp htu
  obtain ⟨hid', hp'⟩ := equal_iff.mp huv
  refine equal_iff.mpr ⟨hid.trans hid', (hp.comp hp').imp ?_⟩
  rintro w hw x ⟨y, hwy, hyx⟩
  exact ih w hw y x hwy hyx

theorem equal_self_iff : ∀ t : Tag,
    t.equal t = true ↔ ∀ u : Tag, u.Inside t → ¬u.payload.IsNaN := by
  refine Tag.induction fun t ih => ?_
  rw [equal_iff, Payload.Alike.self_iff, forall_inside_iff]
  refine (and_iff_right rfl).trans (and_congr_right fun _ => ?_)
  exact forall₂_congr ih

/-- **Equal tags have one size** and are written alike, but for the signs of zeros. -/
theorem sameBut_writing : ∀ t u : Tag, t.equal u = true →
    t.size = u.size ∧ t.writing.SameBut t.HasZeroAt u.writing := by
  refine Tag.induction fun t ih u h => ?_
  obtain ⟨id, p⟩ := t
  obtain ⟨id', q⟩ := u
  obtain ⟨hid, hp⟩ := equal_iff.mp h
  obtain rfl : id = id' := hid
  have hsize : p.valueSize = q.valueSize :=
    (hp.imp fun v hv w hvw => (ih v hv w hvw).1).valueSize_eq
  have hwriting : p.writing.SameBut p.HasZeroAt q.writing :=
    (hp.imp fun v hv w hvw => (ih v hv w hvw).2).sameBut_writing
  refine ⟨by rw [size, size, hsize], ?_⟩
  rw [writing_mk, writing_mk, ← hsize, Header.framing, Header.framing]
  cases Header.fault? id p.valueSize with
  | some error => exact .refl _ _
  | none =>
    refine (hwriting.append_left _ (Header.fills_writing _ _)).mono ?_
    rintro _ ⟨n, rfl, hn⟩
    exact hasZeroAt_of_payload hn

/-- **Equality of tags is a partial equivalence that writers respect.** It is symmetric and
transitive, and a tag equals itself unless there is a NaN of 32 or 64 bits inside it, at whatever
depth. Equal tags have the same size, and writing them comes to the same outcome: to the same error
or to as many bytes, which are the same but for the signs of zeros, and so it is with what any sink
takes of them. Payloads of different kinds are never equal. -/
theorem beq_partial_equivalence :
    (∀ a b : Tag, (a == b) = (b == a)) ∧
    (∀ a b c : Tag, a == b → b == c → a == c) ∧
    (∀ a : Tag, a == a ↔ ∀ u : Tag, u.Inside a → ¬u.payload.IsNaN) ∧
    (∀ a b : Tag, a == b → a.size = b.size ∧
      (∀ error, a.toBytes = .error error ↔ b.toBytes = .error error) ∧
      (∀ x y, a.toBytes = .ok x → b.toBytes = .ok y → SameBut a.HasZeroAt x y) ∧
      ∀ s : Sink, (a.writeTo s).1 = (b.writeTo s).1 ∧ ∃ x y, SameBut a.HasZeroAt x y ∧
        (a.writeTo s).2 = s.take x ∧ (b.writeTo s).2 = s.take y) ∧
    ∀ a b : Tag, a.payload.kind ≠ b.payload.kind → (a == b) = false := by
  refine ⟨fun a b => ?_, equal_trans, equal_self_iff, fun a b h => ?_, fun a b hk => ?_⟩
  · exact Bool.eq_iff_iff.mpr ⟨equal_symm a b, equal_symm b a⟩
  · obtain ⟨hsize, hw⟩ := sameBut_writing a b h
    exact ⟨hsize, hw.toBytes.1, hw.toBytes.2, hw.writeTo⟩
  · rw [← Bool.not_eq_true]
    exact fun h => hk (equal_iff.mp h).2.kind_eq

/-- A dictionary from which an entry was removed and one that never had it, with zeros of either
sign; and a NaN. -/
theorem beq_partial_equivalence_dictionary :
    let empty : InsertionMap String Tag := ∅
    let removed := ((empty.insert "b" .null).insert "a" (.mk 11 (.float32 0x80000000))).erase "b"
    let plain := empty.insert "a" (.mk 11 (.float32 0))
    let a := Tag.mk 30 (.dictionary removed)
    let b := Tag.mk 30 (.dictionary plain)
    let nan := Tag.mk 12 (.float64 0x7FF8000000000000)
    a == b ∧ b == a ∧ a == a ∧ a.size = b.size ∧ ¬nan == nan ∧
    a.toBytes = .ok [30, 9, 1, 17, 1, 97, 11, 0x80, 0, 0, 0] ∧
    b.toBytes = .ok [30, 9, 1, 17, 1, 97, 11, 0, 0, 0, 0] ∧
    SameBut a.HasZeroAt [30, 9, 1, 17, 1, 97, 11, 0x80, 0, 0, 0]
      [30, 9, 1, 17, 1, 97, 11, 0, 0, 0, 0] := by
  intro empty removed plain a b nan
  have hab : a == b := by
    simp only [a, b, removed, plain, empty]
    cbv
  have ha : a.toBytes = .ok [30, 9, 1, 17, 1, 97, 11, 0x80, 0, 0, 0] := by
    simp only [a, removed, empty]
    cbv
  have hb : b.toBytes = .ok [30, 9, 1, 17, 1, 97, 11, 0, 0, 0, 0] := by
    simp only [b, plain, empty]
    cbv
  have hnan : nan.payload.IsNaN := by
    change Binary.double.isNaN _ = true
    decide
  obtain ⟨hsymm, htrans, hself, hwritten, -⟩ := beq_partial_equivalence
  have hba : b == a := (hsymm b a).trans hab
  obtain ⟨hsize, -, hbytes, -⟩ := hwritten a b hab
  exact ⟨hab, hba, htrans a b a hab hba, hsize, fun h => (hself nan).mp h nan .self hnan, ha, hb,
    hbytes _ _ ha hb⟩

end Tag

end TagFormat
