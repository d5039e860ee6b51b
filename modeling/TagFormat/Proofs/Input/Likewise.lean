import TagFormat.Proofs.InsertionMap
import TagFormat.Proofs.Input.Items
import TagFormat.Tag.Reading

/-! # Programs that read the same bytes

Of two programs, one may read whatever the other reads, from the same bytes and in the same frames,
though it makes another thing of them: `Likewise R p q` says that where `p` reads some `a`, `q` reads
a `b` with `R a b`. This composes along `Likewise.bind` and through frames, and so through counted
items and runs up to the end of a frame, of which only the number matters. A dictionary is read
likewise if its keys are read equally, since each entry is refused or not for its key alone
(`Likewise.entries`). -/

namespace TagFormat.Reading

variable {α β γ δ : Type} {R : α → β → Prop} {S : γ → δ → Prop} {p : Reading α} {q : Reading β}

/-- Where `p` reads some `a`, `q` reads from the same bytes some `b` with `R a b`. -/
def Likewise (R : α → β → Prop) (p : Reading α) (q : Reading β) : Prop :=
  ∀ left c a, p.Yields left c a → ∃ b, q.Yields left c b ∧ R a b

/-- The relation between any two things. -/
def Whatever (_ : α) (_ : β) : Prop :=
  True

namespace Likewise

/-! ### One step -/

theorem refl (p : Reading α) : Likewise Eq p p :=
  fun _ _ a h => ⟨a, h, rfl⟩

theorem mono {R' : α → β → Prop} (h : Likewise R p q) (hR : ∀ a b, R a b → R' a b) :
    Likewise R' p q := by
  intro left c a hp
  obtain ⟨b, hq, hab⟩ := h left c a hp
  exact ⟨b, hq, hR a b hab⟩

theorem whatever (h : Likewise R p q) : Likewise Whatever p q :=
  h.mono fun _ _ _ => trivial

theorem done {a : α} {b : β} (h : R a b) : Likewise R (done a) (done b) := by
  rintro left c _ ⟨rfl, rfl⟩
  exact ⟨b, ⟨rfl, rfl⟩, h⟩

theorem fail {error : TagError} : Likewise R (fail error) q :=
  fun _ _ _ h => h.elim

theorem bind {f : α → Reading γ} {g : β → Reading δ} (h : Likewise R p q)
    (hf : ∀ a b, R a b → Likewise S (f a) (g b)) : Likewise S (p.bind f) (q.bind g) := by
  intro left c x hx
  obtain ⟨c₁, c₂, a, rfl, ha, hx⟩ := (yields_bind p f left c x).mp hx
  obtain ⟨b, hb, hab⟩ := h left c₁ a ha
  obtain ⟨y, hy, hxy⟩ := hf a b hab _ c₂ x hx
  exact ⟨y, (yields_bind q g left _ y).mpr ⟨c₁, c₂, b, rfl, hb, hy⟩, hxy⟩

/-- The two programs start alike. -/
theorem after {f : α → Reading γ} {g : α → Reading δ} (p : Reading α)
    (hf : ∀ a, Likewise S (f a) (g a)) : Likewise S (p.bind f) (p.bind g) :=
  (refl p).bind fun a _ hab => hab ▸ hf a

theorem map {f : α → γ} {g : β → δ} (h : Likewise R p q) (hf : ∀ a b, R a b → S (f a) (g b)) :
    Likewise S (p.bind fun a => .done (f a)) (q.bind fun b => .done (g b)) :=
  h.bind fun a b hab => done (hf a b hab)

theorem exactly {what : String} {size : Nat} (h : Likewise R p q) :
    Likewise R (exactly what size p) (exactly what size q) := by
  intro left c a ha
  obtain ⟨hsize, ha⟩ := yields_exactly.mp ha
  obtain ⟨b, hb, hab⟩ := h (some size) c a ha
  exact ⟨b, yields_exactly.mpr ⟨hsize, hb⟩, hab⟩

theorem framed {what : String} {minimum : Nat} {declared : Declared} {f : Nat → Reading α}
    {g : Nat → Reading β} (h : ∀ size, Likewise R (f size) (g size)) :
    Likewise R (framed what minimum declared f) (framed what minimum declared g) :=
  after _ fun size => (h size).exactly

/-! ### Runs of items -/

theorem timesFrom (h : Likewise Whatever p q) : ∀ (count : Nat) (as : List α) (bs : List β),
    Likewise Whatever (p.timesFrom count as) (q.timesFrom count bs)
  | 0, _, _ => done trivial
  | count + 1, _, _ => h.bind fun _ _ _ => h.timesFrom count _ _

theorem untilEndFrom (h : Likewise Whatever p q) : ∀ (most : Nat) (as : List α) (bs : List β),
    Likewise Whatever (p.untilEndFrom most as) (q.untilEndFrom most bs)
  | 0, _, _ => done trivial
  | most + 1, as, bs => by
    intro left c x hx
    have hmore : Likewise Whatever (p.bind fun a => p.untilEndFrom most (a :: as))
        (q.bind fun b => q.untilEndFrom most (b :: bs)) :=
      h.bind fun a b _ => h.untilEndFrom most (a :: as) (b :: bs)
    rcases left with _ | _ | left
    · exact hmore none c x hx
    · exact done trivial (some 0) c x hx
    · exact hmore (some (left + 1)) c x hx

theorem counted {what : String} {declared : Declared} (h : Likewise Whatever p q) :
    Likewise Whatever (counted what declared p) (counted what declared q) :=
  framed fun _ => after varint fun count => after (ensureFits what count.toNat) fun _ =>
    h.timesFrom count.toNat [] []

/-! ### Dictionaries -/

theorem entriesInto {what : String} {key key' : Reading String} (hk : Likewise Eq key key')
    (h : Likewise Whatever p q) : ∀ (count : Nat) (m : InsertionMap String α)
    (n : InsertionMap String β), (∀ k, m.contains k = n.contains k) →
    Likewise Whatever (entriesInto what key p count m) (entriesInto what key' q count n)
  | 0, _, _, _ => done trivial
  | count + 1, m, n, hmn => by
    refine hk.bind fun k _ hkk => h.bind fun v w _ => ?_
    subst hkk
    rw [← hmn k]
    split_ifs with hc
    · exact fail
    · rw [Bool.not_eq_true] at hc
      refine entriesInto hk h count _ _ fun l => ?_
      rw [InsertionMap.contains_insert hc, InsertionMap.contains_insert (hmn k ▸ hc), hmn l]

/-- **A dictionary is read likewise** if its keys are read equally, whatever becomes of its
values. -/
theorem entries {what : String} {declared : Declared} {key key' : Reading String}
    (hk : Likewise Eq key key') (h : Likewise Whatever p q) :
    Likewise Whatever (entries what declared key p) (entries what declared key' q) :=
  framed fun _ => after varint fun count => after (ensureFits what count.toNat) fun _ =>
    entriesInto hk h count.toNat ∅ ∅ fun _ => rfl

end Likewise

end TagFormat.Reading
