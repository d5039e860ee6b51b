import TagFormat.Proofs.Input.Items
import TagFormat.Proofs.InsertionMap
import TagFormat.Tag.Reading

/-! # Runs of items

A program that reads by the same rule in every frame is said to *read by* that rule (`Reads`). Items
that are read by a rule one after another take one part of the bytes each, whether they are counted
(`yields_times`), go on to the end of the frame (`yields_untilEnd`), or are the entries of a map
(`yields_entriesInto`). -/

namespace TagFormat.Reading

variable {α β : Type}

/-- In every frame, `p` reads an item from exactly the bytes that `R` gives it. -/
def Reads (p : Reading α) (R : Bytes → α → Prop) : Prop :=
  ∀ left c a, p.Yields left c a ↔ R c a

/-- The bytes are those of the items, one after another. -/
def Parts (R : Bytes → α → Prop) : Bytes → List α → Prop
  | c, [] => c = []
  | c, a :: as => ∃ c₁ c₂, c = c₁ ++ c₂ ∧ R c₁ a ∧ Parts R c₂ as

/-- The bytes of two items of different types. -/
def Pair (R : Bytes → α → Prop) (S : Bytes → β → Prop) (c : Bytes) (e : α × β) : Prop :=
  ∃ c₁ c₂, c = c₁ ++ c₂ ∧ R c₁ e.1 ∧ S c₂ e.2

variable {R : Bytes → α → Prop} {p : Reading α}

theorem Parts.length_le (hR : ∀ c a, R c a → 0 < c.length) : ∀ {c : Bytes} {as : List α},
    Parts R c as → as.length ≤ c.length
  | c, [], _ => Nat.zero_le _
  | c, a :: as, h => by
    obtain ⟨c₁, c₂, rfl, h₁, h₂⟩ := h
    have := hR c₁ a h₁
    have := Parts.length_le hR h₂
    rw [List.length_append, List.length_cons]
    omega

/-- Parts of at least one byte each are no more than their bytes. -/
theorem length_le_length_flatMap {γ : Type} {part : α → List γ} : ∀ {as : List α},
    (∀ a ∈ as, 0 < (part a).length) → as.length ≤ (as.flatMap part).length
  | [], _ => Nat.zero_le _
  | a :: as, h => by
    obtain ⟨ha, has⟩ := List.forall_mem_cons.mp h
    have := length_le_length_flatMap has
    rw [List.flatMap_cons, List.length_append, List.length_cons]
    omega

/-! ### Counted items -/

theorem yields_timesFrom (h : p.Reads R) : ∀ {count : Nat} {read : List α} {left : Option Nat}
    {c : Bytes} {as : List α}, (p.timesFrom count read).Yields left c as ↔
      ∃ bs, as = read.reverse ++ bs ∧ bs.length = count ∧ Parts R c bs
  | 0, read, left, c, as => by
    rw [timesFrom, yields_done]
    constructor
    · rintro ⟨rfl, rfl⟩
      exact ⟨[], (List.append_nil _).symm, rfl, rfl⟩
    · rintro ⟨bs, rfl, hb, hp⟩
      obtain rfl := List.eq_nil_of_length_eq_zero hb
      exact ⟨hp, List.append_nil _⟩
  | count + 1, read, left, c, as => by
    rw [timesFrom, yields_bind]
    constructor
    · rintro ⟨c₁, c₂, a, rfl, h₁, h₂⟩
      obtain ⟨bs, rfl, hb, hp⟩ := (yields_timesFrom h).mp h₂
      refine ⟨a :: bs, ?_, by rw [List.length_cons, hb], c₁, c₂, rfl, (h _ _ _).mp h₁, hp⟩
      rw [List.reverse_cons, List.append_assoc, List.singleton_append]
    · rintro ⟨bs, rfl, hb, hp⟩
      obtain ⟨a, bs, rfl⟩ := List.exists_cons_of_length_eq_add_one hb
      obtain ⟨c₁, c₂, rfl, h₁, h₂⟩ := hp
      refine ⟨c₁, c₂, a, rfl, (h _ _ _).mpr h₁, (yields_timesFrom h).mpr ⟨bs, ?_, ?_, h₂⟩⟩
      · rw [List.reverse_cons, List.append_assoc, List.singleton_append]
      · exact Nat.succ_inj.mp hb

/-- **Counted items** take a part of the bytes each. -/
theorem yields_times (h : p.Reads R) {count : Nat} {left : Option Nat} {c : Bytes} {as : List α} :
    (p.times count).Yields left c as ↔ as.length = count ∧ Parts R c as := by
  rw [times, yields_timesFrom h]
  constructor
  · rintro ⟨bs, rfl, hb, hp⟩
    exact ⟨hb, hp⟩
  · exact fun ⟨hb, hp⟩ => ⟨as, rfl, hb, hp⟩

/-! ### Items up to the end of the frame -/

theorem yields_untilEndFrom (h : p.Reads R) (hR : ∀ c a, R c a → 0 < c.length) :
    ∀ {most : Nat} {read : List α} {c : Bytes} {as : List α}, c.length ≤ most →
      ((p.untilEndFrom most read).Yields (some c.length) c as ↔
        ∃ bs, as = read.reverse ++ bs ∧ Parts R c bs)
  | most, read, [], as, _ => by
    have hd : (p.untilEndFrom most read).Yields (some 0) [] as ↔
        (done read.reverse).Yields (some 0) [] as := by
      cases most <;> exact Iff.rfl
    rw [List.length_nil, hd, yields_done]
    constructor
    · rintro ⟨-, rfl⟩
      exact ⟨[], (List.append_nil _).symm, rfl⟩
    · rintro ⟨bs, rfl, hp⟩
      have := hp.length_le hR
      obtain rfl := List.eq_nil_of_length_eq_zero (Nat.le_zero.mp this)
      exact ⟨rfl, List.append_nil _⟩
  | 0, read, b :: c, as, hc => absurd hc (Nat.not_succ_le_zero _)
  | most + 1, read, b :: c, as, hc => by
    change (p.bind fun a => p.untilEndFrom most (a :: read)).Yields (some (b :: c).length) (b :: c)
      as ↔ _
    rw [yields_bind]
    constructor
    · rintro ⟨c₁, c₂, a, he, h₁, h₂⟩
      have hpos := hR _ _ ((h _ _ _).mp h₁)
      have hlen := congrArg List.length he
      rw [List.length_append] at hlen
      rw [Option.map_some, hlen, Nat.add_sub_cancel_left] at h₂
      obtain ⟨bs, rfl, hp⟩ := (yields_untilEndFrom h hR (by omega)).mp h₂
      refine ⟨a :: bs, ?_, c₁, c₂, he, (h _ _ _).mp h₁, hp⟩
      rw [List.reverse_cons, List.append_assoc, List.singleton_append]
    · rintro ⟨bs, rfl, hp⟩
      cases bs with
      | nil => exact absurd hp (List.cons_ne_nil _ _)
      | cons a bs =>
        obtain ⟨c₁, c₂, he, h₁, h₂⟩ := hp
        have hpos := hR _ _ h₁
        have hlen := congrArg List.length he
        rw [List.length_append] at hlen
        refine ⟨c₁, c₂, a, he, (h _ _ _).mpr h₁, ?_⟩
        rw [Option.map_some, hlen, Nat.add_sub_cancel_left]
        refine (yields_untilEndFrom h hR (by omega)).mpr ⟨bs, ?_, h₂⟩
        rw [List.reverse_cons, List.append_assoc, List.singleton_append]

/-- **Items up to the end of the frame** take a part of the bytes each, if each takes a byte. -/
theorem yields_untilEnd (h : p.Reads R) (hR : ∀ c a, R c a → 0 < c.length) {c : Bytes}
    {as : List α} : (p.untilEnd c.length).Yields (some c.length) c as ↔ Parts R c as := by
  rw [untilEnd, yields_untilEndFrom h hR le_rfl]
  constructor
  · rintro ⟨bs, rfl, hp⟩
    exact hp
  · exact fun hp => ⟨as, rfl, hp⟩

/-! ### Entries -/

variable {what : String} {key : Reading String} {K : Bytes → String → Prop}

theorem yields_entriesInto (hk : key.Reads K) (hv : p.Reads R) : ∀ {count : Nat}
    {m₀ m : InsertionMap String α} {left : Option Nat} {c : Bytes},
    (entriesInto what key p count m₀).Yields left c m ↔
      ∃ l, l.length = count ∧ Parts (Pair K R) c l ∧ m₀.Fresh l ∧ m = m₀.insertMany l
  | 0, m₀, m, left, c => by
    rw [entriesInto, yields_done]
    constructor
    · rintro ⟨rfl, rfl⟩
      exact ⟨[], rfl, rfl, trivial, rfl⟩
    · rintro ⟨l, hl, hp, -, rfl⟩
      obtain rfl := List.eq_nil_of_length_eq_zero hl
      exact ⟨hp, rfl⟩
  | count + 1, m₀, m, left, c => by
    rw [entriesInto, bind_eq, yields_bind]
    simp only [bind_eq, yields_bind]
    constructor
    · rintro ⟨c₁, _, k, rfl, h₁, c₂, c₃, v, rfl, h₂, h₃⟩
      split_ifs at h₃ with hc
      · exact h₃.elim
      · obtain ⟨l, hl, hp, hf, rfl⟩ := (yields_entriesInto hk hv).mp h₃
        refine ⟨(k, v) :: l, ?_, ⟨c₁ ++ c₂, c₃, ?_, ?_, hp⟩, ⟨?_, hf⟩, rfl⟩
        · rw [List.length_cons, hl]
        · rw [List.append_assoc]
        · exact ⟨c₁, c₂, rfl, (hk _ _ _).mp h₁, (hv _ _ _).mp h₂⟩
        · exact Bool.eq_false_iff.mpr hc
    · rintro ⟨l, hl, hp, hf, rfl⟩
      obtain ⟨⟨k, v⟩, l, rfl⟩ := List.exists_cons_of_length_eq_add_one hl
      obtain ⟨_, c₃, rfl, ⟨c₁, c₂, rfl, h₁, h₂⟩, hp⟩ := hp
      refine ⟨c₁, c₂ ++ c₃, k, List.append_assoc .., (hk _ _ _).mpr h₁, c₂, c₃, v, rfl,
        (hv _ _ _).mpr h₂, ?_⟩
      rw [if_neg (by rw [hf.1]; exact Bool.false_ne_true)]
      exact (yields_entriesInto hk hv).mpr ⟨l, Nat.succ_inj.mp hl, hp, hf.2, rfl⟩

end TagFormat.Reading
