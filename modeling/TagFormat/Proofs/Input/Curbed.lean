import TagFormat.Proofs.Input.Local

/-! # Programs that give up earlier

`Curbed error p q` says that `p` is the program `q` with some of its parts replaced by the report of
an error. Where `q` comes to a result, `p` comes to the same or to this very error, whatever frames
stand around the part that was replaced (`Curbed.run_eq`): frames make something else only of the
report that the bytes ended. -/

namespace TagFormat.Reading

variable {α β : Type} {error : TagError}

/-- `p` is `q` with some of its parts replaced by `error`. -/
inductive Curbed (error : TagError) : {γ : Type} → Reading γ → Reading γ → Prop where
  | replaced {γ : Type} (q : Reading γ) : Curbed error (.fail error) q
  | done {γ : Type} (a : γ) : Curbed error (.done a) (.done a)
  | fail {γ : Type} (other : TagError) : Curbed error (.fail other : Reading γ) (.fail other)
  | take {γ : Type} (before count : Nat) {p q : Bytes → Reading γ}
      (next : ∀ bytes, Curbed error (p bytes) (q bytes)) :
      Curbed error (.take before count p) (.take before count q)
  | room {γ : Type} {p q : Option Nat → Reading γ} (next : ∀ left, Curbed error (p left) (q left)) :
      Curbed error (.room p) (.room q)
  | within {γ δ : Type} (what : String) (size : Nat) {body body' : Reading δ} {p q : δ → Reading γ}
      (inside : Curbed error body body') (next : ∀ b, Curbed error (p b) (q b)) :
      Curbed error (.within what size body p) (.within what size body' q)

namespace Curbed

theorem refl (p : Reading α) : Curbed error p p := by
  induction p with
  | done a => exact .done a
  | fail other => exact .fail other
  | take before count next ih => exact .take before count ih
  | room next ih => exact .room ih
  | within what size body next ihb ih => exact .within what size ihb ih

theorem bind {p q : Reading α} {f g : α → Reading β} (h : Curbed error p q)
    (hf : ∀ a, Curbed error (f a) (g a)) : Curbed error (p.bind f) (q.bind g) := by
  induction h with
  | replaced q => exact .replaced _
  | done a => exact hf a
  | fail other => exact .fail other
  | take before count next ih => exact .take before count fun bytes => ih bytes hf
  | room next ih => exact .room fun left => ih left hf
  | within what size inside next _ ih => exact .within what size inside fun b => ih b hf

theorem exactly {p q : Reading α} (h : Curbed error p q) (what : String) (size : Nat) :
    Curbed error (Reading.exactly what size p) (Reading.exactly what size q) :=
  .within what size h .done

/-- **A program that gives up earlier** comes to the result, or gives up with that error. -/
theorem run_eq {p q : Reading α} (h : Curbed error p q) (he : ¬error.IsEnd) {stops : List Nat}
    {s t : Source} {a : α} (hq : q.run stops s = (.ok a, t)) :
    p.run stops s = (.ok a, t) ∨ ∃ u, p.run stops s = (.error error, u) := by
  induction h generalizing stops s t with
  | replaced q => exact .inr ⟨s, rfl⟩
  | done b => exact .inl hq
  | fail other => cases hq
  | take before count next ih =>
    rw [run] at hq ⊢
    generalize s.fill (allowed stops s.pos count) = filled at hq ⊢
    obtain ⟨got, stop, u⟩ := filled
    by_cases hgot : got.length = count
    · cases stop with
      | failed failure => cases hq
      | filled | ended =>
        simp only [hgot, if_true] at hq ⊢
        exact ih got hq
    · cases stop with
      | failed failure => cases hq
      | filled | ended =>
        simp only [hgot, if_false] at hq
        cases hq
  | room next ih =>
    rw [run] at hq ⊢
    exact ih _ hq
  | within what size inside next ihb ih =>
    obtain ⟨b, u, hb, hu, hnext⟩ := run_within_eq_ok_iff.mp hq
    rw [run]
    rcases ihb hb with hbody | ⟨v, hbody⟩
    · rw [hbody, leave_eq_ok_iff.mpr ⟨rfl, hu⟩]
      exact ih b hnext
    · -- the error is not one that a frame makes something else of
      have hleave : ∀ (γ : Type) stop, leave what size stop
          ((.error error, v) : Except TagError γ × Source) = (.error error, v) := by
        intro γ stop
        cases error with
        | unexpectedEnd expected got => exact absurd ⟨expected, got, rfl⟩ he
        | _ => rfl
      rw [hbody, hleave]
      exact .inr ⟨v, rfl⟩

end Curbed

end TagFormat.Reading
