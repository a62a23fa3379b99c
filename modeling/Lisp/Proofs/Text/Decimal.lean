import Lisp.Text.Decimal

/-!
# Numerals

What it means that a text is the numeral of an integer, without reading it: an optional minus sign
and digits. Every integer is written as one of its numerals.
-/

namespace Lisp.Decimal

/-- The text `cs` is a numeral of an integer. -/
inductive Numeral : List Char → Int → Prop
  | positive {digits : List Char} :
      digits ≠ [] → (∀ d ∈ digits, d.isDigit = true) → Numeral digits (magnitude digits)
  | negative {digits : List Char} :
      digits ≠ [] → (∀ d ∈ digits, d.isDigit = true) →
        Numeral ('-' :: digits) (-(magnitude digits : Int))

variable {cs : List Char} {n : Int}

theorem not_isDigit_minus : ('-').isDigit = false := by
  decide

/-- A text that begins with a digit has no sign. -/
theorem sign_of_digits {digits : List Char} (h : ∀ d ∈ digits, d.isDigit = true) :
    sign digits = (false, digits) := by
  unfold sign
  split
  · have hminus := h '-' (.head _)
    rw [not_isDigit_minus] at hminus
    cases hminus
  · rfl

theorem sign_eq_or (cs : List Char) :
    (∃ digits, cs = '-' :: digits ∧ sign cs = (true, digits)) ∨ sign cs = (false, cs) := by
  unfold sign
  split
  · exact .inl ⟨_, rfl, rfl⟩
  · exact .inr rfl

/-- The literals are the numerals. -/
theorem numeral_iff : Numeral cs n ↔ isLiteral cs = true ∧ value cs = n := by
  constructor
  · intro h
    cases h with
    | positive hne hdigits =>
      have hsign := sign_of_digits hdigits
      refine ⟨?_, by rw [value, hsign]⟩
      simp only [isLiteral, hsign, Bool.and_eq_true, Bool.not_eq_true', List.isEmpty_eq_false_iff,
        List.all_eq_true]
      exact ⟨hne, hdigits⟩
    | @negative digits hne hdigits =>
      refine ⟨?_, rfl⟩
      have hsign : sign ('-' :: digits) = (true, digits) := rfl
      simp only [isLiteral, hsign, Bool.and_eq_true, Bool.not_eq_true', List.isEmpty_eq_false_iff,
        List.all_eq_true]
      exact ⟨hne, hdigits⟩
  · rintro ⟨hliteral, rfl⟩
    simp only [isLiteral, Bool.and_eq_true, Bool.not_eq_true', List.isEmpty_eq_false_iff,
      List.all_eq_true] at hliteral
    obtain ⟨hne, hdigits⟩ := hliteral
    rcases sign_eq_or cs with ⟨digits, rfl, hsign⟩ | hsign
    · rw [hsign] at hne hdigits
      exact .negative hne hdigits
    · rw [hsign] at hne hdigits
      rw [value, hsign]
      exact .positive hne hdigits

/-- The digits of a number stand for it. -/
theorem magnitude_toDigits (m : Nat) : magnitude (Nat.toDigits 10 m) = m := by
  rw [magnitude, ← Nat.ofDigitChars_eq_foldl, Nat.ofDigitChars_ten_toDigits]

/-- An integer is written as a numeral. -/
theorem numeral_written (n : Int) : Numeral (written n).toList n := by
  have hdigits (m : Nat) : ∀ d ∈ Nat.toDigits 10 m, d.isDigit = true :=
    fun d hd => Nat.isDigit_of_mem_toDigits (by decide) (by decide) hd
  cases n with
  | ofNat m =>
    have hwritten : written (.ofNat m) = String.ofList (Nat.toDigits 10 m) :=
      Nat.toString_eq_ofList_toDigits
    have h := Numeral.positive Nat.toDigits_ne_nil (hdigits m)
    rw [magnitude_toDigits] at h
    rw [hwritten, String.toList_ofList]
    exact h
  | negSucc m =>
    have hwritten : written (.negSucc m) = "-" ++ String.ofList (Nat.toDigits 10 (m + 1)) :=
      congrArg ("-" ++ ·) Nat.toString_eq_ofList_toDigits
    have h := Numeral.negative Nat.toDigits_ne_nil (hdigits (m + 1))
    rw [magnitude_toDigits] at h
    rw [hwritten, String.toList_append, String.toList_ofList, String.toList_ofList]
    exact h

/-- A numeral consists of digits and a minus sign. -/
theorem Numeral.mem {c : Char} (h : Numeral cs n) (hc : c ∈ cs) : c.isDigit = true ∨ c = '-' := by
  cases h with
  | positive _ hdigits => exact .inl (hdigits c hc)
  | negative _ hdigits =>
    rcases List.mem_cons.mp hc with rfl | hc
    · exact .inr rfl
    · exact .inl (hdigits c hc)

theorem Numeral.ne_nil (h : Numeral cs n) : cs ≠ [] := by
  cases h with
  | positive hne _ => exact hne
  | negative => exact List.cons_ne_nil _ _

end Lisp.Decimal
