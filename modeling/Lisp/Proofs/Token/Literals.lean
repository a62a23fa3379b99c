import Lisp.Proofs.Token.Lines

/-!
# Closed string literals

A string literal is closed if it ends in a quote that no backslash escapes. All literals that a text
is cut into are closed but possibly the last one, which is open exactly if the scanner is still
inside of it when the text ends (`closesTexts_iff`).
-/

namespace Lisp

namespace Quoted

/-- The characters may stand between the quotes of a literal: every quote among them is escaped, and
no backslash is left at the end that escapes nothing. -/
inductive Inside : List Char → Prop
  | nil : Inside []
  | plain {c : Char} {cs : List Char} : c ≠ '\\' → c ≠ '\x22' → Inside cs → Inside (c :: cs)
  | escape {c : Char} {cs : List Char} : Inside cs → Inside ('\\' :: c :: cs)

/-- A string literal that has both of its quotes. -/
def Closed (raw : String) : Prop :=
  ∃ body, raw.toList = '\x22' :: (body ++ ['\x22']) ∧ Inside body

variable {cs ds : List Char}

theorem Inside.append (h : Inside cs) (h' : Inside ds) : Inside (cs ++ ds) := by
  induction h with
  | nil => exact h'
  | plain hc hc' _ ih => exact .plain hc hc' ih
  | escape _ ih => exact .escape ih

theorem Inside.of_cons {c : Char} (h : Inside (c :: cs)) (hc : c ≠ '\\') :
    c ≠ '\x22' ∧ Inside cs := by
  cases h with
  | plain _ hquote h => exact ⟨hquote, h⟩
  | escape => exact absurd rfl hc

theorem Inside.of_escape {c : Char} (h : Inside ('\\' :: c :: cs)) : Inside cs := by
  cases h with
  | plain hc => exact absurd rfl hc
  | escape h => exact h

/-- A quote that is not escaped ends what is inside of a literal. -/
theorem Inside.not_append_quote (h : Inside cs) : ¬ Inside (cs ++ '\x22' :: ds) := by
  induction h with
  | nil => exact fun h => (h.of_cons (by decide)).1 rfl
  | plain hc _ _ ih => exact fun h => ih (h.of_cons hc).2
  | escape _ ih => exact fun h => ih h.of_escape

end Quoted

namespace Scan

open Quoted

variable {found : List Token} {s : Scan} {cs : List Char} {raw : String}

/-- What has been read of a literal that is still open. -/
theorem Pending.inside {escaped : Bool} {read : List Char} (h : Pending escaped read) :
    ∃ body, Inside body ∧
      read.reverse = '\x22' :: (body ++ if escaped then ['\\'] else []) := by
  induction h with
  | opened => exact ⟨[], .nil, rfl⟩
  | @escaped c read _ ih =>
    obtain ⟨body, hbody, hread⟩ := ih
    exact ⟨body ++ ['\\', c], hbody.append (.escape .nil), by simp [hread]⟩
  | backslash _ ih =>
    obtain ⟨body, hbody, hread⟩ := ih
    exact ⟨body, hbody, by simp [hread]⟩
  | @other c read hc hquote _ ih =>
    obtain ⟨body, hbody, hread⟩ := ih
    exact ⟨body ++ [c], hbody.append (.plain hc hquote .nil), by simp [hread]⟩

/-- A quote that is not escaped closes the literal. -/
theorem Pending.closed {read : List Char} (h : Pending false read) :
    Closed (String.ofList ('\x22' :: read).reverse) := by
  obtain ⟨body, hbody, hread⟩ := h.inside
  exact ⟨body, by simp [hread], hbody⟩

theorem Pending.not_closed {escaped : Bool} {read : List Char} (h : Pending escaped read) :
    ¬ Closed (String.ofList read.reverse) := by
  rintro ⟨body', hraw, hbody'⟩
  obtain ⟨body, hbody, hread⟩ := h.inside
  rw [String.toList_ofList, hread, List.cons.injEq] at hraw
  cases escaped with
  | false =>
    rw [if_neg Bool.false_ne_true, List.append_nil] at hraw
    rw [hraw.2] at hbody
    exact hbody'.not_append_quote hbody
  | true =>
    have hlast := (List.append_inj' hraw.2 rfl).2
    simp at hlast

/-! ### Literals that are scanned -/

theorem after_inside (h : Inside cs) (read : List Char) :
    after found (text false read) cs = (found, text false (cs.reverse ++ read)) := by
  induction h generalizing read with
  | nil => rfl
  | @plain c cs hc hquote _ ih =>
    rw [after, step, if_neg hc, if_neg hquote, ih, List.reverse_cons, List.append_assoc]
    rfl
  | @escape c cs _ ih =>
    have hescape : after found (text false read) ('\\' :: c :: cs) =
        after found (text false (c :: '\\' :: read)) cs := rfl
    rw [hescape, ih]
    simp

/-- A literal that is closed is one token, whatever stands behind it. -/
theorem after_closed (h : Closed raw) (found : List Token) :
    after found gap raw.toList = (.text raw :: found, gap) := by
  obtain ⟨body, hraw, hbody⟩ := h
  have hopen : step found '\x22' gap = (found, text false ['\x22']) := rfl
  have hclose : after found (text false (body.reverse ++ ['\x22'])) ['\x22'] =
      (.text (String.ofList ('\x22' :: (body.reverse ++ ['\x22'])).reverse) :: found, gap) := rfl
  rw [hraw, after, hopen, after_append, after_inside hbody, hclose]
  simp [← hraw]

/-! ### The literals that are found -/

theorem single?_ne_text {c : Char} : single? c ≠ some (.text raw) := by
  intro h
  unfold single? at h
  repeat' split at h
  all_goals cases h

theorem mem_of_text_mem_start {c : Char} (h : .text raw ∈ (start found c).1) :
    .text raw ∈ found := by
  unfold start at h
  split at h
  · exact h
  · split at h
    · exact h
    · split at h
      · exact h
      · split at h
        · exact h
        · split at h
          next t ht =>
            rcases List.mem_cons.mp h with rfl | h
            · exact absurd ht single?_ne_text
            · exact h
          next => exact h

/-- Every literal that is found while a character is read was found before or is closed by that
character. -/
theorem closed_of_mem_step (hs : s.Sound) {c : Char} (h : .text raw ∈ (s.step found c).1) :
    .text raw ∈ found ∨ Closed raw := by
  cases s with
  | gap => exact .inl (mem_of_text_mem_start h)
  | comment => exact .inl h
  | text escaped read =>
    cases escaped with
    | true => exact .inl h
    | false =>
      simp only [step] at h
      split at h
      · exact .inl h
      · split at h
        next hc =>
          subst hc
          rcases List.mem_cons.mp h with h | h
          · cases h
            exact .inr hs.closed
          · exact .inl h
        next => exact .inl h
  | word read =>
    simp only [step] at h
    split at h
    · rcases List.mem_cons.mp (mem_of_text_mem_start h) with h | h
      · cases h
      · exact .inl h
    · exact .inl h
  | tilde =>
    simp only [step] at h
    split at h
    · rcases List.mem_cons.mp h with h | h
      · cases h
      · exact .inl h
    · rcases List.mem_cons.mp (mem_of_text_mem_start h) with h | h
      · cases h
      · exact .inl h

theorem closed_of_mem_after (hfound : ∀ raw, .text raw ∈ found → Closed raw) (hs : s.Sound) :
    ∀ raw, .text raw ∈ (after found s cs).1 → Closed raw := by
  induction cs generalizing found s with
  | nil => exact hfound
  | cons c cs ih =>
    refine ih (fun raw h => ?_) (step_sound hs c)
    rcases closed_of_mem_step hs h with h | h
    · exact hfound raw h
    · exact h

/-- When the text ends, only a literal that is still under way is not closed. -/
theorem not_isText_iff (hfound : ∀ raw, .text raw ∈ found → Closed raw) (hs : s.Sound) :
    ¬ s.IsText ↔ ∀ raw, .text raw ∈ s.finish found → Closed raw := by
  cases s with
  | gap => exact ⟨fun _ => hfound, fun _ h => h⟩
  | comment => exact ⟨fun _ => hfound, fun _ h => h⟩
  | text escaped read =>
    refine ⟨fun h => absurd trivial h, fun h => ?_⟩
    exact absurd (h _ List.mem_cons_self) hs.not_closed
  | word read =>
    refine ⟨fun _ raw h => ?_, fun _ h => h⟩
    rcases List.mem_cons.mp h with h | h
    · cases h
    · exact hfound raw h
  | tilde =>
    refine ⟨fun _ raw h => ?_, fun _ h => h⟩
    rcases List.mem_cons.mp h with h | h
    · cases h
    · exact hfound raw h

end Scan

/-- A text closes its string literals exactly if each one that it is cut into is closed. -/
theorem closesTexts_iff {s : String} :
    ClosesTexts s ↔ ∀ raw, .text raw ∈ tokenize s → Quoted.Closed raw := by
  have hgap : Scan.gap.Sound := trivial
  have hfound : ∀ raw, .text raw ∈ (Scan.after [] .gap s.toList).1 → Quoted.Closed raw :=
    Scan.closed_of_mem_after (fun _ h => absurd h List.not_mem_nil) hgap
  rw [ClosesTexts, Scan.not_isText_iff hfound (Scan.after_sound hgap), ← Scan.run_eq_finish,
    tokenize]
  simp only [List.mem_reverse]

end Lisp
