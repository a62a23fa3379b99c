import Lisp.Text.Quoted
import Lisp.Token.Scan

/-!
# Tokens of lines

A newline ends every token but a string literal, so the lines behind it are cut into tokens as they
would be on their own. A string literal that is still open takes in what follows up to a quote, and
a literal that nothing closes cannot be read, however it goes on.
-/

namespace Lisp

namespace Scan

variable {found found' : List Token} {s : Scan} {cs ds : List Char}

/-- The tokens found and what the scanner remembers behind `cs`. -/
def after (found : List Token) (s : Scan) : List Char → List Token × Scan
  | [] => (found, s)
  | c :: cs => after (s.step found c).1 (s.step found c).2 cs

theorem after_append :
    after found s (cs ++ ds) = after (after found s cs).1 (after found s cs).2 ds := by
  induction cs generalizing found s with
  | nil => rfl
  | cons c cs ih => exact ih

theorem run_append : run found s (cs ++ ds) = run (after found s cs).1 (after found s cs).2 ds := by
  induction cs generalizing found s with
  | nil => rfl
  | cons c cs ih => exact ih

theorem run_eq_finish : run found s cs = (after found s cs).2.finish (after found s cs).1 := by
  have h : run found s (cs ++ []) = run (after found s cs).1 (after found s cs).2 [] := run_append
  rwa [List.append_nil] at h

theorem start_append (c : Char) :
    start (found ++ found') c = ((start found c).1 ++ found', (start found c).2) := by
  unfold start
  split
  · rfl
  · split
    · rfl
    · split
      · rfl
      · split
        · rfl
        · split
          · rfl
          · rfl

theorem step_append (c : Char) :
    s.step (found ++ found') c = ((s.step found c).1 ++ found', (s.step found c).2) := by
  cases s with
  | gap => exact start_append c
  | comment => rfl
  | text escaped read =>
    cases escaped with
    | true => rfl
    | false =>
      simp only [step]
      split
      · rfl
      · split
        · rfl
        · rfl
  | word read =>
    simp only [step]
    split
    · rw [← List.cons_append]
      exact start_append c
    · rfl
  | tilde =>
    simp only [step]
    split
    · rfl
    · rw [← List.cons_append]
      exact start_append c

theorem finish_append : s.finish (found ++ found') = s.finish found ++ found' := by
  cases s <;> rfl

/-- Tokens that were found before have no part in what is found next. -/
theorem run_found : run (found ++ found') s cs = run found s cs ++ found' := by
  induction cs generalizing found s with
  | nil => exact finish_append
  | cons c cs ih =>
    rw [run, step_append]
    exact ih

/-! ### Newlines -/

/-- A string literal is under way. -/
def IsText : Scan → Prop
  | text _ _ => True
  | _ => False

/-- A newline ends every token but a string literal. -/
theorem step_newline (h : ¬ s.IsText) : s.step found '\n' = (s.finish found, gap) := by
  cases s with
  | text => exact absurd trivial h
  | _ => rfl

/-! ### String literals that nothing closes -/

/-- The characters of a string literal that is still open, newest first, and whether the next one is
escaped. -/
inductive Pending : Bool → List Char → Prop
  | opened : Pending false ['\x22']
  | escaped {c : Char} {read : List Char} : Pending true read → Pending false (c :: read)
  | backslash {read : List Char} : Pending false read → Pending true ('\\' :: read)
  | other {c : Char} {read : List Char} :
      c ≠ '\\' → c ≠ '\x22' → Pending false read → Pending false (c :: read)

/-- What the scanner remembers of a string literal is one that is still open. -/
def Sound : Scan → Prop
  | text escaped read => Pending escaped read
  | _ => True

theorem start_sound (c : Char) : (start found c).2.Sound := by
  unfold start
  split
  · trivial
  · split
    · trivial
    · split
      · next h =>
        subst h
        exact .opened
      · split
        · trivial
        · split
          · trivial
          · trivial

theorem step_sound (h : s.Sound) (c : Char) : (s.step found c).2.Sound := by
  cases s with
  | gap => exact start_sound c
  | comment =>
    simp only [step]
    split
    · trivial
    · trivial
  | text escaped read =>
    cases escaped with
    | true => exact .escaped h
    | false =>
      simp only [step]
      split
      next hc =>
        subst hc
        exact .backslash h
      next hc =>
        split
        · trivial
        next hc' => exact .other hc hc' h
  | word read =>
    simp only [step]
    split
    · exact start_sound c
    · trivial
  | tilde =>
    simp only [step]
    split
    · trivial
    · exact start_sound c

theorem after_sound (h : s.Sound) : (after found s cs).2.Sound := by
  induction cs generalizing found s with
  | nil => exact h
  | cons c cs ih => exact ih (step_sound h c)

/-- What is inside a string literal that is still open is decoded up to a pending backslash, if it
can be decoded at all. -/
theorem Pending.decodeOnto {escaped : Bool} {read : List Char} (h : Pending escaped read) :
    ∃ body, read.reverse = '\x22' :: body ∧ ∀ out rest,
      (∃ cause, Quoted.decodeOnto out (body ++ rest) = .error cause) ∨
        ∃ out', Quoted.decodeOnto out (body ++ rest) =
          Quoted.decodeOnto out' (if escaped then '\\' :: rest else rest) := by
  induction h with
  | opened => exact ⟨[], rfl, fun out rest => .inr ⟨out, rfl⟩⟩
  | @escaped c read _ ih =>
    obtain ⟨body, hbody, ih⟩ := ih
    refine ⟨body ++ [c], by simp [hbody], fun out rest => ?_⟩
    rw [List.append_assoc, List.singleton_append]
    rcases ih out (c :: rest) with herror | ⟨out', hout⟩
    · exact .inl herror
    · rw [hout, if_pos rfl, Quoted.decodeOnto]
      cases Quoted.escaped? c with
      | none => exact .inl ⟨_, rfl⟩
      | some d => exact .inr ⟨d :: out', rfl⟩
  | @backslash read _ ih =>
    obtain ⟨body, hbody, ih⟩ := ih
    refine ⟨body ++ ['\\'], by simp [hbody], fun out rest => ?_⟩
    rw [List.append_assoc, List.singleton_append]
    exact ih out ('\\' :: rest)
  | @other c read hc _ _ ih =>
    obtain ⟨body, hbody, ih⟩ := ih
    refine ⟨body ++ [c], by simp [hbody], fun out rest => ?_⟩
    rw [List.append_assoc, List.singleton_append]
    rcases ih out (c :: rest) with herror | ⟨out', hout⟩
    · exact .inl herror
    · refine .inr ⟨c :: out', hout.trans ?_⟩
      rw [if_neg Bool.false_ne_true, if_neg Bool.false_ne_true, Quoted.decodeOnto]
      · exact fun h => absurd h hc
      · exact fun _ _ h => absurd h hc

/-- A string literal that nothing closes cannot be read. -/
theorem Pending.unreadable {escaped : Bool} {read : List Char} (h : Pending escaped read) :
    ∃ cause, Quoted.read (String.ofList read.reverse) = .error cause := by
  obtain ⟨body, hbody, -⟩ := h.decodeOnto
  rw [Quoted.read, String.toList_ofList, hbody, Quoted.inside?]
  by_cases hquote : body.getLast? = some '\x22'
  · rw [if_pos hquote]
    cases h with
    | opened =>
      cases hbody
      cases hquote
    | escaped h =>
      -- The quote at the end is escaped, which leaves a backslash at the end of what is inside.
      obtain ⟨body', hbody', hdecode⟩ := h.decodeOnto
      rw [List.reverse_cons, hbody', List.cons_append, List.cons.injEq] at hbody
      obtain ⟨-, rfl⟩ := hbody
      rw [List.dropLast_concat]
      have hend := hdecode [] []
      rw [List.append_nil] at hend
      rcases hend with herror | ⟨out, hout⟩
      · exact herror
      · exact ⟨_, hout⟩
    | backslash h =>
      obtain ⟨body', hbody', -⟩ := h.decodeOnto
      rw [List.reverse_cons, hbody', List.cons_append, List.cons.injEq] at hbody
      obtain ⟨-, rfl⟩ := hbody
      simp at hquote
    | other _ hc h =>
      obtain ⟨body', hbody', -⟩ := h.decodeOnto
      rw [List.reverse_cons, hbody', List.cons_append, List.cons.injEq] at hbody
      obtain ⟨-, rfl⟩ := hbody
      simp [hc] at hquote
  · rw [if_neg hquote]
    exact ⟨_, rfl⟩

/-- Without a quote a string literal stays open. -/
theorem after_text {escaped : Bool} {read : List Char} (hcs : '\x22' ∉ cs) :
    ∃ escaped' read', after found (text escaped read) cs = (found, text escaped' read') := by
  induction cs generalizing escaped read with
  | nil => exact ⟨escaped, read, rfl⟩
  | cons c cs ih =>
    obtain ⟨hc, hcs⟩ := not_or.mp (mt List.mem_cons.mpr hcs)
    cases escaped with
    | true => exact ih hcs
    | false =>
      rw [after, step]
      split
      · exact ih hcs
      · rw [if_neg (Ne.symm hc)]
        exact ih hcs

end Scan

/-! ### Lines -/

/-- Every string literal of a text is closed. -/
def ClosesTexts (s : String) : Prop :=
  ¬ (Scan.after [] .gap s.toList).2.IsText

theorem tokenize_append {s t : String} {found : List Token}
    (h : Scan.after [] .gap s.toList = (found, .gap)) :
    tokenize (s ++ t) = found.reverse ++ tokenize t := by
  rw [tokenize, String.toList_append, Scan.run_append, h, ← List.nil_append found, Scan.run_found,
    List.reverse_append, List.nil_append]
  rfl

/-- The lines behind a text that closes its string literals are cut into tokens on their own. -/
theorem tokenize_append_newline {s : String} (h : ClosesTexts s) (t : String) :
    tokenize (s ++ "\n" ++ t) = tokenize s ++ tokenize t := by
  have hafter : Scan.after [] .gap (s ++ "\n").toList =
      (Scan.run [] .gap s.toList, .gap) := by
    rw [String.toList_append, Scan.after_append, Scan.run_eq_finish]
    exact Scan.step_newline h
  exact tokenize_append hafter

/-- Behind a text whose last string literal is open, a line without quotes only makes that literal
longer. -/
theorem tokenize_append_of_open {s : String} (h : ¬ ClosesTexts s) {t : String}
    (ht : '\x22' ∉ t.toList) :
    ∃ ts raw raw', tokenize s = ts ++ [.text raw] ∧ tokenize (s ++ t) = ts ++ [.text raw'] ∧
      (∃ cause, Quoted.read raw = .error cause) ∧ ∃ cause, Quoted.read raw' = .error cause := by
  have hsound : (Scan.after [] .gap s.toList).2.Sound := Scan.after_sound trivial
  rw [ClosesTexts, Classical.not_not] at h
  rcases hafter : Scan.after [] .gap s.toList with ⟨found, scan⟩
  rw [hafter] at h hsound
  cases scan with
  | text escaped read =>
    obtain ⟨escaped', read', hafter'⟩ : ∃ escaped' read',
        Scan.after found (.text escaped read) t.toList = (found, .text escaped' read') :=
      Scan.after_text ht
    have hsound' : (Scan.after found (.text escaped read) t.toList).2.Sound :=
      Scan.after_sound hsound
    rw [hafter'] at hsound'
    refine ⟨found.reverse, _, _, ?_, ?_, Scan.Pending.unreadable hsound,
      Scan.Pending.unreadable hsound'⟩
    · rw [tokenize, Scan.run_eq_finish, hafter]
      exact List.reverse_cons
    · rw [tokenize, String.toList_append, Scan.run_append, hafter, Scan.run_eq_finish, hafter']
      exact List.reverse_cons
  | _ => exact h.elim

end Lisp
