import Lisp.Proofs.Token.Literals

/-!
# Texts of tokens

How a text may be written that is cut into given tokens: words and string literals as they are, a
blank between two of them, and brackets close around what they hold. A text `Cuts` into tokens if
these are what the scanner finds next, whatever it has found before, and if a delimiter behind the
text belongs to none of them. The other way round, every word that a text is cut into is one
(`allWords_tokenize`).
-/

namespace Lisp

namespace Scan

variable {found : List Token} {s : Scan} {cs ds : List Char} {us vs : List Token} {c : Char}

/-- Nothing is under way but what a delimiter ends. -/
def Settled : Scan → Prop
  | gap | word _ => True
  | _ => False

theorem Settled.step (h : s.Settled) (hc : isDelimiter c = true) :
    s.step found c = start (s.finish found) c := by
  cases s with
  | gap => rfl
  | word read => exact if_pos hc
  | _ => exact h.elim

/-- The text is cut into these tokens, whatever stands in front of it and whatever delimiter
behind. -/
def Cuts (cs : List Char) (us : List Token) : Prop :=
  ∀ found, ∃ found' s, after found gap cs = (found', s) ∧ s.Settled ∧
    s.finish found' = us.reverse ++ found

theorem cuts_nil : Cuts [] [] :=
  fun found => ⟨found, gap, rfl, trivial, rfl⟩

/-- Behind a text that is cut into tokens a delimiter is read as between two tokens. -/
theorem Cuts.after_append (h : Cuts cs us) (hc : isDelimiter c = true) (found : List Token) :
    after found gap (cs ++ c :: ds) =
      after (start (us.reverse ++ found) c).1 (start (us.reverse ++ found) c).2 ds := by
  obtain ⟨found', s, hafter, hs, hfinish⟩ := h found
  rw [Scan.after_append, hafter, after, hs.step hc, hfinish]

/-- A blank separates two texts. -/
theorem Cuts.blank (h : Cuts cs us) (h' : Cuts ds vs) : Cuts (cs ++ ' ' :: ds) (us ++ vs) := by
  intro found
  obtain ⟨found', s, hafter, hs, hfinish⟩ := h' (us.reverse ++ found)
  refine ⟨found', s, (h.after_append (by decide) found).trans hafter, hs, ?_⟩
  rw [hfinish, List.reverse_append, List.append_assoc]

theorem start_opener (found : List Token) (b : Bracket) :
    start found b.opener = (.opening b :: found, gap) := by
  cases b <;> rfl

theorem start_closer (found : List Token) (b : Bracket) :
    start found b.closer = (.closing b :: found, gap) := by
  cases b <;> rfl

/-- Brackets may stand close around a text. -/
theorem Cuts.bracket (h : Cuts cs us) (b : Bracket) :
    Cuts (b.opener :: (cs ++ [b.closer])) (.opening b :: (us ++ [.closing b])) := by
  intro found
  have hcloser : isDelimiter b.closer = true := by
    cases b <;> decide
  refine ⟨.closing b :: (us.reverse ++ .opening b :: found), gap, ?_, trivial, ?_⟩
  · rw [after, step, start_opener, h.after_append hcloser, start_closer]
    rfl
  · simp [finish]

/-! ### Words -/

/-- The characters make up a word. -/
structure IsWord (cs : List Char) : Prop where
  ne_nil : cs ≠ []
  plain : ∀ c ∈ cs, isDelimiter c = false
  head : ∀ c, cs.head? = some c → c ∉ ['~', '^', '@']

theorem start_eq_word (hc : isDelimiter c = false) (hmark : c ∉ ['~', '^', '@']) :
    start found c = (found, word [c]) := by
  simp only [isDelimiter, Bool.or_eq_false_iff, beq_eq_false_iff_ne] at hc
  simp only [List.mem_cons, List.not_mem_nil, or_false, not_or] at hmark
  simp [start, single?, hc, hmark]

theorem after_word {read : List Char} (hcs : ∀ c ∈ cs, isDelimiter c = false) :
    after found (word read) cs = (found, word (cs.reverse ++ read)) := by
  induction cs generalizing read with
  | nil => rfl
  | cons c cs ih =>
    rw [List.forall_mem_cons] at hcs
    have hstep : step found c (word read) = (found, word (c :: read)) := by
      simp [step, hcs.1]
    rw [after, hstep, ih hcs.2, List.reverse_cons, List.append_assoc]
    rfl

theorem IsWord.cuts (h : IsWord cs) : Cuts cs [.word (String.ofList cs)] := by
  intro found
  cases cs with
  | nil => exact absurd rfl h.ne_nil
  | cons c cs =>
    obtain ⟨hc, hcs⟩ := List.forall_mem_cons.mp h.plain
    refine ⟨found, word (cs.reverse ++ [c]), ?_, trivial, ?_⟩
    · rw [after, step, start_eq_word hc (h.head c rfl)]
      exact after_word hcs
    · simp [finish]

/-! ### Words that are found -/

/-- The words among some tokens are words. -/
def AllWords (us : List Token) : Prop :=
  ∀ name, .word name ∈ us → IsWord name.toList

theorem AllWords.of_subset (h : AllWords us) (hvs : vs ⊆ us) : AllWords vs :=
  fun name hname => h name (hvs hname)

/-- A word that is under way is one already. -/
def Worded : Scan → Prop
  | word read => IsWord read.reverse
  | _ => True

theorem allWords_cons {t : Token} (h : AllWords found)
    (ht : ∀ name, t = .word name → IsWord name.toList) : AllWords (t :: found) := by
  intro name hname
  rcases List.mem_cons.mp hname with hname | hname
  · exact ht name hname.symm
  · exact h name hname

theorem allWords_text {raw : String} (h : AllWords found) : AllWords (.text raw :: found) :=
  allWords_cons h nofun

theorem allWords_sigil {sigil : Sigil} (h : AllWords found) : AllWords (.sigil sigil :: found) :=
  allWords_cons h nofun

theorem finish_allWords (h : AllWords found) (hs : s.Worded) : AllWords (s.finish found) := by
  cases s with
  | gap => exact h
  | comment => exact h
  | text escaped read => exact allWords_text h
  | word read =>
    refine allWords_cons h ?_
    rintro name ⟨⟩
    rw [String.toList_ofList]
    exact hs
  | tilde => exact allWords_sigil h

theorem single?_ne_word {name : String} : single? c ≠ some (.word name) := by
  intro h
  unfold single? at h
  repeat' split at h
  all_goals cases h

/-- A character that makes no token on its own is none of those that do. -/
theorem ne_of_single?_eq_none (h : single? c = none) :
    ∀ d ∈ ['(', ')', '[', ']', '\x7b', '\x7d', '\x27', '\x60', '^', '@'], c ≠ d := by
  rintro d hd rfl
  simp only [List.mem_cons, List.not_mem_nil, or_false] at hd
  rcases hd with rfl | rfl | rfl | rfl | rfl | rfl | rfl | rfl | rfl | rfl <;> cases h

theorem start_allWords (h : AllWords found) (c : Char) :
    AllWords (start found c).1 ∧ (start found c).2.Worded := by
  unfold start
  split
  next => exact ⟨h, trivial⟩
  next hseparator =>
    split
    next => exact ⟨h, trivial⟩
    next hcomment =>
      split
      next => exact ⟨h, trivial⟩
      next hquote =>
        split
        next => exact ⟨h, trivial⟩
        next htilde =>
          split
          next t ht =>
            refine ⟨allWords_cons h ?_, trivial⟩
            rintro name rfl
            exact absurd ht single?_ne_word
          next hsingle =>
            have hne := ne_of_single?_eq_none hsingle
            simp only [List.forall_mem_cons] at hne
            refine ⟨h, List.cons_ne_nil c [], List.forall_mem_singleton.mpr ?_, ?_⟩
            · simp [isDelimiter, hseparator, hcomment, hquote, hne]
            · rintro d ⟨⟩
              simp [htilde, hne]

/-- Every character that is read keeps that the words found are words. -/
theorem step_allWords (h : AllWords found) (hs : s.Worded) (c : Char) :
    AllWords (s.step found c).1 ∧ (s.step found c).2.Worded := by
  cases s with
  | gap => exact start_allWords h c
  | comment =>
    refine ⟨h, ?_⟩
    simp only [step]
    split
    · trivial
    · trivial
  | text escaped read =>
    cases escaped with
    | true => exact ⟨h, trivial⟩
    | false =>
      simp only [step]
      split
      · exact ⟨h, trivial⟩
      · split
        · exact ⟨allWords_text h, trivial⟩
        · exact ⟨h, trivial⟩
  | word read =>
    simp only [step]
    split
    · exact start_allWords (finish_allWords h hs) c
    next hc =>
      refine ⟨h, List.reverse_ne_nil_iff.mpr (List.cons_ne_nil c read), fun d hd => ?_,
        fun d hd => hs.head d ?_⟩
      · rcases List.mem_cons.mp (List.mem_reverse.mp hd) with rfl | hd
        · exact Bool.eq_false_iff.mpr hc
        · exact hs.plain d (List.mem_reverse.mpr hd)
      · obtain ⟨e, es, hread⟩ := List.exists_cons_of_ne_nil hs.ne_nil
        rw [List.reverse_cons, hread] at hd
        rw [hread]
        exact hd
  | tilde =>
    simp only [step]
    split
    · exact ⟨allWords_sigil h, trivial⟩
    · exact start_allWords (finish_allWords h hs) c

theorem run_allWords (h : AllWords found) (hs : s.Worded) : AllWords (run found s cs) := by
  induction cs generalizing found s with
  | nil => exact finish_allWords h hs
  | cons c cs ih =>
    obtain ⟨hfound, hs⟩ := step_allWords h hs c
    exact ih hfound hs

/-! ### String literals -/

theorem inside_encode (cs : List Char) : Quoted.Inside (Quoted.encode cs) := by
  induction cs with
  | nil => exact .nil
  | cons c cs ih =>
    rw [Quoted.encode, List.flatMap_cons, ← Quoted.encode]
    unfold Quoted.encodeChar
    split
    · exact .escape ih
    · exact .escape ih
    · exact .escape ih
    next hbackslash hquote => exact .plain hbackslash hquote ih

/-- A string literal is one token. -/
theorem cuts_quoted (cs : List Char) :
    Cuts ('\x22' :: (Quoted.encode cs ++ ['\x22']))
      [.text (String.ofList ('\x22' :: (Quoted.encode cs ++ ['\x22'])))] := by
  intro found
  have hclosed : Quoted.Closed (String.ofList ('\x22' :: (Quoted.encode cs ++ ['\x22']))) :=
    ⟨Quoted.encode cs, String.toList_ofList, inside_encode cs⟩
  have hafter := after_closed hclosed found
  rw [String.toList_ofList] at hafter
  exact ⟨_, gap, hafter, trivial, rfl⟩

end Scan

/-- The words that a text is cut into are words. -/
theorem allWords_tokenize (s : String) : Scan.AllWords (tokenize s) := by
  have hnil : Scan.AllWords [] := fun _ h => absurd h List.not_mem_nil
  have hgap : Scan.gap.Worded := trivial
  exact (Scan.run_allWords hnil hgap).of_subset (List.reverse_subset.mpr (List.Subset.refl _))

/-- The tokens of a text. -/
theorem tokenize_eq_of_cuts {s : String} {us : List Token} (h : Scan.Cuts s.toList us) :
    tokenize s = us := by
  obtain ⟨found, scan, hafter, -, hfinish⟩ := h []
  rw [tokenize, Scan.run_eq_finish, hafter, hfinish, List.append_nil, List.reverse_reverse]

/-- Whatever stands behind a delimiter has no part in the tokens in front of it. -/
theorem tokenize_delimited {s : String} {us : List Token} {c : Char} {cs : List Char}
    (h : Scan.Cuts s.toList us) (hc : isDelimiter c = true) :
    tokenize (s ++ String.ofList (c :: cs)) = us ++ tokenize (String.ofList (c :: cs)) := by
  obtain ⟨found, scan, hafter, hscan, hfinish⟩ := h []
  have hrun : Scan.run [] .gap (s.toList ++ c :: cs) =
      Scan.run ([] ++ us.reverse) .gap (c :: cs) := by
    rw [Scan.run_append, hafter, Scan.run, hscan.step hc, hfinish, List.append_nil]
    rfl
  rw [tokenize, String.toList_append, String.toList_ofList, hrun, Scan.run_found,
    List.reverse_append, List.reverse_reverse, tokenize, String.toList_ofList]

end Lisp
