import Lisp.Proofs.Token.Written

/-!
# Texts as gaps and tokens

Every text is a row of tokens with gaps between them, and no character is lost. A token stands in
the text as it is written, and what comes behind it does not make it longer: a word is followed by a
delimiter, a `~` that is a token by anything but `@`, and a string literal that nothing closes by
nothing at all. There is one way only to split a text like this (`splits_iff_eq_tokenize`).
-/

namespace Lisp

namespace Scan

variable {cs ds : List Char}

/-! ### Gaps -/

/-- What stands in front of a token: separators, and comments with the newline that ends them. -/
inductive Gap : List Char → Prop
  | nil : Gap []
  | separator {c : Char} {cs : List Char} : isSeparator c = true → Gap cs → Gap (c :: cs)
  | comment {body cs : List Char} : '\n' ∉ body → Gap cs → Gap (';' :: (body ++ '\n' :: cs))

/-- What stands behind the last token: a gap, and possibly a comment that runs to the end of the
text. -/
inductive FinalGap : List Char → Prop
  | closed {cs : List Char} : Gap cs → FinalGap cs
  | comment {cs body : List Char} : Gap cs → '\n' ∉ body → FinalGap (cs ++ ';' :: body)

theorem Gap.append (h : Gap cs) (h' : Gap ds) : Gap (cs ++ ds) := by
  induction h with
  | nil => exact h'
  | separator hc _ ih => exact .separator hc ih
  | @comment body cs hbody _ ih =>
    rw [List.cons_append, List.append_assoc, List.cons_append]
    exact .comment hbody ih

theorem after_comment {found : List Token} {body : List Char} (hbody : '\n' ∉ body) :
    after found comment body = (found, comment) := by
  induction body with
  | nil => rfl
  | cons c body ih =>
    obtain ⟨hc, hbody⟩ := not_or.mp (mt List.mem_cons.mpr hbody)
    rw [after, step, if_neg (Ne.symm hc)]
    exact ih hbody

theorem start_separator {found : List Token} {c : Char} (hc : isSeparator c = true) :
    start found c = (found, gap) :=
  if_pos hc

theorem start_semicolon (found : List Token) : start found ';' = (found, comment) :=
  rfl

/-- A gap leaves no trace. -/
theorem Gap.after (h : Gap cs) (found : List Token) : after found gap cs = (found, gap) := by
  induction h with
  | nil => rfl
  | separator hc _ ih =>
    rw [Scan.after, step, start_separator hc]
    exact ih
  | comment hbody _ ih =>
    rw [Scan.after, step, start_semicolon, after_append, after_comment hbody]
    exact ih

theorem FinalGap.run (h : FinalGap cs) (found : List Token) : run found gap cs = found := by
  rw [run_eq_finish]
  cases h with
  | closed h =>
    rw [h.after]
    rfl
  | comment h hbody =>
    rw [after_append, h.after, Scan.after, step, start_semicolon, after_comment hbody]
    rfl

end Scan

/-! ### Tokens in a text -/

/-- How a token is written. -/
def Token.written : Token → List Char
  | opening b => [b.opener]
  | closing b => [b.closer]
  | sigil s => s.written.toList
  | text raw => raw.toList
  | word name => name.toList

/-- A string literal that lacks its second quote; a backslash may be left at its end. -/
def Quoted.Unclosed (raw : String) : Prop :=
  ∃ body, Quoted.Inside body ∧
    (raw.toList = '\x22' :: body ∨ raw.toList = '\x22' :: (body ++ ['\\']))

/-- A token is complete in front of the rest of a text. -/
inductive Token.Stands : Token → List Char → Prop
  | opening {b : Bracket} {rest : List Char} : Stands (opening b) rest
  | closing {b : Bracket} {rest : List Char} : Stands (closing b) rest
  | sigil {s : Sigil} {rest : List Char} :
      (s = .unquote → rest.head? ≠ some '@') → Stands (sigil s) rest
  | closed {raw : String} {rest : List Char} : Quoted.Closed raw → Stands (text raw) rest
  | unclosed {raw : String} : Quoted.Unclosed raw → Stands (text raw) []
  | word {name : String} {rest : List Char} : Scan.IsWord name.toList →
      (∀ c, rest.head? = some c → isDelimiter c = true) → Stands (word name) rest

/-- A text is a row of tokens, with a gap in front of each of them and one behind the last. -/
inductive Splits : List Token → List Char → Prop
  | last {cs : List Char} : Scan.FinalGap cs → Splits [] cs
  | token {gap rest : List Char} {t : Token} {ts : List Token} : Scan.Gap gap → t.Stands rest →
      Splits ts rest → Splits (t :: ts) (gap ++ (t.written ++ rest))

namespace Scan

variable {found : List Token} {cs rest : List Char} {t : Token}

/-! ### What a text splits into is found -/

/-- A text that is cut into tokens is found in front of a delimiter and at the end. -/
theorem Cuts.run {us : List Token} (h : Cuts cs us)
    (hrest : ∀ c, rest.head? = some c → isDelimiter c = true) :
    run found gap (cs ++ rest) = run (us.reverse ++ found) gap rest := by
  cases rest with
  | nil =>
    obtain ⟨found', s, hafter, -, hfinish⟩ := h found
    rw [List.append_nil, run_eq_finish, hafter]
    exact hfinish
  | cons c rest =>
    rw [run_eq_finish, h.after_append (hrest c rfl) found, ← run_eq_finish]
    rfl

theorem run_sigil {s : Sigil} (h : s = .unquote → rest.head? ≠ some '@') :
    run found gap (s.written.toList ++ rest) = run (.sigil s :: found) gap rest := by
  cases s with
  | unquote =>
    cases rest with
    | nil => rfl
    | cons c rest =>
      have hc : c ≠ '@' := fun hc => h rfl (congrArg some hc)
      have hstep : step found c tilde = step (.sigil .unquote :: found) c gap := if_neg hc
      have htilde : Sigil.unquote.written.toList ++ c :: rest = '~' :: c :: rest := rfl
      have hstart : start found '~' = (found, tilde) := rfl
      rw [htilde, run, step, hstart]
      change run (step found c tilde).1 (step found c tilde).2 rest = _
      rw [hstep]
      rfl
  | _ => rfl

/-- A literal that nothing closes is found when the text ends. -/
theorem run_unclosed {raw : String} (h : Quoted.Unclosed raw) :
    run found gap raw.toList = .text raw :: found := by
  obtain ⟨body, hbody, hraw⟩ := h
  have hopen : step found '\x22' gap = (found, text false ['\x22']) := rfl
  rw [run_eq_finish]
  rcases hraw with hraw | hraw
  · rw [hraw, after, hopen, after_inside hbody]
    simp [finish, ← hraw]
  · have hend : after found (text false (body.reverse ++ ['\x22'])) ['\\'] =
        (found, text true ('\\' :: (body.reverse ++ ['\x22']))) := rfl
    rw [hraw, after, hopen, after_append, after_inside hbody, hend]
    simp [finish, ← hraw]

/-- A token that stands in a text is found, and the scan goes on behind it. -/
theorem run_stands (h : t.Stands rest) :
    run found gap (t.written ++ rest) = run (t :: found) gap rest := by
  cases h with
  | @opening b =>
    rw [Token.written, List.singleton_append, run, step, start_opener]
  | @closing b =>
    rw [Token.written, List.singleton_append, run, step, start_closer]
  | sigil hrest => exact run_sigil hrest
  | @closed raw _ hraw => rw [Token.written, run_append, after_closed hraw]
  | unclosed hraw =>
    rw [List.append_nil]
    exact run_unclosed hraw
  | @word name _ hname hrest =>
    have hrun : run found gap (name.toList ++ rest) =
        run (.word (String.ofList name.toList) :: found) gap rest := hname.cuts.run hrest
    rwa [String.ofList_toList] at hrun

theorem run_splits {ts : List Token} (h : Splits ts cs) :
    run found gap cs = ts.reverse ++ found := by
  induction h generalizing found with
  | last hgap => exact hgap.run found
  | token hgap ht _ ih =>
    rw [run_append, hgap.after, run_stands ht, ih, List.reverse_cons, List.append_assoc]
    rfl

/-! ### What is found splits the text -/

/-- The characters since the last token are a gap and then those that the scanner remembers. -/
inductive Begun : Scan → List Char → Prop
  | gap {read : List Char} : Gap read → Begun gap read
  | comment {front body : List Char} :
      Gap front → '\n' ∉ body → Begun comment (front ++ ';' :: body)
  | text {front read : List Char} {escaped : Bool} :
      Gap front → Pending escaped read → Begun (text escaped read) (front ++ read.reverse)
  | word {front read : List Char} :
      Gap front → IsWord read.reverse → Begun (word read) (front ++ read.reverse)
  | tilde {front : List Char} : Gap front → Begun tilde (front ++ ['~'])

/-- A character that is a token on its own stands in front of every text. -/
theorem stands_of_single? {c : Char} (h : single? c = some t) :
    t.written = [c] ∧ t.Stands rest := by
  unfold single? at h
  repeat' split at h
  all_goals
    cases h
  all_goals
    subst c
    first
      | exact ⟨rfl, .opening⟩
      | exact ⟨rfl, .closing⟩
      | exact ⟨rfl, .sigil nofun⟩

/-- A token that is complete comes first among those that are found. -/
theorem splits_token {front ds : List Char} {s : Scan} (hfront : Gap front) (ht : t.Stands rest)
    (h : Splits (run [] s ds).reverse rest) :
    Splits (run [t] s ds).reverse (front ++ (t.written ++ rest)) := by
  rw [← List.nil_append [t], run_found, List.reverse_append]
  exact .token hfront ht h

theorem splits_end {front : List Char} (hfront : Gap front) (ht : t.Stands []) :
    Splits [t] (front ++ t.written) := by
  have h : Splits [t] (front ++ (t.written ++ [])) := .token hfront ht (.last (.closed .nil))
  rwa [List.append_nil] at h

theorem Pending.unclosed {escaped : Bool} {read : List Char} (h : Pending escaped read) :
    Quoted.Unclosed (String.ofList read.reverse) := by
  obtain ⟨body, hbody, hread⟩ := h.inside
  refine ⟨body, hbody, ?_⟩
  rw [String.toList_ofList, hread]
  cases escaped with
  | false => exact .inl (by simp)
  | true => exact .inr rfl

/-- What is found in `cs` splits the text, whatever has been read since the last token. -/
def Splitting (cs : List Char) : Prop :=
  ∀ s read, Begun s read → Splits (run [] s cs).reverse (read ++ cs)

theorem splitting_nil : Splitting [] := by
  intro s read h
  rw [List.append_nil]
  cases h with
  | gap hread => exact .last (.closed hread)
  | comment hfront hbody => exact .last (.comment hfront hbody)
  | @text front read _ hfront hread =>
    have h := splits_end hfront (.unclosed hread.unclosed)
    rw [Token.written, String.toList_ofList] at h
    exact h
  | @word front read hfront hread =>
    have hname : IsWord (String.ofList read.reverse).toList := by
      rwa [String.toList_ofList]
    have h := splits_end hfront (.word hname nofun)
    rw [Token.written, String.toList_ofList] at h
    exact h
  | tilde hfront => exact splits_end hfront (t := .sigil .unquote) (.sigil nofun)

section Cons

variable {front read body : List Char} {c : Char}

/-- A character that ends no token joins those in front of it. -/
theorem Splitting.join (ih : Splitting cs) {s : Scan} (h : Begun s (read ++ [c])) :
    Splits (run [] s cs).reverse (read ++ c :: cs) := by
  have hsplit := ih s _ h
  rwa [List.append_assoc, List.singleton_append] at hsplit

/-- Where no token is under way, the next character either belongs to the gap, is a token or begins
one. -/
theorem Splitting.cons_gap (ih : Splitting cs) (hfront : Gap front) :
    Splits (run [] gap (c :: cs)).reverse (front ++ c :: cs) := by
  have hnil : AllWords [] := fun _ h => absurd h List.not_mem_nil
  have hworded := (start_allWords hnil c).2
  have hsound : (start [] c).2.Sound := start_sound c
  rw [run, step]
  unfold start at hworded hsound ⊢
  by_cases hseparator : isSeparator c = true
  · rw [if_pos hseparator]
    exact ih.join (.gap (hfront.append (.separator hseparator .nil)))
  rw [if_neg hseparator] at hworded hsound ⊢
  by_cases hcomment : c = ';'
  · subst hcomment
    rw [if_pos rfl]
    exact ih.join (.comment hfront List.not_mem_nil)
  rw [if_neg hcomment] at hworded hsound ⊢
  by_cases hquote : c = '\x22'
  · rw [if_pos hquote] at hsound ⊢
    exact ih.join (.text hfront hsound)
  rw [if_neg hquote] at hworded ⊢
  by_cases htilde : c = '~'
  · subst htilde
    rw [if_pos rfl]
    exact ih.join (.tilde hfront)
  rw [if_neg htilde] at hworded ⊢
  cases hsingle : single? c with
  | some t =>
    obtain ⟨hwritten, ht⟩ : t.written = [c] ∧ t.Stands cs := stands_of_single? hsingle
    have h := splits_token hfront ht (ih _ _ (.gap .nil))
    rw [hwritten] at h
    exact h
  | none =>
    rw [hsingle] at hworded
    exact ih.join (.word hfront hworded)

theorem Splitting.cons_comment (ih : Splitting cs) (hfront : Gap front) (hbody : '\n' ∉ body) :
    Splits (run [] comment (c :: cs)).reverse (front ++ ';' :: body ++ c :: cs) := by
  rw [run, step]
  refine ih.join ?_
  rw [List.append_assoc, List.cons_append]
  by_cases hc : c = '\n'
  · subst hc
    exact .gap (hfront.append (.comment hbody .nil))
  · rw [if_neg hc]
    refine .comment hfront fun h => ?_
    rcases List.mem_append.mp h with h | h
    · exact hbody h
    · exact hc (List.mem_singleton.mp h).symm

theorem Splitting.cons_text {escaped : Bool} (ih : Splitting cs) (hfront : Gap front)
    (hread : Pending escaped read) :
    Splits (run [] (text escaped read) (c :: cs)).reverse (front ++ read.reverse ++ c :: cs) := by
  have hjoin : front ++ read.reverse ++ [c] = front ++ (c :: read).reverse := by
    rw [List.append_assoc, List.reverse_cons]
  cases escaped with
  | true => exact ih.join (hjoin ▸ .text hfront (.escaped hread))
  | false =>
    rw [run, step]
    by_cases hescape : c = '\\'
    · subst hescape
      rw [if_pos rfl]
      exact ih.join (hjoin ▸ .text hfront (.backslash hread))
    rw [if_neg hescape]
    by_cases hquote : c = '\x22'
    · subst hquote
      have h := splits_token hfront (.closed hread.closed) (ih _ _ (.gap .nil))
      rw [Token.written, String.toList_ofList, ← List.append_assoc, ← hjoin, List.append_assoc] at h
      rw [if_pos rfl]
      exact h
    · rw [if_neg hquote]
      exact ih.join (hjoin ▸ .text hfront (.other hescape hquote hread))

theorem Splitting.cons_word (ih : Splitting cs) (hfront : Gap front) (hread : IsWord read.reverse) :
    Splits (run [] (word read) (c :: cs)).reverse (front ++ read.reverse ++ c :: cs) := by
  by_cases hc : isDelimiter c = true
  · have hstep : step [] c (word read) = step [.word (String.ofList read.reverse)] c gap :=
      if_pos hc
    have hname : IsWord (String.ofList read.reverse).toList := by
      rwa [String.toList_ofList]
    have hrest : ∀ d, (c :: cs).head? = some d → isDelimiter d = true := by
      rintro d ⟨⟩
      exact hc
    have h := splits_token hfront (.word hname hrest) (ih.cons_gap .nil)
    rw [Token.written, String.toList_ofList, ← List.append_assoc] at h
    rw [run, hstep]
    exact h
  · have hnil : AllWords [] := fun _ h => absurd h List.not_mem_nil
    have hstep : step [] c (word read) = ([], word (c :: read)) := if_neg hc
    have hworded : (word read).Worded := hread
    have hword : (step [] c (word read)).2.Worded := (step_allWords hnil hworded c).2
    have hjoin : front ++ read.reverse ++ [c] = front ++ (c :: read).reverse := by
      rw [List.append_assoc, List.reverse_cons]
    rw [hstep] at hword
    rw [run, hstep]
    exact ih.join (hjoin ▸ .word hfront hword)

theorem Splitting.cons_tilde (ih : Splitting cs) (hfront : Gap front) :
    Splits (run [] tilde (c :: cs)).reverse (front ++ ['~'] ++ c :: cs) := by
  rw [List.append_assoc]
  by_cases hc : c = '@'
  · subst hc
    exact splits_token hfront (t := .sigil .spliceUnquote) (.sigil nofun) (ih _ _ (.gap .nil))
  · have hstep : step [] c tilde = step [.sigil .unquote] c gap := if_neg hc
    have hrest : (c :: cs).head? ≠ some '@' := fun h => hc (Option.some.inj h)
    rw [run, hstep]
    exact splits_token hfront (t := .sigil .unquote) (.sigil fun _ => hrest) (ih.cons_gap .nil)

end Cons

/-- Every text is split by what is found in it. -/
theorem splitting (cs : List Char) : Splitting cs := by
  induction cs with
  | nil => exact splitting_nil
  | cons c cs ih =>
    intro s read h
    cases h with
    | gap hread => exact ih.cons_gap hread
    | comment hfront hbody => exact ih.cons_comment hfront hbody
    | text hfront hread => exact ih.cons_text hfront hread
    | word hfront hread => exact ih.cons_word hfront hread
    | tilde hfront => exact ih.cons_tilde hfront

end Scan

/-- A text splits into its tokens, and into no others. -/
theorem splits_iff_eq_tokenize {s : String} {ts : List Token} :
    Splits ts s.toList ↔ ts = tokenize s := by
  constructor
  · intro h
    rw [tokenize, Scan.run_splits h, List.append_nil, List.reverse_reverse]
  · rintro rfl
    exact Scan.splitting s.toList .gap [] (.gap .nil)

end Lisp
