import Lisp.Proofs.Reader.Inside
import Lisp.Proofs.Token.Lines

/-!
# Reading a text as the operands of `do`

A text can be read as a single form by writing it between `(do ` and a last line `nil)`. The line
keeps a comment at the end of the text from hiding the bracket. What the brackets enclose is then
either the whole text and the `nil` behind it, or the part of the text in front of a round bracket
that closes too early. In the second case nothing behind that bracket is looked at.
-/

namespace Lisp

variable {limit depth : Nat} {text : String} {fs : List Value}

/-- The forms that a text is read as between `(do ` and a last line `nil)`. -/
def ReadsInside (limit depth : Nat) (text : String) (fs : List Value) : Prop :=
  readAll limit depth (text ++ "\nnil") = .ok fs ∨
    ∃ ts ts', tokenize text = ts ++ .closing .round :: ts' ∧
      Reader.forms limit (limit - depth) [] (limit - depth) [] ts = .ok fs

/-- A token in front of the last one, if it is another one, has that last one behind it. -/
theorem eq_append_of_ne_last {ts us us' : List Token} {t u : Token} (hne : u ≠ t)
    (h : ts ++ [t] = us ++ u :: us') : ∃ vs, us' = vs ++ [t] ∧ ts = us ++ u :: vs := by
  rcases us'.eq_nil_or_concat with rfl | ⟨vs, v, rfl⟩
  · obtain ⟨-, hlast⟩ := List.append_inj' h rfl
    exact absurd (List.singleton_inj.mp hlast).symm hne
  · rw [List.concat_eq_append, ← List.cons_append, ← List.append_assoc] at h
    obtain ⟨hts, hlast⟩ := List.append_inj' h rfl
    exact ⟨vs, by rw [List.concat_eq_append, List.singleton_inj.mp hlast], hts⟩

/-- What the brackets around a text enclose ends at the first bracket that closes them. -/
theorem readsInside_iff :
    ReadsInside limit depth text fs ↔ ∃ rest,
      Reader.ReadsUpTo limit (limit - depth) [] (limit - depth) [] (tokenize (text ++ "\nnil)"))
        rest fs := by
  by_cases htext : ClosesTexts text
  · have hline (line : String) :
        tokenize (text ++ ("\n" ++ line)) = tokenize text ++ tokenize line := by
      rw [← String.append_assoc]
      exact tokenize_append_newline htext line
    have hclosed : tokenize (text ++ "\nnil)") = tokenize text ++ [.word "nil", .closing .round] :=
      hline "nil)"
    have hopen : tokenize (text ++ "\nnil") = tokenize text ++ [.word "nil"] := hline "nil"
    rw [ReadsInside, readAll, hopen, hclosed]
    constructor
    · rintro (hfs | ⟨ts, ts', hts, hfs⟩)
      · exact ⟨[], _, by simp, hfs⟩
      · exact ⟨ts' ++ [.word "nil", .closing .round], ts, by simp [hts], hfs⟩
    · rintro ⟨rest, ts, hts, hfs⟩
      rcases List.append_eq_append_iff.mp hts with ⟨ts', rfl, hts'⟩ | ⟨ts', hts', hrest⟩
      · -- The tokens in front of the bracket are those of the text and some of the last line.
        rcases ts' with _ | ⟨t, _ | ⟨t', ts'⟩⟩
        · cases hts'
        · cases hts'
          exact .inl hfs
        · simp at hts'
      · cases ts' with
        | nil => cases hrest
        | cons t ts' =>
          cases hrest
          exact .inr ⟨ts, ts', hts', hfs⟩
  · obtain ⟨ts, raw, raw', htokens, hclosed, hraw, hraw'⟩ :=
      tokenize_append_of_open htext (show '\x22' ∉ "\nnil)".toList by decide)
    obtain ⟨us, -, raw'', -, hopen, -, hraw''⟩ :=
      tokenize_append_of_open htext (show '\x22' ∉ "\nnil".toList by decide)
    rw [ReadsInside, readAll, htokens, hclosed, hopen]
    constructor
    · rintro (hfs | ⟨vs, vs', hvs, hfs⟩)
      · exact absurd hfs (Reader.forms_of_unreadable hraw'' (by simp) fs)
      · obtain ⟨vs'', -, rfl⟩ := eq_append_of_ne_last Token.noConfusion hvs
        exact ⟨vs'' ++ [.text raw'], vs, by simp, hfs⟩
    · rintro ⟨vs', vs, hvs, hfs⟩
      obtain ⟨vs'', -, rfl⟩ := eq_append_of_ne_last Token.noConfusion hvs
      exact .inr ⟨vs, vs'' ++ [.text raw], by simp, hfs⟩

/-- A list that begins with `do` is read up to the bracket that closes it. -/
theorem form_do {us : List Token} {v : Value} {rest : List Token} :
    Reader.form limit (limit - depth) [] (.opening .round :: .word "do" :: us) = .ok (v, rest) ↔
      depth + 2 ≤ limit ∧ ∃ fs,
        Reader.ReadsUpTo limit (limit - (depth + 1)) [] (limit - (depth + 1)) [] us rest fs ∧
          v = .list (.symbol "do" :: fs) := by
  rcases hroom : limit - depth with _ | _ | room
  · constructor
    · intro h
      cases h
    · rintro ⟨h, -⟩
      omega
  · constructor
    · intro h
      cases h
    · rintro ⟨h, -⟩
      omega
  · have hle : depth + 2 ≤ limit := by omega
    have htop : limit - (depth + 1) = room + 1 := by omega
    have hdo : Reader.form limit (room + 2) [] (.opening .round :: .word "do" :: us) =
        Reader.form limit (room + 1) ([] ++ [.bracket .round ([] ++ [.symbol "do"])]) us := rfl
    rw [and_iff_right hle, htop, hdo]
    exact Reader.form_inside rfl

/-- What stands in front of the text begins a list with `do`. -/
theorem tokenize_do (text : String) :
    tokenize ("(do " ++ text ++ "
nil)") =
      .opening .round :: .word "do" :: tokenize (text ++ "
nil)") := by
  have hopening : Scan.after [] .gap "(do ".toList = ([.word "do", .opening .round], .gap) := by
    decide
  rw [String.append_assoc]
  exact tokenize_append hopening

/-- Reading the operands of `do` from a text: the forms are there if they can be read inside. -/
theorem readFirst_do {v : Value} :
    readFirst limit depth ("(do " ++ text ++ "\nnil)") = .ok v ↔
      depth + 2 ≤ limit ∧ ∃ fs, ReadsInside limit (depth + 1) text fs ∧
        v = .list (.symbol "do" :: fs) := by
  have hread : readFirst limit depth ("(do " ++ text ++ "\nnil)") =
      Prod.fst <$> Reader.form limit (limit - depth) []
        (.opening .round :: .word "do" :: tokenize (text ++ "\nnil)")) := by
    rw [readFirst, tokenize_do]
  rw [hread]
  constructor
  · intro h
    rcases hform : Reader.form limit (limit - depth) []
        (.opening .round :: .word "do" :: tokenize (text ++ "\nnil)")) with e | ⟨v', rest⟩
    · rw [hform] at h
      cases h
    · rw [hform] at h
      cases h
      obtain ⟨hle, fs, hfs, rfl⟩ := form_do.mp hform
      exact ⟨hle, fs, readsInside_iff.mpr ⟨rest, hfs⟩, rfl⟩
  · rintro ⟨hle, fs, hfs, rfl⟩
    obtain ⟨rest, hfs⟩ := readsInside_iff.mp hfs
    exact congrArg (Prod.fst <$> ·) (form_do.mpr ⟨hle, fs, hfs, rfl⟩)

end Lisp
