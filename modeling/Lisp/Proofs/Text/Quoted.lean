import Lisp.Text.Quoted

/-!
# Spellings of texts

What it means that the inside of a string literal spells a text, without decoding it: a backslash
stands in front of a backslash, a quote or the `n` of a newline, and every other character stands
for itself. Decoding succeeds for the spellings and for nothing else.
-/

namespace Lisp.Quoted

/-- The inside of a string literal spells a text. -/
inductive Spells : List Char → List Char → Prop
  | nil : Spells [] []
  | plain {c : Char} {cs ds : List Char} : c ≠ '\\' → Spells cs ds → Spells (c :: cs) (c :: ds)
  | newline {cs ds : List Char} : Spells cs ds → Spells ('\\' :: 'n' :: cs) ('\n' :: ds)
  | backslash {cs ds : List Char} : Spells cs ds → Spells ('\\' :: '\\' :: cs) ('\\' :: ds)
  | quote {cs ds : List Char} : Spells cs ds → Spells ('\\' :: '\x22' :: cs) ('\x22' :: ds)

variable {cs ds out : List Char}

theorem Spells.decodeOnto (h : Spells cs ds) : decodeOnto out cs = .ok (out.reverse ++ ds) := by
  induction h generalizing out with
  | nil => simp [Quoted.decodeOnto]
  | @plain c cs ds hc _ ih =>
    rw [Quoted.decodeOnto, ih, List.reverse_cons, List.append_assoc]
    · rfl
    · exact fun h => absurd h hc
    · exact fun _ _ h => absurd h hc
  | newline _ ih | backslash _ ih | quote _ ih =>
    rw [Quoted.decodeOnto]
    simp only [escaped?, ih, List.reverse_cons, List.append_assoc, List.singleton_append]

theorem spells_of_decodeOnto (h : decodeOnto out cs = .ok ds) :
    ∃ es, ds = out.reverse ++ es ∧ Spells cs es := by
  fun_induction Quoted.decodeOnto out cs with
  | case1 out =>
    cases h
    exact ⟨[], (List.append_nil _).symm, .nil⟩
  | case2 => cases h
  | case3 out c cs d hd ih =>
    obtain ⟨es, rfl, hes⟩ := ih h
    refine ⟨d :: es, by simp, ?_⟩
    unfold escaped? at hd
    split at hd
    · cases hd
      exact .backslash hes
    · cases hd
      exact .newline hes
    · cases hd
      exact .quote hes
    · cases hd
  | case4 => cases h
  | case5 out c cs hend hescape ih =>
    obtain ⟨es, rfl, hes⟩ := ih h
    refine ⟨c :: es, by simp, .plain ?_ hes⟩
    rintro rfl
    cases cs with
    | nil => exact hend rfl rfl
    | cons d cs => exact hescape d cs rfl rfl

/-- Decoding the inside of a literal yields the text that it spells. -/
theorem decode_eq_ok_iff : decode cs = .ok ds ↔ Spells cs ds := by
  constructor
  · intro h
    obtain ⟨es, rfl, hes⟩ := spells_of_decodeOnto h
    exact hes
  · intro h
    exact h.decodeOnto

/-- A literal with its quotes yields the text that is spelled between them. -/
theorem read_eq_ok_iff {raw : String} :
    read raw = .ok ds ↔ ∃ body, raw.toList = '\x22' :: (body ++ ['\x22']) ∧ Spells body ds := by
  unfold read
  constructor
  · intro h
    split at h
    next body hbody =>
      refine ⟨body, ?_, decode_eq_ok_iff.mp h⟩
      unfold inside? at hbody
      split at hbody
      next cs hraw =>
        split at hbody
        next hlast =>
          obtain ⟨body', rfl⟩ := List.getLast?_eq_some_iff.mp hlast
          cases hbody
          rw [hraw, List.dropLast_concat]
        next => cases hbody
      next => cases hbody
    next => cases h
  · rintro ⟨body, hraw, hbody⟩
    have hinside : inside? raw.toList = some body := by
      rw [hraw, inside?, if_pos (by simp), List.dropLast_concat]
    rw [hinside]
    exact decode_eq_ok_iff.mpr hbody

/-- A text is spelled the way it is written. -/
theorem spells_encode (cs : List Char) : Spells (encode cs) cs :=
  decode_eq_ok_iff.mp (decode_encode cs)

end Lisp.Quoted
