import Mathlib.Data.List.DropRight
import Mathlib.Data.String.Basic
import Lisp.Proofs.Reader.Grammar
import Lisp.Proofs.Token.Partition

/-!
# Where string literals end

The scanner looks for the quote that closes a literal, and the reader decodes what it has cut off;
each of them follows the backslashes on its own. A third account of them settles that they agree: a
character is escaped if an odd number of backslashes stands right in front of it (`Escapes`).
Everything inside of a closed literal that is a quote is escaped (`Inside.escapes`), and where the
reader knows every escape, none is left over to escape the last quote (`EscapesKnown.not_escapes`).
Before it decodes, the reader slices a literal by bytes; what it admits to this can be sliced
(`Admitted.slice`).
-/

namespace Lisp

namespace Quoted

variable {cs ds before after body : List Char} {c : Char} {raw : String}

/-! ### Characters that are escaped -/

/-- A character behind these is escaped: an odd number of backslashes stands right in front of
it. -/
def Escapes (before : List Char) : Prop :=
  (before.rtakeWhile (· == '\\')).length % 2 = 1

theorem not_escapes_nil : ¬ Escapes [] := by
  simp [Escapes]

/-- A backslash escapes what is behind it unless it is escaped itself. -/
theorem escapes_concat : Escapes (before ++ [c]) ↔ c = '\\' ∧ ¬ Escapes before := by
  unfold Escapes
  by_cases hc : c = '\\'
  · rw [List.rtakeWhile_concat_pos _ _ _ (by simpa using hc), List.length_append,
      List.length_singleton, and_iff_right hc]
    omega
  · rw [List.rtakeWhile_concat_neg _ _ _ (by simpa using hc)]
    simp [hc]

/-- What a character does that is not escaped does not depend on what is in front of it. -/
theorem escapes_append (h : ¬ Escapes cs) : Escapes (cs ++ before) ↔ Escapes before := by
  induction before using List.reverseRecOn with
  | nil => simpa [not_escapes_nil] using h
  | append_singleton before c ih => rw [← List.append_assoc, escapes_concat, escapes_concat, ih]

theorem escapes_singleton : Escapes [c] ↔ c = '\\' := by
  have h : Escapes ([] ++ [c]) ↔ c = '\\' ∧ ¬ Escapes [] := escapes_concat
  rwa [List.nil_append, and_iff_left not_escapes_nil] at h

theorem escapes_backslash : Escapes ['\\'] :=
  escapes_singleton.mpr rfl

theorem escapes_cons (hc : c ≠ '\\') : Escapes (c :: before) ↔ Escapes before := by
  have hplain : ¬ Escapes [c] := mt escapes_singleton.mp hc
  exact escapes_append hplain

theorem escapes_escape : Escapes ('\\' :: c :: before) ↔ Escapes before := by
  have h : Escapes (['\\'] ++ [c]) ↔ c = '\\' ∧ ¬ Escapes ['\\'] := escapes_concat
  have hescape : ¬ Escapes ['\\', c] := fun hc => (h.mp hc).2 escapes_backslash
  exact escapes_append hescape

theorem Inside.not_escapes (h : Inside cs) : ¬ Escapes cs := by
  induction h with
  | nil => exact not_escapes_nil
  | plain hc _ _ ih => rwa [escapes_cons hc]
  | escape _ ih => rwa [escapes_escape]

/-- Every quote that stands inside of a literal is escaped. -/
theorem Inside.escapes (h : Inside cs) (hcs : cs = before ++ '\x22' :: after) :
    Escapes before := by
  induction h generalizing before with
  | nil => simp at hcs
  | plain hc hquote _ ih =>
    cases before with
    | nil =>
      cases hcs
      exact absurd rfl hquote
    | cons d before =>
      cases hcs
      exact (escapes_cons hc).mpr (ih rfl)
  | escape _ ih =>
    rcases before with _ | ⟨d, _ | ⟨d', before⟩⟩
    · cases hcs
    · cases hcs
      exact escapes_backslash
    · cases hcs
      exact escapes_escape.mpr (ih rfl)

/-! ### Escapes that are known -/

/-- Every backslash that is not escaped stands in front of a backslash, an `n` or a quote. -/
def EscapesKnown (body : List Char) : Prop :=
  ∀ before after, body = before ++ '\\' :: after → ¬ Escapes before →
    ∃ c rest, after = c :: rest ∧ c ∈ ['\\', 'n', '\x22']

theorem escapesKnown_nil : EscapesKnown [] := by
  intro before after h
  simp at h

theorem not_escapesKnown_backslash : ¬ EscapesKnown ['\\'] := by
  intro h
  obtain ⟨c, rest, hrest, -⟩ := h [] [] rfl not_escapes_nil
  cases hrest

theorem escapesKnown_cons (hc : c ≠ '\\') : EscapesKnown (c :: cs) ↔ EscapesKnown cs := by
  constructor
  · rintro h before after rfl hbefore
    exact h (c :: before) after rfl (mt (escapes_cons hc).mp hbefore)
  · intro h before after hcs hbefore
    cases before with
    | nil =>
      cases hcs
      exact absurd rfl hc
    | cons d before =>
      cases hcs
      exact h before after rfl (mt (escapes_cons hc).mpr hbefore)

theorem escapesKnown_escape :
    EscapesKnown ('\\' :: c :: cs) ↔ c ∈ ['\\', 'n', '\x22'] ∧ EscapesKnown cs := by
  constructor
  · intro h
    obtain ⟨d, rest, hrest, hd⟩ := h [] (c :: cs) rfl not_escapes_nil
    cases hrest
    refine ⟨hd, ?_⟩
    rintro before after rfl hbefore
    exact h ('\\' :: c :: before) after rfl (mt escapes_escape.mp hbefore)
  · rintro ⟨hc, h⟩ before after hcs hbefore
    rcases before with _ | ⟨d, _ | ⟨d', before⟩⟩
    · cases hcs
      exact ⟨c, cs, rfl, hc⟩
    · cases hcs
      exact absurd escapes_backslash hbefore
    · cases hcs
      exact h before after rfl (mt escapes_escape.mpr hbefore)

theorem escaped?_isSome_iff : (escaped? c).isSome = true ↔ c ∈ ['\\', 'n', '\x22'] := by
  unfold escaped?
  split <;> simp_all

/-- Decoding fails only for an escape that is not known. -/
theorem exists_decodeOnto_iff (out : List Char) :
    (∃ ds, decodeOnto out body = .ok ds) ↔ EscapesKnown body := by
  fun_induction decodeOnto out body with
  | case1 out => exact iff_of_true ⟨_, rfl⟩ escapesKnown_nil
  | case2 out =>
    refine iff_of_false ?_ not_escapesKnown_backslash
    rintro ⟨_, h⟩
    cases h
  | case3 out c cs d hd ih =>
    have hc : c ∈ ['\\', 'n', '\x22'] := escaped?_isSome_iff.mp (by rw [hd]; rfl)
    rw [ih, escapesKnown_escape, and_iff_right hc]
  | case4 out c cs hd =>
    refine iff_of_false ?_ fun h => ?_
    · rintro ⟨_, h⟩
      cases h
    · have hc := escaped?_isSome_iff.mpr (escapesKnown_escape.mp h).1
      rw [hd] at hc
      cases hc
  | case5 out c cs hend hescape ih =>
    have hc : c ≠ '\\' := by
      rintro rfl
      cases cs with
      | nil => exact hend rfl rfl
      | cons d cs => exact hescape d cs rfl rfl
    rw [ih, escapesKnown_cons hc]

/-- An escape that is known takes the character behind it along, so no backslash is left over. -/
theorem EscapesKnown.not_escapes (h : EscapesKnown body) : ¬ Escapes body := by
  intro hbody
  induction body using List.reverseRecOn with
  | nil => exact not_escapes_nil hbody
  | append_singleton before c _ =>
    obtain ⟨rfl, hbefore⟩ := escapes_concat.mp hbody
    obtain ⟨c, rest, hrest, -⟩ := h before [] rfl hbefore
    cases hrest

/-- A literal ends with a quote that is not escaped if it is closed, and not if it is not. -/
theorem Unclosed.escapes (h : Unclosed raw) (hraw : raw.toList = '\x22' :: (body ++ ['\x22'])) :
    Escapes body := by
  obtain ⟨inside, hinside, hopen | hopen⟩ := h
  · rw [hraw, List.cons.injEq] at hopen
    exact hinside.escapes hopen.2.symm
  · rw [hraw, List.cons.injEq] at hopen
    have hlast := (List.append_inj' hopen.2 rfl).2
    cases hlast

/-! ### Slices -/

/-- The text may be sliced between its first and its last byte: both are characters of their
own. -/
structure Sliceable (raw : String) : Prop where
  ordered : 1 ≤ raw.utf8ByteSize - 1
  first : String.Pos.Raw.IsValid raw ⟨1⟩
  last : String.Pos.Raw.IsValid raw ⟨raw.utf8ByteSize - 1⟩

/-- What is between the first and the last byte of a text. -/
def slice (raw : String) : String :=
  String.Pos.Raw.extract raw ⟨1⟩ ⟨raw.utf8ByteSize - 1⟩

/-- What is asked of a literal before it is sliced: that it has two bytes and ends with a
quote. -/
def Admitted (raw : String) : Prop :=
  2 ≤ raw.utf8ByteSize ∧ raw.toList.getLast? = some '\x22'

/-- A literal with both quotes, as a text. -/
theorem eq_quoted (hraw : raw.toList = '\x22' :: (body ++ ['\x22'])) :
    raw = "\x22" ++ String.ofList body ++ "\x22" := by
  apply String.toList_injective
  simp [hraw]

theorem utf8ByteSize_quoted (t : String) :
    ("\x22" ++ t ++ "\x22").utf8ByteSize = 1 + t.utf8ByteSize + 1 := by
  rw [String.utf8ByteSize_append, String.utf8ByteSize_append]
  rfl

/-- A literal with both quotes is admitted. -/
theorem admitted_quoted (t : String) : Admitted ("\x22" ++ t ++ "\x22") := by
  constructor
  · rw [utf8ByteSize_quoted]
    omega
  · exact List.getLast?_eq_some_iff.mpr ⟨'\x22' :: t.toList, by simp⟩

/-- What is admitted has both quotes if it begins with one. -/
theorem Admitted.exists_body (h : Admitted raw) (hhead : raw.toList.head? = some '\x22') :
    ∃ body, raw.toList = '\x22' :: (body ++ ['\x22']) := by
  obtain ⟨hsize, hlast⟩ := h
  obtain ⟨front, hfront⟩ := List.getLast?_eq_some_iff.mp hlast
  cases front with
  | nil =>
    have hraw : raw = "\x22" := String.toList_injective hfront
    subst hraw
    exact absurd hsize (by decide)
  | cons c body =>
    rw [hfront] at hhead
    cases hhead
    exact ⟨body, hfront⟩

theorem sliceable_quoted (t : String) : Sliceable ("\x22" ++ t ++ "\x22") where
  ordered := by
    rw [utf8ByteSize_quoted]
    omega
  first := String.Pos.Raw.isValid_iff_exists_append.mpr
    ⟨"\x22", t ++ "\x22", String.append_assoc, rfl⟩
  last := by
    refine String.Pos.Raw.isValid_iff_exists_append.mpr ⟨"\x22" ++ t, "\x22", rfl, ?_⟩
    rw [utf8ByteSize_quoted]
    apply String.Pos.Raw.ext
    rw [String.byteIdx_rawEndPos, String.utf8ByteSize_append]
    rfl

/-- The slice of a literal is what is between its quotes. -/
theorem slice_quoted (t : String) : slice ("\x22" ++ t ++ "\x22") = t := by
  have h := String.extract_of_valid ['\x22'] t.toList ['\x22']
  have hquote : String.utf8Len ['\x22'] = 1 := rfl
  have hlen : String.utf8Len t.toList = t.utf8ByteSize := by
    rw [← String.utf8ByteSize_ofList, String.ofList_toList]
  rw [hquote, hlen, String.ofList_append, String.ofList_append, String.ofList_toList] at h
  rw [slice, utf8ByteSize_quoted]
  exact h

theorem Admitted.slice (h : Admitted raw) (hhead : raw.toList.head? = some '\x22') :
    Sliceable raw ∧ inside? raw.toList = some (slice raw).toList := by
  obtain ⟨body, hraw⟩ := h.exists_body hhead
  have hinside : inside? raw.toList = some body := by
    rw [hraw, inside?, if_pos (by simp), List.dropLast_concat]
  rw [hinside, eq_quoted hraw, slice_quoted, String.toList_ofList]
  exact ⟨sliceable_quoted _, rfl⟩

/-- What is not admitted lacks its second quote. -/
theorem read_of_not_admitted (h : ¬ Admitted raw) : read raw = .error .unterminatedText := by
  cases hinside : inside? raw.toList with
  | none => rw [read, hinside]
  | some body =>
    unfold inside? at hinside
    split at hinside
    next cs hraw =>
      split at hinside
      next hlast =>
        obtain ⟨front, rfl⟩ := List.getLast?_eq_some_iff.mp hlast
        rw [eq_quoted hraw] at h
        exact absurd (admitted_quoted _) h
      next => cases hinside
    next => cases hinside

/-! ### Where a literal ends -/

/-- The characters stand between the quotes of a literal, and the second quote is not escaped. -/
structure Delimits (body : List Char) (raw : String) : Prop where
  quotes : raw.toList = '\x22' :: (body ++ ['\x22'])
  ends : ¬ Escapes body

theorem Closed.delimits (h : Closed raw) : ∃ body, Delimits body raw := by
  obtain ⟨body, hraw, hbody⟩ := h
  exact ⟨body, hraw, hbody.not_escapes⟩

theorem Unclosed.not_delimits (h : Unclosed raw) : ¬ Delimits body raw :=
  fun hbody => hbody.ends (h.escapes hbody.quotes)

theorem closed_or_unclosed_of_splits {ts : List Token} (h : Splits ts cs) (ht : .text raw ∈ ts) :
    Closed raw ∨ Unclosed raw := by
  induction h with
  | last => cases ht
  | token _ hstands _ ih =>
    rcases List.mem_cons.mp ht with rfl | ht
    · cases hstands with
      | closed h => exact .inl h
      | unclosed h => exact .inr h
    · exact ih ht

/-- A literal that a text is cut into has its second quote or lacks it. -/
theorem closed_or_unclosed {s : String} (h : .text raw ∈ tokenize s) :
    Closed raw ∨ Unclosed raw :=
  closed_or_unclosed_of_splits (Scan.splitting s.toList .gap [] (.gap .nil)) h

theorem head?_of_closed_or_unclosed (h : Closed raw ∨ Unclosed raw) :
    raw.toList.head? = some '\x22' := by
  rcases h with ⟨body, hraw, -⟩ | ⟨body, -, hraw | hraw⟩
  all_goals rw [hraw, List.head?_cons]

/-- A literal is read if its escapes are known and what it stands for does not begin like a
keyword. -/
theorem exists_text_iff :
    (∃ v, Reader.text raw = .ok v) ↔ ∃ body, Delimits body raw ∧ EscapesKnown body ∧
      ∀ cs, decode body = .ok cs → cs.head? ≠ some keywordMark := by
  constructor
  · rintro ⟨v, hv⟩
    obtain ⟨body, cs, hraw, hbody, hmark, -⟩ := Reader.text_eq_ok_iff.mp hv
    have hdecode : decode body = .ok cs := decode_eq_ok_iff.mpr hbody
    have hknown : EscapesKnown body := (exists_decodeOnto_iff []).mp ⟨cs, hdecode⟩
    refine ⟨body, ⟨hraw, hknown.not_escapes⟩, hknown, fun ds hds => ?_⟩
    rw [hdecode] at hds
    cases hds
    exact hmark
  · rintro ⟨body, hbody, hknown, hmark⟩
    obtain ⟨cs, hcs⟩ := (exists_decodeOnto_iff []).mpr hknown
    exact ⟨_, Reader.text_eq_ok_iff.mpr
      ⟨body, cs, hbody.quotes, decode_eq_ok_iff.mp hcs, hmark cs hcs, rfl⟩⟩

/-! ### Literals that are written -/

/-- How a text is written as a literal. -/
def literal (t : String) : String :=
  "\x22" ++ String.ofList (encode t.toList) ++ "\x22"

theorem toList_literal (t : String) :
    (literal t).toList = '\x22' :: (encode t.toList ++ ['\x22']) := by
  simp [literal]

theorem closed_literal (t : String) : Closed (literal t) :=
  ⟨_, toList_literal t, Scan.inside_encode _⟩

/-- A literal that is written is cut off where it ends, whatever stands behind it. -/
theorem tokenize_literal (t rest : String) :
    tokenize (literal t ++ rest) = .text (literal t) :: tokenize rest :=
  tokenize_append (Scan.after_closed (closed_literal t) [])

/-- A text that does not begin like a keyword is what its literal stands for. -/
theorem text_literal {t : String} (ht : t.toList.head? ≠ some keywordMark) :
    Reader.text (literal t) = .ok (.text t) :=
  Reader.text_eq_ok_iff.mpr
    ⟨_, t.toList, toList_literal t, spells_encode _, ht, by rw [String.ofList_toList]⟩

/-- What a literal stands for is written as a literal that stands for the same. -/
theorem text_literal_of_text {v : Value} (h : Reader.text raw = .ok v) :
    ∃ t, v = .text t ∧ Reader.text (literal t) = .ok (.text t) := by
  obtain ⟨_, cs, -, -, hmark, rfl⟩ := Reader.text_eq_ok_iff.mp h
  refine ⟨String.ofList cs, rfl, text_literal ?_⟩
  rwa [String.toList_ofList]

end Quoted

open Quoted

/-- The scanner and the reader agree on where a string literal ends. A literal that a text is cut
into is closed exactly if it ends with a quote that is not escaped, and it is read exactly if
besides all of its escapes are known and what it stands for does not begin like a keyword. One that
is not closed is never read: either it is refused before it is sliced, or the slice is safe and is
what lies between the quotes. The other way round, the literal of a text is cut off where it ends,
whatever stands behind it, and stands for that text; so a text that has been read is written and
read again without a change. -/
theorem literals_agree :
    (∀ s raw, .text raw ∈ tokenize s →
      (Closed raw ↔ ∃ body, Delimits body raw) ∧
      ((∃ v, Reader.text raw = .ok v) ↔ ∃ body, Delimits body raw ∧ EscapesKnown body ∧
        ∀ cs, decode body = .ok cs → cs.head? ≠ some keywordMark) ∧
      (¬ Closed raw → Unclosed raw ∧ ∃ cause, Reader.text raw = .error (.malformed cause)) ∧
      (Admitted raw → Sliceable raw ∧ inside? raw.toList = some (slice raw).toList) ∧
      (¬ Admitted raw → Reader.text raw = .error (.malformed .unterminatedText)) ∧
      (∀ v, Reader.text raw = .ok v →
        ∃ t, v = .text t ∧ Reader.text (literal t) = .ok (.text t))) ∧
    (∀ t rest, tokenize (literal t ++ rest) = .text (literal t) :: tokenize rest ∧
      (t.toList.head? ≠ some keywordMark → Reader.text (literal t) = .ok (.text t))) := by
  refine ⟨fun s raw h => ?_, fun t rest => ⟨tokenize_literal t rest, text_literal⟩⟩
  have hends : Closed raw ∨ Unclosed raw := closed_or_unclosed h
  have hclosed : Closed raw ↔ ∃ body, Delimits body raw :=
    ⟨Closed.delimits, fun ⟨_, hbody⟩ => hends.resolve_right fun hopen => hopen.not_delimits hbody⟩
  refine ⟨hclosed, exists_text_iff, fun hopen => ⟨hends.resolve_left hopen, ?_⟩,
    fun hadmitted => hadmitted.slice (head?_of_closed_or_unclosed hends), fun hrefused => ?_,
    fun v => text_literal_of_text⟩
  · cases hread : Reader.text raw with
    | error e =>
      obtain ⟨cause, rfl⟩ := Reader.text_error hread
      exact ⟨cause, rfl⟩
    | ok v =>
      obtain ⟨body, hbody, -⟩ := exists_text_iff.mp ⟨v, hread⟩
      exact absurd (hclosed.mpr ⟨body, hbody⟩) hopen
  · rw [Reader.text, read_of_not_admitted hrefused]

/-- Two backslashes in front of a quote let it close the literal, and one does not: the second
literal is sliced in front of its last quote and then refused. -/
theorem literals_agree_backslashes :
    let s := "\"a\\\\\" \"é\\\""
    tokenize s = [.text "\"a\\\\\"", .text "\"é\\\""] ∧
      (∃ v, Reader.text "\"a\\\\\"" = .ok v) ∧
      Sliceable "\"é\\\"" ∧ ∃ cause, Reader.text "\"é\\\"" = .error (.malformed cause) := by
  intro s
  have htokens : tokenize s = [.text "\"a\\\\\"", .text "\"é\\\""] := by decide
  obtain ⟨-, hread, -⟩ := literals_agree.1 s "\"a\\\\\"" (htokens ▸ by simp)
  obtain ⟨hclosed, -, hopen, hslice, -⟩ := literals_agree.1 s "\"é\\\"" (htokens ▸ by simp)
  refine ⟨htokens, hread.mpr ⟨['a', '\\', '\\'], ⟨rfl, ?_⟩, ?_, ?_⟩, (hslice ?_).1, (hopen ?_).2⟩
  · rw [escapes_cons (by decide), escapes_escape]
    exact not_escapes_nil
  · rw [escapesKnown_cons (by decide), escapesKnown_escape]
    exact ⟨.head _, escapesKnown_nil⟩
  · rintro _ ⟨⟩
    decide
  · exact ⟨by decide, by decide⟩
  · rintro h
    obtain ⟨body, hquotes, hends⟩ := hclosed.mp h
    have hbody : body = ['é', '\\'] := List.append_cancel_right (List.cons.inj hquotes).2.symm
    rw [hbody, escapes_cons (by decide)] at hends
    exact hends escapes_backslash

end Lisp
