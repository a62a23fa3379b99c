import Lisp.Proofs.Reader.Grammar
import Lisp.Proofs.Token.Written
import Lisp.Proofs.Value.Rendering
import Lisp.Proofs.Value.Untagged

/-!
# Reading what was written

Values without functions and atoms in them whose names keep to the rules of words are written so
that they can be read back: `readFirst_render` says that the reader yields the value itself, without
its metadata, if there are as many levels as the value is nested. The text is cut into tokens that
spell the value, by induction over the value; a part of a value is followed by a blank or a bracket.
-/

namespace Lisp

namespace Scan

theorem isDelimiter_of_isDigit {c : Char} (h : c.isDigit = true) : isDelimiter c = false := by
  obtain ⟨hlow, hhigh⟩ := Char.isDigit_iff_toNat.mp h
  have hlow : 48 ≤ c.toNat := hlow
  have hhigh : c.toNat ≤ 57 := hhigh
  have hne {d : Char} (hd : d.toNat < 48 ∨ 57 < d.toNat) : c ≠ d := by
    rintro rfl
    omega
  have hblank : isBlank c = false := by
    simp only [isBlank, Bool.or_eq_false_iff, Bool.and_eq_false_iff, beq_eq_false_iff_ne,
      decide_eq_false_iff_not]
    omega
  simp [isDelimiter, isSeparator, hblank, hne]

theorem isWord_cons {c : Char} {cs : List Char} (hc : isDelimiter c = false)
    (hmark : c ∉ ['~', '^', '@']) (hcs : ∀ d ∈ cs, isDelimiter d = false) : IsWord (c :: cs) where
  ne_nil := List.cons_ne_nil c cs
  plain := List.forall_mem_cons.mpr ⟨hc, hcs⟩
  head d hd := by
    cases hd
    exact hmark

/-- Whether a text has no delimiters can be computed. -/
theorem plain_of_all {cs : List Char} (h : (cs.all fun c => !isDelimiter c) = true) :
    ∀ c ∈ cs, isDelimiter c = false := by
  simpa using h

theorem isWord_constant {name : String} (h : name ∈ ["true", "false", "nil"]) :
    IsWord name.toList := by
  simp only [List.mem_cons, List.not_mem_nil, or_false] at h
  rcases h with rfl | rfl | rfl <;>
  · exact isWord_cons (by decide) (by decide) (plain_of_all (by decide))

/-- A numeral is a word. -/
theorem isWord_of_numeral {cs : List Char} {n : Int} (h : Decimal.Numeral cs n) : IsWord cs where
  ne_nil := h.ne_nil
  plain c hc := by
    rcases h.mem hc with hdigit | rfl
    · exact isDelimiter_of_isDigit hdigit
    · decide
  head c hc := by
    have hmarks : ∀ d ∈ ['~', '^', '@'], d.isDigit = false := by simp
    intro hmark
    rcases h.mem (List.mem_of_mem_head? hc) with hdigit | rfl
    · rw [hmarks c hmark] at hdigit
      cases hdigit
    · exact absurd hmark (by decide)

/-- `f` puts a text behind its argument that is cut into the tokens `us`. -/
def Puts (f : String → String) (us : List Token) : Prop :=
  ∃ cs, Cuts cs us ∧ ∀ out, (f out).toList = out.toList ++ cs

section Puts

variable {f g : String → String} {us vs : List Token}

theorem puts_nil : Puts (fun out => out) [] :=
  ⟨[], cuts_nil, fun _ => (List.append_nil _).symm⟩

theorem puts_append {cs : List Char} (h : Cuts cs us) :
    Puts (fun out => out ++ String.ofList cs) us :=
  ⟨cs, h, fun _ => by rw [String.toList_append, String.toList_ofList]⟩

theorem puts_word {name : String} (h : IsWord name.toList) :
    Puts (fun out => out ++ name) [.word name] := by
  have hputs := puts_append h.cuts
  rwa [String.ofList_toList] at hputs

theorem Puts.blank (hf : Puts f us) (hg : Puts g vs) :
    Puts (fun out => g ((f out).push ' ')) (us ++ vs) := by
  obtain ⟨cs, hcuts, hcs⟩ := hf
  obtain ⟨ds, hcuts', hds⟩ := hg
  refine ⟨cs ++ ' ' :: ds, hcuts.blank hcuts', fun out => ?_⟩
  rw [hds, String.toList_push, hcs]
  simp only [List.append_assoc, List.singleton_append]

theorem Puts.bracket (hf : Puts f us) (b : Bracket) :
    Puts (fun out => (f (out.push b.opener)).push b.closer)
      (.opening b :: (us ++ [.closing b])) := by
  obtain ⟨cs, hcuts, hcs⟩ := hf
  refine ⟨_, hcuts.bracket b, fun out => ?_⟩
  rw [String.toList_push, hcs, String.toList_push, List.append_assoc, List.append_assoc]
  rfl

end Puts

end Scan

namespace Value

open Reader Scan

/-- A value that can be written and read back. -/
inductive Printable : Value → Prop
  | nil : Printable .nil
  | bool (b : Bool) : Printable (.bool b)
  | int (n : Int64) : Printable (.int n)
  | string {s : String} : isKeyword s = false → Printable (.text s)
  | keyword {name : String} : isKeyword name = false →
      (∀ c ∈ name.toList, isDelimiter c = false) → Printable (.keyword name)
  | symbol {name : String} : name ≠ "" → (∀ c ∈ name.toList, isDelimiter c = false) →
      (∀ c, name.toList.head? = some c → c ∉ [':', '~', '^', '@']) →
        (∀ n, ¬ Decimal.Numeral name.toList n) → name ∉ ["true", "false", "nil"] →
          Printable (.symbol name)
  | seq {kind : SeqKind} {items : List Value} {tag : Value} : (∀ v ∈ items, Printable v) →
      Printable (.seq kind items tag)
  | map {entries : Dict} {tag : Value} : entries.Distinct → (∀ e ∈ entries, Printable e.1) →
      (∀ e ∈ entries, Printable e.2) → Printable (.map entries tag)

mutual

/-- How deep a value is nested, with one level for what has no parts. -/
def nesting : Value → Nat
  | .seq _ items _ => nestingItems items + 1
  | .map entries _ => nestingEntries entries + 1
  | _ => 1

/-- How deep the deepest of some values is nested. -/
def nestingItems : List Value → Nat
  | [] => 0
  | v :: vs => max (nesting v) (nestingItems vs)

/-- How deep the deepest of some keys and values is nested. -/
def nestingEntries : List (Value × Value) → Nat
  | [] => 0
  | (k, v) :: es => max (nesting k) (max (nesting v) (nestingEntries es))

end

/-- A value is written as tokens that spell it without its metadata. -/
def WritesForm (cell : CellId → String) (v : Value) : Prop :=
  ∃ us, Puts (fun out => v.renderOnto .readable cell out) us ∧ Derives v.nesting us v.untagged

variable {cell : CellId → String}

theorem writesForm_word {v : Value} (name : String) (hname : IsWord name.toList)
    (hrender : ∀ out, v.renderOnto .readable cell out = out ++ name) (hnesting : v.nesting = 1)
    (hword : Word name v.untagged) : WritesForm cell v := by
  refine ⟨[.word name], ?_, hnesting ▸ .word hword⟩
  simp only [hrender]
  exact puts_word hname

theorem writesForm_items {items : List Value} (h : ∀ v ∈ items, WritesForm cell v) :
    ∃ us, Puts (fun out => renderItems .readable cell out items) us ∧
      DerivesAll (nestingItems items) us (untaggedItems items) := by
  induction items with
  | nil => exact ⟨[], puts_nil, .nil⟩
  | cons v vs ih =>
    rw [List.forall_mem_cons] at h
    obtain ⟨⟨us, hputs, hv⟩, hvs⟩ := h
    obtain ⟨us', hputs', hvs⟩ := ih hvs
    cases vs with
    | nil =>
      refine ⟨us, hputs, ?_⟩
      have hcons := DerivesAll.cons hv .nil
      rwa [List.append_nil] at hcons
    | cons w vs => exact ⟨us ++ us', hputs.blank hputs', .cons hv hvs⟩

theorem writesForm_entries {entries : Dict}
    (h : ∀ e ∈ entries, WritesForm cell e.1 ∧ WritesForm cell e.2) :
    ∃ us, Puts (fun out => renderEntries .readable cell out entries) us ∧
      DerivesAll (nestingEntries entries) us (Dict.toValues (untaggedEntries entries)) := by
  induction entries with
  | nil => exact ⟨[], puts_nil, .nil⟩
  | cons e es ih =>
    rw [List.forall_mem_cons] at h
    obtain ⟨⟨⟨us, hputs, hk⟩, us', hputs', hv⟩, hes⟩ := h
    obtain ⟨us'', hputs'', hes⟩ := ih hes
    cases es with
    | nil =>
      refine ⟨us ++ us', hputs.blank hputs', ?_⟩
      have hcons := DerivesAll.cons hk (.cons hv .nil)
      rwa [List.append_nil] at hcons
    | cons e' es =>
      refine ⟨us ++ (us' ++ us''), hputs.blank (hputs'.blank hputs''), ?_⟩
      exact .cons hk (.cons hv hes)

theorem renderText_string {s : String} (h : isKeyword s = false) :
    renderText .readable s =
      String.ofList ('\x22' :: (Quoted.encode s.toList ++ ['\x22'])) := by
  simp only [renderText, keywordName?_eq_none_iff.mpr h]
  rw [← String.toList_inj]
  simp

theorem renderText_keyword (style : Style) (name : String) :
    renderText style (keywordMark.toString ++ name) = ":" ++ name := by
  simp only [renderText, keywordName?_marked]

/-- A printable value is written as tokens that spell it. -/
theorem Printable.writesForm (cell : CellId → String) {v : Value} (h : v.Printable) :
    WritesForm cell v := by
  induction h with
  | nil => exact writesForm_word "nil" (isWord_constant (by decide)) (fun _ => rfl) rfl .nil
  | bool b =>
    cases b with
    | true => exact writesForm_word "true" (isWord_constant (by decide)) (fun _ => rfl) rfl .true
    | false =>
      exact writesForm_word "false" (isWord_constant (by decide)) (fun _ => rfl) rfl .false
  | int n =>
    have hnumeral := Decimal.numeral_written n.toInt
    exact writesForm_word _ (isWord_of_numeral hnumeral) (fun _ => rfl) rfl (.int hnumeral)
  | @string s hs =>
    have hmark : s.toList.head? ≠ some keywordMark := fun h => by simp [isKeyword, h] at hs
    have hform := Derives.text String.toList_ofList (Quoted.spells_encode s.toList) hmark
    rw [String.ofList_toList] at hform
    refine ⟨_, ?_, hform⟩
    simp only [renderOnto, renderText_string hs]
    exact puts_append (cuts_quoted s.toList)
  | @keyword name hname hplain =>
    have hkeyword : Value.keyword name = .text (keywordMark.toString ++ name) := by
      rw [Value.keyword, hname]
      rfl
    have hword : IsWord (":" ++ name).toList := by
      simp only [String.toList_append]
      exact isWord_cons (by decide) (by decide) hplain
    refine writesForm_word _ hword (fun out => ?_) ?_ ?_
    · rw [hkeyword, renderOnto, renderText_keyword]
    · rw [hkeyword, nesting] <;> simp
    · rw [hkeyword, untagged, ← hkeyword]
      · exact .keyword name
      all_goals simp
  | @symbol name hne hplain hhead hnumeral hname =>
    refine writesForm_word name ⟨?_, hplain, fun c hc hmark => ?_⟩ (fun _ => rfl) rfl ?_
    · exact fun h => hne (String.toList_eq_nil_iff.mp h)
    · exact hhead c hc (.tail _ hmark)
    · exact .symbol hnumeral hname fun hc => hhead _ hc (.head _)
  | @seq kind items tag _ ih =>
    obtain ⟨us, hputs, hitems⟩ := writesForm_items ih
    exact ⟨_, hputs.bracket kind.bracket, .seq kind hitems⟩
  | @map entries tag hdistinct _ _ ihk ihv =>
    obtain ⟨us, hputs, hentries⟩ := writesForm_entries fun e he => ⟨ihk e he, ihv e he⟩
    refine ⟨_, hputs.bracket .curly, .map hentries ?_ ?_⟩
    · rw [Dict.length_toValues]
      omega
    · exact Dict.ofValues_toValues (distinct_untaggedEntries hdistinct)

theorem tokenize_of_puts {f : String → String} {us : List Token} (h : Puts f us) :
    tokenize (f "") = us := by
  obtain ⟨cs, hcuts, hcs⟩ := h
  refine tokenize_eq_of_cuts ?_
  rw [hcs]
  exact hcuts

/-- A text that is cut into tokens which spell a form is read as that form, if there are levels
enough. -/
theorem readFirst_of_puts {f : String → String} {n : Nat} {us : List Token} {v : Value}
    (hf : Puts f us) (hv : Derives n us v) (limit depth : Nat) :
    readFirst limit depth (f "") =
      if n ≤ limit - depth then .ok v else .error (.depthExceeded limit) := by
  have htokens : tokenize (f "") = us ++ [] := (tokenize_of_puts hf).trans (List.append_nil us).symm
  exact hv.readFirst_eq htokens limit depth

/-- The text of a printable value reads back as that value, whatever stands behind it and a
blank. -/
theorem Printable.readFirst_blank {v : Value} (h : v.Printable) (cell : CellId → String)
    (rest : String) {room : Nat} (hroom : v.nesting ≤ room) :
    readFirst room 0 (v.render .readable cell ++ (" " ++ rest)) = .ok v.untagged := by
  obtain ⟨us, ⟨cs, hcuts, hcs⟩, hv⟩ := h.writesForm cell
  have htext : (v.render .readable cell).toList = cs := hcs ""
  have hblank : " " ++ rest = String.ofList (' ' :: rest.toList) := by
    rw [← String.toList_inj]
    simp
  have htokens : tokenize (v.render .readable cell ++ String.ofList (' ' :: rest.toList)) =
      us ++ tokenize (String.ofList (' ' :: rest.toList)) :=
    tokenize_delimited (htext ▸ hcuts) (by decide)
  rw [hblank, hv.readFirst_eq htokens, Nat.sub_zero, if_pos hroom]

/-- Printable values differ in nothing but metadata if texts that begin with them and a blank are
the same. -/
theorem Printable.untagged_eq {v w : Value} (hv : v.Printable) (hw : w.Printable)
    (cell : CellId → String) {rest rest' : String}
    (h : v.render .readable cell ++ (" " ++ rest) = w.render .readable cell ++ (" " ++ rest')) :
    v.untagged = w.untagged := by
  have hread := hv.readFirst_blank cell rest (Nat.le_max_left v.nesting w.nesting)
  have hread' := hw.readFirst_blank cell rest' (Nat.le_max_right v.nesting w.nesting)
  exact Except.ok.inj ((hread.symm.trans (congrArg _ h)).trans hread')

/-- The text of a printable value reads back as that value. What is in it stays as it is, elements
and entries in their order and strings character for character; only metadata is lost. The levels
that reading takes are those that the value is nested. -/
theorem readFirst_render {v : Value} (h : v.Printable) (cell : CellId → String)
    (limit depth : Nat) :
    readFirst limit depth (v.render .readable cell) =
      if v.nesting ≤ limit - depth then .ok v.untagged else .error (.depthExceeded limit) := by
  obtain ⟨us, hputs, hv⟩ := h.writesForm cell
  exact readFirst_of_puts hputs hv limit depth

/-- A map from an empty keyword and a list with metadata to a string with a line break and to the
smallest integer. -/
theorem readFirst_render_map :
    let v : Value := .map [(.keyword "", .text "a\n\x22"),
      (.seq .list [.symbol "-"] (.int 1), .vector [.int Int64.minValue])] (.bool true)
    v.Printable ∧ readFirst 4 1 (v.render .readable fun _ => "") =
      .ok (.dict [(.keyword "", .text "a\n\x22"),
        (.list [.symbol "-"], .vector [.int Int64.minValue])]) := by
  intro v
  have hv : v.Printable := by
    refine .map ?_ ?_ ?_
    · simp [Dict.Distinct, Dict.Apart, keyword, isKeyword, equal]
    · simp only [List.forall_mem_cons]
      refine ⟨.keyword rfl (List.forall_mem_nil _), .seq (List.forall_mem_singleton.mpr ?_),
        List.forall_mem_nil _⟩
      refine .symbol (by decide) (plain_of_all (by decide)) (fun c hc => ?_) (fun n hn => ?_)
        (by decide)
      · cases hc
        decide
      · cases (Decimal.numeral_iff.mp hn).1
    · simp only [List.forall_mem_cons]
      refine ⟨.string rfl, .seq ?_, List.forall_mem_nil _⟩
      exact List.forall_mem_singleton.mpr (.int _)
  exact ⟨hv, readFirst_render hv _ 4 1⟩

end Value

end Lisp
