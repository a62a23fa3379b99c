import Lisp.Proofs.Text.Decimal
import Lisp.Value.Rendering

/-!
# How rendered values begin

The text of a value is put behind what is there already, `renderOnto_append`. It begins with a
character that tells the type of the value, a bracket, a quote, a colon and so on, unless the value
is a symbol or a string that is displayed as it is. So the mark of keywords is at the beginning of a
rendered value only if the value is a symbol whose name begins with it: `isKeyword_render`.
-/

namespace Lisp.Value

variable {style : Style} {cell : CellId → String}

theorem push_append (s t : String) (c : Char) : (s ++ t).push c = s ++ t.push c := by
  rw [← String.toList_inj]
  simp

mutual

/-- What is there already is left as it is. -/
theorem renderOnto_append (out out' : String) (v : Value) :
    v.renderOnto style cell (out ++ out') = out ++ v.renderOnto style cell out' := by
  cases v with
  | seq kind items tag => simp only [renderOnto, push_append, renderItems_append]
  | map entries tag => simp only [renderOnto, push_append, renderEntries_append]
  | _ => simp only [renderOnto, String.append_assoc]

theorem renderItems_append (out out' : String) (items : List Value) :
    renderItems style cell (out ++ out') items = out ++ renderItems style cell out' items := by
  match items with
  | [] => rfl
  | [v] => exact renderOnto_append out out' v
  | v :: w :: vs =>
    simp only [renderItems, push_append, renderOnto_append, renderItems_append]

theorem renderEntries_append (out out' : String) (entries : List (Value × Value)) :
    renderEntries style cell (out ++ out') entries =
      out ++ renderEntries style cell out' entries := by
  match entries with
  | [] => rfl
  | [(k, v)] =>
    simp only [renderEntries, push_append, renderOnto_append]
  | (k, v) :: e :: es =>
    simp only [renderEntries, push_append, renderOnto_append, renderEntries_append]

end

/-- What stands in front of a text decides how it begins. -/
theorem isKeyword_append {s t : String} (h : s ≠ "") : isKeyword (s ++ t) = isKeyword s := by
  obtain ⟨c, cs, hs⟩ := List.exists_cons_of_ne_nil (mt String.toList_eq_nil_iff.mp h)
  rw [isKeyword, isKeyword, String.toList_append, hs]
  rfl

theorem keywordName?_eq_none_iff {s : String} : keywordName? s = none ↔ isKeyword s = false := by
  unfold keywordName? isKeyword
  split
  next c cs hs => simp [hs]
  next hs => simp [hs]

theorem keywordName?_marked (name : String) :
    keywordName? (keywordMark.toString ++ name) = some name := by
  have htext : (keywordMark.toString ++ name).toList = keywordMark :: name.toList := by simp
  rw [keywordName?, htext]
  simp

/-- A text begins with a character that is not the mark of keywords. -/
structure BeginsPlainly (s : String) : Prop where
  ne_empty : s ≠ ""
  unmarked : isKeyword s = false

theorem BeginsPlainly.append {s : String} (h : BeginsPlainly s) (t : String) :
    BeginsPlainly (s ++ t) where
  ne_empty := fun hst => h.ne_empty (String.append_eq_empty_iff.mp hst).1
  unmarked := (isKeyword_append h.ne_empty).trans h.unmarked

theorem BeginsPlainly.push {s : String} (h : BeginsPlainly s) (c : Char) :
    BeginsPlainly (s.push c) := by
  have hpush : s.push c = s ++ c.toString := by
    rw [← String.toList_inj]
    simp
  rw [hpush]
  exact h.append c.toString

theorem beginsPlainly_written (n : Int) : BeginsPlainly (Decimal.written n) where
  ne_empty := fun h => (Decimal.numeral_written n).ne_nil (String.toList_eq_nil_iff.mpr h)
  unmarked := by
    refine beq_eq_false_iff_ne.mpr fun hmark => ?_
    rcases (Decimal.numeral_written n).mem (List.mem_of_mem_head? hmark) with hdigit | hminus
    · exact absurd hdigit (by decide)
    · exact absurd hminus (by decide)

/-- What is put behind a character begins with it. -/
theorem beginsPlainly_push {c : Char} (hc : c ≠ keywordMark) (f : String → String)
    (hf : ∀ out out', f (out ++ out') = out ++ f out') : BeginsPlainly (f ("".push c)) := by
  have hpush : "".push c = c.toString ++ "" := by
    rw [String.append_empty]
    rfl
  have hchar : BeginsPlainly c.toString := ⟨by simp, by simpa [isKeyword] using hc⟩
  rw [hpush, hf]
  exact hchar.append (f "")

theorem beginsPlainly_render {v : Value} {t : String} (ht : BeginsPlainly t)
    (hv : v.renderOnto style cell "" = "" ++ t) : BeginsPlainly (v.render style cell) := by
  rw [render, hv, String.empty_append]
  exact ht

/-- The text of a value is the name of a symbol, a displayed string, or begins with a character that
is not the mark of keywords. -/
theorem render_cases (style : Style) (cell : CellId → String) (v : Value) :
    (∃ name, v = .symbol name ∧ v.render style cell = name) ∨
      (∃ s, v = .text s ∧ style = .display ∧ isKeyword s = false ∧ v.render style cell = s) ∨
        BeginsPlainly (v.render style cell) := by
  cases v with
  | symbol name => exact .inl ⟨name, rfl, String.empty_append⟩
  | text s =>
    rw [render, renderOnto, String.empty_append]
    unfold renderText
    split
    next name hname => exact .inr (.inr (.append ⟨by decide, by decide⟩ name))
    next hname => exact .inr (.inr (.append (.append ⟨by decide, by decide⟩ _) _))
    next hname =>
      exact .inr (.inl ⟨s, rfl, rfl, keywordName?_eq_none_iff.mp hname, rfl⟩)
  | nil =>
    have htext : BeginsPlainly "nil" := ⟨by decide, by decide⟩
    exact .inr (.inr (beginsPlainly_render htext rfl))
  | bool b =>
    have htext : BeginsPlainly (if b then "true" else "false") := by
      cases b <;> exact ⟨by decide, by decide⟩
    exact .inr (.inr (beginsPlainly_render htext rfl))
  | int n => exact .inr (.inr (beginsPlainly_render (beginsPlainly_written n.toInt) rfl))
  | seq kind items tag =>
    have hopener : kind.bracket.opener ≠ keywordMark := by cases kind <;> decide
    have hitems := beginsPlainly_push hopener (renderItems style cell · items) fun out out' =>
      renderItems_append out out' items
    exact .inr (.inr (hitems.push _))
  | map entries tag =>
    have hopener : Bracket.curly.opener ≠ keywordMark := by decide
    have hentries := beginsPlainly_push hopener (renderEntries style cell · entries) fun out out' =>
      renderEntries_append out out' entries
    exact .inr (.inr (hentries.push _))
  | closure params body scope isMacro tag =>
    have htext : BeginsPlainly (if isMacro then "#<macro>" else "#<function>") := by
      cases isMacro <;> exact ⟨by decide, by decide⟩
    exact .inr (.inr (beginsPlainly_render htext rfl))
  | builtin b =>
    have htext : BeginsPlainly "#<function>" := ⟨by decide, by decide⟩
    exact .inr (.inr (beginsPlainly_render htext rfl))
  | atom c =>
    have hatom : BeginsPlainly "(atom " := ⟨by decide, by decide⟩
    refine .inr (.inr (beginsPlainly_render ((hatom.append (cell c)).append ")") ?_))
    rw [renderOnto, String.empty_append, String.empty_append]

/-- The text of a value is empty only if it is a name or a displayed string without characters. -/
theorem render_eq_empty_iff {v : Value} :
    v.render style cell = "" ↔ v = .symbol "" ∨ style = .display ∧ v = .text "" := by
  constructor
  · intro h
    rcases v.render_cases style cell with
      ⟨name, rfl, hname⟩ | ⟨s, rfl, hstyle, -, hs⟩ | hplain
    · exact .inl (congrArg Value.symbol (hname.symm.trans h))
    · exact .inr ⟨hstyle, congrArg Value.text (hs.symm.trans h)⟩
    · exact absurd h hplain.ne_empty
  · rintro (rfl | ⟨rfl, rfl⟩)
    · rfl
    · rfl

/-- The text of a value begins with the mark of keywords only if the value is a symbol whose name
does. -/
theorem isKeyword_render {v : Value} :
    isKeyword (v.render style cell) = true ↔ ∃ name, v = .symbol name ∧ isKeyword name = true := by
  constructor
  · intro h
    rcases v.render_cases style cell with
      ⟨name, rfl, hname⟩ | ⟨s, rfl, -, hkeyword, hs⟩ | hplain
    · exact ⟨name, rfl, hname ▸ h⟩
    · rw [hs, hkeyword] at h
      cases h
    · rw [hplain.unmarked] at h
      cases h
  · rintro ⟨name, rfl, hname⟩
    rw [render, renderOnto, String.empty_append]
    exact hname

end Lisp.Value
