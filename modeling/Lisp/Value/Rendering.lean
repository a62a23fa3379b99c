import Lisp.Text.Decimal
import Lisp.Text.Quoted
import Lisp.Value.Basic

/-!
# Text of values

A value is rendered readably, with strings quoted, or for display, with strings as they are. What
an atom holds is not part of the value, so its text comes from outside.
-/

namespace Lisp

/-- The two ways to render a value. -/
inductive Style
  | readable
  | display
  deriving DecidableEq

namespace Value

/-- The text of a string or keyword. -/
def renderText (style : Style) (s : String) : String :=
  match keywordName? s, style with
  | some name, _ => ":" ++ name
  | none, .readable => "\x22" ++ String.ofList (Quoted.encode s.toList) ++ "\x22"
  | none, .display => s

mutual

/-- Puts the text of a value behind `out`. The text of what an atom holds is given by `cell`. -/
def renderOnto (style : Style) (cell : CellId → String) (out : String) : Value → String
  | .nil => out ++ "nil"
  | .bool b => out ++ (if b then "true" else "false")
  | .int n => out ++ Decimal.written n.toInt
  | .symbol name => out ++ name
  | .text s => out ++ renderText style s
  | .seq kind items _ =>
    (renderItems style cell (out.push kind.bracket.opener) items).push kind.bracket.closer
  | .map entries _ =>
    (renderEntries style cell (out.push Bracket.curly.opener) entries).push Bracket.curly.closer
  | .closure _ _ _ isMacro _ => out ++ (if isMacro then "#<macro>" else "#<function>")
  | .builtin _ => out ++ "#<function>"
  | .atom id => out ++ "(atom " ++ cell id ++ ")"

/-- Puts the texts of the elements behind `out`, with a blank between two. -/
def renderItems (style : Style) (cell : CellId → String) (out : String) :
    List Value → String
  | [] => out
  | [v] => renderOnto style cell out v
  | v :: w :: vs => renderItems style cell ((renderOnto style cell out v).push ' ') (w :: vs)

/-- Puts the texts of keys and values behind `out`, with a blank between two. -/
def renderEntries (style : Style) (cell : CellId → String) (out : String) :
    List (Value × Value) → String
  | [] => out
  | [(k, v)] => renderOnto style cell ((renderOnto style cell out k).push ' ') v
  | (k, v) :: e :: es =>
    renderEntries style cell
      ((renderOnto style cell ((renderOnto style cell out k).push ' ') v).push ' ') (e :: es)

end

mutual

/-- Whether `p` holds of all atoms whose content is part of the text of a value. -/
def atomsAll (p : CellId → Bool) : Value → Bool
  | .seq _ items _ => itemsAll p items
  | .map entries _ => entriesAll p entries
  | .atom id => p id
  | _ => true

/-- Whether `p` holds of all atoms whose content is part of the texts of elements. -/
def itemsAll (p : CellId → Bool) : List Value → Bool
  | [] => true
  | v :: vs => atomsAll p v && itemsAll p vs

/-- Whether `p` holds of all atoms whose content is part of the texts of keys and values. -/
def entriesAll (p : CellId → Bool) : List (Value × Value) → Bool
  | [] => true
  | (k, v) :: es => atomsAll p k && atomsAll p v && entriesAll p es

end

theorem itemsAll_eq (p : CellId → Bool) (vs : List Value) :
    itemsAll p vs = vs.all (atomsAll p) := by
  induction vs with
  | nil => rfl
  | cons v vs ih => rw [itemsAll, List.all_cons, ih]

theorem entriesAll_eq (p : CellId → Bool) (es : List (Value × Value)) :
    entriesAll p es = es.all fun e => atomsAll p e.1 && atomsAll p e.2 := by
  induction es with
  | nil => rfl
  | cons e es ih => rw [entriesAll, List.all_cons, ih]

@[simp] theorem atomsAll_seq (p : CellId → Bool) (kind : SeqKind) (items : List Value)
    (tag : Value) : atomsAll p (.seq kind items tag) = items.all (atomsAll p) :=
  itemsAll_eq p items

@[simp] theorem atomsAll_map (p : CellId → Bool) (entries : List (Value × Value)) (tag : Value) :
    atomsAll p (.map entries tag) = entries.all fun e => atomsAll p e.1 && atomsAll p e.2 :=
  entriesAll_eq p entries

/-- The text of a value. -/
def render (style : Style) (cell : CellId → String) (v : Value) : String :=
  v.renderOnto style cell ""

/-- The text of a value in which no atom occurs. -/
def renderPure (style : Style) (v : Value) : String :=
  v.render style fun _ => ""

end Value

end Lisp
