import Lisp.Host.Basic
import Lisp.Settings
import Lisp.Text.Backspace

/-!
# What a system supplies

The parts of the world that are left open elsewhere, as a common system has them: how texts fall
into grapheme clusters, how a line is edited and where a user's data lies. Nothing is refused here.
-/

namespace Lisp

/-- The segmentation of texts into extended grapheme clusters. -/
def Grapheme.segmentation : Segmentation where
  pieces text := (clusters text.toList).map String.ofList
  ne_empty text piece h := by
    obtain ⟨cluster, hmem, rfl⟩ := List.mem_map.mp h
    intro hempty
    exact ne_nil_of_mem_clusters hmem (String.ofList_eq_empty_iff.mp hempty)
  join_pieces text := by
    apply String.toList_injective
    simp [String.toList_join, List.flatMap_def, Function.comp_def]

/-- A line without its line end. -/
def withoutLineEnd (line : List Char) : List Char :=
  match line.reverse with
  | '\n' :: '\r' :: cs => cs.reverse
  | '\n' :: cs => cs.reverse
  | _ => line

/-- A host without files and input, as a common system has it. Backspaces take effect in a line
that is edited. -/
def Host.empty : Host :=
  { Host.plain with
    clusters := Grapheme.segmentation
    edited := fun line => applyBackspaces (withoutLineEnd line) }

/-- The variables of the environment that settings depend on, if they are set. -/
structure Variables where
  home : Option String
  dataHome : Option String
  history : Option String

/-- The user's data directory: the one named by a variable if that is absolute, else the usual
place below the home directory. -/
def Variables.dataDirectory (vars : Variables) : Option String :=
  match vars.dataHome.filter fun path => path.toList.head? == some '/' with
  | some directory => some directory
  | none => vars.home.map (Settings.below · ".local/share")

namespace Settings

/-- The settings without regard to the variable for the history. -/
def standard (vars : Variables) : Settings :=
  within vars.dataDirectory

/-- The settings, where a variable for the history goes first. -/
def ofVariables (vars : Variables) : Settings :=
  (standard vars).withHistory vars.history

end Settings

end Lisp
