import Lisp.Proofs.Value.Layers

/-!
# Values without metadata

Metadata is no part of what a value is compared by: `equal_untagged` says that two values compare as
they do once all metadata in them is gone.
-/

namespace Lisp.Value

mutual

/-- The value without metadata on itself and on its parts. -/
def untagged : Value → Value
  | .seq kind items _ => .seq kind (untaggedItems items) .nil
  | .map entries _ => .map (untaggedEntries entries) .nil
  | .closure params body scope isMacro _ => .closure params body scope isMacro .nil
  | v => v

/-- The elements without metadata. -/
def untaggedItems : List Value → List Value
  | [] => []
  | v :: vs => untagged v :: untaggedItems vs

/-- The entries with keys and values without metadata. -/
def untaggedEntries : List (Value × Value) → List (Value × Value)
  | [] => []
  | (k, v) :: es => (untagged k, untagged v) :: untaggedEntries es

end

theorem untaggedItems_eq (items : List Value) : untaggedItems items = items.map untagged := by
  induction items with
  | nil => rfl
  | cons v vs ih => rw [untaggedItems, ih, List.map_cons]

theorem untaggedEntries_eq (entries : List (Value × Value)) :
    untaggedEntries entries = entries.map fun e => (e.1.untagged, e.2.untagged) := by
  induction entries with
  | nil => rfl
  | cons e es ih => rw [untaggedEntries, ih, List.map_cons]

theorem keepsLayers_untagged : KeepsLayers untagged where
  layer v := by
    cases v with
    | seq kind items tag =>
      rw [untagged, untaggedItems_eq]
      exact .seq kind items tag .nil
    | map entries tag =>
      rw [untagged, untaggedEntries_eq]
      exact .map entries tag .nil
    | closure params body scope isMacro tag => exact .closure params body body scope scope ..
    | _ => exact .leaf trivial
  list items := by rw [list, untagged, untaggedItems_eq, list]

/-- Metadata does not count when values are compared. -/
theorem equal_untagged (a b : Value) : a.untagged.equal b.untagged = a.equal b :=
  keepsLayers_untagged.equal_eq a b

/-- Keys stay distinct without their metadata. -/
theorem distinct_untaggedEntries {d : Dict} (h : d.Distinct) :
    Dict.Distinct (untaggedEntries d) := by
  rw [untaggedEntries_eq]
  refine List.pairwise_map.mpr (h.imp fun {e g} heg => ?_)
  exact (equal_untagged e.1 g.1).trans heg

end Lisp.Value
