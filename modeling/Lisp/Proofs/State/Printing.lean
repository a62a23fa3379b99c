import Mathlib.Data.Finset.Card
import Mathlib.Order.Monotone.Basic
import Lisp.Proofs.Value.Layers
import Lisp.State

/-!
# Texts that end

The text of an atom holds the text of what the atom holds, so it has an end only if following atoms
to what they hold has one: `prints_atom_iff`. `State.prints` follows them no deeper than there are
atoms. That is deep enough (`prints_iff`), because the atoms whose texts end within some depth are
ever more until they are all that there will be. Where the text ends, `State.render` keeps to the
recursion through atoms, `render_atom`. Two states in which atoms hold what is shown alike show
everything alike, `render_congr` and `prints_congr`.
-/

namespace Lisp

namespace Value

variable {style : Style} {cell cell' : CellId → String} {p q : CellId → Bool}

/-- An atom is shown in the text of a value. -/
def Shows (v : Value) (c : CellId) : Prop :=
  Part False (.atom c) v

theorem shows_atom_iff {c d : CellId} : (Value.atom c).Shows d ↔ d = c := by
  constructor
  · intro h
    cases h
    rfl
  · rintro rfl
    exact .self

theorem atomsAll_iff {v : Value} : v.atomsAll p = true ↔ ∀ c, v.Shows c → p c = true := by
  induction v with
  | seq kind items tag ih =>
    rw [atomsAll_seq, List.all_eq_true]
    constructor
    · intro h c hc
      cases hc with
      | item hx hc => exact (ih _ hx).mp (h _ hx) c hc
      | seqTag hh => exact hh.elim
    · exact fun h x hx => (ih x hx).mpr fun c hc => h c (.item hx hc)
  | map entries tag ih =>
    rw [atomsAll_map, List.all_eq_true]
    simp only [Bool.and_eq_true]
    constructor
    · intro h c hc
      cases hc with
      | key he hc => exact (ih _ he).1.mp (h _ he).1 c hc
      | value he hc => exact (ih _ he).2.mp (h _ he).2 c hc
      | mapTag hh => exact hh.elim
    · exact fun h e he => ⟨(ih e he).1.mpr fun c hc => h c (.key he hc),
        (ih e he).2.mpr fun c hc => h c (.value he hc)⟩
  | atom d =>
    simp only [shows_atom_iff, forall_eq]
    rfl
  | _ => exact iff_of_true rfl fun c hc => by cases hc <;> contradiction

theorem atomsAll_mono {v : Value} (h : ∀ c, p c = true → q c = true) (hv : v.atomsAll p = true) :
    v.atomsAll q = true :=
  atomsAll_iff.mpr fun c hc => h c (atomsAll_iff.mp hv c hc)

mutual

/-- A text depends on no atoms but those that it shows. -/
theorem renderOnto_congr (h : ∀ c, p c = true → cell c = cell' c) (out : String) (v : Value)
    (hv : v.atomsAll p = true) : v.renderOnto style cell out = v.renderOnto style cell' out := by
  cases v with
  | seq kind items tag => rw [renderOnto, renderOnto, renderItems_congr h _ items hv]
  | map entries tag => rw [renderOnto, renderOnto, renderEntries_congr h _ entries hv]
  | atom c => rw [renderOnto, renderOnto, h c hv]
  | _ => rfl

theorem renderItems_congr (h : ∀ c, p c = true → cell c = cell' c) (out : String)
    (items : List Value) (hv : itemsAll p items = true) :
    renderItems style cell out items = renderItems style cell' out items := by
  match items with
  | [] => rfl
  | [v] =>
    obtain ⟨hv, -⟩ := Bool.and_eq_true_iff.mp hv
    exact renderOnto_congr h out v hv
  | v :: w :: vs =>
    obtain ⟨hv, hvs⟩ := Bool.and_eq_true_iff.mp hv
    rw [renderItems, renderItems, renderOnto_congr h out v hv, renderItems_congr h _ (w :: vs) hvs]

theorem renderEntries_congr (h : ∀ c, p c = true → cell c = cell' c) (out : String)
    (entries : List (Value × Value)) (hv : entriesAll p entries = true) :
    renderEntries style cell out entries = renderEntries style cell' out entries := by
  match entries with
  | [] => rfl
  | [(k, v)] =>
    obtain ⟨hkv, -⟩ := Bool.and_eq_true_iff.mp hv
    obtain ⟨hk, hv⟩ := Bool.and_eq_true_iff.mp hkv
    rw [renderEntries, renderEntries, renderOnto_congr h out k hk, renderOnto_congr h _ v hv]
  | (k, v) :: e :: es =>
    obtain ⟨hkv, hes⟩ := Bool.and_eq_true_iff.mp hv
    obtain ⟨hk, hv⟩ := Bool.and_eq_true_iff.mp hkv
    rw [renderEntries, renderEntries, renderOnto_congr h out k hk, renderOnto_congr h _ v hv,
      renderEntries_congr h _ (e :: es) hes]

end

end Value

namespace State

variable {s : State} {style : Style} {v : Value} {c : CellId} {m n : Nat}

/-! ### The depth of a text -/

theorem endsWithin_succ (h : s.endsWithin n c = true) : s.endsWithin (n + 1) c = true := by
  induction n generalizing c with
  | zero => cases h
  | succ n ih => exact Value.atomsAll_mono (fun d hd => ih hd) h

theorem endsWithin_mono (hmn : m ≤ n) (h : s.endsWithin m c = true) : s.endsWithin n c = true := by
  induction hmn with
  | refl => exact h
  | step _ ih => exact endsWithin_succ ih

/-- What does not exist holds nothing. -/
theorem endsWithin_of_size_le (h : s.cells.size ≤ c) : s.endsWithin (n + 1) c = true := by
  rw [endsWithin, content, Array.getElem?_eq_none h]
  rfl

/-- The atoms whose texts end within a depth. -/
def ending (s : State) (n : Nat) : Finset CellId :=
  (Finset.range s.cells.size).filter (s.endsWithin n · = true)

theorem ending_subset (hmn : m ≤ n) : s.ending m ⊆ s.ending n :=
  Finset.monotone_filter_right _ fun _ _ h => endsWithin_mono hmn h

/-- Two depths at which the texts of equally many atoms end are one as good as the other. -/
theorem endsWithin_eq_of_card (hmn : m ≤ n) (h : (s.ending (n + 1)).card ≤ (s.ending (m + 1)).card) :
    s.endsWithin (m + 1) = s.endsWithin (n + 1) := by
  have hmn := Nat.succ_le_succ hmn
  have hsame : s.ending (m + 1) = s.ending (n + 1) :=
    Finset.eq_of_subset_of_card_le (ending_subset hmn) h
  funext c
  refine Bool.eq_iff_iff.mpr ⟨endsWithin_mono hmn, fun hn => ?_⟩
  by_cases hc : c < s.cells.size
  · have hmem : c ∈ s.ending (m + 1) :=
      hsame ▸ Finset.mem_filter.mpr ⟨Finset.mem_range.mpr hc, hn⟩
    exact (Finset.mem_filter.mp hmem).2
  · exact endsWithin_of_size_le (Nat.not_lt.mp hc)

/-- No text is deeper than there are atoms. -/
theorem endsWithin_eq (h : s.cells.size ≤ n) :
    s.endsWithin (n + 1) = s.endsWithin (s.cells.size + 1) := by
  have hmono : Monotone fun m => (s.ending (m + 1)).card := fun m n hmn =>
    Finset.card_le_card (ending_subset (Nat.succ_le_succ hmn))
  have hbound (m : Nat) : (s.ending (m + 1)).card ≤ s.cells.size :=
    (Finset.card_filter_le _ _).trans_eq (Finset.card_range _)
  -- A depth that lets no more texts end lets none end at the next depth either.
  have hstable (m : Nat) (hm : (s.ending (m + 1)).card = (s.ending (m + 2)).card) :
      (s.ending (m + 2)).card = (s.ending (m + 3)).card := by
    have hsame := endsWithin_eq_of_card (Nat.le_succ m) hm.ge
    have hnext : s.endsWithin (m + 2) = s.endsWithin (m + 3) := by
      funext c
      rw [endsWithin, endsWithin, hsame]
    rw [ending, ending, hnext]
  exact (endsWithin_eq_of_card h (Nat.stabilises_of_monotone hmono hbound hstable h).le).symm

/-- A value has a text that ends if the text ends within any depth. -/
theorem prints_iff : s.prints v = true ↔ ∃ n, v.atomsAll (s.endsWithin n) = true := by
  refine ⟨fun h => ⟨_, h⟩, fun ⟨n, h⟩ => ?_⟩
  have hdeep := Value.atomsAll_mono
    (fun c hc => endsWithin_mono ((Nat.le_max_right s.cells.size n).trans (Nat.le_succ _)) hc) h
  rwa [endsWithin_eq (Nat.le_max_left s.cells.size n)] at hdeep

/-- A text ends if those of the atoms that it shows do. -/
theorem prints_iff_shows : s.prints v = true ↔ ∀ c, v.Shows c → s.prints (.atom c) = true :=
  Value.atomsAll_iff

/-- The text of an atom ends if that of its content does. -/
theorem prints_atom : s.prints (.atom c) = s.prints (s.content c) := by
  rw [Bool.eq_iff_iff, prints_iff, prints_iff]
  constructor
  · rintro ⟨_ | n, h⟩
    · cases h
    · exact ⟨n, h⟩
  · exact fun ⟨n, h⟩ => ⟨n + 1, h⟩

/-- The text of an atom ends if there is no endless way from atoms to atoms that they hold. -/
theorem prints_atom_iff :
    s.prints (.atom c) = true ↔ Acc (fun d c => (s.content c).Shows d) c := by
  constructor
  · rw [prints_iff]
    rintro ⟨n, h⟩
    induction n generalizing c with
    | zero => cases h
    | succ n ih =>
      have hcontent : (s.content c).atomsAll (s.endsWithin n) = true := h
      exact .intro c fun d hd => ih (Value.atomsAll_iff.mp hcontent d hd)
  · intro h
    induction h with
    | intro c _ ih => exact prints_atom.trans (prints_iff_shows.mpr ih)

/-- An atom that holds itself. -/
example : ({ State.initial .plain with cells := #[.atom 0] } : State).prints (.atom 0) = false := by
  decide

/-! ### The text itself -/

/-- A text that ends within a depth is the same at every greater depth. -/
theorem contentText_eq (hmn : m ≤ n) (h : s.endsWithin m c = true) :
    s.contentText style m c = s.contentText style n c := by
  induction m generalizing n c with
  | zero => cases h
  | succ m ih =>
    obtain ⟨n, rfl⟩ := Nat.exists_eq_add_of_le' (Nat.zero_lt_of_lt hmn)
    exact Value.renderOnto_congr (fun d hd => ih (Nat.le_of_succ_le_succ hmn) hd) "" _ h

/-- The text of an atom holds the text of its content. -/
theorem render_atom (h : s.prints (.atom c) = true) :
    s.render style (.atom c) = "(atom " ++ s.render style (s.content c) ++ ")" := by
  have hcontent : s.contentText style (s.cells.size + 1) c = s.render style (s.content c) :=
    contentText_eq (Nat.le_succ _) h
  rw [render, Value.render, Value.renderOnto, hcontent, String.empty_append]

/-! ### States that show values alike -/

section Alike

variable {t : State} {w : Value} (h : ∀ c, (t.content c).ShownAlike (s.content c))
include h

theorem contentText_congr (style : Style) (n : Nat) :
    t.contentText style n = s.contentText style n := by
  induction n with
  | zero => rfl
  | succ n ih =>
    funext c
    rw [contentText, contentText, ih]
    exact (h c).render_eq style _

theorem endsWithin_congr (n : Nat) : t.endsWithin n = s.endsWithin n := by
  induction n with
  | zero => rfl
  | succ n ih =>
    funext c
    rw [endsWithin, endsWithin, ih]
    exact (h c).atomsAll_eq _

theorem render_congr (hsize : t.cells.size = s.cells.size) (hw : w.ShownAlike v) (style : Style) :
    t.render style w = s.render style v := by
  rw [render, render, hsize, contentText_congr h]
  exact hw.render_eq style _

theorem prints_congr (hsize : t.cells.size = s.cells.size) (hw : w.ShownAlike v) :
    t.prints w = s.prints v := by
  rw [prints, prints, hsize, endsWithin_congr h]
  exact hw.atomsAll_eq _

end Alike

end State

end Lisp
