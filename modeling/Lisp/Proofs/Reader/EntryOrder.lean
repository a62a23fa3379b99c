import Lisp.Proofs.Reader.Printing
import Lisp.Proofs.Value.Extensional

/-!
# The order of entries

Maps with the same entries are equal in whatever order they were given. The text of a map keeps to
the order, so that it tells two orders apart as long as the texts of the keys do: where the orders
part ways, different keys are written, and what reads the one back reads the other back as well.
Keys that are written alike hide their order: two atoms with the same content, for display an
integer and the string that spells it, and an integer and a symbol that goes by its numeral.
-/

namespace Lisp

namespace Value

variable {style : Style} {cell : CellId → String} {d xs ys : Dict} {e f : Value × Value}
  {t t' : Value}

/-! ### Texts of entries -/

theorem renderOnto_eq (out : String) (v : Value) :
    v.renderOnto style cell out = out ++ v.render style cell := by
  rw [render, ← renderOnto_append, String.append_empty]

theorem renderEntries_singleton (e : Value × Value) :
    renderEntries style cell "" [e] =
      e.1.render style cell ++ (" " ++ e.2.render style cell) := by
  rw [renderEntries, renderOnto_eq, renderOnto_eq, String.empty_append, ← String.toList_inj]
  simp

theorem renderEntries_eq (out : String) (es : Dict) :
    renderEntries style cell out es = out ++ renderEntries style cell "" es := by
  rw [← renderEntries_append, String.append_empty]

theorem renderEntries_cons_cons (e f : Value × Value) (es : Dict) :
    renderEntries style cell "" (e :: f :: es) =
      e.1.render style cell ++
        (" " ++ (e.2.render style cell ++ " " ++ renderEntries style cell "" (f :: es))) := by
  rw [renderEntries, renderEntries_eq, renderOnto_eq, renderOnto_eq, String.empty_append,
    ← String.toList_inj]
  simp

theorem render_map (es : Dict) (t : Value) :
    (Value.map es t).render style cell = "\x7b" ++ renderEntries style cell "" es ++ "\x7d" := by
  rw [render, renderOnto, renderEntries_eq, ← String.toList_inj]
  simp [Bracket.opener, Bracket.closer]

/-- The text of entries begins with the first key and a blank. -/
theorem exists_renderEntries_cons (style : Style) (cell : CellId → String) (e : Value × Value)
    (es : Dict) :
    ∃ rest, renderEntries style cell "" (e :: es) = e.1.render style cell ++ (" " ++ rest) := by
  cases es with
  | nil => exact ⟨_, renderEntries_singleton e⟩
  | cons f es => exact ⟨_, renderEntries_cons_cons e f es⟩

/-- Behind the same entry the same text is left. -/
theorem renderEntries_cons_inj (h : renderEntries style cell "" (e :: xs) =
    renderEntries style cell "" (e :: ys)) (hlen : xs.length = ys.length) :
    renderEntries style cell "" xs = renderEntries style cell "" ys := by
  cases xs with
  | nil =>
    cases ys with
    | nil => rfl
    | cons f ys => cases hlen
  | cons f xs =>
    cases ys with
    | nil => cases hlen
    | cons f' ys =>
      rw [renderEntries_cons_cons, renderEntries_cons_cons, ← String.toList_inj] at h
      simpa [String.toList_inj] using h

/-! ### Keys that tell the order -/

/-- Keys of a map that differ in nothing but metadata are the same. -/
theorem eq_of_untagged_eq (hd : (Value.map d t).WellKeyed) (hfree : (Value.map d t).ClosureFree)
    (he : e ∈ d) (hf : f ∈ d) (h : e.1.untagged = f.1.untagged) : e = f := by
  obtain ⟨hdistinct, hkeyed⟩ := wellKeyed_map.mp hd
  rw [closureFree_map] at hfree
  refine hdistinct.eq_of_alike (fun e he => (hkeyed e he).1) he hf ?_
  rw [Alike, ← equal_untagged, h, equal_untagged]
  exact alike_self (hfree f hf).1 (hkeyed f hf).1

/-- Entries of one map are written alike only in the same order, if the keys can be read back. -/
theorem eq_of_renderEntries_eq (cell : CellId → String) (hd : (Value.map d t).WellKeyed)
    (hfree : (Value.map d t).ClosureFree) (hprint : ∀ e ∈ d, e.1.Printable) (hx : xs ⊆ d)
    (hy : ys ⊆ d) (hlen : xs.length = ys.length)
    (h : renderEntries .readable cell "" xs = renderEntries .readable cell "" ys) : xs = ys := by
  induction xs generalizing ys with
  | nil => exact (List.length_eq_zero_iff.mp hlen.symm).symm
  | cons e xs ih =>
    cases ys with
    | nil => cases hlen
    | cons f ys =>
      obtain ⟨he, hxs⟩ := List.cons_subset.mp hx
      obtain ⟨hf, hys⟩ := List.cons_subset.mp hy
      obtain ⟨rest, hrest⟩ := exists_renderEntries_cons .readable cell e xs
      obtain ⟨rest', hrest'⟩ := exists_renderEntries_cons .readable cell f ys
      have huntagged : e.1.untagged = f.1.untagged :=
        (hprint e he).untagged_eq (hprint f hf) cell ((hrest.symm.trans h).trans hrest')
      obtain rfl := eq_of_untagged_eq hd hfree he hf huntagged
      have hlen' : xs.length = ys.length := Nat.succ.inj hlen
      rw [ih hxs hys hlen' (renderEntries_cons_inj h hlen')]

/-- The order of the entries shows in the text of a map if the keys can be read back. -/
theorem eq_of_render_eq (hx : (Value.map xs t).WellKeyed) (hfree : (Value.map xs t).ClosureFree)
    (hperm : xs.Perm ys) (hprint : ∀ e ∈ xs, e.1.Printable)
    (h : (Value.map xs t).render .readable cell = (Value.map ys t').render .readable cell) :
    xs = ys := by
  rw [render_map, render_map, ← String.toList_inj] at h
  refine eq_of_renderEntries_eq cell hx hfree hprint (List.Subset.refl xs) hperm.symm.subset
    hperm.length_eq ?_
  simpa [String.toList_inj] using h

/-- A map without closures is what it finds: another one is equal to it if and only if the same is
found in both at every key. In whatever order its entries are given, they make an equal map with the
entries in that order. If the keys can be read back, the readable text tells the orders apart. -/
theorem maps_extensional (hx : (Value.map xs t).WellKeyed) (hy : (Value.map ys t').WellKeyed)
    (hfree : (Value.map xs t).ClosureFree) (hfree' : (Value.map ys t').ClosureFree) :
    ((Value.map xs t).equal (.map ys t') = .ok true ↔
      ∀ k, k.ClosureFree → k.WellKeyed → FindsAlike xs ys k) ∧
    (∀ entries, xs.Perm entries →
      Dict.ofValues (Dict.toValues xs) = .ok xs ∧
      Dict.ofValues (Dict.toValues entries) = .ok entries ∧
      (Value.dict xs).equal (.dict entries) = .ok true) ∧
    ∀ entries, xs.Perm entries → (∀ e ∈ xs, e.1.Printable) → xs ≠ entries → ∀ cell,
      (Value.dict xs).render .readable cell ≠ (Value.dict entries).render .readable cell := by
  have hdict : (Value.dict xs).WellKeyed := wellKeyed_map.mpr (wellKeyed_map.mp hx)
  have hdict' : (Value.dict xs).ClosureFree := closureFree_map.mpr (closureFree_map.mp hfree)
  refine ⟨alike_map_iff_findsAlike hx hy hfree hfree', fun entries hperm => ?_,
    fun entries hperm hprint hne cell h => ?_⟩
  · have hentries : (Value.dict entries).WellKeyed := hdict.perm hdict' hperm
    exact ⟨Dict.ofValues_toValues (wellKeyed_map.mp hx).1,
      Dict.ofValues_toValues (wellKeyed_map.mp hentries).1, alike_of_perm hperm hdict' hdict hentries⟩
  · exact hne (eq_of_render_eq hdict hdict' hperm hprint h)

/-- The two orders of two entries. -/
theorem maps_extensional_swapped :
    let xs : Dict := [(.vector [.int 1], .int 2), (.int 3, .int 4)]
    let ys : Dict := [(.int 3, .int 4), (.vector [.int 1], .int 2)]
    Dict.ofValues [.int 3, .int 4, .vector [.int 1], .int 2] = .ok ys ∧
      (Value.dict xs).equal (.dict ys) = .ok true ∧
      (Value.dict xs).renderPure .readable ≠ (Value.dict ys).renderPure .readable ∧
      FindsAlike xs ys (.list [.int 1]) := by
  have hfree (n : Int64) : (Value.int n).ClosureFree := closureFree_of_childless trivial
  have hkeyed (n : Int64) : (Value.int n).WellKeyed := wellKeyed_of_childless trivial
  have hlist (kind : SeqKind) : (Value.seq kind [.int 1] .nil).ClosureFree :=
    closureFree_seq.mpr (List.forall_mem_singleton.mpr (hfree 1))
  have hlist' (kind : SeqKind) : (Value.seq kind [.int 1] .nil).WellKeyed :=
    wellKeyed_seq.mpr (List.forall_mem_singleton.mpr (hkeyed 1))
  intro xs ys
  have hxs : xs.Distinct := by
    simp [xs, Dict.Distinct, Dict.Apart, vector, equal]
  have hxs' : (Value.dict xs).ClosureFree :=
    closureFree_map.mpr (List.forall_mem_cons.mpr
      ⟨⟨hlist .vector, hfree 2⟩, List.forall_mem_singleton.mpr ⟨hfree 3, hfree 4⟩⟩)
  have hx : (Value.dict xs).WellKeyed :=
    wellKeyed_map.mpr ⟨hxs, List.forall_mem_cons.mpr
      ⟨⟨hlist' .vector, hkeyed 2⟩, List.forall_mem_singleton.mpr ⟨hkeyed 3, hkeyed 4⟩⟩⟩
  have hprint : ∀ e ∈ xs, e.1.Printable := by
    refine List.forall_mem_cons.mpr ⟨.seq ?_, List.forall_mem_singleton.mpr (.int 3)⟩
    exact List.forall_mem_singleton.mpr (.int 1)
  have hys : xs.Perm ys := .swap ..
  have hne : xs ≠ ys := by
    simp [xs, ys, vector]
  obtain ⟨hfinds, hperm, htext⟩ := maps_extensional hx
    (hx.perm hxs' hys : (Value.dict ys).WellKeyed) hxs' (hxs'.perm hys)
  obtain ⟨-, hbuilt, halike⟩ := hperm ys hys
  exact ⟨hbuilt, halike, htext ys hys hprint hne _, hfinds.mp halike _ (hlist .list) (hlist' .list)⟩

/-! ### Keys that hide the order -/

/-- A map without closures can be built from its entries, and another one from the same entries in
reverse. -/
structure Reversible (xs : Dict) : Prop where
  wellKeyed : (Value.dict xs).WellKeyed
  closureFree : (Value.dict xs).ClosureFree
  built : Dict.ofValues (Dict.toValues xs) = .ok xs
  reversed : Dict.ofValues (Dict.toValues xs.reverse) = .ok xs.reverse
  ne_reverse : xs ≠ xs.reverse

/-- Two entries without parts under different keys can be reversed. -/
theorem reversible_pair {k v l w : Value} (hne : k ≠ l) (h : k.equal l = .ok false)
    (hparts : ∀ x ∈ [k, v, l, w], x.Childless) : Reversible [(k, v), (l, w)] := by
  simp only [List.forall_mem_cons] at hparts
  obtain ⟨hk, hv, hl, hw, -⟩ := hparts
  have hkeyed : (Value.dict [(k, v), (l, w)]).WellKeyed := by
    refine wellKeyed_map.mpr ⟨List.pairwise_pair.mpr h, List.forall_mem_cons.mpr ⟨?_, ?_⟩⟩
    · exact ⟨wellKeyed_of_childless hk, wellKeyed_of_childless hv⟩
    · exact List.forall_mem_singleton.mpr ⟨wellKeyed_of_childless hl, wellKeyed_of_childless hw⟩
  have hfree : (Value.dict [(k, v), (l, w)]).ClosureFree := by
    refine closureFree_map.mpr (List.forall_mem_cons.mpr ⟨?_, ?_⟩)
    · exact ⟨closureFree_of_childless hk, closureFree_of_childless hv⟩
    · exact List.forall_mem_singleton.mpr ⟨closureFree_of_childless hl, closureFree_of_childless hw⟩
  have hreverse : (Value.dict [(k, v), (l, w)].reverse).WellKeyed :=
    hkeyed.perm hfree (List.reverse_perm _).symm
  exact ⟨hkeyed, hfree, Dict.ofValues_toValues (wellKeyed_map.mp hkeyed).1,
    Dict.ofValues_toValues (wellKeyed_map.mp hreverse).1, by simp [hne]⟩

/-- Maps of two entries whose order does not show: with two atoms as keys in neither style, with an
integer and a string not for display, and with an integer and a symbol not readably. -/
theorem text_hides_order :
    let s : State := { State.initial Host.plain with cells := #[.nil, .nil] }
    let atoms : Dict := [(.atom 0, .int 1), (.atom 1, .int 1)]
    let numeral : Dict := [(.int 1, .nil), (.text "1", .nil)]
    let symbol : Dict := [(.int 1, .nil), (.symbol "1", .nil)]
    (Reversible atoms ∧ s.prints (.dict atoms) = true ∧
      ∀ style, s.render style (.dict atoms) = s.render style (.dict atoms.reverse)) ∧
    (Reversible numeral ∧
      s.render .display (.dict numeral) = s.render .display (.dict numeral.reverse)) ∧
    (Reversible symbol ∧
      s.render .readable (.dict symbol) = s.render .readable (.dict symbol.reverse)) := by
  refine ⟨⟨?_, by decide, fun style => ?_⟩, ⟨?_, rfl⟩, ?_, rfl⟩
  · exact reversible_pair (by simp) (by simp [equal]) (by simp [Childless])
  · cases style <;> rfl
  · exact reversible_pair (by simp) (by simp [equal]) (by simp [Childless])
  · exact reversible_pair (by simp) (by simp [equal]) (by simp [Childless])

end Value

end Lisp
