import Lisp.Proofs.Value.Equivalence

/-!
# The order in which two values are compared

Two values are equal in the one order if they are in the other. That a comparison fails, because two
closures had to be compared, may hang on the order: the entries of a map are visited in the order in
which the keys of the first operand came, and a difference that is met before two closures are ends
the comparison (`operand_order_matters`). Where maps that hold closures come to be compared with
equal keys in the same order, both comparisons visit the same places and end alike
(`operands_swapped`).
-/

namespace Lisp.Value

/-- The keys of two maps are equal one by one, in the same order. -/
def SameKeys (xs ys : Dict) : Prop :=
  List.Forall₂ (fun e f => e.1.Alike f.1) xs ys

/-- `v` and `w` stand at the same place in two values: at the same index of sequences or, as the
values of entries, of maps, at any depth. -/
inductive Facing (v w : Value) : Value → Value → Prop
  | self : Facing v w v w
  | item {k k' : SeqKind} {xs ys : List Value} {t t' x y : Value} :
      (x, y) ∈ xs.zip ys → Facing v w x y → Facing v w (.seq k xs t) (.seq k' ys t')
  | entry {xs ys : Dict} {t t' : Value} {e f : Value × Value} :
      (e, f) ∈ xs.zip ys → Facing v w e.2 f.2 → Facing v w (.map xs t) (.map ys t')

/-- Maps of the same size that stand at the same place have equal keys in the same order, unless one
of the two holds no closure. -/
def Aligned (a b : Value) : Prop :=
  ∀ xs t ys t', Facing (.map xs t) (.map ys t') a b → xs.length = ys.length →
    SameKeys xs ys ∨ ClosureFree (.map xs t) ∨ ClosureFree (.map ys t')

variable {a b : Value}

/-! ### Visiting the same places -/

theorem equalItems_swap {xs ys : List Value}
    (h : ∀ x y, (x, y) ∈ xs.zip ys → x.equal y = y.equal x) :
    equalItems xs ys = equalItems ys xs := by
  induction xs generalizing ys with
  | nil => simp [equalItems]
  | cons x xs ih =>
    cases ys with
    | nil => simp [equalItems]
    | cons y ys =>
      have hfirst : x.equal y = y.equal x := h x y (.head _)
      have hrest : equalItems xs ys = equalItems ys xs := ih fun x y hxy => h x y (.tail _ hxy)
      rw [equalItems, equalItems, hfirst, hrest]

/-- The first entry with an equal key is the one that decides. -/
theorem hasEntry_of_alike {ys₁ ys₂ : Dict} {f : Value × Value} {k v : Value}
    (h₁ : ∀ g ∈ ys₁, g.1.equal k = .ok false) (hf : f.1.Alike k) :
    hasEntry (ys₁ ++ f :: ys₂) k v = v.equal f.2 := by
  induction ys₁ with
  | nil =>
    rw [List.nil_append, hasEntry, show f.1.equal k = .ok true from hf]
    rfl
  | cons g ys₁ ih =>
    rw [List.forall_mem_cons] at h₁
    rw [List.cons_append, hasEntry, h₁.1]
    exact ih h₁.2

/-- Maps with the same keys in the same order are compared as the lists of their values are. -/
theorem equalEntries_of_sameKeys {xs ys : Dict} (ys₁ : Dict) (h : SameKeys xs ys)
    (hx : ∀ e ∈ xs, e.1.WellKeyed) (hy : ∀ f ∈ ys₁ ++ ys, f.1.WellKeyed)
    (hdistinct : Dict.Distinct (ys₁ ++ ys)) :
    equalEntries xs (ys₁ ++ ys) = equalItems (xs.map Prod.snd) (ys.map Prod.snd) := by
  induction h generalizing ys₁ with
  | nil => simp [equalEntries, equalItems]
  | @cons e f xs ys hef _ ih =>
    rw [List.forall_mem_cons] at hx
    have hf : f.1.WellKeyed := hy f (List.mem_append_right _ (.head _))
    have hfe : f.1.Alike e.1 := equivalenceOn_wellKeyed.symm hx.1 hf hef
    -- What was passed on the way to `f` differs from the key of `f`, so from that of `e`.
    have hpassed : ∀ g ∈ ys₁, g.1.equal e.1 = .ok false := by
      obtain ⟨-, -, hcross⟩ := List.pairwise_append.mp hdistinct
      intro g hg
      have hgKeyed : g.1.WellKeyed := hy g (List.mem_append_left _ hg)
      rw [← equivalenceOn_wellKeyed.congr_right hf hx.1 hgKeyed hfe]
      exact hcross g hg f (.head _)
    have hsplit : ys₁ ++ f :: ys = (ys₁ ++ [f]) ++ ys := by
      rw [List.append_assoc, List.singleton_append]
    have hrest : equalEntries xs (ys₁ ++ f :: ys) =
        equalItems (xs.map Prod.snd) (ys.map Prod.snd) := by
      rw [hsplit] at hy hdistinct ⊢
      exact ih _ hx.2 hy hdistinct
    rw [equalEntries, hasEntry_of_alike hpassed hfe, hrest, List.map_cons, List.map_cons,
      equalItems]

theorem SameKeys.swap {xs ys : Dict} (h : SameKeys xs ys) (hx : ∀ e ∈ xs, e.1.WellKeyed)
    (hy : ∀ f ∈ ys, f.1.WellKeyed) : SameKeys ys xs := by
  obtain ⟨hlen, hget⟩ := List.forall₂_iff_get.mp h
  refine List.forall₂_iff_get.mpr ⟨hlen.symm, fun i hi hi' => ?_⟩
  exact equivalenceOn_wellKeyed.symm (hx _ (List.get_mem ..)) (hy _ (List.get_mem ..))
    (hget i hi' hi)

theorem equalEntries_swap {xs ys : Dict} {t t' : Value} (h : SameKeys xs ys)
    (hx : WellKeyed (.map xs t)) (hy : WellKeyed (.map ys t'))
    (hvalues : ∀ e f, (e, f) ∈ xs.zip ys → e.2.equal f.2 = f.2.equal e.2) :
    equalEntries xs ys = equalEntries ys xs := by
  obtain ⟨hxs, hx⟩ := wellKeyed_map.mp hx
  obtain ⟨hys, hy⟩ := wellKeyed_map.mp hy
  have hxKeys (e) (he : e ∈ xs) : WellKeyed e.1 := (hx e he).1
  have hyKeys (f) (hf : f ∈ ys) : WellKeyed f.1 := (hy f hf).1
  have hitems : equalItems (xs.map Prod.snd) (ys.map Prod.snd) =
      equalItems (ys.map Prod.snd) (xs.map Prod.snd) := by
    refine equalItems_swap fun v w hvw => ?_
    rw [List.zip_map, List.mem_map] at hvw
    obtain ⟨⟨e, f⟩, hef, heq⟩ := hvw
    cases heq
    exact hvalues e f hef
  calc equalEntries xs ys
      = equalItems (xs.map Prod.snd) (ys.map Prod.snd) :=
        equalEntries_of_sameKeys [] h hxKeys hyKeys hys
    _ = equalItems (ys.map Prod.snd) (xs.map Prod.snd) := hitems
    _ = equalEntries ys xs :=
        (equalEntries_of_sameKeys [] (h.swap hxKeys hyKeys) hyKeys hxKeys hxs).symm

/-! ### Comparing in the other order -/

/-- Values of which one consists of itself alone compare alike in either order. -/
theorem equal_swap_of_childless (ha : a.WellKeyed) (hb : b.WellKeyed)
    (h : a.Childless ∨ b.Childless) : a.equal b = b.equal a :=
  equivalenceOn_wellKeyed.comm ha hb (h.imp closureFree_of_childless closureFree_of_childless)

/-- Where maps are aligned, values compare alike in either order. -/
theorem Aligned.equal_swap (ha : a.WellKeyed) (hb : b.WellKeyed) (h : Aligned a b) :
    a.equal b = b.equal a := by
  induction a generalizing b with
  | seq k xs t ih =>
    cases b with
    | seq k' ys t' =>
      rw [wellKeyed_seq] at ha hb
      have hitems : equalItems xs ys = equalItems ys xs := by
        refine equalItems_swap fun x y hxy => ?_
        obtain ⟨hx, hy⟩ := List.of_mem_zip hxy
        exact ih x hx (ha x hx) (hb y hy) fun zs u zs' u' hz => h zs u zs' u' (.item hxy hz)
      rw [equal_seq, equal_seq, hitems]
      exact if_congr eq_comm rfl rfl
    | map | closure => simp [equal]
    | _ => exact equal_swap_of_childless ha hb (.inr trivial)
  | map xs t ih =>
    cases b with
    | map ys t' =>
      by_cases hlen : xs.length = ys.length
      · rcases h xs t ys t' .self hlen with hkeys | hfree
        · obtain ⟨-, hx⟩ := wellKeyed_map.mp ha
          obtain ⟨-, hy⟩ := wellKeyed_map.mp hb
          have hentries : equalEntries xs ys = equalEntries ys xs := by
            refine equalEntries_swap hkeys ha hb fun e f hef => ?_
            obtain ⟨he, hf⟩ := List.of_mem_zip hef
            exact (ih e he).2 (hx e he).2 (hy f hf).2 fun zs u zs' u' hz =>
              h zs u zs' u' (.entry hef hz)
          rw [equal_map, equal_map, if_pos hlen, if_pos hlen.symm, hentries]
        · exact equivalenceOn_wellKeyed.comm ha hb hfree
      · rw [equal_map, equal_map, if_neg hlen, if_neg (Ne.symm hlen)]
    | seq | closure => simp [equal]
    | _ => exact equal_swap_of_childless ha hb (.inr trivial)
  | closure =>
    cases b with
    | seq | map => simp [equal]
    | closure => rw [equal, equal]
    | _ => exact equal_swap_of_childless ha hb (.inr trivial)
  | _ => exact equal_swap_of_childless ha hb (.inl trivial)

/-- Equal values are equal in the other order, and a comparison that fails does so because it met
two closures, in which case the other one fails as well or met a difference before. Where maps are
aligned the two end alike altogether. -/
theorem operands_swapped (ha : a.WellKeyed) (hb : b.WellKeyed) :
    (a.equal b = .ok true ↔ b.equal a = .ok true) ∧
      (∀ e, a.equal b = .error e → e = .type .functionEquality ∧
        (b.equal a = .error e ∨ b.equal a = .ok false)) ∧
      (Aligned a b → a.equal b = b.equal a) := by
  have hsymm : a.Alike b ↔ b.Alike a :=
    ⟨equivalenceOn_wellKeyed.symm ha hb, equivalenceOn_wellKeyed.symm hb ha⟩
  refine ⟨hsymm, fun e he => ?_, fun h => h.equal_swap ha hb⟩
  cases equal_error he
  refine ⟨rfl, ?_⟩
  rcases hba : b.equal a with e | (_ | _)
  · cases equal_error hba
    exact .inl rfl
  · exact .inr rfl
  · cases he.symm.trans (hsymm.mpr hba)

/-! ### Maps with functions -/

theorem wellKeyed_dict_texts {k l : String} {v w : Value} (hkl : k ≠ l) (hv : v.WellKeyed)
    (hw : w.WellKeyed) : (dict [(.text k, v), (.text l, w)]).WellKeyed := by
  have htext (s : String) : (Value.text s).WellKeyed := wellKeyed_of_childless trivial
  refine wellKeyed_map.mpr ⟨?_, by simp [htext, hv, hw]⟩
  simp [Dict.Distinct, Dict.Apart, equal, hkl]

/-- A function and a number that differs, in maps whose keys come in different orders: the one
comparison meets the function first, the other one the number. -/
theorem operand_order_matters :
    let f := Value.closure ⟨[], none⟩ .nil (.global 0) false .nil
    let a := dict [(.text "f", f), (.text "n", .int 1)]
    let b := dict [(.text "n", .int 2), (.text "f", f)]
    (a.WellKeyed ∧ b.WellKeyed) ∧
      a.equal b = .error (.type .functionEquality) ∧ b.equal a = .ok false := by
  intro f a b
  have hint (i : Int64) : (Value.int i).WellKeyed := wellKeyed_of_childless trivial
  have ha : a.WellKeyed := wellKeyed_dict_texts (by decide) wellKeyed_closure (hint 1)
  have hb : b.WellKeyed := wellKeyed_dict_texts (by decide) (hint 2) wellKeyed_closure
  refine ⟨⟨ha, hb⟩, ?_, ?_⟩
  · simp [a, b, f, dict, equal, equalEntries, hasEntry, bind, Except.bind]
  · simp [a, b, f, dict, equal, equalEntries, hasEntry, bind, Except.bind]

/-- With the keys in the same order both comparisons meet the function first. -/
theorem operands_swapped_aligned :
    let f := Value.closure ⟨[], none⟩ .nil (.global 0) false .nil
    let a := dict [(.text "f", f), (.text "n", .int 1)]
    let b := dict [(.text "f", f), (.text "n", .int 2)]
    (a.WellKeyed ∧ b.WellKeyed ∧ Aligned a b) ∧
      a.equal b = .error (.type .functionEquality) ∧ b.equal a = a.equal b := by
  intro f a b
  have hkeyed (i : Int64) : (dict [(.text "f", f), (.text "n", .int i)]).WellKeyed :=
    wellKeyed_dict_texts (by decide) wellKeyed_closure (wellKeyed_of_childless trivial)
  have haligned : Aligned a b := by
    intro xs t ys t' hfacing _
    change Facing _ _ (.map [(.text "f", f), (.text "n", .int 1)] .nil)
      (.map [(.text "f", f), (.text "n", .int 2)] .nil) at hfacing
    cases hfacing with
    | self => exact .inl (.cons (by simp [Alike, equal]) (.cons (by simp [Alike, equal]) .nil))
    | entry hef hvalues =>
      -- The values are functions and numbers, so no other maps face each other.
      simp only [List.zip_cons_cons, List.zip_nil_right, List.mem_cons, List.not_mem_nil,
        or_false, Prod.mk.injEq] at hef
      rcases hef with ⟨rfl, rfl⟩ | ⟨rfl, rfl⟩ <;> cases hvalues
  refine ⟨⟨hkeyed 1, hkeyed 2, haligned⟩, ?_, ?_⟩
  · simp [a, b, f, dict, equal, equalEntries, hasEntry, bind, Except.bind]
  · exact ((operands_swapped (hkeyed 1) (hkeyed 2)).2.2 haligned).symm

end Lisp.Value
