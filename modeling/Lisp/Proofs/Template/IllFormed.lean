import Lisp.Proofs.Nesting.Template

/-!
# Ill-formed templates

Which templates cannot be expanded. An `unquote` list, and a `splice-unquote` list that is an
element of something, takes exactly one operand wherever the expansion comes across it: from the
template through the elements of lists and vectors, but neither into the operand of such a list nor
into a map. `exists_error_iff` says that this is all that can go wrong as long as there are levels
left.
-/

namespace Lisp

namespace Value

variable {head name : String} {v : Value}

theorem isForm_iff :
    v.isForm head = true ↔ ∃ args tag, v = .seq .list (.symbol head :: args) tag := by
  constructor
  · intro h
    unfold isForm at h
    split at h
    · exact ⟨_, _, by rw [beq_iff_eq.mp h]⟩
    · exact absurd h Bool.false_ne_true
  · rintro ⟨args, tag, rfl⟩
    exact beq_self_eq_true head

end Value

namespace Template

open Value

variable {f : Value → Except Error Value} {v t rest : Value} {xs items args : List Value}
  {kind : SeqKind} {tag : Value} {e : Error}

/-- The value is a list with this symbol in front and other than one operand behind it. -/
def Miscounted (head : String) (v : Value) : Prop :=
  ∃ args tag, v = .seq .list (.symbol head :: args) tag ∧ args.length ≠ 1

/-- The expansion of a template comes across `x`: it is the template or an element of a list or
vector that the expansion comes across, where neither operands of `unquote` are entered nor elements
that are spliced. A template that is a `splice-unquote` list itself is a list like any other. -/
inductive Active (x : Value) : Value → Prop
  | root : Active x x
  | element {kind : SeqKind} {items : List Value} {tag y : Value} :
      ¬ (Value.seq kind items tag).isForm "unquote" → y ∈ items →
      ¬ y.isForm "splice-unquote" → Active x y → Active x (.seq kind items tag)

/-- Somewhere the expansion comes across an `unquote` list, or a `splice-unquote` list in the place
of an element, that has other than one operand. -/
def IllFormed (t : Value) : Prop :=
  (∃ x, Active x t ∧ Miscounted "unquote" x) ∨
    ∃ kind items tag x, Active (.seq kind items tag) t ∧
      ¬ (Value.seq kind items tag).isForm "unquote" ∧ x ∈ items ∧
      Miscounted "splice-unquote" x

/-- An element is ill-formed if it is spliced from other than one operand, or if it is not spliced
and an ill-formed template. -/
def IllFormedElement (v : Value) : Prop :=
  Miscounted "splice-unquote" v ∨ ¬ v.isForm "splice-unquote" ∧ IllFormed v

/-! ### One layer at a time -/

theorem Miscounted.isForm {head : String} {v : Value} (h : Miscounted head v) :
    v.isForm head = true := by
  obtain ⟨args, tag, rfl, -⟩ := h
  exact isForm_iff.mpr ⟨args, tag, rfl⟩

theorem miscounted_iff {head : String} :
    Miscounted head (.seq .list (.symbol head :: args) tag) ↔ args.length ≠ 1 := by
  constructor
  · rintro ⟨args', tag', heq, h⟩
    cases heq
    exact h
  · exact fun h => ⟨args, tag, rfl, h⟩

/-- The expansion enters nothing but lists and vectors. -/
theorem not_illFormed_of_items?_eq_none (ht : t.items? = none) : ¬ IllFormed t := by
  rintro (⟨x, hx, args, tag, rfl, -⟩ | ⟨kind, items, tag, x, hx, -⟩)
  · cases hx with
    | root => cases ht
    | element => cases ht
  · cases hx with
    | root => cases ht
    | element => cases ht

/-- The expansion does not enter the operands of `unquote`. -/
theorem illFormed_unquote_iff :
    IllFormed (.seq .list (.symbol "unquote" :: args) tag) ↔ args.length ≠ 1 := by
  have hform : (Value.seq .list (.symbol "unquote" :: args) tag).isForm "unquote" = true :=
    isForm_iff.mpr ⟨args, tag, rfl⟩
  constructor
  · rintro (⟨x, hx, h⟩ | ⟨kind, items, tag, x, hx, hplain, -⟩)
    · cases hx with
      | root => exact miscounted_iff.mp h
      | element hplain => exact absurd hform hplain
    · cases hx with
      | root => exact absurd hform hplain
      | element hplain => exact absurd hform hplain
  · exact fun h => .inl ⟨_, .root, miscounted_iff.mpr h⟩

/-- Any other list or vector is ill-formed if one of its elements is. -/
theorem illFormed_seq_iff (hplain : ¬ (Value.seq kind items tag).isForm "unquote") :
    IllFormed (.seq kind items tag) ↔ ∃ y ∈ items, IllFormedElement y := by
  constructor
  · rintro (⟨x, hx, h⟩ | ⟨kind', items', tag', x, hx, hplain', hmem, h⟩)
    · cases hx with
      | root => exact absurd h.isForm hplain
      | element _ hy hsplice hx => exact ⟨_, hy, .inr ⟨hsplice, .inl ⟨x, hx, h⟩⟩⟩
    · cases hx with
      | root => exact ⟨x, hmem, .inl h⟩
      | element _ hy hsplice hx =>
        exact ⟨_, hy, .inr ⟨hsplice, .inr ⟨_, _, _, x, hx, hplain', hmem, h⟩⟩⟩
  · rintro ⟨y, hy, h | ⟨hsplice, ⟨x, hx, h⟩ | ⟨kind', items', tag', x, hx, hplain', hmem, h⟩⟩⟩
    · exact .inr ⟨_, _, _, y, .root, hplain, hy, h⟩
    · exact .inl ⟨x, .element hplain hy hsplice hx, h⟩
    · exact .inr ⟨_, _, _, x, .element hplain hy hsplice hx, hplain', hmem, h⟩

/-! ### Where the expansion fails -/

theorem exists_error_bind_iff {α β : Type} {x : Except Error α} {f : α → Except Error β} :
    (∃ e, (x >>= f) = .error e) ↔ (∃ e, x = .error e) ∨ ∃ a, x = .ok a ∧ ∃ e, f a = .error e := by
  cases x with
  | error e => simp [bind, Except.bind]
  | ok a => simp [bind, Except.bind]

theorem map_eq_error_iff {α β : Type} {x : Except Error α} {f : α → β} :
    (f <$> x) = .error e ↔ x = .error e := by
  cases x with
  | error e => simp [Functor.map, Except.map]
  | ok a => simp [Functor.map, Except.map]

theorem map_eq_ok_iff {α β : Type} {x : Except Error α} {f : α → β} {b : β} :
    f <$> x = .ok b ↔ ∃ a, x = .ok a ∧ f a = b := by
  cases x with
  | error e => simp [Functor.map, Except.map]
  | ok a => simp [Functor.map, Except.map]

theorem operand_eq_ok_iff {who : String} : operand who args = .ok v ↔ args = [v] := by
  rcases args with _ | ⟨x, _ | ⟨y, args⟩⟩
  · simp [operand]
  · simp [operand]
  · simp [operand]

theorem exists_operand_error_iff (who : String) :
    (∃ e, operand who args = .error e) ↔ args.length ≠ 1 := by
  rcases args with _ | ⟨x, _ | ⟨y, args⟩⟩
  · simp [operand]
  · simp [operand]
  · simp [operand]

/-- An element that is spliced is not expanded. -/
theorem element_spliced (f : Value → Except Error Value) (rest : Value) (args : List Value)
    (tag : Value) :
    element f rest (.seq .list (.symbol "splice-unquote" :: args) tag) =
      (fun v => .list [.symbol "concat", v, rest]) <$> operand "splice-unquote" args :=
  rfl

/-- Any other element is expanded as a template. -/
theorem element_expanded (h : ¬ v.isForm "splice-unquote") :
    element f rest v = (fun v => .list [.symbol "cons", v, rest]) <$> f v :=
  element.eq_2 f rest v fun args tag hv => h (isForm_iff.mpr ⟨args, tag, hv⟩)

/-- What goes wrong with an element is the number of operands if it is spliced. -/
theorem element_error (h : element f rest v = .error e) :
    Miscounted "splice-unquote" v ∨ ¬ v.isForm "splice-unquote" ∧ f v = .error e := by
  by_cases hv : v.isForm "splice-unquote"
  · obtain ⟨args, tag, rfl⟩ := isForm_iff.mp hv
    rw [element_spliced, map_eq_error_iff] at h
    exact .inl (miscounted_iff.mpr ((exists_operand_error_iff _).mp ⟨e, h⟩))
  · rw [element_expanded hv, map_eq_error_iff] at h
    exact .inr ⟨hv, h⟩

/-- What goes wrong with some elements goes wrong with one of them. -/
theorem elements_error (h : xs.foldlM (element f) rest = .error e) :
    ∃ x ∈ xs, Miscounted "splice-unquote" x ∨ ¬ x.isForm "splice-unquote" ∧ f x = .error e := by
  induction xs generalizing rest with
  | nil => cases h
  | cons x xs ih =>
    rw [List.foldlM_cons] at h
    cases hx : element f rest x with
    | error e' =>
      rw [hx] at h
      cases h
      exact ⟨x, .head _, element_error hx⟩
    | ok rest' =>
      rw [hx] at h
      obtain ⟨y, hy, hfail⟩ := ih h
      exact ⟨y, .tail _ hy, hfail⟩

/-- Elements of which one cannot be expanded or spliced cannot be expanded together. -/
theorem exists_elements_error {x : Value} (hx : x ∈ xs)
    (h : Miscounted "splice-unquote" x ∨ ¬ x.isForm "splice-unquote" ∧ ∃ e, f x = .error e)
    (rest : Value) : ∃ e, xs.foldlM (element f) rest = .error e := by
  have helement (rest : Value) : ∃ e, element f rest x = .error e := by
    rcases h with ⟨args, tag, rfl, hcount⟩ | ⟨hplain, e, he⟩
    · obtain ⟨e, he⟩ := (exists_operand_error_iff "splice-unquote").mpr hcount
      exact ⟨e, by rw [element_spliced, he]; rfl⟩
    · exact ⟨e, by rw [element_expanded hplain, he]; rfl⟩
  induction hx generalizing rest with
  | head xs =>
    obtain ⟨e, he⟩ := helement rest
    exact ⟨e, by rw [List.foldlM_cons, he]; rfl⟩
  | tail y _ ih =>
    rw [List.foldlM_cons, exists_error_bind_iff]
    cases hy : element f rest y with
    | error e => exact .inl ⟨e, rfl⟩
    | ok rest' => exact .inr ⟨rest', rfl, ih rest'⟩

/-- A list or vector is expanded element by element, unless it is an `unquote` list. -/
theorem expand_seq {x : Value} (limit room : Nat)
    (hplain : ¬ (Value.seq kind (x :: xs) tag).isForm "unquote") :
    expand limit (room + 1) (.seq kind (x :: xs) tag) =
      (x :: xs).reverse.foldlM (element (expand limit room)) (.list []) := by
  refine expand.eq_4 limit room kind x xs tag fun hkind hx => hplain ?_
  subst hkind hx
  exact isForm_iff.mpr ⟨xs, tag, rfl⟩

/-- An ill-formed template cannot be expanded, whatever levels are left. -/
theorem IllFormed.exists_error (h : IllFormed t) (limit room : Nat) :
    ∃ e, expand limit room t = .error e := by
  induction room generalizing t with
  | zero => exact ⟨_, rfl⟩
  | succ room ih =>
    cases t with
    | seq kind items tag =>
      by_cases hform : (Value.seq kind items tag).isForm "unquote"
      · obtain ⟨args, tag', heq⟩ := isForm_iff.mp hform
        cases heq
        exact (exists_operand_error_iff "unquote").mpr (illFormed_unquote_iff.mp h)
      · obtain ⟨y, hy, hfail⟩ := (illFormed_seq_iff hform).mp h
        cases items with
        | nil => cases hy
        | cons x xs =>
          rw [expand_seq limit room hform]
          refine exists_elements_error (List.mem_reverse.mpr hy) (hfail.imp_right ?_) _
          exact fun h => ⟨h.1, ih h.2⟩
    | _ => exact absurd h (not_illFormed_of_items?_eq_none rfl)

/-- A template that cannot be expanded takes more levels than are left, or is ill-formed. -/
theorem expand_error {limit room : Nat} (h : expand limit room t = .error e) :
    (∃ limit, e = .depthExceeded limit) ∨ IllFormed t := by
  induction room generalizing t with
  | zero =>
    cases h
    exact .inl ⟨limit, rfl⟩
  | succ room ih =>
    cases t with
    | seq kind items tag =>
      by_cases hform : (Value.seq kind items tag).isForm "unquote"
      · obtain ⟨args, tag', heq⟩ := isForm_iff.mp hform
        cases heq
        exact .inr (illFormed_unquote_iff.mpr ((exists_operand_error_iff "unquote").mp ⟨e, h⟩))
      · cases items with
        | nil => cases kind <;> cases h
        | cons x xs =>
          rw [expand_seq limit room hform] at h
          obtain ⟨y, hy, hcount | ⟨hplain, hfail⟩⟩ := elements_error h
          · exact .inr ((illFormed_seq_iff hform).mpr ⟨y, List.mem_reverse.mp hy, .inl hcount⟩)
          · refine (ih hfail).imp_right fun h => ?_
            exact (illFormed_seq_iff hform).mpr ⟨y, List.mem_reverse.mp hy, .inr ⟨hplain, h⟩⟩
    | _ => cases h

/-- Where there are levels enough, the templates that cannot be expanded are the ill-formed ones. -/
theorem exists_error_iff {limit room : Nat} (h : ¬ Refused (expand limit room t)) :
    (∃ e, expand limit room t = .error e) ↔ IllFormed t := by
  constructor
  · rintro ⟨e, he⟩
    refine (expand_error he).resolve_left fun hdepth => h ?_
    rw [he]
    exact refused_error_iff.mpr hdepth
  · exact fun hill => hill.exists_error limit room

end Template

end Lisp
