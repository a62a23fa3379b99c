import Lisp.Builtin.Call
import Lisp.Proofs.Invariant.Run

/-!
# Invariants of built-in functions

What a built-in function makes of its arguments alone is of every lawful shape that the arguments
are of. With the state at hand it keeps every invariant that reading and calling functions keep,
which are all that it leaves to others.
-/

namespace Lisp.Builtin

open Shape

section Arguments

variable {S : Shape} {who : Builtin} {args : List Value}

/-! ### Arguments -/

theorem answers_none : S.Answers (fun _ => True) (who.none args) := by
  unfold Builtin.none
  split
  · trivial
  · exact Fits.leaf trivial

theorem answers_one (h : ∀ v ∈ args, S.Fits v) : S.Answers S.Fits (who.one args) := by
  unfold one
  split
  · exact h _ (.head _)
  · exact Fits.leaf trivial

theorem answers_two (h : ∀ v ∈ args, S.Fits v) :
    S.Answers (fun p => S.Fits p.1 ∧ S.Fits p.2) (who.two args) := by
  unfold two
  split
  · exact ⟨h _ (.head _), h _ (.tail _ (.head _))⟩
  · exact Fits.leaf trivial

theorem answers_oneOrMore (h : ∀ v ∈ args, S.Fits v) :
    S.Answers (fun p => S.Fits p.1 ∧ ∀ v ∈ p.2, S.Fits v) (who.oneOrMore args) := by
  unfold oneOrMore
  split
  · exact List.forall_mem_cons.mp h
  · exact Fits.leaf trivial

theorem answers_twoOrMore (h : ∀ v ∈ args, S.Fits v) :
    S.Answers (fun p => S.Fits p.1 ∧ S.Fits p.2.1 ∧ ∀ v ∈ p.2.2, S.Fits v)
      (who.twoOrMore args) := by
  unfold twoOrMore
  split
  · rw [List.forall_mem_cons, List.forall_mem_cons] at h
    exact h
  · exact Fits.leaf trivial

theorem answers_intOf (v : Value) : S.Answers (fun _ => True) (who.intOf v) := by
  unfold intOf
  split
  · trivial
  · exact Fits.leaf trivial

theorem answers_stringOf (v : Value) : S.Answers (fun _ => True) (who.stringOf v) := by
  unfold stringOf
  split
  · split
    · exact Fits.leaf trivial
    · trivial
  · exact Fits.leaf trivial

theorem answers_cellOf (v : Value) : S.Answers (fun _ => True) (who.cellOf v) := by
  unfold cellOf
  split
  · trivial
  · exact Fits.leaf trivial

theorem answers_itemsOf {v : Value} (h : S.Fits v) :
    S.Answers (fun items => ∀ v ∈ items, S.Fits v) (who.itemsOf v) := by
  unfold itemsOf
  split
  · exact (fits_seq.mp h).1
  · exact Fits.leaf trivial

theorem answers_itemsOrNil {v : Value} (h : S.Fits v) :
    S.Answers (fun items => ∀ v ∈ items, S.Fits v) (who.itemsOrNil v) := by
  unfold itemsOrNil
  split
  · exact List.forall_mem_nil _
  · exact answers_itemsOf h

theorem answers_entriesOf {v : Value} (h : S.Fits v) :
    S.Answers S.FitsDict (who.entriesOf v) := by
  unfold entriesOf
  split
  · exact (fits_map.mp h).1
  · exact Fits.leaf trivial

theorem answers_test (p : Value → Bool) (h : ∀ v ∈ args, S.Fits v) :
    S.Answers S.Fits (who.test p args) :=
  (answers_one h).bind fun _ _ => .pure (.leaf trivial)

end Arguments

section Pure

variable {S : Shape} {args : List Value} (h : ∀ v ∈ args, S.Fits v)
include h

/-! ### Numbers, symbols and metadata -/

theorem answers_arithmetic (who : Builtin) (op : Int → Int → Int) :
    S.Answers S.Fits (who.arithmetic op args) := by
  refine (answers_two h).bind fun p _ => (answers_intOf _).bind fun a _ => ?_
  refine (answers_intOf _).bind fun b _ => ?_
  split
  · exact Fits.leaf trivial
  · exact Fits.leaf trivial

theorem answers_comparison (who : Builtin) (op : Int → Int → Bool) :
    S.Answers S.Fits (who.comparison op args) := by
  refine (answers_two h).bind fun p _ => (answers_intOf _).bind fun a _ => ?_
  exact (answers_intOf _).bind fun b _ => .pure (.leaf trivial)

theorem answers_division : S.Answers S.Fits (division args) := by
  refine (answers_two h).bind fun ⟨a, b⟩ _ => ?_
  dsimp only
  split
  · exact Fits.leaf trivial
  · exact answers_arithmetic h div Int.tdiv

theorem answers_equality : S.Answers S.Fits (equality args) :=
  (answers_two h).bind fun _ _ => (answers_equal _ _).bind fun _ _ => .pure (.leaf trivial)

theorem answers_named : S.Answers S.Fits (named args) :=
  (answers_one h).bind fun _ _ => (answers_stringOf _).bind fun _ _ => .pure (.leaf trivial)

theorem answers_keywordNamed : S.Answers S.Fits (keywordNamed args) := by
  refine (answers_one h).bind fun v _ => ?_
  split
  · exact Answers.pure (fits_keyword _)
  · exact Fits.leaf trivial

theorem answers_tagOf : S.Answers S.Fits (tagOf args) :=
  (answers_one h).bind fun _ hv => .pure hv.metadata

theorem answers_tagged : S.Answers S.Fits (tagged args) := by
  refine (answers_two h).bind fun ⟨v, tag⟩ hp => ?_
  dsimp only
  split
  next w hw => exact Answers.pure (fits_withMetadata hp.1 hp.2 hw)
  next => exact Fits.leaf trivial

/-! ### Lists and vectors -/

omit h in
theorem answers_size {who : Builtin} (v : Value) :
    S.Answers (fun _ => True) (who.size v) := by
  unfold size
  split
  · trivial
  · trivial
  · trivial
  · exact Fits.leaf trivial

theorem answers_emptiness : S.Answers S.Fits (emptiness args) :=
  (answers_one h).bind fun _ _ => (answers_size _).bind fun _ _ => .pure (.leaf trivial)

theorem answers_length : S.Answers S.Fits (length args) :=
  (answers_one h).bind fun _ _ => (answers_size _).bind fun _ _ => .pure (.leaf trivial)

theorem answers_consed : S.Answers S.Fits (consed args) := by
  refine (answers_two h).bind fun p hp => (answers_itemsOrNil hp.2).bind fun items hitems => ?_
  exact fits_list.mpr (List.forall_mem_cons.mpr ⟨hp.1, hitems⟩)

theorem answers_joined {done : List Value} (hdone : ∀ v ∈ done, S.Fits v) :
    S.Answers (fun vs => ∀ v ∈ vs, S.Fits v) (joined done args) := by
  induction args generalizing done with
  | nil => exact fun v hv => hdone v (List.mem_reverse.mp hv)
  | cons s more ih =>
    rw [List.forall_mem_cons] at h
    refine (answers_itemsOrNil h.1).bind fun items hitems => ih h.2 fun v hv => ?_
    rcases List.mem_append.mp hv with hv | hv
    · exact hitems v (List.mem_reverse.mp hv)
    · exact hdone v hv

theorem answers_concatenated : S.Answers S.Fits (concatenated args) :=
  (answers_joined h (List.forall_mem_nil _)).bind fun _ hvs => .pure (fits_list.mpr hvs)

theorem answers_asVector : S.Answers S.Fits (asVector args) := by
  refine (answers_one h).bind fun v hv => (answers_itemsOrNil hv).bind fun items hitems => ?_
  exact fits_vector.mpr hitems

theorem answers_conjoined : S.Answers S.Fits (conjoined args) := by
  refine (answers_oneOrMore h).bind fun p hp => ?_
  split
  next items tag vs =>
    have hitems := (fits_seq.mp hp.1).1
    refine fits_list.mpr (List.forall_mem_append.mpr ⟨fun v hv => ?_, hitems⟩)
    exact hp.2 v (List.mem_reverse.mp hv)
  next items tag vs =>
    have hitems := (fits_seq.mp hp.1).1
    exact fits_vector.mpr (List.forall_mem_append.mpr ⟨hitems, hp.2⟩)
  next => exact Fits.leaf trivial

theorem answers_element : S.Answers S.Fits (element args) := by
  refine (answers_two h).bind fun p hp => (answers_itemsOf hp.1).bind fun items hitems => ?_
  refine (answers_intOf _).bind fun i _ => ?_
  split
  · exact Fits.leaf trivial
  · split
    next v hv => exact hitems v (List.mem_of_getElem? hv)
    next => exact Fits.leaf trivial

theorem answers_head : S.Answers S.Fits (head args) := by
  refine (answers_one h).bind fun v hv => (answers_itemsOrNil hv).bind fun items hitems => ?_
  cases items with
  | nil => exact Fits.leaf trivial
  | cons v items => exact hitems v (.head _)

theorem answers_tail : S.Answers S.Fits (tail args) := by
  refine (answers_one h).bind fun v hv => (answers_itemsOrNil hv).bind fun items hitems => ?_
  exact fits_list.mpr fun v hv => hitems v (List.mem_of_mem_tail hv)

theorem answers_listed (clusters : Segmentation) : S.Answers S.Fits (listed clusters args) := by
  refine (answers_one h).bind fun v hv => ?_
  split
  · exact Fits.leaf trivial
  next items tag =>
    refine Answers.pure ?_
    split
    · exact .leaf trivial
    · exact fits_list.mpr (fits_seq.mp hv).1
  · split
    · exact Fits.leaf trivial
    · split
      · exact Fits.leaf trivial
      · refine Answers.pure (fits_list.mpr fun v hv => ?_)
        obtain ⟨piece, -, rfl⟩ := List.mem_map.mp hv
        exact .leaf trivial
  · exact Fits.leaf trivial

/-! ### Maps -/

theorem answers_found : S.Answers S.Fits (found args) := by
  refine (answers_two h).bind fun ⟨m, key⟩ hp => ?_
  dsimp only
  split
  · exact Fits.leaf trivial
  · refine (answers_entriesOf hp.1).bind fun d hd => (answers_find? hd _).bind fun v? hv => ?_
    cases v? with
    | none => exact Fits.leaf trivial
    | some v => exact hv v rfl

theorem answers_hasKey : S.Answers S.Fits (hasKey args) := by
  refine (answers_two h).bind fun ⟨m, key⟩ hp => ?_
  dsimp only
  split
  · exact Fits.leaf trivial
  · refine (answers_entriesOf hp.1).bind fun d hd => ?_
    exact (answers_contains hd _).bind fun _ _ => .pure (.leaf trivial)

theorem answers_keyList : S.Answers S.Fits (keyList args) := by
  refine (answers_one h).bind fun v hv => (answers_entriesOf hv).bind fun d hd => ?_
  refine fits_list.mpr fun v hv => ?_
  obtain ⟨e, he, rfl⟩ := List.mem_map.mp hv
  exact (hd.2 e he).1

theorem answers_valueList : S.Answers S.Fits (valueList args) := by
  refine (answers_one h).bind fun v hv => (answers_entriesOf hv).bind fun d hd => ?_
  refine fits_list.mpr fun v hv => ?_
  obtain ⟨e, he, rfl⟩ := List.mem_map.mp hv
  exact (hd.2 e he).2

section Lawful

variable (hS : S.Lawful)
include hS

theorem answers_mapping : S.Answers S.Fits (mapping args) :=
  (answers_ofValues hS h).bind fun _ hd => .pure (fits_dict.mpr hd)

theorem answers_associated : S.Answers S.Fits (associated args) := by
  refine (answers_oneOrMore h).bind fun p hp => (answers_entriesOf hp.1).bind fun d hd => ?_
  split
  · refine (answers_insertAll hS hd hp.2).bind fun d hd => .pure ?_
    exact fits_map.mpr ⟨hd, hp.1.metadata⟩
  · exact Fits.leaf trivial

theorem answers_dissociated : S.Answers S.Fits (dissociated args) := by
  refine (answers_oneOrMore h).bind fun p hp => (answers_entriesOf hp.1).bind fun d hd => ?_
  refine (answers_eraseAll hS hd _).bind fun d hd => .pure ?_
  exact fits_map.mpr ⟨hd, hp.1.metadata⟩

end Lawful

end Pure

end Lisp.Builtin
