import Lisp.Value.Dict

/-!
# Parts of a value

A list or vector holds its elements and a map its keys and values. `Part hidden w v` says that `w`
occurs in `v` at any depth; metadata and the bodies of closures count only if `hidden` is set, for
comparison looks at neither. Properties of all parts are unfolded one layer at a time by the
lemmas `holdsIn_seq_iff`, `holdsIn_map_iff` and `holdsIn_closure_iff`.
-/

namespace Lisp

/-- Two entries whose keys are compared and found different. -/
def Dict.Apart (e f : Value × Value) : Prop :=
  e.1.equal f.1 = .ok false

/-- No key of a map equals one that comes before it. -/
def Dict.Distinct (d : Dict) : Prop :=
  d.Pairwise Dict.Apart

namespace Value

/-- Structural induction: an element, a key or a value comes before what holds it. -/
@[elab_as_elim, induction_eliminator]
theorem induct {motive : Value → Prop} (nil : motive .nil) (bool : ∀ b, motive (.bool b))
    (int : ∀ n, motive (.int n)) (symbol : ∀ name, motive (.symbol name))
    (text : ∀ s, motive (.text s))
    (seq : ∀ kind items tag, (∀ x ∈ items, motive x) → motive tag → motive (.seq kind items tag))
    (map : ∀ entries tag, (∀ e ∈ entries, motive e.1 ∧ motive e.2) → motive tag →
      motive (.map entries tag))
    (closure : ∀ params body scope isMacro tag, motive body → motive tag →
      motive (.closure params body scope isMacro tag))
    (builtin : ∀ b, motive (.builtin b)) (atom : ∀ cell, motive (.atom cell)) (v : Value) :
    motive v := by
  refine @Value.rec motive (fun items => ∀ x ∈ items, motive x)
    (fun entries => ∀ e ∈ entries, motive e.1 ∧ motive e.2) (fun e => motive e.1 ∧ motive e.2)
    nil bool int symbol text seq map closure builtin atom ?_ ?_ ?_ ?_ ?_ v
  · exact fun x hx => absurd hx List.not_mem_nil
  · exact fun x xs hx hxs y hy => (List.mem_cons.mp hy).elim (fun h => h ▸ hx) (hxs y)
  · exact fun x hx => absurd hx List.not_mem_nil
  · exact fun x xs hx hxs y hy => (List.mem_cons.mp hy).elim (fun h => h ▸ hx) (hxs y)
  · exact fun k w hk hw => ⟨hk, hw⟩

/-! ### Sizes -/

theorem sizeOf_item_lt {kind : SeqKind} {items : List Value} {tag x : Value} (h : x ∈ items) :
    sizeOf x < sizeOf (seq kind items tag) := by
  have hx := List.sizeOf_lt_of_mem h
  rw [seq.sizeOf_spec]
  omega

theorem sizeOf_entry_lt {entries : List (Value × Value)} {tag : Value} {e : Value × Value}
    (h : e ∈ entries) : sizeOf e.1 + sizeOf e.2 < sizeOf (map entries tag) := by
  have he := List.sizeOf_lt_of_mem h
  have hspec : sizeOf e = 1 + sizeOf e.1 + sizeOf e.2 := rfl
  rw [map.sizeOf_spec]
  omega

/-! ### Parts -/

/-- `w` occurs in a value. -/
inductive Part (hidden : Prop) (w : Value) : Value → Prop
  | self : Part hidden w w
  | item {kind : SeqKind} {items : List Value} {tag x : Value} :
      x ∈ items → Part hidden w x → Part hidden w (.seq kind items tag)
  | key {entries : List (Value × Value)} {tag : Value} {e : Value × Value} :
      e ∈ entries → Part hidden w e.1 → Part hidden w (.map entries tag)
  | value {entries : List (Value × Value)} {tag : Value} {e : Value × Value} :
      e ∈ entries → Part hidden w e.2 → Part hidden w (.map entries tag)
  | seqTag {kind : SeqKind} {items : List Value} {tag : Value} :
      hidden → Part hidden w tag → Part hidden w (.seq kind items tag)
  | mapTag {entries : List (Value × Value)} {tag : Value} :
      hidden → Part hidden w tag → Part hidden w (.map entries tag)
  | closureTag {params : Params} {body : Value} {scope : Scope} {isMacro : Bool} {tag : Value} :
      hidden → Part hidden w tag → Part hidden w (.closure params body scope isMacro tag)
  | body {params : Params} {body : Value} {scope : Scope} {isMacro : Bool} {tag : Value} :
      hidden → Part hidden w body → Part hidden w (.closure params body scope isMacro tag)

/-- What occurs in a value without what is hidden occurs in it. -/
theorem Part.mono {hidden hidden' : Prop} (h : hidden → hidden') {w v : Value}
    (hw : Part hidden w v) : Part hidden' w v := by
  induction hw with
  | self => exact .self
  | item hx _ ih => exact .item hx ih
  | key he _ ih => exact .key he ih
  | value he _ ih => exact .value he ih
  | seqTag hh _ ih => exact .seqTag (h hh) ih
  | mapTag hh _ ih => exact .mapTag (h hh) ih
  | closureTag hh _ ih => exact .closureTag (h hh) ih
  | body hh _ ih => exact .body (h hh) ih

/-- Every part of a value has a property. -/
def HoldsIn (hidden : Prop) (P : Value → Prop) (v : Value) : Prop :=
  ∀ w, Part hidden w v → P w

section HoldsIn

variable {hidden : Prop} {P : Value → Prop}

theorem HoldsIn.self {v : Value} (h : HoldsIn hidden P v) : P v :=
  h v .self

theorem holdsIn_seq_iff {kind : SeqKind} {items : List Value} {tag : Value} :
    HoldsIn hidden P (.seq kind items tag) ↔
      P (.seq kind items tag) ∧ (∀ x ∈ items, HoldsIn hidden P x) ∧
        (hidden → HoldsIn hidden P tag) := by
  constructor
  · exact fun h => ⟨h.self, fun x hx w hw => h w (.item hx hw), fun hh w hw => h w (.seqTag hh hw)⟩
  · rintro ⟨hself, hitems, htag⟩ w hw
    cases hw with
    | self => exact hself
    | item hx hw => exact hitems _ hx w hw
    | seqTag hh hw => exact htag hh w hw

theorem holdsIn_map_iff {entries : List (Value × Value)} {tag : Value} :
    HoldsIn hidden P (.map entries tag) ↔
      P (.map entries tag) ∧ (∀ e ∈ entries, HoldsIn hidden P e.1 ∧ HoldsIn hidden P e.2) ∧
        (hidden → HoldsIn hidden P tag) := by
  constructor
  · exact fun h => ⟨h.self, fun e he => ⟨fun w hw => h w (.key he hw),
      fun w hw => h w (.value he hw)⟩, fun hh w hw => h w (.mapTag hh hw)⟩
  · rintro ⟨hself, hentries, htag⟩ w hw
    cases hw with
    | self => exact hself
    | key he hw => exact (hentries _ he).1 w hw
    | value he hw => exact (hentries _ he).2 w hw
    | mapTag hh hw => exact htag hh w hw

theorem holdsIn_closure_iff {params : Params} {body : Value} {scope : Scope} {isMacro : Bool}
    {tag : Value} :
    HoldsIn hidden P (.closure params body scope isMacro tag) ↔
      P (.closure params body scope isMacro tag) ∧
        (hidden → HoldsIn hidden P body ∧ HoldsIn hidden P tag) := by
  constructor
  · exact fun h => ⟨h.self, fun hh => ⟨fun w hw => h w (.body hh hw),
      fun w hw => h w (.closureTag hh hw)⟩⟩
  · rintro ⟨hself, hhidden⟩ w hw
    cases hw with
    | self => exact hself
    | closureTag hh hw => exact (hhidden hh).2 w hw
    | body hh hw => exact (hhidden hh).1 w hw

/-- A value that consists of itself alone. -/
def Childless : Value → Prop
  | .seq .. | .map .. | .closure .. => False
  | _ => True

theorem holdsIn_iff_of_childless {v : Value} (h : v.Childless) : HoldsIn hidden P v ↔ P v := by
  refine ⟨HoldsIn.self, fun hself w hw => ?_⟩
  cases hw with
  | self => exact hself
  | _ => exact h.elim

end HoldsIn

/-- No closure is a part of the value. Metadata does not count. -/
def ClosureFree : Value → Prop :=
  HoldsIn False fun
    | .closure .. => False
    | _ => True

/-- The keys of every map that is a part of the value are distinct. Metadata does not count. -/
def WellKeyed : Value → Prop :=
  HoldsIn False fun
    | .map entries _ => Dict.Distinct entries
    | _ => True

/-! ### One layer at a time -/

theorem closureFree_of_childless {v : Value} (h : v.Childless) : v.ClosureFree := by
  refine (holdsIn_iff_of_childless h).mpr ?_
  cases v <;> trivial

theorem wellKeyed_of_childless {v : Value} (h : v.Childless) : v.WellKeyed := by
  refine (holdsIn_iff_of_childless h).mpr ?_
  cases v <;> trivial

@[simp] theorem closureFree_seq {kind : SeqKind} {items : List Value} {tag : Value} :
    ClosureFree (.seq kind items tag) ↔ ∀ x ∈ items, ClosureFree x := by
  simp [ClosureFree, holdsIn_seq_iff]

@[simp] theorem closureFree_map {entries : List (Value × Value)} {tag : Value} :
    ClosureFree (.map entries tag) ↔ ∀ e ∈ entries, ClosureFree e.1 ∧ ClosureFree e.2 := by
  simp [ClosureFree, holdsIn_map_iff]

@[simp] theorem not_closureFree_closure {params : Params} {body : Value} {scope : Scope}
    {isMacro : Bool} {tag : Value} : ¬ ClosureFree (.closure params body scope isMacro tag) :=
  fun h => h.self

@[simp] theorem wellKeyed_seq {kind : SeqKind} {items : List Value} {tag : Value} :
    WellKeyed (.seq kind items tag) ↔ ∀ x ∈ items, WellKeyed x := by
  simp [WellKeyed, holdsIn_seq_iff]

@[simp] theorem wellKeyed_map {entries : List (Value × Value)} {tag : Value} :
    WellKeyed (.map entries tag) ↔
      Dict.Distinct entries ∧ ∀ e ∈ entries, WellKeyed e.1 ∧ WellKeyed e.2 := by
  simp [WellKeyed, holdsIn_map_iff]

theorem wellKeyed_closure {params : Params} {body : Value} {scope : Scope} {isMacro : Bool}
    {tag : Value} : WellKeyed (.closure params body scope isMacro tag) :=
  holdsIn_closure_iff.mpr ⟨trivial, False.elim⟩

end Value

end Lisp
