import Lisp.Params
import Lisp.Proofs.Template.IllFormed
import Lisp.Proofs.Value.Comparison
import Lisp.Value.Rendering

/-!
# Functions that keep the layers of values

What is done with a value depends on its layers: what kind of value it is, and which elements or
entries it has. The body and the scope of a closure and the metadata of values are only carried
along. So a function that may change these, wherever they are in a value, but keeps everything else
commutes with comparing, rendering, looking keys up, parsing parameters and expanding templates.
-/

namespace Lisp

/-- The entries of a map with `f` applied to all keys and values. -/
abbrev Dict.mapBoth (f : Value → Value) (d : Dict) : Dict :=
  d.map fun e => (f e.1, f e.2)

/-- `w` is what becomes of `v` if `f` is applied to its elements, keys and values: metadata may
change along, and in a closure the body and the scope. -/
inductive Value.SameLayer (f : Value → Value) : Value → Value → Prop
  | leaf {v : Value} : v.Childless → SameLayer f v v
  | seq (kind : SeqKind) (items : List Value) (tag tag' : Value) :
    SameLayer f (.seq kind items tag) (.seq kind (items.map f) tag')
  | map (entries : Dict) (tag tag' : Value) :
    SameLayer f (.map entries tag) (.map (Dict.mapBoth f entries) tag')
  | closure (params : Params) (body body' : Value) (scope scope' : Scope) (isMacro : Bool)
    (tag tag' : Value) :
    SameLayer f (.closure params body scope isMacro tag) (.closure params body' scope' isMacro tag')

/-- The function keeps all layers of values, and adds no metadata to lists that have none. -/
structure Value.KeepsLayers (f : Value → Value) : Prop where
  layer (v : Value) : SameLayer f v (f v)
  list (items : List Value) : f (.list items) = .list (items.map f)

variable {f : Value → Value}

/-! ### Values -/

namespace Value

/-- Lists whose elements compare alike do so themselves. -/
theorem equalItems_map {xs ys : List Value}
    (h : ∀ x ∈ xs, ∀ y ∈ ys, (f x).equal (f y) = x.equal y) :
    equalItems (xs.map f) (ys.map f) = equalItems xs ys := by
  induction xs generalizing ys with
  | nil => simp [equalItems]
  | cons x xs ih =>
    cases ys with
    | nil => simp [equalItems]
    | cons y ys =>
      rw [List.map_cons, List.map_cons, equalItems, equalItems, h x (.head _) y (.head _),
        ih fun x' hx y' hy => h x' (.tail _ hx) y' (.tail _ hy)]

theorem hasEntry_map {ys : Dict} {k v : Value} (hk : ∀ e ∈ ys, (f e.1).equal (f k) = e.1.equal k)
    (hv : ∀ e ∈ ys, (f v).equal (f e.2) = v.equal e.2) :
    hasEntry (Dict.mapBoth f ys) (f k) (f v) = hasEntry ys k v := by
  induction ys with
  | nil => simp [hasEntry]
  | cons e ys ih =>
    rw [Dict.mapBoth, List.map_cons, hasEntry, hasEntry, hk e (.head _), hv e (.head _),
      ih (fun e he => hk e (.tail _ he)) fun e he => hv e (.tail _ he)]

theorem equalEntries_map {xs ys : Dict}
    (hk : ∀ e ∈ xs, ∀ g ∈ ys, (f g.1).equal (f e.1) = g.1.equal e.1)
    (hv : ∀ e ∈ xs, ∀ g ∈ ys, (f e.2).equal (f g.2) = e.2.equal g.2) :
    equalEntries (Dict.mapBoth f xs) (Dict.mapBoth f ys) = equalEntries xs ys := by
  induction xs with
  | nil => simp [equalEntries]
  | cons e xs ih =>
    rw [Dict.mapBoth, List.map_cons, equalEntries, equalEntries,
      hasEntry_map (hk e (.head _)) (hv e (.head _)),
      ih (fun e he => hk e (.tail _ he)) fun e he => hv e (.tail _ he)]

section Rendering

variable (style : Style) (cell : CellId → String)

/-- Elements whose texts are the same have the same text together. -/
theorem renderItems_map {items : List Value}
    (h : ∀ v ∈ items, ∀ out, (f v).renderOnto style cell out = v.renderOnto style cell out)
    (out : String) :
    renderItems style cell out (items.map f) = renderItems style cell out items := by
  induction items generalizing out with
  | nil => rfl
  | cons v vs ih =>
    obtain ⟨hv, hvs⟩ := List.forall_mem_cons.mp h
    cases vs with
    | nil => exact hv out
    | cons w vs =>
      rw [List.map_cons, List.map_cons, renderItems, renderItems, hv, ← List.map_cons, ih hvs]

theorem renderEntries_map {entries : Dict}
    (h : ∀ e ∈ entries, ∀ out, (f e.1).renderOnto style cell out = e.1.renderOnto style cell out ∧
      (f e.2).renderOnto style cell out = e.2.renderOnto style cell out) (out : String) :
    renderEntries style cell out (Dict.mapBoth f entries) =
      renderEntries style cell out entries := by
  induction entries generalizing out with
  | nil => rfl
  | cons e es ih =>
    obtain ⟨he, hes⟩ := List.forall_mem_cons.mp h
    cases es with
    | nil => rw [Dict.mapBoth, List.map_cons, List.map_nil, renderEntries, renderEntries, (he _).1,
        (he _).2]
    | cons g es =>
      rw [Dict.mapBoth, List.map_cons, List.map_cons, renderEntries, renderEntries, (he _).1,
        (he _).2, ← List.map_cons (f := fun e : Value × Value => (f e.1, f e.2)), ih hes]

end Rendering

/-- Two values are shown alike: they have the same text, and the same atoms show in it. -/
structure ShownAlike (v w : Value) : Prop where
  render_eq : ∀ style cell, v.render style cell = w.render style cell
  atomsAll_eq : ∀ p, v.atomsAll p = w.atomsAll p

theorem ShownAlike.refl (v : Value) : v.ShownAlike v :=
  ⟨fun _ _ => rfl, fun _ => rfl⟩

namespace KeepsLayers

variable (hf : KeepsLayers f)
include hf

theorem leaf {v : Value} (h : v.Childless) : f v = v := by
  have hv := hf.layer v
  generalize f v = w at hv
  cases hv with
  | leaf => rfl
  | _ => exact h.elim

theorem kind_eq (v : Value) : (f v).kind = v.kind := by
  have hv := hf.layer v
  generalize f v = w at hv
  cases hv with
  | seq kind => cases kind <;> rfl
  | _ => rfl

theorem symbol?_eq (v : Value) : (f v).symbol? = v.symbol? := by
  have hv := hf.layer v
  generalize f v = w at hv
  cases hv <;> rfl

theorem items?_eq (v : Value) : (f v).items? = v.items?.map (List.map f) := by
  have hv := hf.layer v
  generalize f v = w at hv
  cases hv with
  | @leaf v h =>
    cases v with
    | seq | map | closure => exact h.elim
    | _ => rfl
  | _ => rfl

/-- The function keeps symbols, and what it makes a symbol was that one before. -/
theorem eq_symbol_iff {v : Value} {name : String} : f v = .symbol name ↔ v = .symbol name := by
  have hv := hf.layer v
  generalize f v = w at hv
  cases hv <;> simp

theorem isForm_eq (head : String) (v : Value) : (f v).isForm head = v.isForm head := by
  rw [Bool.eq_iff_iff, isForm_iff, isForm_iff]
  have hv := hf.layer v
  generalize f v = w at hv
  cases hv with
  | seq kind items tag tag' =>
    cases items with
    | nil => simp
    | cons x xs => simp [hf.eq_symbol_iff]
  | _ => simp

theorem equal_eq_of_childless {a : Value} (h : a.Childless) (b : Value) :
    (f a).equal (f b) = a.equal b ∧ (f b).equal (f a) = b.equal a := by
  rw [hf.leaf h]
  have hb := hf.layer b
  generalize f b = b' at hb
  cases hb with
  | leaf => exact ⟨rfl, rfl⟩
  | _ => cases a <;> first | exact h.elim | simp [equal]

/-- Values compare as they did, whichever comes first. -/
theorem equal_eq_and (a b : Value) :
    (f a).equal (f b) = a.equal b ∧ (f b).equal (f a) = b.equal a := by
  induction a generalizing b with
  | seq kind xs tag hxs =>
    have ha := hf.layer (.seq kind xs tag)
    have hb := hf.layer b
    generalize f (.seq kind xs tag) = a' at ha
    generalize f b = b' at hb
    cases ha with
    | leaf h => exact h.elim
    | seq =>
      cases hb with
      | seq kind' ys =>
        simp only [equal_seq, List.length_map]
        rw [equalItems_map fun x hx y _ => (hxs x hx y).1,
          equalItems_map fun y _ x hx => (hxs x hx y).2]
        exact ⟨rfl, rfl⟩
      | leaf h => cases b <;> first | exact h.elim | simp [equal]
      | _ => simp [equal]
  | map xs tag hxs =>
    have ha := hf.layer (.map xs tag)
    have hb := hf.layer b
    generalize f (.map xs tag) = a' at ha
    generalize f b = b' at hb
    cases ha with
    | leaf h => exact h.elim
    | map =>
      cases hb with
      | map ys =>
        simp only [equal_map, List.length_map]
        rw [equalEntries_map (fun e he g _ => ((hxs e he).1 g.1).2)
            fun e he g _ => ((hxs e he).2 g.2).1,
          equalEntries_map (fun g _ e he => ((hxs e he).1 g.1).1)
            fun g _ e he => ((hxs e he).2 g.2).2]
        exact ⟨rfl, rfl⟩
      | leaf h => cases b <;> first | exact h.elim | simp [equal]
      | _ => simp [equal]
  | closure params body scope isMacro tag =>
    have ha := hf.layer (.closure params body scope isMacro tag)
    have hb := hf.layer b
    generalize f (.closure params body scope isMacro tag) = a' at ha
    generalize f b = b' at hb
    cases ha with
    | leaf h => exact h.elim
    | closure =>
      cases hb with
      | leaf h => cases b <;> first | exact h.elim | simp [equal]
      | _ => simp [equal]
  | _ => exact hf.equal_eq_of_childless (by trivial) b

theorem equal_eq (a b : Value) : (f a).equal (f b) = a.equal b :=
  (hf.equal_eq_and a b).1

/-- Values are rendered as they were. -/
theorem renderOnto_eq (style : Style) (cell : CellId → String) (v : Value) (out : String) :
    (f v).renderOnto style cell out = v.renderOnto style cell out := by
  have hv := hf.layer v
  induction v generalizing out with
  | seq kind items tag hitems =>
    generalize f (.seq kind items tag) = w at hv
    cases hv with
    | leaf h => exact h.elim
    | seq =>
      rw [renderOnto, renderOnto,
        renderItems_map style cell fun x hx out => hitems x hx out (hf.layer x)]
  | map entries tag hentries =>
    generalize f (.map entries tag) = w at hv
    cases hv with
    | leaf h => exact h.elim
    | map =>
      rw [renderOnto, renderOnto, renderEntries_map style cell fun e he out =>
        ⟨(hentries e he).1 out (hf.layer e.1), (hentries e he).2 out (hf.layer e.2)⟩]
  | closure params body scope isMacro tag =>
    generalize f (.closure params body scope isMacro tag) = w at hv
    cases hv with
    | leaf h => exact h.elim
    | closure => rw [renderOnto, renderOnto]
  | _ => exact congrArg (renderOnto style cell out) (hf.leaf (by trivial))

theorem render_eq (style : Style) (cell : CellId → String) (v : Value) :
    (f v).render style cell = v.render style cell :=
  hf.renderOnto_eq style cell v ""

/-- The texts of values show the atoms that they showed. -/
theorem atomsAll_eq (p : CellId → Bool) (v : Value) : (f v).atomsAll p = v.atomsAll p := by
  have hv := hf.layer v
  induction v with
  | seq kind items tag hitems =>
    generalize f (.seq kind items tag) = w at hv
    cases hv with
    | leaf h => exact h.elim
    | seq =>
      rw [atomsAll_seq, atomsAll_seq, List.all_map, Bool.eq_iff_iff, List.all_eq_true,
        List.all_eq_true]
      exact forall₂_congr fun x hx => iff_of_eq (congrArg (· = true) (hitems x hx (hf.layer x)))
  | map entries tag hentries =>
    generalize f (.map entries tag) = w at hv
    cases hv with
    | leaf h => exact h.elim
    | map =>
      rw [atomsAll_map, atomsAll_map, List.all_map, Bool.eq_iff_iff, List.all_eq_true,
        List.all_eq_true]
      refine forall₂_congr fun e he => ?_
      rw [Function.comp_apply, (hentries e he).1 (hf.layer e.1), (hentries e he).2 (hf.layer e.2)]
  | closure params body scope isMacro tag =>
    generalize f (.closure params body scope isMacro tag) = w at hv
    cases hv with
    | leaf h => exact h.elim
    | closure => rfl
  | _ => exact congrArg (atomsAll p) (hf.leaf (by trivial))

/-- Values are shown as they were. -/
theorem shownAlike (v : Value) : (f v).ShownAlike v :=
  ⟨fun style cell => hf.render_eq style cell v, fun p => hf.atomsAll_eq p v⟩

end KeepsLayers

end Value

/-! ### Maps -/

namespace Dict

variable (hf : Value.KeepsLayers f)
include hf

theorem find?_mapBoth (key : Value) (d : Dict) :
    find? (f key) (mapBoth f d) = Option.map f <$> find? key d := by
  induction d with
  | nil => rfl
  | cons e d ih =>
    obtain ⟨k, v⟩ := e
    rw [mapBoth, List.map_cons, find?, find?, hf.equal_eq, ih]
    cases k.equal key with
    | error e => rfl
    | ok b => cases b <;> rfl

theorem insert_mapBoth (key v : Value) (d : Dict) :
    insert (f key) (f v) (mapBoth f d) = mapBoth f <$> insert key v d := by
  induction d with
  | nil => rfl
  | cons e d ih =>
    obtain ⟨k, w⟩ := e
    rw [mapBoth, List.map_cons, insert, insert, hf.equal_eq, ih]
    cases k.equal key with
    | error e => rfl
    | ok b =>
      cases b with
      | true => rfl
      | false => cases insert key v d <;> rfl

theorem erase_mapBoth (key : Value) (d : Dict) :
    erase (f key) (mapBoth f d) = mapBoth f <$> erase key d := by
  induction d with
  | nil => rfl
  | cons e d ih =>
    obtain ⟨k, w⟩ := e
    rw [mapBoth, List.map_cons, erase, erase, hf.equal_eq, ih]
    cases k.equal key with
    | error e => rfl
    | ok b =>
      cases b with
      | true => rfl
      | false => cases erase key d <;> rfl

end Dict

/-! ### Parameter lists and templates -/

/-- The names of parameters are read off alike. -/
theorem Params.parse_map (hf : Value.KeepsLayers f) (forms : List Value) :
    parse (forms.map f) = parse forms := by
  have honto (fixed : List String) : parseOnto fixed (forms.map f) = parseOnto fixed forms := by
    induction forms generalizing fixed with
    | nil => rfl
    | cons v vs ih =>
      rw [List.map_cons]
      unfold parseOnto
      rw [hf.symbol?_eq, hf.kind_eq]
      cases v.symbol? with
      | none => rfl
      | some name =>
        by_cases hname : name = restMark
        · simp only [if_pos hname]
          rcases vs with _ | ⟨w, ws⟩
          · rfl
          · have hw := hf.layer w
            rw [List.map_cons]
            generalize f w = w' at hw
            cases hw with
            | leaf => cases w <;> cases ws <;> rfl
            | _ => cases ws <;> rfl
        · simp only [if_neg hname, ih]
  exact honto []

namespace Template

theorem operand_map (who : String) (args : List Value) :
    operand who (args.map f) = f <$> operand who args := by
  rcases args with _ | ⟨x, _ | ⟨y, more⟩⟩
  · rfl
  · rfl
  · simp [operand]

variable (hf : Value.KeepsLayers f)
include hf

theorem call_map (head : String) (v rest : Value) :
    Value.list [.symbol head, f v, f rest] = f (.list [.symbol head, v, rest]) := by
  simp only [hf.list, List.map_cons, List.map_nil, hf.leaf (v := .symbol head) trivial]

theorem element_map {g g' : Value → Except Error Value} (hg : ∀ v, g' (f v) = f <$> g v)
    (rest v : Value) : element g' (f rest) (f v) = f <$> element g rest v := by
  by_cases hv : v.isForm "splice-unquote"
  · obtain ⟨args, tag, rfl⟩ := Value.isForm_iff.mp hv
    have hlayer := hf.layer (.seq .list (.symbol "splice-unquote" :: args) tag)
    generalize f (.seq .list (.symbol "splice-unquote" :: args) tag) = w at hlayer
    cases hlayer with
    | leaf h => exact h.elim
    | seq =>
      rw [List.map_cons, hf.leaf (v := .symbol _) trivial, element_spliced, element_spliced,
        operand_map, Functor.map_map, Functor.map_map]
      simp only [call_map hf]
  · have hv' : ¬ (f v).isForm "splice-unquote" := by rwa [hf.isForm_eq]
    rw [element_expanded hv, element_expanded hv', hg, Functor.map_map, Functor.map_map]
    simp only [call_map hf]

theorem elements_map {g g' : Value → Except Error Value} (hg : ∀ v, g' (f v) = f <$> g v)
    (rest : Value) (items : List Value) :
    (items.map f).foldlM (element g') (f rest) = f <$> items.foldlM (element g) rest := by
  induction items generalizing rest with
  | nil => rfl
  | cons v vs ih =>
    rw [List.map_cons, List.foldlM_cons, List.foldlM_cons, element_map hf hg]
    cases element g rest v with
    | error e => rfl
    | ok rest' => exact ih rest'

/-- Templates expand alike. -/
theorem expand_map (limit room : Nat) (v : Value) :
    expand limit room (f v) = f <$> expand limit room v := by
  induction room generalizing v with
  | zero => rfl
  | succ room ih =>
    have hv := hf.layer v
    generalize hw : f v = w at hv ⊢
    cases hv with
    | seq kind items tag tag' =>
      cases items with
      | nil => cases kind <;> exact congrArg Except.ok hw.symm
      | cons x xs =>
        by_cases hform : (Value.seq kind (x :: xs) tag).isForm "unquote"
        · obtain ⟨args, tag, heq⟩ := Value.isForm_iff.mp hform
          cases heq
          rw [List.map_cons, hf.leaf (v := .symbol _) trivial]
          exact operand_map _ xs
        · have hform' := hform
          rw [← hf.isForm_eq, hw, List.map_cons] at hform'
          rw [List.map_cons, expand_seq _ _ hform, expand_seq _ _ hform', ← List.map_cons,
            ← List.map_reverse]
          have helements := elements_map hf ih (.list []) (x :: xs).reverse
          rwa [hf.list] at helements
    | leaf h =>
      cases v with
      | seq | map | closure => exact h.elim
      | symbol name =>
        refine congrArg Except.ok ?_
        simp only [hf.list, List.map_cons, List.map_nil, hf.leaf (v := .symbol _) trivial]
      | _ => exact congrArg Except.ok hw.symm
    | _ => exact congrArg Except.ok hw.symm

end Template

end Lisp
