import Lisp.Proofs.State.Printing
import Mathlib.Data.List.Forall2

/-!
# Metadata decides nothing

Two values are retagged if they differ in nothing but metadata, on any of their layers, in keys and
in bodies of closures as well. They compare alike and print alike, they are found at the same places
of a map, they give the same parameter lists, and as templates they have expansions that are
retagged again. All of it follows from what is left without metadata (`bare`), since removing
metadata keeps the layers of values.
-/

namespace Lisp

/-! ### Removing metadata -/

namespace Value

mutual

/-- The value without metadata on itself and on its parts, bodies of closures included. -/
def bare : Value → Value
  | .seq kind items _ => .seq kind (bareItems items) .nil
  | .map entries _ => .map (bareEntries entries) .nil
  | .closure params body scope isMacro _ => .closure params (bare body) scope isMacro .nil
  | v => v

/-- The elements without metadata. -/
def bareItems : List Value → List Value
  | [] => []
  | v :: vs => bare v :: bareItems vs

/-- The entries without metadata. -/
def bareEntries : List (Value × Value) → List (Value × Value)
  | [] => []
  | (k, v) :: es => (bare k, bare v) :: bareEntries es

end

theorem bareItems_eq (items : List Value) : bareItems items = items.map bare := by
  induction items with
  | nil => rfl
  | cons v vs ih => rw [bareItems, ih, List.map_cons]

theorem bareEntries_eq (entries : List (Value × Value)) :
    bareEntries entries = Dict.mapBoth bare entries := by
  induction entries with
  | nil => rfl
  | cons e es ih =>
    rw [bareEntries, ih]
    rfl

@[simp] theorem bare_seq (kind : SeqKind) (items : List Value) (tag : Value) :
    bare (.seq kind items tag) = .seq kind (items.map bare) .nil := by
  rw [bare, bareItems_eq]

@[simp] theorem bare_map (entries : Dict) (tag : Value) :
    bare (.map entries tag) = .map (Dict.mapBoth bare entries) .nil := by
  rw [bare, bareEntries_eq]

@[simp] theorem bare_closure (params : Params) (body : Value) (scope : Scope) (isMacro : Bool)
    (tag : Value) : bare (.closure params body scope isMacro tag) =
      .closure params (bare body) scope isMacro .nil := by
  rw [bare]

theorem keepsLayers_bare : KeepsLayers bare where
  layer v := by
    cases v with
    | seq kind items tag =>
      rw [bare_seq]
      exact .seq kind items tag .nil
    | map entries tag =>
      rw [bare_map]
      exact .map entries tag .nil
    | closure params body scope isMacro tag =>
      rw [bare_closure]
      exact .closure params body _ scope ..
    | _ => exact .leaf trivial
  list items := bare_seq .list items .nil

/-! ### Values that differ in metadata -/

/-- The second value is the first with metadata added, removed or replaced on any layers. -/
inductive Retagged : Value → Value → Prop
  | leaf {v : Value} : v.Childless → Retagged v v
  | seq {kind : SeqKind} {items items' : List Value} (tag tag' : Value) :
    List.Forall₂ Retagged items items' → Retagged (.seq kind items tag) (.seq kind items' tag')
  | map {entries entries' : Dict} (tag tag' : Value) :
    List.Forall₂ Retagged (entries.map Prod.fst) (entries'.map Prod.fst) →
      List.Forall₂ Retagged (entries.map Prod.snd) (entries'.map Prod.snd) →
        Retagged (.map entries tag) (.map entries' tag')
  | closure {params : Params} {body body' : Value} {scope : Scope} {isMacro : Bool}
    (tag tag' : Value) : Retagged body body' →
      Retagged (.closure params body scope isMacro tag) (.closure params body' scope isMacro tag')

/-- Lists are related element by element if what `f` makes of them is the same. -/
theorem forall₂_iff_map_eq {R : Value → Value → Prop} {f : Value → Value} {xs ys : List Value}
    (hR : ∀ x ∈ xs, ∀ y, R x y ↔ f x = f y) :
    List.Forall₂ R xs ys ↔ xs.map f = ys.map f := by
  induction xs generalizing ys with
  | nil => cases ys <;> simp
  | cons x xs ih =>
    cases ys with
    | nil => simp
    | cons y ys =>
      obtain ⟨hx, hxs⟩ := List.forall_mem_cons.mp hR
      rw [List.forall₂_cons, List.map_cons, List.map_cons, List.cons.injEq, hx, ih hxs]

theorem mapBoth_eq_iff {f : Value → Value} {d d' : Dict} :
    Dict.mapBoth f d = Dict.mapBoth f d' ↔
      (d.map Prod.fst).map f = (d'.map Prod.fst).map f ∧
        (d.map Prod.snd).map f = (d'.map Prod.snd).map f := by
  induction d generalizing d' with
  | nil => cases d' <;> simp
  | cons e d ih =>
    cases d' with
    | nil => simp
    | cons e' d' =>
      simp only [Dict.mapBoth, List.map_cons, List.cons.injEq, Prod.mk.injEq] at ih ⊢
      rw [ih]
      exact and_and_and_comm

theorem eq_of_bare_eq {v w : Value} (h : v.Childless) (hw : v.bare = w.bare) : v = w := by
  rw [keepsLayers_bare.leaf h] at hw
  cases w with
  | seq =>
    rw [bare_seq] at hw
    exact (hw ▸ h : Childless (.seq ..)).elim
  | map =>
    rw [bare_map] at hw
    exact (hw ▸ h : Childless (.map ..)).elim
  | closure =>
    rw [bare_closure] at hw
    exact (hw ▸ h : Childless (.closure ..)).elim
  | _ => exact hw

/-- Values are retagged if they are the same without metadata. -/
theorem retagged_iff {a b : Value} : Retagged a b ↔ a.bare = b.bare := by
  induction a generalizing b with
  | seq kind items tag hitems =>
    have hall (items' : List Value) :
        List.Forall₂ Retagged items items' ↔ items.map bare = items'.map bare :=
      forall₂_iff_map_eq fun x hx y => hitems x hx
    constructor
    · intro h
      cases h with
      | leaf h => exact h.elim
      | seq _ _ h => rw [bare_seq, bare_seq, (hall _).mp h]
    · intro h
      cases b with
      | seq kind' items' tag' =>
        rw [bare_seq, bare_seq, seq.injEq] at h
        obtain ⟨rfl, h, -⟩ := h
        exact .seq tag tag' ((hall _).mpr h)
      | _ => simp [bare] at h
  | map entries tag hentries =>
    have hkeys (entries' : Dict) : List.Forall₂ Retagged (entries.map Prod.fst)
        (entries'.map Prod.fst) ↔
          (entries.map Prod.fst).map bare = (entries'.map Prod.fst).map bare :=
      forall₂_iff_map_eq fun x hx y => by
        obtain ⟨e, he, rfl⟩ := List.mem_map.mp hx
        exact (hentries e he).1
    have hvalues (entries' : Dict) : List.Forall₂ Retagged (entries.map Prod.snd)
        (entries'.map Prod.snd) ↔
          (entries.map Prod.snd).map bare = (entries'.map Prod.snd).map bare :=
      forall₂_iff_map_eq fun x hx y => by
        obtain ⟨e, he, rfl⟩ := List.mem_map.mp hx
        exact (hentries e he).2
    constructor
    · intro h
      cases h with
      | leaf h => exact h.elim
      | map _ _ hk hv =>
        rw [bare_map, bare_map, mapBoth_eq_iff.mpr ⟨(hkeys _).mp hk, (hvalues _).mp hv⟩]
    · intro h
      cases b with
      | map entries' tag' =>
        rw [bare_map, bare_map, map.injEq, mapBoth_eq_iff] at h
        exact .map tag tag' ((hkeys _).mpr h.1.1) ((hvalues _).mpr h.1.2)
      | _ => simp [bare] at h
  | closure params body scope isMacro tag hbody =>
    constructor
    · intro h
      cases h with
      | leaf h => exact h.elim
      | closure _ _ h => rw [bare_closure, bare_closure, hbody.mp h]
    · intro h
      cases b with
      | closure params' body' scope' isMacro' tag' =>
        rw [bare_closure, bare_closure, closure.injEq] at h
        obtain ⟨rfl, h, rfl, rfl, -⟩ := h
        exact .closure tag tag' (hbody.mpr h)
      | _ => simp [bare] at h
  | _ =>
    constructor
    · intro h
      cases h
      rfl
    · intro h
      exact eq_of_bare_eq (by trivial) h ▸ .leaf trivial

theorem forall₂_retagged_iff {vs ws : List Value} :
    List.Forall₂ Retagged vs ws ↔ vs.map bare = ws.map bare :=
  forall₂_iff_map_eq fun _ _ _ => retagged_iff

namespace Retagged

variable {a a' b b' : Value}

/-- Retagged values compare alike. -/
theorem equal_eq (ha : Retagged a a') (hb : Retagged b b') : a'.equal b' = a.equal b := by
  have hf := keepsLayers_bare
  rw [← hf.equal_eq a' b', ← retagged_iff.mp ha, ← retagged_iff.mp hb, hf.equal_eq]

/-- Retagged values are shown alike. -/
theorem shownAlike (ha : Retagged a a') : a'.ShownAlike a where
  render_eq style cell := by
    have hf := keepsLayers_bare
    rw [← hf.render_eq style cell a', ← retagged_iff.mp ha, hf.render_eq]
  atomsAll_eq p := by
    have hf := keepsLayers_bare
    rw [← hf.atomsAll_eq p a', ← retagged_iff.mp ha, hf.atomsAll_eq]

end Retagged

end Value

open Value

/-! ### Atoms that hold retagged values -/

namespace State

variable {s s' : State} (h : List.Forall₂ Retagged s.cells.toList s'.cells.toList)
include h

theorem content_retagged (c : CellId) : Retagged (s.content c) (s'.content c) := by
  have hbare (s : State) : (s.content c).bare = ((s.cells.toList.map bare)[c]?).getD .nil := by
    rw [content, List.getElem?_map, Array.getElem?_toList]
    cases s.cells[c]? <;> rfl
  rw [retagged_iff, hbare, hbare, forall₂_retagged_iff.mp h]

/-- Retagged values have the same text where atoms hold retagged values. -/
theorem render_retagged {a a' : Value} (ha : Retagged a a') (style : Style) :
    s'.render style a' = s.render style a :=
  render_congr (fun c => (content_retagged h c).shownAlike) h.length_eq.symm ha.shownAlike style

/-- Retagged values have a text or none alike where atoms hold retagged values. -/
theorem prints_retagged {a a' : Value} (ha : Retagged a a') : s'.prints a' = s.prints a :=
  prints_congr (fun c => (content_retagged h c).shownAlike) h.length_eq.symm ha.shownAlike

end State

/-! ### Places of keys -/

namespace Dict

/-- The place of the first key equal to `key`. -/
def position? (key : Value) : Dict → Except Error (Option Nat)
  | [] => .ok none
  | (k, _) :: d => do
    if ← k.equal key then .ok (some 0) else return (← position? key d).map (· + 1)

/-- The entries with this one at a place, or behind all others if there is no place for it. -/
def putAt (d : Dict) (entry : Value × Value) : Option Nat → Dict
  | some i => d.set i entry
  | none => d ++ [entry]

/-- The entries without the one at a place. -/
def dropAt (d : Dict) : Option Nat → Dict
  | some i => d.eraseIdx i
  | none => d

/-- The value of the entry at a place. -/
def valueAt? (d : Dict) : Option Nat → Option Value
  | some i => d[i]?.map Prod.snd
  | none => none

variable {key v : Value} {d : Dict}

theorem position?_mapBoth {f : Value → Value} (hf : KeepsLayers f) (key : Value) (d : Dict) :
    position? (f key) (mapBoth f d) = position? key d := by
  induction d with
  | nil => rfl
  | cons e d ih =>
    obtain ⟨k, v⟩ := e
    rw [mapBoth, List.map_cons, position?, position?, hf.equal_eq, ih]

/-- What goes through the entries up to the first key equal to the given one, and is put together
with `step` on the way back, is decided by the place of that key. -/
theorem eq_position {γ : Type} {g : Dict → Except Error γ} (place : Dict → Option Nat → γ)
    (step : Value × Value → γ → γ) (hnil : g [] = .ok (place [] none))
    (hcons : ∀ e d, g (e :: d) = e.1.equal key >>= fun found =>
      if found then .ok (place (e :: d) (some 0)) else g d >>= fun c => .ok (step e c))
    (hstep : ∀ e d i?, step e (place d i?) = place (e :: d) (i?.map (· + 1))) (d : Dict) :
    g d = place d <$> d.position? key := by
  induction d with
  | nil => exact hnil
  | cons e d ih =>
    rw [hcons, position?, ih]
    cases e.1.equal key with
    | error e => rfl
    | ok found =>
      cases found with
      | true => rfl
      | false =>
        cases position? key d with
        | error e => rfl
        | ok i? => exact congrArg Except.ok (hstep e d i?)

theorem find?_eq_position (key : Value) (d : Dict) :
    d.find? key = d.valueAt? <$> d.position? key := by
  have hid (x : Except Error (Option Value)) : (x >>= fun v? => .ok v?) = x := bind_pure x
  refine eq_position valueAt? (fun _ v? => v?) rfl (fun e d => ?_) (fun e d i? => ?_) d
  · rw [hid]
    rfl
  · cases i? <;> rfl

theorem contains_eq_position (key : Value) (d : Dict) :
    d.contains key = (·.isSome) <$> d.position? key := by
  refine eq_position (g := contains key) (fun _ => Option.isSome) (fun _ b => b) rfl
    (fun e d => ?_) (fun e d i? => ?_) d
  · rw [contains, contains, find?]
    cases e.1.equal key with
    | error e => rfl
    | ok found =>
      cases found with
      | true => rfl
      | false => cases find? key d <;> rfl
  · cases i? <;> rfl

theorem insert_eq_position (key v : Value) (d : Dict) :
    d.insert key v = d.putAt (key, v) <$> d.position? key :=
  eq_position (putAt · (key, v)) List.cons rfl (fun _ _ => rfl)
    (fun e d i? => by cases i? <;> rfl) d

theorem erase_eq_position (key : Value) (d : Dict) :
    d.erase key = d.dropAt <$> d.position? key :=
  eq_position (g := erase key) dropAt List.cons rfl (fun _ _ => rfl)
    (fun e d i? => by cases i? <;> rfl) d

/-- A retagged key is found at the same place in retagged entries. -/
theorem position?_retagged {key' : Value} {d' : Dict} {tag tag' : Value} (hkey : Retagged key key')
    (hd : Retagged (.map d tag) (.map d' tag')) : d'.position? key' = d.position? key := by
  have hf := keepsLayers_bare
  have hd : mapBoth bare d = mapBoth bare d' := by
    rw [retagged_iff, bare_map, bare_map, map.injEq] at hd
    exact hd.1
  rw [← position?_mapBoth hf key' d', ← retagged_iff.mp hkey, ← hd, position?_mapBoth hf]

end Dict

/-! ### Metadata decides nothing -/

/-- Retagged templates fail to expand alike, or have retagged expansions. -/
theorem Template.expand_retagged {t t' : Value} (ht : Retagged t t') (limit room : Nat) :
    (∀ e, expand limit room t = .error e ↔ expand limit room t' = .error e) ∧
      ∀ u u', expand limit room t = .ok u → expand limit room t' = .ok u' → Retagged u u' := by
  have hf := keepsLayers_bare
  have h : bare <$> expand limit room t = bare <$> expand limit room t' := by
    rw [← expand_map hf, ← expand_map hf, retagged_iff.mp ht]
  generalize expand limit room t = x at h
  generalize expand limit room t' = y at h
  refine ⟨fun e => ?_, ?_⟩
  · rw [← map_eq_error_iff, h, map_eq_error_iff]
  · rintro u u' rfl rfl
    exact retagged_iff.mpr (Except.ok.inj h)

/-- Metadata that is added, removed or replaced anywhere in values changes neither how they compare,
nor whether they have a text and which, nor where a key is found in a map, which alone decides what looking up, inserting
and erasing do, nor the parameters that forms stand for, nor the expansion of a template but for
metadata. -/
theorem metadata_decides_nothing {a a' b b' : Value} (ha : Retagged a a') (hb : Retagged b b') :
    a'.equal b' = a.equal b ∧
    (∀ style s s', List.Forall₂ Retagged s.cells.toList s'.cells.toList →
      State.prints s' a' = State.prints s a ∧
      State.render s' style a' = State.render s style a) ∧
    (∀ (d d' : Dict) (tag tag' : Value), Retagged (.map d tag) (.map d' tag') →
      d'.position? a' = d.position? a) ∧
    (∀ (key v : Value) (d : Dict),
      d.find? key = d.valueAt? <$> d.position? key ∧
      d.contains key = (·.isSome) <$> d.position? key ∧
      d.insert key v = d.putAt (key, v) <$> d.position? key ∧
      d.erase key = d.dropAt <$> d.position? key) ∧
    (∀ forms forms', List.Forall₂ Retagged forms forms' →
      Params.parse forms' = Params.parse forms) ∧
    ∀ limit room,
      (∀ e, Template.expand limit room a = .error e ↔ Template.expand limit room a' = .error e) ∧
      ∀ u u', Template.expand limit room a = .ok u → Template.expand limit room a' = .ok u' →
        Retagged u u' := by
  refine ⟨ha.equal_eq hb,
    fun style s s' h => ⟨State.prints_retagged h ha, State.render_retagged h ha style⟩,
    fun d d' tag tag' hd => Dict.position?_retagged ha hd, fun key v d => ⟨?_, ?_, ?_, ?_⟩,
    fun forms forms' h => ?_, Template.expand_retagged ha⟩
  · exact Dict.find?_eq_position key d
  · exact Dict.contains_eq_position key d
  · exact Dict.insert_eq_position key v d
  · exact Dict.erase_eq_position key d
  · have hf := keepsLayers_bare
    rw [← Params.parse_map hf forms', ← forall₂_retagged_iff.mp h, Params.parse_map hf]

/-- A vector with metadata on itself and on the list in it, as the key of a closure whose body is
that vector. -/
theorem metadata_decides_nothing_key :
    let key (tag : Value) := Value.seq .vector [.seq .list [] tag] tag
    let f (tag : Value) := Value.closure ⟨["x"], none⟩ (key tag) (.global 0) false tag
    let doc := Value.text "doc"
    (Retagged (key .nil) (key doc) ∧ Retagged (f .nil) (f doc) ∧
      Retagged (.map [(key .nil, f .nil)] .nil) (.map [(key doc, f doc)] doc)) ∧
      (key doc).equal (f doc) = .ok false ∧
      Dict.position? (key doc) [(key doc, f doc)] = .ok (some 0) ∧
      Params.parse [key doc] = .error (.type (.parameter .vector)) ∧
      ∀ u, Template.expand 1 1 (key doc) ≠ .ok u := by
  intro key f doc
  have hkey : Retagged (key .nil) (key doc) :=
    .seq .nil doc (.cons (.seq .nil doc .nil) .nil)
  have hf : Retagged (f .nil) (f doc) := .closure .nil doc hkey
  have hd : Retagged (.map [(key .nil, f .nil)] .nil) (.map [(key doc, f doc)] doc) :=
    .map .nil doc (.cons hkey .nil) (.cons hf .nil)
  obtain ⟨hequal, -, hposition, -, hparse, hexpand⟩ := metadata_decides_nothing hkey hf
  refine ⟨⟨hkey, hf, hd⟩, hequal.trans ?_, (hposition _ _ _ _ hd).trans ?_,
    (hparse _ _ (.cons hkey .nil)).trans rfl, fun u hu => ?_⟩
  · simp [key, f, equal]
  · simp [key, Dict.position?, equal, equalItems, bind, Except.bind]
  · have herror := ((hexpand 1 1).1 (.depthExceeded 1)).mp rfl
    cases hu.symm.trans herror

end Lisp
