import Lisp.Proofs.Invariant.Frames
import Lisp.Proofs.Value.Dict
import Lisp.Proofs.Value.Layers

/-!
# Values whose frames are numbered differently

The number of a frame is part of the closures that captured it, but nothing that is done with values
looks at it: values compare alike, are rendered alike and are found at the same keys, whatever
numbers their frames have. Computations on values that end in an error or a value are matched by the
same computations on the renumbered values (`Matches`).
-/

namespace Lisp

/-- The scope with the frames that `ρ` puts in the place of its own. -/
def Scope.renumber (ρ : FrameId → FrameId) (c : Scope) : Scope :=
  ⟨c.inner.map ρ, ρ c.root⟩

namespace Value

mutual

/-- The value with other numbers for the frames of the scopes that it captures. -/
def renumber (ρ : FrameId → FrameId) : Value → Value
  | .seq kind items tag => .seq kind (renumberItems ρ items) (renumber ρ tag)
  | .map entries tag => .map (renumberEntries ρ entries) (renumber ρ tag)
  | .closure params body scope isMacro tag =>
    .closure params (renumber ρ body) (scope.renumber ρ) isMacro (renumber ρ tag)
  | v => v

/-- The elements with other numbers for frames. -/
def renumberItems (ρ : FrameId → FrameId) : List Value → List Value
  | [] => []
  | v :: vs => renumber ρ v :: renumberItems ρ vs

/-- The entries with other numbers for frames. -/
def renumberEntries (ρ : FrameId → FrameId) : List (Value × Value) → List (Value × Value)
  | [] => []
  | (k, v) :: es => (renumber ρ k, renumber ρ v) :: renumberEntries ρ es

end

end Value

/-- Two values with other numbers for frames. -/
abbrev renumberPair (ρ : FrameId → FrameId) (p : Value × Value) : Value × Value :=
  (p.1.renumber ρ, p.2.renumber ρ)

/-- The entries of a map with other numbers for frames. -/
abbrev Dict.renumber (ρ : FrameId → FrameId) (d : Dict) : Dict :=
  d.map (renumberPair ρ)

namespace Value

variable {ρ : FrameId → FrameId}

theorem renumberItems_eq (items : List Value) :
    renumberItems ρ items = items.map (renumber ρ) := by
  induction items with
  | nil => rfl
  | cons v vs ih => rw [renumberItems, ih, List.map_cons]

theorem renumberEntries_eq (entries : List (Value × Value)) :
    renumberEntries ρ entries = Dict.renumber ρ entries := by
  induction entries with
  | nil => rfl
  | cons e es ih =>
    rw [renumberEntries, ih]
    rfl

/-- What consists of itself alone stays as it is. -/
theorem renumber_of_childless {v : Value} (h : v.Childless) : renumber ρ v = v := by
  cases v with
  | seq | map | closure => exact h.elim
  | _ => rfl

@[simp] theorem renumber_nil : renumber ρ .nil = .nil :=
  renumber_of_childless trivial

@[simp] theorem renumber_bool (b : Bool) : renumber ρ (.bool b) = .bool b :=
  renumber_of_childless trivial

@[simp] theorem renumber_int (n : Int64) : renumber ρ (.int n) = .int n :=
  renumber_of_childless trivial

@[simp] theorem renumber_symbol (name : String) : renumber ρ (.symbol name) = .symbol name :=
  renumber_of_childless trivial

@[simp] theorem renumber_text (s : String) : renumber ρ (.text s) = .text s :=
  renumber_of_childless trivial

@[simp] theorem renumber_builtin (b : Builtin) : renumber ρ (.builtin b) = .builtin b :=
  renumber_of_childless trivial

@[simp] theorem renumber_atom (c : CellId) : renumber ρ (.atom c) = .atom c :=
  renumber_of_childless trivial

@[simp] theorem renumber_seq (kind : SeqKind) (items : List Value) (tag : Value) :
    renumber ρ (.seq kind items tag) = .seq kind (items.map (renumber ρ)) (renumber ρ tag) := by
  rw [renumber, renumberItems_eq]

@[simp] theorem renumber_map (entries : Dict) (tag : Value) :
    renumber ρ (.map entries tag) = .map (Dict.renumber ρ entries) (renumber ρ tag) := by
  rw [renumber, renumberEntries_eq]

@[simp] theorem renumber_closure (params : Params) (body : Value) (scope : Scope) (isMacro : Bool)
    (tag : Value) : renumber ρ (.closure params body scope isMacro tag) =
      .closure params (renumber ρ body) (scope.renumber ρ) isMacro (renumber ρ tag) := by
  rw [renumber]

@[simp] theorem renumber_list (items : List Value) :
    renumber ρ (.list items) = .list (items.map (renumber ρ)) := by
  rw [list, renumber_seq, renumber_nil, list]

@[simp] theorem renumber_vector (items : List Value) :
    renumber ρ (.vector items) = .vector (items.map (renumber ρ)) := by
  rw [vector, renumber_seq, renumber_nil, vector]

@[simp] theorem renumber_dict (entries : Dict) :
    renumber ρ (.dict entries) = .dict (Dict.renumber ρ entries) := by
  rw [dict, renumber_map, renumber_nil, dict]

@[simp] theorem renumber_keyword (name : String) : renumber ρ (.keyword name) = .keyword name := by
  unfold keyword
  split <;> exact renumber_text _

/-- A value whose scopes keep their numbers stays as it is. -/
theorem renumber_eq_self {v : Value} (h : ∀ c, v.Captures c → c.renumber ρ = c) :
    v.renumber ρ = v := by
  induction v with
  | seq kind items tag hitems htag =>
    have hpart {x : Value} (hx : x ∈ items) (c : Scope) :
        x.Captures c → Captures (.seq kind items tag) c :=
      fun ⟨params, body, isMacro, tag, hc⟩ => ⟨params, body, isMacro, tag, .item hx hc⟩
    have htag := htag fun c ⟨params, body, isMacro, tag, hc⟩ =>
      h c ⟨params, body, isMacro, tag, .seqTag trivial hc⟩
    rw [renumber_seq, htag, List.map_congr_left fun x hx =>
      hitems x hx fun c hc => h c (hpart hx c hc), List.map_id']
  | map entries tag hentries htag =>
    have htag := htag fun c ⟨params, body, isMacro, tag, hc⟩ =>
      h c ⟨params, body, isMacro, tag, .mapTag trivial hc⟩
    have hentry {e : Value × Value} (he : e ∈ entries) : renumberPair ρ e = e := by
      refine Prod.ext ((hentries e he).1 fun c hc => ?_) ((hentries e he).2 fun c hc => ?_)
      · obtain ⟨params, body, isMacro, tag, hc⟩ := hc
        exact h c ⟨params, body, isMacro, tag, .key he hc⟩
      · obtain ⟨params, body, isMacro, tag, hc⟩ := hc
        exact h c ⟨params, body, isMacro, tag, .value he hc⟩
    rw [renumber_map, htag, Dict.renumber, List.map_congr_left fun e he => hentry he, List.map_id']
  | closure params body scope isMacro tag hbody htag =>
    have hbody := hbody fun c ⟨params, body, isMacro, tag, hc⟩ =>
      h c ⟨params, body, isMacro, tag, .body trivial hc⟩
    have htag := htag fun c ⟨params, body, isMacro, tag, hc⟩ =>
      h c ⟨params, body, isMacro, tag, .closureTag trivial hc⟩
    rw [renumber_closure, hbody, htag, h scope ⟨params, body, isMacro, tag, .self⟩]
  | _ => exact renumber_of_childless trivial

/-! ### What does not depend on the numbers of frames -/

theorem keepsLayers_renumber : KeepsLayers (renumber ρ) where
  layer v := by
    cases v with
    | seq kind items tag =>
      rw [renumber_seq]
      exact .seq kind items tag _
    | map entries tag =>
      rw [renumber_map]
      exact .map entries tag _
    | closure params body scope isMacro tag =>
      rw [renumber_closure]
      exact .closure params body _ scope ..
    | _ => exact .leaf trivial
  list := renumber_list

@[simp] theorem kind_renumber (v : Value) : (v.renumber ρ).kind = v.kind :=
  keepsLayers_renumber.kind_eq v

@[simp] theorem isTruthy_renumber (v : Value) : (v.renumber ρ).isTruthy = v.isTruthy := by
  cases v <;> simp [isTruthy]

@[simp] theorem symbol?_renumber (v : Value) : (v.renumber ρ).symbol? = v.symbol? :=
  keepsLayers_renumber.symbol?_eq v

@[simp] theorem items?_renumber (v : Value) :
    (v.renumber ρ).items? = v.items?.map (List.map (renumber ρ)) :=
  keepsLayers_renumber.items?_eq v

@[simp] theorem call?_renumber (v : Value) : (v.renumber ρ).call? =
    v.call?.map fun p => (p.1.renumber ρ, p.2.map (renumber ρ)) := by
  cases v with
  | seq kind items tag => cases kind <;> cases items <;> simp [call?]
  | _ => simp [call?]

@[simp] theorem isForm_renumber (head : String) (v : Value) :
    (v.renumber ρ).isForm head = v.isForm head :=
  keepsLayers_renumber.isForm_eq head v

@[simp] theorem metadata_renumber (v : Value) :
    (v.renumber ρ).metadata = v.metadata.renumber ρ := by
  cases v <;> simp [metadata]

@[simp] theorem withMetadata?_renumber (v tag : Value) :
    (v.renumber ρ).withMetadata? (tag.renumber ρ) =
      (v.withMetadata? tag).map (renumber ρ) := by
  cases v <;> simp [withMetadata?]

/-- The numbers of frames do not count when values are compared. -/
@[simp] theorem equal_renumber (a b : Value) :
    (a.renumber ρ).equal (b.renumber ρ) = a.equal b :=
  keepsLayers_renumber.equal_eq a b

end Value

/-! ### Computations on values -/

/-- The error with other numbers for frames in what was thrown. -/
def Error.renumber (ρ : FrameId → FrameId) : Error → Error
  | .thrown v => .thrown (v.renumber ρ)
  | e => e

@[simp] theorem Error.payload_renumber {ρ : FrameId → FrameId} (e : Error) :
    (e.renumber ρ).payload = e.payload.renumber ρ := by
  cases e <;> simp [renumber, payload]

/-- Two computations fail alike, or they yield what corresponds by `g`. -/
inductive Matches {α β : Type} (ρ : FrameId → FrameId) (g : α → β) :
    Except Error α → Except Error β → Prop
  | ok (a : α) : Matches ρ g (.ok a) (.ok (g a))
  | error (e : Error) : Matches ρ g (.error e) (.error (e.renumber ρ))

namespace Matches

variable {α β γ δ : Type} {ρ : FrameId → FrameId} {g : α → β} {g' : γ → δ}

theorem of_eq {a : α} {b : β} (h : g a = b) : Matches ρ g (.ok a) (.ok b) :=
  h ▸ .ok a

theorem pure {a : α} {b : β} (h : g a = b) : Matches ρ g (Pure.pure a) (Pure.pure b) :=
  of_eq h

/-- An error that nothing was thrown for is the same. -/
theorem error_self {e : Error} (h : e.renumber ρ = e) : Matches ρ g (.error e) (.error e) := by
  have he : Matches ρ g (.error e) (.error (e.renumber ρ)) := .error e
  rwa [h] at he

theorem bind {x : Except Error α} {y : Except Error β} {f : α → Except Error γ}
    {f' : β → Except Error δ} (h : Matches ρ g x y) (k : ∀ a, Matches ρ g' (f a) (f' (g a))) :
    Matches ρ g' (x >>= f) (y >>= f') := by
  cases h with
  | ok a => exact k a
  | error e => exact .error e

/-- A computation that commutes with `g` is matched if its errors carry no frames. -/
theorem of_map {x : Except Error α} {y : Except Error β} (h : y = g <$> x)
    (he : ∀ e, x = .error e → e.renumber ρ = e) : Matches ρ g x y := by
  cases x with
  | ok a => exact h ▸ .ok a
  | error e => exact h ▸ .error_self (he e rfl)

/-- A computation whose errors carry no frames matches itself. -/
theorem self {x : Except Error α} (h : ∀ e, x = .error e → e.renumber ρ = e) :
    Matches ρ id x x := by
  cases x with
  | ok a => exact .ok a
  | error e => exact .error_self (h e rfl)

end Matches

namespace Value

variable {ρ : FrameId → FrameId}

theorem equal_matches (a b : Value) :
    Matches ρ id (a.equal b) ((a.renumber ρ).equal (b.renumber ρ)) := by
  rw [equal_renumber]
  refine .self fun e he => ?_
  rw [equal_error he]
  rfl

end Value

namespace Dict

variable {ρ : FrameId → FrameId}

theorem find?_matches (key : Value) (d : Dict) :
    Matches ρ (Option.map (Value.renumber ρ)) (find? key d)
      (find? (key.renumber ρ) (d.renumber ρ)) :=
  .of_map (find?_mapBoth Value.keepsLayers_renumber key d) fun e he => by rw [find?_error he]; rfl

theorem contains_matches (key : Value) (d : Dict) :
    Matches ρ id (contains key d) (contains (key.renumber ρ) (d.renumber ρ)) :=
  (find?_matches key d).bind fun v? => .pure (by cases v? <;> rfl)

theorem insert_matches (key v : Value) (d : Dict) :
    Matches ρ (Dict.renumber ρ) (insert key v d)
      (insert (key.renumber ρ) (v.renumber ρ) (d.renumber ρ)) :=
  .of_map (insert_mapBoth Value.keepsLayers_renumber key v d) fun e he => by
    rw [insert_error he]
    rfl

theorem erase_matches (key : Value) (d : Dict) :
    Matches ρ (Dict.renumber ρ) (erase key d) (erase (key.renumber ρ) (d.renumber ρ)) :=
  .of_map (erase_mapBoth Value.keepsLayers_renumber key d) fun e he => by rw [erase_error he]; rfl

theorem insertAll_matches (d : Dict) (values : List Value) :
    Matches ρ (Dict.renumber ρ) (insertAll d values)
      (insertAll (d.renumber ρ) (values.map (Value.renumber ρ))) := by
  fun_induction insertAll d values with
  | case1 d key v rest ih => exact (insert_matches key v d).bind fun d => ih d
  | case2 values d hvalues =>
    rcases values with _ | ⟨key, _ | ⟨v, rest⟩⟩
    · exact .ok d
    · exact .ok d
    · exact absurd rfl (hvalues key v rest)

theorem ofValues_matches (values : List Value) :
    Matches ρ (Dict.renumber ρ) (ofValues values) (ofValues (values.map (Value.renumber ρ))) := by
  rw [ofValues, ofValues, List.length_map]
  split
  · exact insertAll_matches [] values
  · exact .error_self rfl

theorem eraseAll_matches (d : Dict) (keys : List Value) :
    Matches ρ (Dict.renumber ρ) (eraseAll d keys)
      (eraseAll (d.renumber ρ) (keys.map (Value.renumber ρ))) := by
  induction keys generalizing d with
  | nil => exact .ok d
  | cons key keys ih => exact (erase_matches key d).bind ih

end Dict

end Lisp
