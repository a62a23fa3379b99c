import Lisp.Proofs.Value.Dict

/-!
# Shapes of values

A shape asks something of the entries of every map and of the scope of every closure in a value, at
any depth, metadata and the bodies of closures included. A shape is lawful if inserting and erasing
entries never leads out of it; then nothing that works on values without looking at the state does,
as the modules on reading, templates and built-in functions show.
-/

namespace Lisp

/-- What is asked of the maps and closures in a value. -/
structure Shape where
  /-- Of the entries of a map. -/
  entries : Dict → Prop
  /-- Of the scope of a closure. -/
  scope : Scope → Prop

namespace Shape

/-- What a shape asks of the outermost layer of a value. -/
def layer (S : Shape) : Value → Prop
  | .map entries _ => S.entries entries
  | .closure _ _ scope _ _ => S.scope scope
  | _ => True

/-- A value of this shape. -/
def Fits (S : Shape) (v : Value) : Prop :=
  v.HoldsIn True S.layer

/-- The entries of a map of this shape. -/
def FitsDict (S : Shape) (d : Dict) : Prop :=
  S.entries d ∧ ∀ e ∈ d, S.Fits e.1 ∧ S.Fits e.2

variable {S : Shape}

theorem Fits.leaf {v : Value} (h : v.Childless) : S.Fits v := by
  refine (Value.holdsIn_iff_of_childless h).mpr ?_
  cases v <;> trivial

@[simp] theorem fits_seq {kind : SeqKind} {items : List Value} {tag : Value} :
    S.Fits (.seq kind items tag) ↔ (∀ v ∈ items, S.Fits v) ∧ S.Fits tag := by
  simp [Fits, Value.holdsIn_seq_iff, layer]

@[simp] theorem fits_map {entries : Dict} {tag : Value} :
    S.Fits (.map entries tag) ↔ S.FitsDict entries ∧ S.Fits tag := by
  simp [Fits, FitsDict, Value.holdsIn_map_iff, layer, and_assoc]

@[simp] theorem fits_closure {params : Params} {body : Value} {scope : Scope} {isMacro : Bool}
    {tag : Value} :
    S.Fits (.closure params body scope isMacro tag) ↔ S.scope scope ∧ S.Fits body ∧ S.Fits tag := by
  simp [Fits, Value.holdsIn_closure_iff, layer]

@[simp] theorem fits_list {items : List Value} : S.Fits (.list items) ↔ ∀ v ∈ items, S.Fits v := by
  simp [Value.list, Fits.leaf (v := .nil) trivial]

@[simp] theorem fits_vector {items : List Value} :
    S.Fits (.vector items) ↔ ∀ v ∈ items, S.Fits v := by
  simp [Value.vector, Fits.leaf (v := .nil) trivial]

@[simp] theorem fits_dict {entries : Dict} : S.Fits (.dict entries) ↔ S.FitsDict entries := by
  simp [Value.dict, Fits.leaf (v := .nil) trivial]

theorem Fits.metadata {v : Value} (h : S.Fits v) : S.Fits v.metadata := by
  cases v with
  | seq kind items tag => exact (fits_seq.mp h).2
  | map entries tag => exact (fits_map.mp h).2
  | closure params body scope isMacro tag => exact (fits_closure.mp h).2.2
  | _ => exact .leaf trivial

theorem fits_withMetadata {v tag w : Value} (hv : S.Fits v) (htag : S.Fits tag)
    (h : v.withMetadata? tag = some w) : S.Fits w := by
  cases v with
  | seq kind items _ =>
    cases h
    exact fits_seq.mpr ⟨(fits_seq.mp hv).1, htag⟩
  | map entries _ =>
    cases h
    exact fits_map.mpr ⟨(fits_map.mp hv).1, htag⟩
  | closure params body scope isMacro _ =>
    cases h
    obtain ⟨hscope, hbody, -⟩ := fits_closure.mp hv
    exact fits_closure.mpr ⟨hscope, hbody, htag⟩
  | _ => cases h

theorem fits_keyword (name : String) : S.Fits (.keyword name) := by
  unfold Value.keyword
  split
  · exact .leaf trivial
  · exact .leaf trivial

/-- More values have the shape that asks less of the scopes. -/
theorem Fits.mono {scope : Scope → Prop} (h : ∀ c, S.scope c → scope c) {v : Value}
    (hv : S.Fits v) : Fits { S with scope } v := by
  intro w hw
  have hlayer := hv w hw
  cases w with
  | closure => exact h _ hlayer
  | _ => exact hlayer

/-! ### Computations without a state -/

section Answers

variable {α β : Type} {P : α → Prop} {Q : β → Prop}

/-- A computation that yields something with a property, or an error whose payload is of the
shape. -/
def Answers (S : Shape) (P : α → Prop) : Except Error α → Prop
  | .ok a => P a
  | .error e => S.Fits e.payload

theorem Answers.pure {a : α} (h : P a) : S.Answers P (Pure.pure a) :=
  h

theorem Answers.bind {x : Except Error α} {f : α → Except Error β} (h : S.Answers P x)
    (k : ∀ a, P a → S.Answers Q (f a)) : S.Answers Q (x >>= f) := by
  cases x with
  | ok a => exact k a h
  | error e => exact h

theorem Answers.map {x : Except Error α} {f : α → β} (h : S.Answers P x)
    (k : ∀ a, P a → Q (f a)) : S.Answers Q (f <$> x) := by
  cases x with
  | ok a => exact k a h
  | error e => exact h

theorem answers_equal (a b : Value) : S.Answers (fun _ => True) (a.equal b) := by
  cases h : a.equal b with
  | ok r => trivial
  | error e =>
    rw [Value.equal_error h]
    exact Fits.leaf trivial

theorem answers_find? {d : Dict} (hd : S.FitsDict d) (key : Value) :
    S.Answers (fun v? => ∀ v, v? = some v → S.Fits v) (d.find? key) := by
  cases h : d.find? key with
  | ok v? =>
    rintro v rfl
    obtain ⟨k, hk, -⟩ := Dict.mem_of_find? h
    exact (hd.2 _ hk).2
  | error e =>
    rw [Dict.find?_error h]
    exact Fits.leaf trivial

theorem answers_contains {d : Dict} (hd : S.FitsDict d) (key : Value) :
    S.Answers (fun _ => True) (d.contains key) :=
  (answers_find? hd key).bind fun _ _ => trivial

end Answers

/-! ### Maps -/

/-- Inserting and erasing entries stay in the shape. -/
structure Lawful (S : Shape) : Prop where
  nil : S.entries []
  insert : ∀ {d d' : Dict} {key v : Value}, S.FitsDict d → S.Fits key → d.insert key v = .ok d' →
    S.entries d'
  erase : ∀ {d d' : Dict} {key : Value}, S.FitsDict d → d.erase key = .ok d' → S.entries d'

section Lawful

variable (hS : S.Lawful)
include hS

theorem answers_insert {d : Dict} (hd : S.FitsDict d) {key v : Value} (hkey : S.Fits key)
    (hv : S.Fits v) : S.Answers S.FitsDict (d.insert key v) := by
  cases h : d.insert key v with
  | ok d' =>
    refine ⟨hS.insert hd hkey h, fun e he => ?_⟩
    rcases Dict.mem_insert h e he with rfl | he
    · exact ⟨hkey, hv⟩
    · exact hd.2 e he
  | error e =>
    rw [Dict.insert_error h]
    exact Fits.leaf trivial

theorem answers_erase {d : Dict} (hd : S.FitsDict d) (key : Value) :
    S.Answers S.FitsDict (d.erase key) := by
  cases h : d.erase key with
  | ok d' => exact ⟨hS.erase hd h, fun e he => hd.2 e ((Dict.erase_sublist h).subset he)⟩
  | error e =>
    rw [Dict.erase_error h]
    exact Fits.leaf trivial

theorem answers_insertAll {d : Dict} (hd : S.FitsDict d) {values : List Value}
    (hvalues : ∀ v ∈ values, S.Fits v) : S.Answers S.FitsDict (d.insertAll values) := by
  fun_induction Dict.insertAll d values with
  | case1 d key v rest ih =>
    simp only [List.forall_mem_cons] at hvalues
    obtain ⟨hkey, hv, hrest⟩ := hvalues
    exact (answers_insert hS hd hkey hv).bind fun d hd => ih d hd hrest
  | case2 d values hvalues => exact hd

theorem answers_ofValues {values : List Value} (hvalues : ∀ v ∈ values, S.Fits v) :
    S.Answers S.FitsDict (Dict.ofValues values) := by
  unfold Dict.ofValues
  split
  · exact answers_insertAll hS ⟨hS.nil, nofun⟩ hvalues
  · exact Fits.leaf trivial

theorem answers_eraseAll {d : Dict} (hd : S.FitsDict d) (keys : List Value) :
    S.Answers S.FitsDict (d.eraseAll keys) := by
  induction keys generalizing d with
  | nil => exact hd
  | cons key keys ih => exact (answers_erase hS hd key).bind fun d hd => ih hd

end Lawful

end Shape

end Lisp
