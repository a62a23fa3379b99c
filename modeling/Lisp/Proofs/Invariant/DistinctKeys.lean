import Lisp.Proofs.Invariant.Session
import Lisp.Proofs.Value.Equivalence

/-!
# Keys are distinct

No map that a run comes across has two keys of which the comparison answers anything else than that
they differ. Inserting an entry compares its key with those in front of the entry whose place it
takes; that it differs from the keys behind as well is because equal values compare alike.
-/

namespace Lisp

open Value

/-! ### Inserting and erasing -/

namespace Dict

variable {d d' : Dict} {key v : Value}

/-- An entry can be overwritten by one with an equal key. -/
theorem Distinct.overwrite {d₁ d₂ : Dict} {e : Value × Value} (hd : Distinct (d₁ ++ e :: d₂))
    (hkeys : ∀ f ∈ d₁ ++ e :: d₂, f.1.WellKeyed) (hkey : key.WellKeyed) (he : e.1.Alike key) :
    Distinct (d₁ ++ (key, v) :: d₂) := by
  have h := equivalenceOn_wellKeyed
  have heKeyed : e.1.WellKeyed := hkeys e (by simp)
  obtain ⟨h₁, h₂, h₁₂⟩ := List.pairwise_append.mp hd
  obtain ⟨he₂, h₂⟩ := List.pairwise_cons.mp h₂
  refine List.pairwise_append.mpr ⟨h₁, List.pairwise_cons.mpr ⟨fun f hf => ?_, h₂⟩, ?_⟩
  · -- The keys behind are not compared again: equal values compare alike.
    have hfKeyed : f.1.WellKeyed := hkeys f (by simp [hf])
    have hcongr := h.congr_left heKeyed hkey hfKeyed he
    exact hcongr.symm.trans (he₂ f hf)
  · intro f hf g hg
    rcases List.mem_cons.mp hg with rfl | hg
    · have hfKeyed : f.1.WellKeyed := hkeys f (by simp [hf])
      have hcongr := h.congr_right heKeyed hkey hfKeyed he
      exact hcongr.symm.trans (h₁₂ f hf e (.head _))
    · exact h₁₂ f hf g (.tail _ hg)

theorem Distinct.insert (hd : d.Distinct) (hkeys : ∀ e ∈ d, e.1.WellKeyed) (hkey : key.WellKeyed)
    (h : d.insert key v = .ok d') : d'.Distinct := by
  rcases insert_eq_ok h with ⟨hall, rfl⟩ | ⟨d₁, e, d₂, rfl, he, -, rfl⟩
  · refine List.pairwise_append.mpr ⟨hd, List.pairwise_singleton .., fun e he f hf => ?_⟩
    cases List.mem_singleton.mp hf
    exact hall e he
  · exact hd.overwrite hkeys hkey he

theorem Distinct.erase (hd : d.Distinct) (h : d.erase key = .ok d') : d'.Distinct :=
  hd.sublist (erase_sublist h)

end Dict

/-! ### The invariant -/

/-- The keys of a map are distinct. -/
def distinctKeys : Invariant where
  entries := Dict.Distinct
  captured _ _ := True
  entered _ _ := True
  frames _ := True

theorem wellKeyed_of_fits {n : Nat} {v : Value} (hv : distinctKeys.Value n v) : v.WellKeyed := by
  intro w hw
  have hlayer := hv w (hw.mono False.elim)
  cases w with
  | map entries tag => exact hlayer
  | _ => trivial

theorem lawful_distinctKeys : distinctKeys.Lawful where
  shape n := by
    refine ⟨.nil, fun hd hkey h => ?_, fun hd h => ?_⟩
    · exact hd.1.insert (fun e he => wellKeyed_of_fits (hd.2 e he).1) (wellKeyed_of_fits hkey) h
    · exact hd.1.erase h
  captured_mono _ _ := trivial
  entered_mono _ _ := trivial
  captured_of_entered _ := trivial
  entered_outermost _ := trivial
  entered_child _ _ := trivial
  frames_push _ := trivial
  frames_modify _ _ := trivial

/-- In every map that is part of a value the keys are distinct. Metadata and the bodies of closures
count as parts. -/
def Value.KeysDistinct : Value → Prop :=
  HoldsIn True fun
    | .map entries _ => Dict.Distinct entries
    | _ => True

/-- In every map that is bound to a name or held by an atom the keys are distinct. -/
def State.KeysDistinct (s : State) : Prop :=
  (∀ f name v, s.binding? f name = some v → v.KeysDistinct) ∧ ∀ v ∈ s.cells, v.KeysDistinct

/-- The keys are distinct in every map in the state left behind, and in the value or in what was
thrown. -/
def Outcome.KeysDistinct : Outcome Value → Prop
  | .done v s => v.KeysDistinct ∧ s.KeysDistinct
  | .failed e s => e.payload.KeysDistinct ∧ s.KeysDistinct
  | .unfinished => True

theorem keysDistinct_iff {n : Nat} {v : Value} : v.KeysDistinct ↔ distinctKeys.Value n v := by
  refine forall₂_congr fun w _ => ?_
  cases w <;> simp [Shape.layer, Invariant.shape, distinctKeys]

theorem State.keysDistinct_iff {s : State} : s.KeysDistinct ↔ distinctKeys.Holds s := by
  constructor
  · rintro ⟨hbindings, hcells⟩
    exact ⟨trivial, fun hv => Lisp.keysDistinct_iff.mp (hbindings _ _ _ hv),
      fun v hv => Lisp.keysDistinct_iff.mp (hcells v hv)⟩
  · exact fun h => ⟨fun f name v hv => Lisp.keysDistinct_iff.mpr (h.bindings hv),
      fun v hv => Lisp.keysDistinct_iff.mpr (h.cells v hv)⟩

/-- A run that keeps the invariant leaves distinct keys behind. -/
theorem Run.Keeps.keysDistinct {x : Run Value} (h : Keeps distinctKeys 0 distinctKeys.Value x)
    {s : State} (hs : s.KeysDistinct) : (x s).KeysDistinct := by
  have hx := h s (Nat.zero_le _) (State.keysDistinct_iff.mp hs)
  generalize x s = o at hx
  cases hx with
  | done _ ht hv => exact ⟨keysDistinct_iff.mpr hv, State.keysDistinct_iff.mpr ht⟩
  | failed _ ht he => exact ⟨keysDistinct_iff.mpr he, State.keysDistinct_iff.mpr ht⟩
  | unfinished => trivial

theorem keysDistinct_dict_iff {d : Dict} :
    (Value.dict d).KeysDistinct ↔ (distinctKeys.shape 0).FitsDict d :=
  (keysDistinct_iff (n := 0)).trans Shape.fits_dict

/-- No run produces a map in which two keys are not told apart, whether it comes from the reader,
from inserting, erasing or overwriting entries, from evaluating a form or calling a function, or out
of the state of a session. -/
theorem keys_distinct :
    (∀ limit depth text v, readFirst limit depth text = .ok v → v.KeysDistinct) ∧
      (∀ limit depth text vs, readAll limit depth text = .ok vs → ∀ v ∈ vs, v.KeysDistinct) ∧
      (∀ values d, (∀ v ∈ values, v.KeysDistinct) → Dict.ofValues values = .ok d →
        (Value.dict d).KeysDistinct) ∧
      (∀ d key v d', (Value.dict d).KeysDistinct → key.KeysDistinct → v.KeysDistinct →
        Dict.insert key v d = .ok d' → (Value.dict d').KeysDistinct) ∧
      (∀ d key d', (Value.dict d).KeysDistinct → Dict.erase key d = .ok d' →
        (Value.dict d').KeysDistinct) ∧
      (∀ d₁ e d₂ key v, (Value.dict (d₁ ++ e :: d₂)).KeysDistinct → key.KeysDistinct →
        e.1.equal key = .ok true → Dict.Distinct (d₁ ++ (key, v) :: d₂)) ∧
      (∀ v tag w : Value, v.KeysDistinct → tag.KeysDistinct → v.withMetadata? tag = some w →
        w.KeysDistinct) ∧
      (∀ n s, s.KeysDistinct →
        (∀ form scope, form.KeysDistinct → (eval n form scope s).KeysDistinct) ∧
        (∀ form scope, form.KeysDistinct → (expandMacros n form scope s).KeysDistinct) ∧
        (∀ f args, f.KeysDistinct → (∀ v ∈ args, v.KeysDistinct) →
          (applyFunction n f args s).KeysDistinct) ∧
        ∀ scope text, (Session.evalText n scope text s).KeysDistinct) ∧
      ∀ scope s, Session.Reachable scope s → s.KeysDistinct := by
  have hI := lawful_distinctKeys
  have hS := hI.shape 0
  refine ⟨fun limit depth text v h => ?_, fun limit depth text vs h v hv => ?_,
    fun values d hvalues h => ?_, fun d key v d' hd hkey hv h => ?_, fun d key d' hd h => ?_,
    fun d₁ e d₂ key v hd hkey he => ?_, fun v tag w hv htag h => ?_, fun n s hs => ⟨?_, ?_, ?_, ?_⟩,
    fun scope s h => ?_⟩
  · have hread := answers_readFirst hS limit depth text
    rw [h] at hread
    exact keysDistinct_iff.mpr hread
  · have hread := answers_readAll hS limit depth text
    rw [h] at hread
    exact keysDistinct_iff.mpr (hread v hv)
  · have hd := Shape.answers_ofValues hS fun v hv => keysDistinct_iff.mp (hvalues v hv)
    rw [h] at hd
    exact keysDistinct_dict_iff.mpr hd
  · have hd' := Shape.answers_insert hS (keysDistinct_dict_iff.mp hd) (keysDistinct_iff.mp hkey)
      (keysDistinct_iff.mp hv)
    rw [h] at hd'
    exact keysDistinct_dict_iff.mpr hd'
  · have hd' := Shape.answers_erase hS (keysDistinct_dict_iff.mp hd) key
    rw [h] at hd'
    exact keysDistinct_dict_iff.mpr hd'
  · have hd := keysDistinct_dict_iff.mp hd
    have hkey : distinctKeys.Value 0 key := keysDistinct_iff.mp hkey
    exact Dict.Distinct.overwrite hd.1 (fun f hf => wellKeyed_of_fits (hd.2 f hf).1)
      (wellKeyed_of_fits hkey) he
  · have hv := (keysDistinct_iff (n := 0)).mp hv
    have hw := Shape.fits_withMetadata hv (keysDistinct_iff.mp htag) h
    exact keysDistinct_iff.mpr hw
  · exact fun form scope hform =>
      (eval_keeps hI n (keysDistinct_iff.mp hform) trivial).keysDistinct hs
  · exact fun form scope hform => (Eval.expand_keeps hI (NestedCalls.limited_keeps hI n) n
      (keysDistinct_iff.mp hform) trivial).keysDistinct hs
  · exact fun f args hf hargs => (Eval.apply_keeps hI (NestedCalls.limited_keeps hI n) n
      (keysDistinct_iff.mp hf) fun v hv => keysDistinct_iff.mp (hargs v hv)).keysDistinct hs
  · exact fun scope text => (Session.evalText_keeps hI trivial n text).keysDistinct hs
  · exact State.keysDistinct_iff.mpr (h.holds hI trivial trivial).1

/-- The list `(2)` as a key, overwritten by the vector `[2]`. -/
theorem keys_distinct_overwritten :
    let d := [(.int 1, .nil), (.list [.int 2], .nil), (.text "k", .nil)]
    ((Value.dict d).KeysDistinct ∧ (Value.vector [.int 2]).KeysDistinct ∧
      (Value.list [.int 2]).equal (.vector [.int 2]) = .ok true) ∧
      Dict.Distinct [(.int 1, .nil), (.vector [.int 2], .bool true), (.text "k", .nil)] := by
  intro d
  have hd : (Value.dict d).KeysDistinct := by
    refine keysDistinct_dict_iff.mpr ⟨?_, ?_⟩
    · simp [distinctKeys, Invariant.shape, Dict.Distinct, Dict.Apart, equal, d, list]
    · simp only [d, List.forall_mem_cons]
      refine ⟨⟨.leaf trivial, .leaf trivial⟩, ⟨Shape.fits_list.mpr ?_, .leaf trivial⟩,
        ⟨.leaf trivial, .leaf trivial⟩, List.forall_mem_nil _⟩
      exact List.forall_mem_singleton.mpr (.leaf trivial)
  have hkey : (Value.vector [.int 2]).KeysDistinct :=
    (keysDistinct_iff (n := 0)).mpr
      (Shape.fits_vector.mpr (List.forall_mem_singleton.mpr (.leaf trivial)))
  have hequal : (Value.list [.int 2]).equal (.vector [.int 2]) = .ok true := by
    simp [list, vector, equal, equalItems, bind, Except.bind]
  obtain ⟨-, -, -, -, -, hoverwrite, -⟩ := keys_distinct
  exact ⟨⟨hd, hkey, hequal⟩,
    hoverwrite [(.int 1, .nil)] (.list [.int 2], .nil) [(.text "k", .nil)] _ _ hd hkey hequal⟩

end Lisp
