import Mathlib.Order.Nat
import Lisp.Proofs.Invariant.Shape
import Lisp.State

/-!
# Invariants of states

A discipline asks something of every map, every closure and every frame in a state. What it asks of
scopes may depend on what is known of the frames, which is a world: frames are only ever added, so
worlds only ever grow. Scopes that forms are evaluated in, which definitions go to, are told apart
from those that closures merely capture. The laws of a discipline are what it takes for the
operations on states to keep it.

An invariant is a discipline that only needs to know how many frames there are.
-/

namespace Lisp

/-- What is asked of the values and frames in a state. -/
structure Discipline (W : Type) where
  /-- Of the entries of a map. -/
  entries : Dict → Prop
  /-- Of the scope of a closure. -/
  captured : W → Scope → Prop
  /-- Of a scope that forms are evaluated in. -/
  entered : W → Scope → Prop
  /-- Of the frames. -/
  frames : W → Array Frame → Prop

namespace Discipline

variable {W : Type}

/-- The shape of values in a world. -/
def shape (D : Discipline W) (w : W) : Shape :=
  ⟨D.entries, D.captured w⟩

/-- A value as the discipline has it. -/
abbrev Value (D : Discipline W) (w : W) : Lisp.Value → Prop :=
  (D.shape w).Fits

/-- Values as the discipline has them. -/
abbrev Values (D : Discipline W) (w : W) (vs : List Lisp.Value) : Prop :=
  ∀ v ∈ vs, D.Value w v

/-- The discipline holds in a state. -/
structure Holds (D : Discipline W) (w : W) (s : State) : Prop where
  frames : D.frames w s.frames
  bindings : ∀ {f name v}, s.binding? f name = some v → D.Value w v
  cells : ∀ v ∈ s.cells, D.Value w v

/-- What it takes for the operations on states to keep a discipline. -/
structure Lawful [Preorder W] (D : Discipline W) : Prop where
  shape : ∀ w, (D.shape w).Lawful
  captured_mono : ∀ {w w' c}, w ≤ w' → D.captured w c → D.captured w' c
  entered_mono : ∀ {w w' c}, w ≤ w' → D.entered w c → D.entered w' c
  captured_of_entered : ∀ {w c}, D.entered w c → D.captured w c
  entered_outermost : ∀ {w c}, D.entered w c → D.entered w c.outermost
  exists_child : ∀ {w fs c}, D.frames w fs → D.captured w c →
    ∃ w', w ≤ w' ∧ D.frames w' (fs.push ∅) ∧ D.entered w' (c.child fs.size)
  frames_modify : ∀ {w fs c name v}, D.frames w fs → D.entered w c →
    D.frames w (fs.modify c.frame (·.insert name v))

variable [Preorder W] {D : Discipline W} (hD : D.Lawful) {w w' : W} (h : w ≤ w')

include hD h

/-- A value stays as the discipline has it when more is known. -/
theorem Lawful.value_mono {v : Lisp.Value} (hv : D.Value w v) : D.Value w' v :=
  hv.mono fun _ => hD.captured_mono h

theorem Lawful.values_mono {vs : List Lisp.Value} (hvs : D.Values w vs) : D.Values w' vs :=
  fun v hv => hD.value_mono h (hvs v hv)

theorem Lawful.dict_mono {d : Dict} (hd : (D.shape w).FitsDict d) : (D.shape w').FitsDict d :=
  ⟨hd.1, fun e he => ⟨hD.value_mono h (hd.2 e he).1, hD.value_mono h (hd.2 e he).2⟩⟩

end Discipline

/-! ### Operations on states -/

namespace State

/-- A frame that does not exist binds nothing. -/
theorem binding?_of_size_le {s : State} {f : FrameId} (hf : s.frames.size ≤ f) (name : String) :
    s.binding? f name = none := by
  rw [binding?, Array.getElem?_eq_none hf]
  rfl

theorem lt_size_of_binding? {s : State} {f : FrameId} {name : String} {v : Value}
    (h : s.binding? f name = some v) : f < s.frames.size := by
  by_contra hf
  rw [binding?_of_size_le (Nat.not_lt.mp hf)] at h
  cases h

/-- What is bound after a binding is the value that was bound or was bound before. -/
theorem binding?_bind_eq_some {s : State} {f g : FrameId} {name other : String} {v w : Value}
    (h : (s.bind f name v).binding? g other = some w) : w = v ∨ s.binding? g other = some w := by
  by_cases hne : g ≠ f ∨ other ≠ name
  · rw [binding?_bind_of_ne hne] at h
    exact .inr h
  · push Not at hne
    obtain ⟨rfl, rfl⟩ := hne
    by_cases hg : g < s.frames.size
    · rw [binding?_bind_self hg, Option.some.injEq] at h
      exact .inl h.symm
    · rw [binding?, bind, Array.getElem?_modify, Array.getElem?_eq_none (Nat.not_lt.mp hg)] at h
      simp at h

/-- Looking a name up goes through all frames of the scope. -/
theorem firstBinding?_frames (s : State) (scope : Scope) (name : String) :
    s.firstBinding? name scope.frames = s.lookup scope name := by
  rw [Scope.frames, lookup]
  induction scope.inner with
  | nil =>
    rw [List.nil_append, firstBinding?, firstBinding?]
    cases s.binding? scope.root name <;> rfl
  | cons f fs ih =>
    rw [List.cons_append, firstBinding?, firstBinding?, ih]
    cases s.binding? f name <;> rfl

@[simp] theorem size_frames_bind (s : State) (f : FrameId) (name : String) (v : Value) :
    (s.bind f name v).frames.size = s.frames.size := by
  simp [bind]

@[simp] theorem size_frames_bindAll (s : State) (f : FrameId) (bindings : List (String × Value)) :
    (s.bindAll f bindings).frames.size = s.frames.size := by
  induction bindings generalizing s with
  | nil => rfl
  | cons b bindings ih => exact (ih _).trans (size_frames_bind s f b.1 b.2)

@[simp] theorem size_frames_newFrame (s : State) :
    s.newFrame.2.frames.size = s.frames.size + 1 := by
  simp [newFrame]

@[simp] theorem size_frames_newChild (s : State) (scope : Scope) :
    (s.newChild scope).2.frames.size = s.frames.size + 1 :=
  size_frames_newFrame s

end State

namespace Discipline.Holds

variable {W : Type} {D : Discipline W} {w : W} {s : State} (h : D.Holds w s)
include h

theorem lookup {scope : Scope} {name : String} {v : Lisp.Value}
    (hv : s.lookup scope name = some v) : D.Value w v := by
  rw [← State.firstBinding?_frames] at hv
  generalize scope.frames = fs at hv
  induction fs with
  | nil => cases hv
  | cons f fs ih =>
    rw [State.firstBinding?] at hv
    split at hv
    next u hu => exact h.bindings (hu.trans hv)
    next => exact ih hv

theorem content (c : CellId) : D.Value w (s.content c) := by
  unfold State.content
  cases hc : s.cells[c]? with
  | none => exact .leaf trivial
  | some v => exact h.cells v (Array.mem_of_getElem? hc)

/-- An operation that leaves frames and cells alone keeps the discipline. -/
theorem of_eq {t : State} (hframes : t.frames = s.frames) (hcells : t.cells = s.cells) :
    D.Holds w t where
  frames := hframes ▸ h.frames
  bindings {f name v} hv := by
    rw [State.binding?, hframes] at hv
    exact h.bindings hv
  cells := by
    rw [hcells]
    exact h.cells

theorem newAtom {v : Lisp.Value} (hv : D.Value w v) : D.Holds w (s.newAtom v).2 where
  frames := h.frames
  bindings := h.bindings
  cells u hu := by
    rcases Array.mem_push.mp hu with hu | rfl
    · exact h.cells u hu
    · exact hv

theorem setContent (c : CellId) {v : Lisp.Value} (hv : D.Value w v) :
    D.Holds w (s.setContent c v) where
  frames := h.frames
  bindings := h.bindings
  cells u hu := by
    rcases Array.mem_or_eq_of_mem_setIfInBounds hu with hu | rfl
    · exact h.cells u hu
    · exact hv

section Lawful

variable [Preorder W] (hD : D.Lawful)
include hD

theorem bind {scope : Scope} (hscope : D.entered w scope) (name : String) {v : Lisp.Value}
    (hv : D.Value w v) : D.Holds w (s.bind scope.frame name v) where
  frames := hD.frames_modify h.frames hscope
  bindings hu := by
    rcases State.binding?_bind_eq_some hu with rfl | hu
    · exact hv
    · exact h.bindings hu
  cells := h.cells

theorem bindAll {scope : Scope} (hscope : D.entered w scope)
    {bindings : List (String × Lisp.Value)} (hv : ∀ b ∈ bindings, D.Value w b.2) :
    D.Holds w (s.bindAll scope.frame bindings) := by
  induction bindings generalizing s with
  | nil => exact h
  | cons b bindings ih =>
    rw [List.forall_mem_cons] at hv
    exact ih (h.bind hD hscope b.1 hv.1) hv.2

/-- A frame is added inside a scope, and that is known from then on. -/
theorem newChild {scope : Scope} (hscope : D.captured w scope) :
    ∃ w', w ≤ w' ∧ D.Holds w' (s.newChild scope).2 ∧ D.entered w' (s.newChild scope).1 := by
  obtain ⟨w', hle, hframes, hentered⟩ := hD.exists_child h.frames hscope
  refine ⟨w', hle, ⟨hframes, fun {f name v} hv => ?_, fun v hv => ?_⟩, hentered⟩
  · rw [State.newChild, State.binding?_newFrame] at hv
    exact hD.value_mono hle (h.bindings hv)
  · exact hD.value_mono hle (h.cells v hv)

end Lawful

end Discipline.Holds

/-! ### Invariants -/

/-- What is asked of the values and frames in a state with some number of frames. -/
structure Invariant where
  /-- Of the entries of a map. -/
  entries : Dict → Prop
  /-- Of the scope of a closure. -/
  captured : Nat → Scope → Prop
  /-- Of a scope that forms are evaluated in. -/
  entered : Nat → Scope → Prop
  /-- Of the frames. -/
  frames : Array Frame → Prop

namespace Invariant

/-- The shape of values where there are `n` frames. -/
def shape (I : Invariant) (n : Nat) : Shape :=
  ⟨I.entries, I.captured n⟩

/-- A value as the invariant has it. -/
abbrev Value (I : Invariant) (n : Nat) : Lisp.Value → Prop :=
  (I.shape n).Fits

/-- Values as the invariant has them. -/
abbrev Values (I : Invariant) (n : Nat) (vs : List Lisp.Value) : Prop :=
  ∀ v ∈ vs, I.Value n v

/-- The invariant holds in a state. -/
structure Holds (I : Invariant) (s : State) : Prop where
  frames : I.frames s.frames
  bindings : ∀ {f name v}, s.binding? f name = some v → I.Value s.frames.size v
  cells : ∀ v ∈ s.cells, I.Value s.frames.size v

/-- What it takes for the operations on states to keep an invariant. -/
structure Lawful (I : Invariant) : Prop where
  shape : ∀ n, (I.shape n).Lawful
  captured_mono : ∀ {n m c}, n ≤ m → I.captured n c → I.captured m c
  entered_mono : ∀ {n m c}, n ≤ m → I.entered n c → I.entered m c
  captured_of_entered : ∀ {n c}, I.entered n c → I.captured n c
  entered_outermost : ∀ {n c}, I.entered n c → I.entered n c.outermost
  entered_child : ∀ {fs c}, I.frames fs → I.captured fs.size c →
    I.entered (fs.size + 1) (c.child fs.size)
  frames_push : ∀ {fs}, I.frames fs → I.frames (fs.push ∅)
  frames_modify : ∀ {fs c name v}, I.frames fs → I.entered fs.size c →
    I.frames (fs.modify c.frame (·.insert name v))

/-- The discipline that knows the number of frames. -/
def discipline (I : Invariant) : Discipline Nat where
  entries := I.entries
  captured := I.captured
  entered := I.entered
  frames n fs := fs.size = n ∧ I.frames fs

variable {I : Invariant}

theorem holds_discipline_iff {n : Nat} {s : State} :
    I.discipline.Holds n s ↔ s.frames.size = n ∧ I.Holds s := by
  constructor
  · rintro ⟨⟨rfl, hframes⟩, hbindings, hcells⟩
    exact ⟨rfl, hframes, hbindings, hcells⟩
  · rintro ⟨rfl, h⟩
    exact ⟨⟨rfl, h.frames⟩, h.bindings, h.cells⟩

theorem Lawful.discipline (hI : I.Lawful) : I.discipline.Lawful where
  shape := hI.shape
  captured_mono := hI.captured_mono
  entered_mono := hI.entered_mono
  captured_of_entered := hI.captured_of_entered
  entered_outermost := hI.entered_outermost
  exists_child := by
    rintro n fs c ⟨rfl, hfs⟩ hc
    exact ⟨_, Nat.le_succ _, ⟨Array.size_push _, hI.frames_push hfs⟩, hI.entered_child hfs hc⟩
  frames_modify := by
    rintro n fs c name v ⟨rfl, hfs⟩ hc
    exact ⟨Array.size_modify, hI.frames_modify hfs hc⟩

end Invariant

end Lisp
