import Lisp.Proofs.Invariant.Captures

/-!
# The tree of frames

Every frame but the global one is added inside of another frame, its parent. Parents are older than
the frames inside of them, so whoever follows them comes to the global frame after finitely many
steps, which is what looking names up amounts to. A scope lists the frames that are met on that way.
Frames are only added, and none changes its parent, so trees only grow.
-/

namespace Lisp

/-- The frames that there are and their parents; `g` is the global frame. -/
structure FrameTree (g : FrameId) where
  /-- How many frames there are. -/
  size : Nat
  /-- The frame that a frame was added inside of. -/
  parent : FrameId → Option FrameId
  older : ∀ {f p}, parent f = some p → p < f
  global_lt : g < size
  parent_global : parent g = none
  parent_isSome : ∀ {f}, f < size → f ≠ g → (parent f).isSome

namespace FrameTree

variable {g f p : FrameId} {T T' : FrameTree g}

/-- A frame and those that it is inside of, in the order in which they are met. -/
def chain (T : FrameTree g) (f : FrameId) : List FrameId :=
  match h : T.parent f with
  | none => [f]
  | some p =>
    have := T.older h
    f :: T.chain p
termination_by f

/-- The frame in which the chain of parents ends. -/
def root (T : FrameTree g) (f : FrameId) : FrameId :=
  match h : T.parent f with
  | none => f
  | some p =>
    have := T.older h
    T.root p
termination_by f

/-- What a name is bound to in a frame, or else in its parents. -/
def lookup (T : FrameTree g) (s : State) (name : String) (f : FrameId) : Option Value :=
  match s.binding? f name with
  | some v => some v
  | none =>
    match h : T.parent f with
    | none => none
    | some p =>
      have := T.older h
      T.lookup s name p
termination_by f

/-! ### Following parents -/

theorem chain_of_none (h : T.parent f = none) : T.chain f = [f] := by
  rw [chain]
  split
  next => rfl
  next hp => cases h.symm.trans hp

theorem chain_of_some (h : T.parent f = some p) : T.chain f = f :: T.chain p := by
  rw [chain]
  split
  next hp => cases h.symm.trans hp
  next hp =>
    cases h.symm.trans hp
    rfl

theorem root_of_none (h : T.parent f = none) : T.root f = f := by
  rw [root]
  split
  next => rfl
  next hp => cases h.symm.trans hp

theorem root_of_some (h : T.parent f = some p) : T.root f = T.root p := by
  rw [root]
  split
  next hp => cases h.symm.trans hp
  next hp =>
    cases h.symm.trans hp
    rfl

variable {s : State} {name : String}

theorem lookup_of_bound {v : Value} (hv : s.binding? f name = some v) :
    T.lookup s name f = some v := by
  rw [lookup, hv]

theorem lookup_of_none (hv : s.binding? f name = none) (h : T.parent f = none) :
    T.lookup s name f = none := by
  rw [lookup, hv]
  simp only
  split
  next => rfl
  next hp => cases h.symm.trans hp

theorem lookup_of_some (hv : s.binding? f name = none) (h : T.parent f = some p) :
    T.lookup s name f = T.lookup s name p := by
  rw [lookup, hv]
  simp only
  split
  next hp => cases h.symm.trans hp
  next hp =>
    cases h.symm.trans hp
    rfl

/-- Induction along the chain of parents. -/
theorem parent_induction {motive : FrameId → Prop} (T : FrameTree g)
    (outermost : ∀ f, T.parent f = none → motive f)
    (inner : ∀ f p, T.parent f = some p → motive p → motive f) (f : FrameId) : motive f := by
  induction f using Nat.strongRecOn with
  | ind f ih =>
    cases h : T.parent f with
    | none => exact outermost f h
    | some p => exact inner f p h (ih p (T.older h))

theorem chain_eq_cons (T : FrameTree g) (f : FrameId) : ∃ fs, T.chain f = f :: fs := by
  cases h : T.parent f with
  | none => exact ⟨[], chain_of_none h⟩
  | some p => exact ⟨_, chain_of_some h⟩

/-- No frame on the way is newer than the one that it starts from. -/
theorem le_of_mem_chain (T : FrameTree g) (f : FrameId) : ∀ f' ∈ T.chain f, f' ≤ f := by
  induction f using T.parent_induction with
  | outermost f h =>
    rw [chain_of_none h]
    exact List.forall_mem_singleton.mpr (Nat.le_refl f)
  | inner f p h ih =>
    rw [chain_of_some h]
    refine List.forall_mem_cons.mpr ⟨Nat.le_refl f, fun f' hf' => ?_⟩
    exact Nat.le_trans (ih f' hf') (Nat.le_of_lt (T.older h))

/-- Every frame on the way is older than the one before it, so none is met twice. -/
theorem chain_decreasing (T : FrameTree g) (f : FrameId) : (T.chain f).Pairwise (· > ·) := by
  induction f using T.parent_induction with
  | outermost f h =>
    rw [chain_of_none h]
    exact List.pairwise_singleton ..
  | inner f p h ih =>
    rw [chain_of_some h]
    refine List.pairwise_cons.mpr ⟨fun f' hf' => ?_, ih⟩
    exact Nat.lt_of_le_of_lt (T.le_of_mem_chain p f' hf') (T.older h)

theorem getLast?_chain (T : FrameTree g) (f : FrameId) :
    (T.chain f).getLast? = some (T.root f) := by
  induction f using T.parent_induction with
  | outermost f h =>
    rw [chain_of_none h, root_of_none h]
    rfl
  | inner f p h ih =>
    obtain ⟨fs, hfs⟩ := T.chain_eq_cons p
    rw [chain_of_some h, root_of_some h, ← ih, hfs, List.getLast?_cons_cons]

/-- Every way ends in the global frame. -/
theorem root_eq (hf : f < T.size) : T.root f = g := by
  induction f using T.parent_induction with
  | outermost f h =>
    rw [root_of_none h]
    by_contra hne
    have hsome := T.parent_isSome hf hne
    rw [h] at hsome
    cases hsome
  | inner f p h ih =>
    rw [root_of_some h]
    exact ih (Nat.lt_trans (T.older h) hf)

/-- Following parents finds what the first frame on the way binds. -/
theorem lookup_eq (T : FrameTree g) (s : State) (name : String) (f : FrameId) :
    T.lookup s name f = s.firstBinding? name (T.chain f) := by
  induction f using T.parent_induction with
  | outermost f h =>
    rw [chain_of_none h, State.firstBinding?]
    cases hv : s.binding? f name with
    | none => exact lookup_of_none hv h
    | some v => exact lookup_of_bound hv
  | inner f p h ih =>
    rw [chain_of_some h, State.firstBinding?, ← ih]
    cases hv : s.binding? f name with
    | none => exact lookup_of_some hv h
    | some v => exact lookup_of_bound hv

/-! ### Scopes -/

/-- The scope lists the frames that are met from its innermost one. -/
structure Has (T : FrameTree g) (c : Scope) : Prop where
  frame_lt : c.frame < T.size
  frames_eq : c.frames = T.chain c.frame

theorem Has.root_eq {c : Scope} (h : T.Has c) : c.root = g := by
  have hlast : c.frames.getLast? = some c.root := List.getLast?_concat
  rw [h.frames_eq, getLast?_chain, FrameTree.root_eq h.frame_lt] at hlast
  exact (Option.some.inj hlast).symm

theorem has_global (T : FrameTree g) : T.Has (.global g) where
  frame_lt := T.global_lt
  frames_eq := (chain_of_none T.parent_global).symm

theorem Has.lookup_eq {c : Scope} (h : T.Has c) (s : State) (name : String) :
    s.lookup c name = T.lookup s name c.frame := by
  rw [FrameTree.lookup_eq, ← h.frames_eq, State.firstBinding?_frames]

/-! ### Growth -/

instance : Preorder (FrameTree g) where
  le T T' := T.size ≤ T'.size ∧ ∀ f < T.size, T'.parent f = T.parent f
  le_refl T := ⟨Nat.le_refl _, fun _ _ => rfl⟩
  le_trans T₁ T₂ T₃ h h' := ⟨Nat.le_trans h.1 h'.1, fun f hf =>
    (h'.2 f (Nat.lt_of_lt_of_le hf h.1)).trans (h.2 f hf)⟩

theorem chain_mono (h : T ≤ T') (hf : f < T.size) : T'.chain f = T.chain f := by
  induction f using T.parent_induction with
  | outermost f hp => rw [chain_of_none hp, chain_of_none ((h.2 f hf).trans hp)]
  | inner f p hp ih =>
    rw [chain_of_some hp, chain_of_some ((h.2 f hf).trans hp), ih (Nat.lt_trans (T.older hp) hf)]

theorem Has.mono {c : Scope} (hc : T.Has c) (h : T ≤ T') : T'.Has c where
  frame_lt := Nat.lt_of_lt_of_le hc.frame_lt h.1
  frames_eq := hc.frames_eq.trans (chain_mono h hc.frame_lt).symm

/-- A new frame inside of `p`. -/
def push (T : FrameTree g) (p : FrameId) (hp : p < T.size) : FrameTree g where
  size := T.size + 1
  parent f := if f = T.size then some p else T.parent f
  older {f q} h := by
    split at h
    next hf =>
      cases h
      rwa [hf]
    next => exact T.older h
  global_lt := Nat.lt_succ_of_lt T.global_lt
  parent_global := by
    rw [if_neg (Nat.ne_of_lt T.global_lt)]
    exact T.parent_global
  parent_isSome {f} hf hne := by
    split
    next => rfl
    next hsize => exact T.parent_isSome (Nat.lt_of_le_of_ne (Nat.le_of_lt_succ hf) hsize) hne

theorem le_push (hp : p < T.size) : T ≤ T.push p hp :=
  ⟨Nat.le_succ _, fun _ hf => if_neg (Nat.ne_of_lt hf)⟩

theorem Has.push {c : Scope} (h : T.Has c) : (T.push c.frame h.frame_lt).Has (c.child T.size) where
  frame_lt := Nat.lt_succ_self T.size
  frames_eq := by
    have hparent : (T.push c.frame h.frame_lt).parent T.size = some c.frame := if_pos rfl
    have hchain := chain_mono (le_push h.frame_lt) h.frame_lt
    exact (congrArg (T.size :: ·) (h.frames_eq.trans hchain.symm)).trans
      (chain_of_some hparent).symm

/-- The global frame alone. -/
def single : FrameTree 0 where
  size := 1
  parent _ := none
  older h := nomatch h
  global_lt := Nat.zero_lt_one
  parent_global := rfl
  parent_isSome hf hne := absurd (Nat.lt_one_iff.mp hf) hne

/-- The tree has all frames of a state and all scopes that closures in it captured. -/
structure Describes (T : FrameTree g) (s : State) : Prop where
  size_eq : s.frames.size = T.size
  captured : ∀ c, s.Captures c → T.Has c

end FrameTree

/-! ### The discipline -/

/-- Closures capture scopes of the tree, and forms are evaluated in them. -/
def treelike (g : FrameId) : Discipline (FrameTree g) where
  entries _ := True
  captured T c := T.Has c
  entered T c := T.Has c
  frames T fs := fs.size = T.size

theorem lawful_treelike (g : FrameId) : (treelike g).Lawful where
  shape _ := ⟨trivial, fun _ _ _ => trivial, fun _ _ => trivial⟩
  captured_mono h hc := hc.mono h
  entered_mono h hc := hc.mono h
  captured_of_entered h := h
  entered_outermost {T c} (hc : T.Has c) := by
    rw [Scope.outermost, hc.root_eq]
    exact T.has_global
  exists_child {T fs c} hfs (hc : T.Has c) := by
    have hsize : fs.size = T.size := hfs
    refine ⟨T.push c.frame hc.frame_lt, FrameTree.le_push _, ?_, ?_⟩
    · exact (Array.size_push _).trans (congrArg (· + 1) hsize)
    · rw [hsize]
      exact hc.push
  frames_modify hfs _ := Array.size_modify.trans hfs

theorem treelike_value {g : FrameId} {T : FrameTree g} {v : Value}
    (hv : ∀ c, v.Captures c → T.Has c) : (treelike g).Value T v :=
  Shape.fits_of_captures (fun _ => trivial) hv

/-- The discipline holds where the tree describes the state. -/
theorem holds_treelike_iff {g : FrameId} {T : FrameTree g} {s : State} :
    (treelike g).Holds T s ↔ T.Describes s := by
  constructor
  · intro h
    exact ⟨h.frames, fun _ hc => h.captured hc⟩
  · intro h
    refine ⟨h.size_eq, fun {f name v} hv => ?_, fun v hv => ?_⟩
    · exact treelike_value fun c hc => h.captured c (.inl ⟨f, name, v, hv, hc⟩)
    · exact treelike_value fun c hc => h.captured c (.inr ⟨v, hv, hc⟩)

end Lisp
