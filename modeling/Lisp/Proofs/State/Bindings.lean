import Lisp.Proofs.Invariant.State

/-!
# Names bound one after the other

When names are bound in a frame one after the other, a name means what it was bound to last, and
nothing else changes. In a frame that has just been added inside a scope, all other names mean what
they mean in that scope.
-/

namespace Lisp.State

variable {s : State} {f g : FrameId} {scope : Scope} {name : String} {v : Value}
  {bindings : List (String × Value)}

theorem binding?_bindAll_of_notMem (h : name ∉ bindings.map Prod.fst) :
    (s.bindAll f bindings).binding? f name = s.binding? f name := by
  induction bindings generalizing s with
  | nil => rfl
  | cons b bindings ih =>
    obtain ⟨hb, hbindings⟩ := not_or.mp (mt List.mem_cons.mpr h)
    exact (ih hbindings).trans (binding?_bind_of_ne (.inr hb) b.2)

/-- A name means what it was bound to last. -/
theorem binding?_bindAll_of_last {before after : List (String × Value)} (hf : f < s.frames.size)
    (h : name ∉ after.map Prod.fst) :
    (s.bindAll f (before ++ (name, v) :: after)).binding? f name = some v := by
  have hsize : f < (s.bindAll f before).frames.size := by
    rwa [size_frames_bindAll]
  rw [bindAll, List.foldl_append, List.foldl_cons]
  exact (binding?_bindAll_of_notMem h).trans (binding?_bind_self hsize name v)

/-- A name that is bound once among others means what it was bound to. -/
theorem binding?_bindAll_of_mem (hf : f < s.frames.size) (hnodup : (bindings.map Prod.fst).Nodup)
    (h : (name, v) ∈ bindings) : (s.bindAll f bindings).binding? f name = some v := by
  obtain ⟨before, after, rfl⟩ := List.append_of_mem h
  refine binding?_bindAll_of_last hf ?_
  rw [List.map_append, List.map_cons] at hnodup
  exact (List.nodup_cons.mp (List.nodup_append.mp hnodup).2.1).1

theorem binding?_bindAll_of_ne (h : g ≠ f) (bindings : List (String × Value))
    (name : String) : (s.bindAll f bindings).binding? g name = s.binding? g name := by
  induction bindings generalizing s with
  | nil => rfl
  | cons b bindings ih => exact ih.trans (binding?_bind_of_ne (.inl h) b.2)

/-- Binding names in a frame leaves every other frame as it is. -/
theorem getElem?_frames_bindAll (h : g ≠ f) :
    (s.bindAll f bindings).frames[g]? = s.frames[g]? := by
  induction bindings generalizing s with
  | nil => rfl
  | cons b bindings ih =>
    have hbind : (s.bind f b.1 b.2).frames[g]? = s.frames[g]? := by
      rw [State.bind, Array.getElem?_modify, if_neg h.symm]
    exact ih.trans hbind

/-- Binding names changes nothing but frames. -/
theorem bindAll_eq : s.bindAll f bindings = { s with frames := (s.bindAll f bindings).frames } := by
  induction bindings generalizing s with
  | nil => rfl
  | cons b bindings ih => exact ih

/-! ### Names in a new frame -/

theorem size_frames_bindAll_newChild (s : State) (scope : Scope)
    (bindings : List (String × Value)) :
    ((s.newChild scope).2.bindAll s.frames.size bindings).frames.size = s.frames.size + 1 := by
  rw [size_frames_bindAll, size_frames_newChild]

/-- Adding a frame with bindings leaves every other frame as it is. -/
theorem getElem?_frames_bindAll_newChild (h : f < s.frames.size)
    (bindings : List (String × Value)) :
    ((s.newChild scope).2.bindAll s.frames.size bindings).frames[f]? = s.frames[f]? := by
  rw [getElem?_frames_bindAll (Nat.ne_of_lt h), newChild, newFrame, Array.getElem?_push,
    if_neg (Nat.ne_of_lt h)]

/-- A name that is bound in a frame added inside a scope means what it was bound to last. -/
theorem lookup_bindAll_newChild_of_last {before after : List (String × Value)}
    (h : name ∉ after.map Prod.fst) :
    ((s.newChild scope).2.bindAll s.frames.size (before ++ (name, v) :: after)).lookup
      (s.newChild scope).1 name = some v := by
  have hsize : s.frames.size < (s.newChild scope).2.frames.size := by
    rw [size_frames_newChild]
    exact Nat.lt_succ_self _
  have hbound : ((s.newChild scope).2.bindAll s.frames.size (before ++ (name, v) :: after)).binding?
      s.frames.size name = some v := binding?_bindAll_of_last hsize h
  simp only [lookup, newChild, newFrame, Scope.child, firstBinding?] at hbound ⊢
  rw [hbound]

/-- A frame added inside a scope hides no name but those that are bound in it. -/
theorem lookup_bindAll_newChild_of_notMem (h : name ∉ bindings.map Prod.fst) :
    ((s.newChild scope).2.bindAll s.frames.size bindings).lookup (s.newChild scope).1 name =
      s.lookup scope name := by
  have hkept (g : FrameId) : ((s.newChild scope).2.bindAll s.frames.size bindings).binding? g name =
      s.binding? g name := by
    by_cases hg : g = s.frames.size
    · subst hg
      exact (binding?_bindAll_of_notMem h).trans (s.binding?_newFrame _ name)
    · exact (binding?_bindAll_of_ne hg bindings name).trans (s.binding?_newFrame g name)
  rw [lookup_congr hkept]
  simp only [lookup, newChild, newFrame, Scope.child, firstBinding?,
    binding?_of_size_le (Nat.le_refl s.frames.size)]

/-- A name that alone is bound in a frame added inside a scope means that. -/
theorem lookup_bind_newChild_self (s : State) (scope : Scope) (name : String) (v : Value) :
    ((s.newChild scope).2.bind s.frames.size name v).lookup (s.newChild scope).1 name =
      some v := by
  have hlast : ((s.newChild scope).2.bindAll s.frames.size ([] ++ [(name, v)])).lookup
      (s.newChild scope).1 name = some v := lookup_bindAll_newChild_of_last List.not_mem_nil
  exact hlast

/-- Where one name is bound in a frame added inside a scope, every other keeps its meaning. -/
theorem lookup_bind_newChild_of_ne (s : State) (scope : Scope) {name other : String}
    (h : other ≠ name) (v : Value) :
    ((s.newChild scope).2.bind s.frames.size name v).lookup (s.newChild scope).1 other =
      s.lookup scope other := by
  have hname : other ∉ [(name, v)].map Prod.fst := fun hmem => h (List.mem_singleton.mp hmem)
  exact lookup_bindAll_newChild_of_notMem hname

end Lisp.State
