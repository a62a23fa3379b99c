import Lisp.Proofs.Invariant.State
import Lisp.Run

/-!
# Scopes that closures captured

A closure is made in a scope and keeps it. The scopes that a value captured are those of the
closures that are parts of it, wherever they stand; those of a state come from what names are bound
to and from what atoms hold. A discipline that asks nothing of maps is a matter of these scopes.
-/

namespace Lisp

/-- A closure over the scope `c` is a part of the value. -/
def Value.Captures (v : Value) (c : Scope) : Prop :=
  ∃ params body isMacro tag, Value.Part True (.closure params body c isMacro tag) v

/-- A closure over the scope `c` is bound to a name or held by an atom. -/
def State.Captures (s : State) (c : Scope) : Prop :=
  (∃ f name v, s.binding? f name = some v ∧ v.Captures c) ∨ ∃ v ∈ s.cells, v.Captures c

/-- A closure over the scope `c` is in the state left behind, in the value or in what was thrown. -/
def Outcome.Captures : Outcome Value → Scope → Prop
  | .done v s, c => v.Captures c ∨ s.Captures c
  | .failed e s, c => e.payload.Captures c ∨ s.Captures c
  | .unfinished, _ => False

namespace Shape

variable {S : Shape} {v : Value} {c : Scope}

/-- A value has a shape that asks nothing of maps, if all scopes that it captured have it. -/
theorem fits_of_captures (hentries : ∀ d, S.entries d) (h : ∀ c, v.Captures c → S.scope c) :
    S.Fits v := by
  intro w hw
  cases w with
  | map entries tag => exact hentries entries
  | closure params body c isMacro tag => exact h c ⟨params, body, isMacro, tag, hw⟩
  | _ => trivial

theorem Fits.scope_of_captures (hv : S.Fits v) (hc : v.Captures c) : S.scope c := by
  obtain ⟨params, body, isMacro, tag, hpart⟩ := hc
  exact hv _ hpart

end Shape

theorem Discipline.Holds.captured {W : Type} {D : Discipline W} {w : W} {s : State} {c : Scope}
    (h : D.Holds w s) (hc : s.Captures c) : D.captured w c := by
  rcases hc with ⟨f, name, v, hv, hc⟩ | ⟨v, hv, hc⟩
  · exact (h.bindings hv).scope_of_captures hc
  · exact (h.cells v hv).scope_of_captures hc

section Invariant

variable {I : Invariant} {n : Nat} {v : Lisp.Value} {c : Scope}

/-- A value is as an invariant has it that asks nothing of maps, if all scopes that it captures
are. -/
theorem fits_of_captures (hentries : ∀ d, I.entries d)
    (h : ∀ c, v.Captures c → I.captured n c) : I.Value n v :=
  Shape.fits_of_captures hentries h

theorem captured_of_fits (hv : I.Value n v) (hc : v.Captures c) : I.captured n c :=
  hv.scope_of_captures hc

theorem Invariant.Holds.captured {s : State} (h : I.Holds s) (hc : s.Captures c) :
    I.captured s.frames.size c :=
  (holds_discipline_iff.mpr ⟨rfl, h⟩).captured hc

end Invariant

end Lisp
