import Lisp.Proofs.Invariant.Eval
import Lisp.Proofs.Session.Reachable

/-!
# Disciplines of sessions

A lawful discipline that holds where there is nothing but an empty global frame holds in every state
that a session can reach.
-/

namespace Lisp

open Run Shape

variable {W : Type} [Preorder W] {D : Discipline W} {w : W}

theorem Outcome.Within.leaves {α : Type} {Q : W → α → Prop} {o : Outcome α} {s : State}
    (ho : o.Within D w Q) (hs : o.Leaves s) : ∃ w', w ≤ w' ∧ D.Holds w' s := by
  rcases hs with ⟨a, rfl⟩ | ⟨e, rfl⟩
  · cases ho with
    | done hw h _ => exact ⟨_, hw, h⟩
  · cases ho with
    | failed hw h _ => exact ⟨_, hw, h⟩

section Lawful

variable (hD : D.Lawful) {scope : Scope} (hscope : D.entered w scope)
include hD hscope

theorem evalSources_keepsTo (k : Nat) (sources : List String) :
    KeepsTo D w (fun _ _ => True) (evalSources k scope sources) := by
  induction sources generalizing w with
  | nil => exact .pure fun _ _ => trivial
  | cons source sources ih =>
    have hsource : KeepsTo D w D.Value (evalSource k scope source) :=
      (Agree.readForm hD source).bind fun w' form hw hform =>
        eval_keepsTo hD k hform (hD.entered_mono hw hscope)
    exact hsource.bind fun w' _ hw _ => ih (hD.entered_mono hw hscope)

namespace Session

theorem setArguments_keepsTo (args : List String) :
    KeepsTo D w (fun _ _ => True) (setArguments scope args) := by
  refine .define hD hscope _ (fits_list.mpr fun v hv => ?_)
  obtain ⟨arg, -, rfl⟩ := List.mem_map.mp hv
  exact .leaf trivial

theorem evalForms_keepsTo (k : Nat) {last : Value} (hlast : D.Value w last) {forms : List Value}
    (hforms : D.Values w forms) : KeepsTo D w D.Value (evalForms k scope last forms) := by
  induction forms generalizing w last with
  | nil => exact .pure_value hD hlast
  | cons form forms ih =>
    obtain ⟨hform, hforms⟩ := List.forall_mem_cons.mp hforms
    refine (eval_keepsTo hD k hform hscope).bind fun w' v hw hv => ?_
    exact ih (hD.entered_mono hw hscope) hv (hD.values_mono hw hforms)

theorem evalText_keepsTo (k : Nat) (text : String) : KeepsTo D w D.Value (evalText k scope text) := by
  have hread : KeepsTo D w D.Values (readForms text) := by
    intro v s hv hs
    rw [readForms_apply]
    have hforms := answers_readAll (hD.shape v) s.limit s.depth text
    generalize readAll s.limit s.depth text = x at hforms
    cases x with
    | ok vs => exact ⟨rfl, .done (le_refl v) hs hforms⟩
    | error e => exact ⟨rfl, .failed (le_refl v) hs hforms⟩
  refine hread.bind fun w' forms hw hforms => ?_
  split
  · exact .raise_leaf trivial
  · exact evalForms_keepsTo hD (hD.entered_mono hw hscope) k (Fits.leaf (v := .nil) trivial) hforms

theorem loadFile_keepsTo (k : Nat) (path : String) : KeepsTo D w D.Value (loadFile k scope path) := by
  refine eval_keepsTo hD k (fits_list.mpr ?_) hscope
  exact List.forall_mem_cons.mpr ⟨.leaf trivial, List.forall_mem_singleton.mpr (.leaf trivial)⟩

/-- Every operation keeps to the discipline. -/
theorem Operation.perform_keepsTo (k : Nat) (op : Operation) :
    KeepsTo D w (fun _ _ => True) (op.perform k scope) := by
  have hignore {x : Run Value} (hx : KeepsTo D w D.Value x) :
      KeepsTo D w (fun _ _ => True) (do let _ ← x) :=
    hx.bind fun _ _ _ _ => .pure fun _ _ => trivial
  cases op with
  | evalText text => exact hignore (evalText_keepsTo hD hscope k text)
  | evalPrint text =>
    have hprint : KeepsTo D w (fun _ _ => True) (Session.evalPrint k scope text) :=
      (evalText_keepsTo hD hscope k text).bind fun _ _ _ _ => .printing fun _ _ _ _ => trivial
    exact hprint.bind fun _ _ _ _ => .pure fun _ _ => trivial
  | loadFile path => exact hignore (loadFile_keepsTo hD hscope k path)
  | setArguments args => exact setArguments_keepsTo hD hscope args

end Session

end Lawful

/-- What holds of the global frame with the built-in functions holds in every reachable state. -/
theorem Session.Reachable.exists_holds (hD : D.Lawful) (hframes : D.frames w #[∅])
    (hglobal : D.entered w (.global 0)) {scope : Scope} {s : State} (h : Reachable scope s) :
    ∃ w', w ≤ w' ∧ D.Holds w' s ∧ D.entered w' scope := by
  induction h with
  | @start n host scope s t hbare ht =>
    have hempty : D.Holds w (State.initial host).newGlobal.2 := by
      refine ⟨hframes, fun {f name v} hv => ?_, nofun⟩
      cases ((State.initial host).binding?_newFrame f name).symm.trans hv
    have hbuiltins : ∀ b ∈ Builtin.all.map fun b => (b.name, Value.builtin b),
        D.Value w b.2 := by
      intro b hb
      obtain ⟨b, -, rfl⟩ := List.mem_map.mp hb
      exact .leaf trivial
    cases hbare
    obtain ⟨-, hsources⟩ := evalSources_keepsTo hD hglobal n preludeSources _ _ (le_refl w)
      (hempty.bindAll hD hglobal hbuiltins)
    obtain ⟨w', hw, ht⟩ := hsources.leaves ht
    exact ⟨w', hw, ht, hD.entered_mono hw hglobal⟩
  | @perform n scope s t op _ ht ih =>
    obtain ⟨w₁, hw₁, hs, hscope⟩ := ih
    obtain ⟨-, hop⟩ := Operation.perform_keepsTo hD hscope n op _ _ (le_refl w₁) hs
    obtain ⟨w₂, hw₂, ht⟩ := hop.leaves ht
    exact ⟨w₂, le_trans hw₁ hw₂, ht, hD.entered_mono hw₂ hscope⟩
  | outside host limit _ ih =>
    obtain ⟨w', hw, hs, hscope⟩ := ih
    exact ⟨w', hw, hs.of_eq rfl rfl, hscope⟩

/-! ### Invariants of sessions -/

section Invariant

variable {I : Invariant} {n : Nat} (hI : I.Lawful) {scope : Scope}

theorem Outcome.Keeps.leaves {α : Type} {Q : Nat → α → Prop} {o : Outcome α} {s : State}
    (ho : o.Keeps I n Q) (hs : o.Leaves s) : n ≤ s.frames.size ∧ I.Holds s := by
  obtain ⟨m, hm, h⟩ := (Outcome.within_discipline_iff.mpr ho).leaves hs
  obtain ⟨rfl, hs⟩ := Invariant.holds_discipline_iff.mp h
  exact ⟨hm, hs⟩

include hI

theorem Session.evalText_keeps (hscope : I.entered n scope) (k : Nat) (text : String) :
    Keeps I n I.Value (evalText k scope text) :=
  (evalText_keepsTo hI.discipline hscope k text).keeps

/-- Every operation keeps every lawful invariant. -/
theorem Session.Operation.perform_keeps (hscope : I.entered n scope) (k : Nat) (op : Operation) :
    Keeps I n (fun _ _ => True) (op.perform k scope) :=
  (perform_keepsTo hI.discipline hscope k op).keeps

/-- What holds with one empty frame holds in every reachable state. -/
theorem Session.Reachable.holds (hframes : I.frames #[∅]) (hglobal : I.entered 1 (.global 0))
    {s : State} (h : Reachable scope s) : I.Holds s ∧ I.entered s.frames.size scope := by
  obtain ⟨m, -, hm, hscope⟩ := h.exists_holds hI.discipline ⟨rfl, hframes⟩ hglobal
  obtain ⟨rfl, hs⟩ := Invariant.holds_discipline_iff.mp hm
  exact ⟨hs, hscope⟩

end Invariant

end Lisp
