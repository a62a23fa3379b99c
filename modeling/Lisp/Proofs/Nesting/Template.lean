import Lisp.Proofs.Nesting.Levelled
import Lisp.Proofs.Value.Parts
import Lisp.Template

/-!
# Levels of nesting in templates

Expanding a template takes a level for every list or vector that is entered, so as many levels as
the template is high are always enough.
-/

namespace Lisp

namespace Value

mutual

/-- How many levels of sequences a value consists of, with one for what is no sequence. -/
def height : Value → Nat
  | .seq _ items _ => heights items + 1
  | _ => 1

/-- The largest height of some values. -/
def heights : List Value → Nat
  | [] => 0
  | v :: vs => max (height v) (heights vs)

end

theorem height_le_heights {v : Value} {vs : List Value} (h : v ∈ vs) :
    v.height ≤ heights vs := by
  induction h with
  | head vs => exact Nat.le_max_left _ _
  | tail w _ ih => exact Nat.le_trans ih (Nat.le_max_right _ _)

theorem height_pos (v : Value) : 0 < v.height := by
  cases v <;> simp [height]

end Value

namespace Template

variable {f g : Value → Except Error Value}

theorem not_refused_operand (who : String) (args : List Value) : ¬ Refused (operand who args) := by
  unfold operand
  split <;> simp

theorem element_congr {rest v : Value} (h : ¬ Refused (f v) → g v = f v)
    (hr : ¬ Refused (element f rest v)) : element g rest v = element f rest v := by
  by_cases hv : ∃ args tag, v = .seq .list (.symbol "splice-unquote" :: args) tag
  · obtain ⟨args, tag, rfl⟩ := hv
    rfl
  · have hplain (args : List Value) (tag : Value) :
        v = .seq .list (.symbol "splice-unquote" :: args) tag → False :=
      fun h => hv ⟨args, tag, h⟩
    rw [element.eq_2 _ _ _ hplain, refused_bind_iff, not_or] at hr
    rw [element.eq_2 _ _ _ hplain, element.eq_2 _ _ _ hplain, h hr.1]

theorem not_refused_element {rest v : Value} (h : ¬ Refused (f v)) :
    ¬ Refused (element f rest v) := by
  unfold element
  split
  · simp [not_refused_operand]
  · simp [h]

theorem elements_congr {xs : List Value} (h : ∀ x ∈ xs, ¬ Refused (f x) → g x = f x)
    {rest : Value} (hr : ¬ Refused (xs.foldlM (element f) rest)) :
    xs.foldlM (element g) rest = xs.foldlM (element f) rest := by
  induction xs generalizing rest with
  | nil => rfl
  | cons x xs ih =>
    rw [List.foldlM_cons, refused_bind_iff, not_or] at hr
    rw [List.foldlM_cons, List.foldlM_cons, element_congr (h x (.head _)) hr.1]
    cases hx : element f rest x with
    | error e => rfl
    | ok rest' =>
      exact ih (fun y hy => h y (.tail _ hy)) fun hr' => hr.2 ⟨rest', hx, hr'⟩

theorem not_refused_elements {xs : List Value} (h : ∀ x ∈ xs, ¬ Refused (f x)) (rest : Value) :
    ¬ Refused (xs.foldlM (element f) rest) := by
  induction xs generalizing rest with
  | nil => simp
  | cons x xs ih =>
    rw [List.foldlM_cons, refused_bind_iff]
    rintro (hr | ⟨rest', _, hr⟩)
    · exact not_refused_element (h x (.head _)) hr
    · exact ih (fun y hy => h y (.tail _ hy)) rest' hr

/-- Expanding a template that is not refused is the same with more levels. -/
theorem expand_mono {limit limit' room room' : Nat} (h : room ≤ room') {v : Value}
    (hr : ¬ Refused (expand limit room v)) : expand limit' room' v = expand limit room v := by
  induction room generalizing room' v with
  | zero => simp [expand] at hr
  | succ room ih =>
    obtain ⟨room', rfl⟩ := Nat.exists_eq_add_of_lt h
    unfold expand at hr ⊢
    split at hr
    · rfl
    · rfl
    · exact elements_congr (fun x _ hx => ih (Nat.le_add_right room room') hx) hr
    · rfl

theorem not_refused_expand (limit : Nat) {room : Nat} {v : Value} (h : v.height ≤ room) :
    ¬ Refused (expand limit room v) := by
  induction room generalizing v with
  | zero => exact absurd h (Nat.not_le.mpr v.height_pos)
  | succ room ih =>
    unfold expand
    split
    · simp
    · exact not_refused_operand _ _
    · next kind x xs tag _ =>
      refine not_refused_elements (fun y hy => ih ?_) _
      rw [Value.height] at h
      have hle := Value.height_le_heights (List.mem_reverse.mp hy)
      exact Nat.le_trans hle (Nat.le_of_succ_le_succ h)
    · simp

/-- Expanding a template takes levels, and no more than it is high. -/
theorem levelled_expand (v : Value) :
    Levelled (fun limit depth => expand limit (limit - depth) v) v.height where
  mono hle hr := expand_mono hle hr
  enough := not_refused_expand _ (Nat.le_refl _)

end Template

end Lisp
