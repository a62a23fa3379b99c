import Lisp.Proofs.Invariant.Shape
import Lisp.Reader
import Lisp.Template

/-!
# Shapes of forms

Whatever the text, the forms read from it are of every lawful shape: the reader makes no closures,
and its maps come about by inserting entries. Expanding a template of some shape yields a form of
that shape.
-/

namespace Lisp

open Shape

variable {S : Shape}

namespace Reader

/-- The forms that an open construct holds are of the shape. -/
def Open.Fits (S : Shape) : Open → Prop
  | .bracket _ items => ∀ v ∈ items, S.Fits v
  | .target v => S.Fits v
  | .sigil _ | .tag => True

/-- The forms read so far are of the shape. -/
def Progress.Fits (S : Shape) : Progress → Prop
  | .finished v => S.Fits v
  | .more _ opens => ∀ o ∈ opens, o.Fits S

theorem complete_fits {v : Value} (hv : S.Fits v) (room : Nat) {opens : List Open}
    (hopens : ∀ o ∈ opens, o.Fits S) : (complete v room opens).Fits S := by
  induction opens generalizing v room with
  | nil => exact hv
  | cons o opens ih =>
    rw [List.forall_mem_cons] at hopens
    cases o with
    | bracket b items =>
      refine List.forall_mem_cons.mpr ⟨?_, hopens.2⟩
      exact List.forall_mem_cons.mpr ⟨hv, hopens.1⟩
    | sigil s =>
      refine ih (fits_list.mpr ?_) (room + 1) hopens.2
      exact List.forall_mem_cons.mpr ⟨.leaf trivial, List.forall_mem_singleton.mpr hv⟩
    | tag => exact List.forall_mem_cons.mpr ⟨hv, hopens.2⟩
    | target tag =>
      refine ih (fits_list.mpr ?_) (room + 1) hopens.2
      refine List.forall_mem_cons.mpr ⟨.leaf trivial, List.forall_mem_cons.mpr ⟨hv, ?_⟩⟩
      exact List.forall_mem_singleton.mpr hopens.1

theorem answers_word (name : String) : S.Answers S.Fits (word name) := by
  simp only [word]
  split
  · split
    · exact Fits.leaf trivial
    · exact Fits.leaf trivial
  · split
    · exact Fits.leaf trivial
    · split
      · exact Fits.leaf trivial
      · split
        · exact Fits.leaf trivial
        · split
          · exact fits_keyword _
          · exact Fits.leaf trivial

theorem answers_text (raw : String) : S.Answers S.Fits (text raw) := by
  unfold text
  split
  · exact Fits.leaf trivial
  · split
    · exact Fits.leaf trivial
    · exact Fits.leaf trivial

section Lawful

variable (hS : S.Lawful)
include hS

theorem answers_bracketed {items : List Value} (hitems : ∀ v ∈ items, S.Fits v) (b : Bracket) :
    S.Answers S.Fits (bracketed items b) := by
  cases b with
  | round => exact fits_list.mpr hitems
  | square => exact fits_vector.mpr hitems
  | curly =>
    simp only [bracketed]
    split
    · exact (answers_ofValues hS hitems).bind fun d hd => .pure (fits_dict.mpr hd)
    · exact Fits.leaf trivial

omit hS in
theorem answers_complete {x : Except Error Value} (hx : S.Answers S.Fits x) (room : Nat)
    {opens : List Open} (hopens : ∀ o ∈ opens, o.Fits S) :
    S.Answers (Progress.Fits S) (return complete (← x) room opens) :=
  hx.bind fun _ hv => complete_fits hv room hopens

omit hS in
theorem answers_start (room : Nat) {opens : List Open} (hopens : ∀ o ∈ opens, o.Fits S)
    (t : Token) : S.Answers (Progress.Fits S) (start room opens t) := by
  cases t with
  | opening b => exact List.forall_mem_cons.mpr ⟨nofun, hopens⟩
  | closing b => exact Fits.leaf trivial
  | sigil s => cases s <;> exact List.forall_mem_cons.mpr ⟨trivial, hopens⟩
  | text raw => exact answers_complete (answers_text raw) _ hopens
  | word name => exact answers_complete (answers_word name) _ hopens

omit hS in
theorem answers_enter (limit room : Nat) {opens : List Open} (hopens : ∀ o ∈ opens, o.Fits S)
    (t : Token) : S.Answers (Progress.Fits S) (enter limit room opens t) := by
  cases room with
  | zero => exact Fits.leaf trivial
  | succ room => exact answers_start room hopens t

/-- Reading a token keeps the forms read so far in the shape. -/
theorem answers_step (limit room : Nat) {opens : List Open} (hopens : ∀ o ∈ opens, o.Fits S)
    (t : Token) : S.Answers (Progress.Fits S) (step limit room opens t) := by
  unfold step
  split
  · rw [List.forall_mem_cons] at hopens
    split
    · refine answers_complete (answers_bracketed hS ?_ _) _ hopens.2
      exact fun v hv => hopens.1 v (List.mem_reverse.mp hv)
    · exact Fits.leaf trivial
  · exact answers_enter limit room hopens t

omit hS in
theorem atEnd_payload_fits (limit room : Nat) (opens : List Open) :
    S.Fits (atEnd limit room opens).payload := by
  unfold atEnd
  split
  · exact .leaf trivial
  · split
    · exact .leaf trivial
    · exact .leaf trivial

theorem answers_form (limit room : Nat) {opens : List Open} (hopens : ∀ o ∈ opens, o.Fits S)
    (ts : List Token) : S.Answers (fun p => S.Fits p.1) (form limit room opens ts) := by
  induction ts generalizing room opens with
  | nil => exact atEnd_payload_fits limit room opens
  | cons t ts ih =>
    refine (answers_step hS limit room hopens t).bind fun p hp => ?_
    cases p with
    | finished v => exact hp
    | more room opens => exact ih room hp

theorem answers_forms (limit top : Nat) {done : List Value} (hdone : ∀ v ∈ done, S.Fits v)
    (room : Nat) {opens : List Open} (hopens : ∀ o ∈ opens, o.Fits S) (ts : List Token) :
    S.Answers (fun vs => ∀ v ∈ vs, S.Fits v) (forms limit top done room opens ts) := by
  induction ts generalizing done room opens with
  | nil =>
    unfold forms
    split
    · exact fun v hv => hdone v (List.mem_reverse.mp hv)
    · exact atEnd_payload_fits limit room opens
  | cons t ts ih =>
    refine (answers_step hS limit room hopens t).bind fun p hp => ?_
    cases p with
    | finished v => exact ih (List.forall_mem_cons.mpr ⟨hp, hdone⟩) top nofun
    | more room opens => exact ih hdone room hp

end Lawful

end Reader

/-- The first form of a text is of every lawful shape. -/
theorem answers_readFirst (hS : S.Lawful) (limit depth : Nat) (text : String) :
    S.Answers S.Fits (readFirst limit depth text) := by
  unfold readFirst
  split
  · exact Fits.leaf trivial
  · exact (Reader.answers_form hS _ _ (List.forall_mem_nil _) _).map fun _ hv => hv

/-- All forms of a text are of every lawful shape. -/
theorem answers_readAll (hS : S.Lawful) (limit depth : Nat) (text : String) :
    S.Answers (fun vs => ∀ v ∈ vs, S.Fits v) (readAll limit depth text) :=
  Reader.answers_forms hS limit _ (List.forall_mem_nil _) _ (List.forall_mem_nil _) _

namespace Template

theorem answers_operand {who : String} {args : List Value} (h : ∀ v ∈ args, S.Fits v) :
    S.Answers S.Fits (operand who args) := by
  unfold operand
  split
  · exact h _ (.head _)
  · exact Fits.leaf trivial

theorem answers_element {inside : Value → Except Error Value} {rest v : Value}
    (hinside : S.Answers S.Fits (inside v)) (hrest : S.Fits rest) (hv : S.Fits v) :
    S.Answers S.Fits (element inside rest v) := by
  have hcall (name : String) {x : Value} (hx : S.Fits x) :
      S.Fits (.list [.symbol name, x, rest]) := by
    simp only [fits_list, List.forall_mem_cons]
    exact ⟨.leaf trivial, hx, hrest, List.forall_mem_nil _⟩
  unfold element
  split
  · have hargs := (fits_seq.mp hv).1
    exact (answers_operand (List.forall_mem_cons.mp hargs).2).bind fun x hx => hcall _ hx
  · exact hinside.bind fun x hx => hcall _ hx

/-- Expanding a template stays in the shape of the template. -/
theorem answers_expand (limit room : Nat) {v : Value} (hv : S.Fits v) :
    S.Answers S.Fits (expand limit room v) := by
  induction room generalizing v with
  | zero => exact Fits.leaf trivial
  | succ room ih =>
    have helements {rest : Value} (hrest : S.Fits rest) {xs : List Value}
        (hxs : ∀ x ∈ xs, S.Fits x) :
        S.Answers S.Fits (xs.foldlM (element (expand limit room)) rest) := by
      induction xs generalizing rest with
      | nil => exact hrest
      | cons x xs ihxs =>
        rw [List.forall_mem_cons] at hxs
        rw [List.foldlM_cons]
        exact (answers_element (ih hxs.1) hrest hxs.1).bind fun rest hrest => ihxs hrest hxs.2
    unfold expand
    split
    · refine fits_list.mpr (List.forall_mem_cons.mpr ⟨.leaf trivial, ?_⟩)
      exact List.forall_mem_singleton.mpr (.leaf trivial)
    · have hargs := (fits_seq.mp hv).1
      exact answers_operand (List.forall_mem_cons.mp hargs).2
    · refine helements (fits_list.mpr (List.forall_mem_nil _)) fun x hx => ?_
      exact (fits_seq.mp hv).1 x (List.mem_reverse.mp hx)
    · exact hv

end Template

end Lisp
