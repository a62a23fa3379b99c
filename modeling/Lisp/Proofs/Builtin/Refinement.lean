import Lisp.Builtin.Call
import Lisp.Proofs.Run.Refinement

/-!
# Refinement of built-in functions

A built-in function never looks at the counts of nested calls, so a call of it refines another one
as soon as reading and calling functions do, which are all that it leaves to others.
-/

namespace Lisp.Builtin

open Run

variable {R : Counts → Counts → Prop}

theorem texts_refines (style : Style) (between : String) (args : List Value) :
    Refines R (texts style between args) (texts style between args) :=
  .printing fun _ _ => by simp

/-- A host answers and refuses whatever the counts are. -/
theorem write_refines (source : Source) (text : String) :
    Refines R (.request source (·.write text)) (.request source (·.write text)) :=
  .request fun _ _ => rfl

theorem print_refines (style : Style) (args : List Value) :
    Refines R (print style args) (print style args) := by
  refine (texts_refines style " " args).bind fun line => ?_
  exact (write_refines _ _).bind fun _ => .pure _

theorem fileText_refines (args : List Value) : Refines R (fileText args) (fileText args) := by
  refine (Refines.ofExcept _).bind fun v => (Refines.ofExcept _).bind fun path => ?_
  exact (Refines.request fun _ _ => rfl).bind fun text => .pure _

theorem askLine_refines (args : List Value) : Refines R (askLine args) (askLine args) := by
  refine (Refines.ofExcept _).bind fun v => (Refines.ofExcept _).bind fun prompt => ?_
  refine (write_refines _ prompt).bind fun _ => ?_
  refine (Refines.request fun _ _ => rfl).bind fun line => ?_
  cases line with
  | nil => exact .pure _
  | cons c cs => exact .pure _

theorem time_refines (args : List Value) : Refines R (time args) (time args) := by
  refine (Refines.ofExcept _).bind fun _ => ?_
  refine (Refines.request fun _ _ => rfl).bind fun now => ?_
  split
  · exact .pure _
  · exact .raise _

theorem newAtom_refines (args : List Value) : Refines R (newAtom args) (newAtom args) := by
  refine (Refines.ofExcept _).bind fun v => ?_
  exact (Refines.modify fun _ _ => rfl).bind fun _ => .pure _

theorem contentOf_refines (args : List Value) : Refines R (contentOf args) (contentOf args) := by
  refine (Refines.ofExcept _).bind fun v => (Refines.ofExcept _).bind fun c => ?_
  exact .inspect fun _ _ => rfl

theorem replace_refines (args : List Value) : Refines R (replace args) (replace args) := by
  refine (Refines.ofExcept _).bind fun p => (Refines.ofExcept _).bind fun c => ?_
  exact (Refines.update fun _ _ => rfl).bind fun _ => .pure _

section Nested

variable {read read' : String → Run Value} {ap ap' : Value → List Value → Run Value}

theorem parsed_refines (hread : ∀ text, Refines R (read text) (read' text)) (args : List Value) :
    Refines R (parsed read args) (parsed read' args) := by
  refine (Refines.ofExcept _).bind fun v => (Refines.ofExcept _).bind fun text => ?_
  exact hread text

theorem exchange_refines (hap : ∀ f args, Refines R (ap f args) (ap' f args))
    (args : List Value) : Refines R (exchange ap args) (exchange ap' args) := by
  refine (Refines.ofExcept _).bind fun p => (Refines.ofExcept _).bind fun c => ?_
  refine (Refines.inspect fun _ _ => rfl).bind fun old => (hap _ _).bind fun new => ?_
  exact (Refines.update fun _ _ => rfl).bind fun _ => .pure _

theorem spread_refines (hap : ∀ f args, Refines R (ap f args) (ap' f args))
    (args : List Value) : Refines R (spread ap args) (spread ap' args) := by
  refine (Refines.ofExcept _).bind fun p => (Refines.ofExcept _).bind fun last => ?_
  exact hap _ _

theorem mapOnto_refines (hap : ∀ f args, Refines R (ap f args) (ap' f args)) (f : Value)
    (done vs : List Value) : Refines R (mapOnto ap f done vs) (mapOnto ap' f done vs) := by
  induction vs generalizing done with
  | nil => exact .pure _
  | cons v vs ih => exact (hap _ _).bind fun w => ih (w :: done)

theorem mapEach_refines (hap : ∀ f args, Refines R (ap f args) (ap' f args))
    (args : List Value) : Refines R (mapEach ap args) (mapEach ap' args) := by
  refine (Refines.ofExcept _).bind fun p => (Refines.ofExcept _).bind fun items => ?_
  exact mapOnto_refines hap _ _ _

/-- Calling a built-in function refines along with reading and with calling functions. -/
theorem call_refines (hread : ∀ text, Refines R (read text) (read' text))
    (hap : ∀ f args, Refines R (ap f args) (ap' f args)) (b : Builtin) (args : List Value) :
    Refines R (b.call read ap args) (b.call read' ap' args) := by
  cases b with
  | prStr | str => exact (texts_refines _ _ _).bind fun _ => .pure _
  | prn | println => exact print_refines _ _
  | readString => exact parsed_refines hread args
  | slurp => exact fileText_refines args
  | readLine => exact askLine_refines args
  | timeMs => exact time_refines args
  | list | vector => exact .pure _
  | atom => exact newAtom_refines args
  | deref => exact contentOf_refines args
  | reset => exact replace_refines args
  | swap => exact exchange_refines hap args
  | throw => exact (Refines.ofExcept _).bind fun _ => .raise _
  | apply => exact spread_refines hap args
  | map => exact mapEach_refines hap args
  | seq => exact (Refines.inspect fun _ _ => rfl).bind fun _ => .ofExcept _
  | _ => exact .ofExcept _

end Nested

end Lisp.Builtin
