import Lisp.Reader
import Lisp.Run
import Lisp.Template

/-!
# Nested calls

Three things take a level of nesting: evaluating a form that is in no tail position, reading a
form and expanding a template. What a step of evaluation does is defined in terms of these three,
whatever they are. Here reading and expanding are confined to the levels that are left in the
state; both leave the state as it is.
-/

namespace Lisp

/-- What takes a level of nesting. -/
structure NestedCalls where
  /-- Evaluates a form in a scope. -/
  eval : Value → Scope → Run Value
  /-- Reads the first form of a text. -/
  read : String → Run Value
  /-- Expands the operand of a `quasiquote`. -/
  template : Value → Run Value

/-- Reads the first form of a text within the levels that are left. -/
def readForm (text : String) : Run Value := do
  let (limit, depth) ← Run.inspect fun s => (s.limit, s.depth)
  readFirst limit depth text

/-- Reads all forms of a text, each within the levels that are left. -/
def readForms (text : String) : Run (List Value) := do
  let (limit, depth) ← Run.inspect fun s => (s.limit, s.depth)
  readAll limit depth text

/-- Expands a template within the levels that are left. -/
def expandTemplate (v : Value) : Run Value := do
  let (limit, depth) ← Run.inspect fun s => (s.limit, s.depth)
  Template.expand limit (limit - depth) v

/-- Reading a form leaves the state as it is. -/
theorem readForm_apply (text : String) (s : State) :
    readForm text s = Run.ofExcept (readFirst s.limit s.depth text) s := rfl

/-- Reading forms leaves the state as it is. -/
theorem readForms_apply (text : String) (s : State) :
    readForms text s = Run.ofExcept (readAll s.limit s.depth text) s := rfl

/-- Expanding a template leaves the state as it is. -/
theorem expandTemplate_apply (v : Value) (s : State) :
    expandTemplate v s = Run.ofExcept (Template.expand s.limit (s.limit - s.depth) v) s := rfl

end Lisp
