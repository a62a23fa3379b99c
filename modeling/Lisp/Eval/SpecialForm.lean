/-!
# Special forms

The symbols whose calls are not evaluated like others.
-/

namespace Lisp

/-- A call that decides for itself which of its operands are evaluated. -/
inductive SpecialForm
  | define
  | defineMacro
  | bindLocal
  | doInOrder
  | choose
  | function
  | quote
  | quasiquote
  | quasiquoteExpand
  | macroExpand
  | tryCatch
  | evalGlobal
  deriving DecidableEq

namespace SpecialForm

/-- The symbol at the head of a special form. -/
def name : SpecialForm → String
  | define => "def!"
  | defineMacro => "defmacro!"
  | bindLocal => "let*"
  | doInOrder => "do"
  | choose => "if"
  | function => "fn*"
  | quote => "quote"
  | quasiquote => "quasiquote"
  | quasiquoteExpand => "quasiquoteexpand"
  | macroExpand => "macroexpand"
  | tryCatch => "try*"
  | evalGlobal => "eval"

/-- The special form that a symbol stands for. -/
def ofName? : String → Option SpecialForm
  | "def!" => some define
  | "defmacro!" => some defineMacro
  | "let*" => some bindLocal
  | "do" => some doInOrder
  | "if" => some choose
  | "fn*" => some function
  | "quote" => some quote
  | "quasiquote" => some quasiquote
  | "quasiquoteexpand" => some quasiquoteExpand
  | "macroexpand" => some macroExpand
  | "try*" => some tryCatch
  | "eval" => some evalGlobal
  | _ => none

/-- Every special form has a symbol of its own. -/
@[simp] theorem ofName?_name (f : SpecialForm) : ofName? f.name = some f := by
  cases f <;> rfl

end SpecialForm

end Lisp
