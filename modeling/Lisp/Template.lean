import Lisp.Error

/-!
# Templates

Expanding the operand of `quasiquote` into calls of `cons` and `concat` that build it. Every form
that is expanded takes one level of nesting.
-/

namespace Lisp.Template

/-- The only operand of `(unquote x)` or `(splice-unquote x)`. -/
def operand (who : String) : List Value → Except Error Value
  | [x] => .ok x
  | args => .error (.arity who (.exactly 1) args.length)

/-- Puts one element in front of the expanded elements behind it; `inside` expands it unless it is
to be spliced. -/
def element (inside : Value → Except Error Value) (rest : Value) : Value → Except Error Value
  | .seq .list (.symbol "splice-unquote" :: args) _ =>
    return .list [.symbol "concat", ← operand "splice-unquote" args, rest]
  | v => return .list [.symbol "cons", ← inside v, rest]

/-- Expands a template with `room` levels left. The elements of a sequence are expanded from right
to left. -/
def expand (limit : Nat) : Nat → Value → Except Error Value
  | 0, _ => .error (.depthExceeded limit)
  | room + 1, v =>
    match v with
    | .symbol _ => .ok (.list [.symbol "quote", v])
    | .seq .list (.symbol "unquote" :: args) _ => operand "unquote" args
    | .seq _ (x :: xs) _ => (x :: xs).reverse.foldlM (element (expand limit room)) (.list [])
    | _ => .ok v

end Lisp.Template
