import Lisp.Builtin.Kind
import Lisp.Builtin.Mapping
import Lisp.Builtin.Number
import Lisp.Builtin.Sequence
import Lisp.Run

/-!
# Calling built-in functions

What each built-in function does. Most need nothing but their arguments; the others print, read,
change atoms or call functions. How a text is read and how a function is called is left open here
and given as `read` and `ap`.
-/

namespace Lisp.Builtin

/-- The texts of the arguments, with `between` between two. -/
def texts (style : Style) (between : String) (args : List Value) : Run String :=
  .printing args fun s => between.intercalate (args.map (s.render style))

/-- Prints the texts of the arguments on a line. -/
def print (style : Style) (args : List Value) : Run Value := do
  let line ← texts style " " args
  Run.request (.stream "print") (·.write (line ++ "\n"))
  return .nil

/-- The first form of a text. -/
def parsed (read : String → Run Value) (args : List Value) : Run Value := do
  read (← readString.stringOf (← readString.one args))

/-- The text of a file. -/
def fileText (args : List Value) : Run Value := do
  let path ← slurp.stringOf (← slurp.one args)
  return .text (← Run.request (.file path) (·.readFile path))

/-- A line without the line ends behind it. -/
def chomp (line : List Char) : String :=
  String.ofList (line.reverse.dropWhile fun c => c == '\n' || c == '\r').reverse

/-- Prints a prompt and reads a line, without its line end; `nil` at the end of the input. -/
def askLine (args : List Value) : Run Value := do
  let prompt ← readLine.stringOf (← readLine.one args)
  Run.request (.stream readLine.name) (·.write prompt)
  match ← Run.request (.stream readLine.name) (·.readLine) with
  | [] => return .nil
  | line => return .text (chomp line)

/-- The time in milliseconds. -/
def time (args : List Value) : Run Value := do
  timeMs.none args
  match Decimal.word? (← Run.request .clock (·.readClock)) with
  | some n => return .int n
  | .none => .raise (.type .timeOutOfRange)

/-- A new atom. -/
def newAtom (args : List Value) : Run Value := do
  let v ← atom.one args
  return .atom (← Run.modify (·.newAtom v))

/-- What an atom holds. -/
def contentOf (args : List Value) : Run Value := do
  let c ← deref.cellOf (← deref.one args)
  .inspect (·.content c)

/-- Replaces what an atom holds. -/
def replace (args : List Value) : Run Value := do
  let (a, v) ← reset.two args
  let c ← reset.cellOf a
  .update (·.setContent c v)
  return v

/-- Replaces what an atom holds by the result of a function called with it. The function sees
the atom as it was. -/
def exchange (ap : Value → List Value → Run Value) (args : List Value) : Run Value := do
  let (a, f, more) ← swap.twoOrMore args
  let c ← swap.cellOf a
  let old ← Run.inspect (·.content c)
  let new ← ap f (old :: more)
  .update (·.setContent c new)
  return new

/-- Calls a function with arguments of which the last is a list of more. -/
def spread (ap : Value → List Value → Run Value) (args : List Value) : Run Value := do
  let (f, a, more) ← apply.twoOrMore args
  let last ← apply.itemsOf ((a :: more).getLastD .nil)
  ap f ((a :: more).dropLast ++ last)

/-- Calls a function with each value in turn; the results so far come newest first. -/
def mapOnto (ap : Value → List Value → Run Value) (f : Value) (done : List Value) :
    List Value → Run Value
  | [] => return .list done.reverse
  | v :: vs => do mapOnto ap f ((← ap f [v]) :: done) vs

/-- The results of a function for each element of a sequence. -/
def mapEach (ap : Value → List Value → Run Value) (args : List Value) : Run Value := do
  let (f, s) ← map.two args
  mapOnto ap f [] (← map.itemsOrNil s)

/-- Calls a built-in function. -/
def call (read : String → Run Value) (ap : Value → List Value → Run Value) (b : Builtin)
    (args : List Value) : Run Value :=
  match b with
  | add => add.arithmetic (· + ·) args
  | sub => sub.arithmetic (· - ·) args
  | mul => mul.arithmetic (· * ·) args
  | div => division args
  | lt => lt.comparison (fun a b => a < b) args
  | le => le.comparison (fun a b => a ≤ b) args
  | gt => gt.comparison (fun a b => a > b) args
  | ge => ge.comparison (fun a b => a ≥ b) args
  | eq => equality args
  | prStr => return .text (← texts .readable " " args)
  | str => return .text (← texts .display "" args)
  | prn => print .readable args
  | println => print .display args
  | readString => parsed read args
  | slurp => fileText args
  | readLine => askLine args
  | timeMs => time args
  | list => return .list args
  | isList => isList.ofKind .list args
  | vector => return .vector args
  | isVector => isVector.ofKind .vector args
  | isSequential => sequential args
  | isEmpty => emptiness args
  | count => length args
  | cons => consed args
  | concat => concatenated args
  | vec => asVector args
  | conj => conjoined args
  | nth => element args
  | first => head args
  | rest => tail args
  | seq => do listed (← Run.inspect (·.host.clusters)) args
  | hashMap => mapping args
  | isMap => mapped args
  | assoc => associated args
  | dissoc => dissociated args
  | get => found args
  | contains => hasKey args
  | keys => keyList args
  | vals => valueList args
  | atom => newAtom args
  | isAtom => isAtom.hasKind .atom args
  | deref => contentOf args
  | reset => replace args
  | swap => exchange ap args
  | throw => do .raise (.thrown (← throw.one args))
  | apply => spread ap args
  | map => mapEach ap args
  | isFn => isFn.hasKind .function args
  | isMacro => isMacro.hasKind .macroFunction args
  | isNil => isNil.hasKind .nil args
  | isTrue => isTrue.isBool true args
  | isFalse => isFalse.isBool false args
  | isSymbol => isSymbol.hasKind .symbol args
  | symbol => named args
  | isKeyword => isKeyword.hasKind .keyword args
  | keyword => keywordNamed args
  | isString => isString.hasKind .string args
  | isNumber => isNumber.hasKind .integer args
  | metadata => tagOf args
  | withMeta => tagged args

end Lisp.Builtin
