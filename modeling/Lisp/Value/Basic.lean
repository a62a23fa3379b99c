import Lisp.Builtin.Basic
import Lisp.Token.Basic

/-!
# Values

The values that programs compute with, which are also the forms that the reader yields. A value
is immutable: what can change is kept elsewhere and named by a number, the frames of a closure's
scope and the content of an atom.
-/

namespace Lisp

/-- The number of a frame of bindings. -/
abbrev FrameId := Nat

/-- The number of an atom's cell. -/
abbrev CellId := Nat

/-- The frames that a name is looked up in, innermost first and the global frame last. -/
structure Scope where
  inner : List FrameId
  root : FrameId
  deriving DecidableEq

namespace Scope

/-- The scope that consists of the global frame `root`. -/
def global (root : FrameId) : Scope :=
  ⟨[], root⟩

/-- The scope inside `s` whose innermost frame is `f`. -/
def child (s : Scope) (f : FrameId) : Scope :=
  { s with inner := f :: s.inner }

/-- The innermost frame, the one that definitions go to. -/
def frame (s : Scope) : FrameId :=
  s.inner.headD s.root

/-- The global scope that `s` lies in. -/
def outermost (s : Scope) : Scope :=
  global s.root

/-- All frames of a scope, innermost first. -/
def frames (s : Scope) : List FrameId :=
  s.inner ++ [s.root]

end Scope

/-- Whether a sequence was written with round or with square brackets. -/
inductive SeqKind
  | list
  | vector
  deriving DecidableEq

/-- The bracket that a sequence is written with. -/
def SeqKind.bracket : SeqKind → Bracket
  | list => .round
  | vector => .square

/-- The names that a closure binds: one argument each, and the surplus as a list. -/
structure Params where
  fixed : List String
  rest : Option String
  deriving DecidableEq

/-- A value, or a form to evaluate. The field `tag` holds the metadata, `nil` if there is none. -/
inductive Value
  | nil
  | bool (b : Bool)
  | int (n : Int64)
  | symbol (name : String)
  /-- A string, or a keyword if the text begins with `keywordMark`. -/
  | text (s : String)
  | seq (kind : SeqKind) (items : List Value) (tag : Value)
  /-- A map: its entries in the order in which their keys came. -/
  | map (entries : List (Value × Value)) (tag : Value)
  | closure (params : Params) (body : Value) (scope : Scope) (isMacro : Bool) (tag : Value)
  | builtin (b : Builtin)
  | atom (cell : CellId)

instance : Inhabited Value := ⟨.nil⟩

/-- The character in front of a keyword's name that tells it from a string. -/
def keywordMark : Char := '\u029e'

/-- Whether a text is a keyword. -/
def isKeyword (s : String) : Bool :=
  s.toList.head? == some keywordMark

/-- The name of a keyword: the text behind the mark. -/
def keywordName? (s : String) : Option String :=
  match s.toList with
  | c :: cs => if c = keywordMark then some (String.ofList cs) else none
  | [] => none

/-- The types of values as programs see them. -/
inductive Kind
  | nil
  | boolean
  | integer
  | symbol
  | keyword
  | string
  | list
  | vector
  | map
  | function
  | macroFunction
  | atom
  deriving DecidableEq

/-- The name of a type. -/
def Kind.name : Kind → String
  | nil => "nil"
  | boolean => "boolean"
  | integer => "integer"
  | symbol => "symbol"
  | keyword => "keyword"
  | string => "string"
  | list => "list"
  | vector => "vector"
  | map => "map"
  | function => "function"
  | macroFunction => "macro"
  | atom => "atom"

namespace Value

/-- A list without metadata. -/
def list (items : List Value) : Value :=
  .seq .list items .nil

/-- A vector without metadata. -/
def vector (items : List Value) : Value :=
  .seq .vector items .nil

/-- A map without metadata. -/
def dict (entries : List (Value × Value)) : Value :=
  .map entries .nil

/-- The keyword of this name. A name that begins with the mark already is the whole keyword. -/
def keyword (name : String) : Value :=
  if isKeyword name then .text name else .text (keywordMark.toString ++ name)

/-- The type of a value. -/
def kind : Value → Kind
  | .nil => .nil
  | .bool _ => .boolean
  | .int _ => .integer
  | .symbol _ => .symbol
  | .text s => if isKeyword s then .keyword else .string
  | .seq .list _ _ => .list
  | .seq .vector _ _ => .vector
  | .map _ _ => .map
  | .closure _ _ _ isMacro _ => if isMacro then .macroFunction else .function
  | .builtin _ => .function
  | .atom _ => .atom

/-- Every value but `nil` and `false` counts as true. -/
def isTruthy : Value → Bool
  | .nil => false
  | .bool b => b
  | _ => true

/-- The name of a symbol. -/
def symbol? : Value → Option String
  | .symbol name => some name
  | _ => none

/-- The elements of a list or vector. -/
def items? : Value → Option (List Value)
  | .seq _ items _ => some items
  | _ => none

/-- Whether the value is a list whose first element is the symbol `head`. -/
def isForm (head : String) : Value → Bool
  | .seq .list (.symbol name :: _) _ => name == head
  | _ => false

/-- The metadata of a value. -/
def metadata : Value → Value
  | .seq _ _ tag => tag
  | .map _ tag => tag
  | .closure _ _ _ _ tag => tag
  | _ => .nil

/-- The value with other metadata, if values of its type carry any. -/
def withMetadata? (v tag : Value) : Option Value :=
  match v with
  | .seq kind items _ => some (.seq kind items tag)
  | .map entries _ => some (.map entries tag)
  | .closure params body scope isMacro _ => some (.closure params body scope isMacro tag)
  | _ => none

end Value

end Lisp
