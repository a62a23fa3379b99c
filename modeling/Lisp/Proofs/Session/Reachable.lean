import Lisp.Session

/-!
# Reachable states of a session

A session begins with the built-in functions and the prelude and goes on with operations, each of
which evaluates a text or a file or binds the arguments of the program. Between two operations the
world outside and the limit on nested calls may change. An operation that fails leaves a state
behind like one that succeeds; so does a prelude that fails.
-/

namespace Lisp

/-- The state that an outcome leaves behind. -/
def Outcome.Leaves {α : Type} (o : Outcome α) (s : State) : Prop :=
  (∃ a, o = .done a s) ∨ ∃ e, o = .failed e s

namespace Session

/-- What can be asked of a session. -/
inductive Operation
  | evalText (text : String)
  | evalPrint (text : String)
  | loadFile (path : String)
  | setArguments (args : List String)

/-- What an operation does in the global scope of a session. -/
def Operation.perform (n : Nat) (scope : Scope) : Operation → Run Unit
  | evalText text => do let _ ← Session.evalText n scope text
  | evalPrint text => do let _ ← Session.evalPrint n scope text
  | loadFile path => do let _ ← Session.loadFile n scope path
  | setArguments args => Session.setArguments scope args

/-- The states that operations lead to, with the global scope of the session. -/
inductive Reachable : Scope → State → Prop
  | start {n : Nat} {host : Host} {scope : Scope} {s t : State} :
      bare (.initial host) = .done scope s → (evalSources n scope preludeSources s).Leaves t →
      Reachable scope t
  | perform {n : Nat} {scope : Scope} {s t : State} (op : Operation) :
      Reachable scope s → (op.perform n scope s).Leaves t → Reachable scope t
  | outside {scope : Scope} {s : State} (host : Host) (limit : Nat) :
      Reachable scope s → Reachable scope { s with host, limit }

end Session

end Lisp
