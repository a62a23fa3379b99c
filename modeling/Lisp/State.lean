import Std.Data.TreeMap
import Lisp.Host.Basic
import Lisp.Value.Rendering

/-!
# State

Everything that evaluation can change: the frames that scopes consist of, the cells of atoms, the
world outside and the count of nested calls. Frames and cells are only ever added, a name is bound
in one frame at a time and an atom is changed on its own: the lemmas on `binding?` and `content`
say so, operation by operation.
-/

namespace Lisp

/-- The bindings of one frame. -/
abbrev Frame := Std.TreeMap String Value

/-- Everything that evaluation can change. -/
structure State where
  frames : Array Frame
  cells : Array Value
  host : Host
  /-- How many nested calls are under way. -/
  depth : Nat
  /-- How many nested calls may be under way. -/
  limit : Nat

namespace State

/-- How many nested calls may be under way unless the program's user says otherwise. -/
def defaultLimit : Nat := 20000

/-- The state before anything has been defined. -/
def initial (host : Host) : State :=
  ⟨#[], #[], host, 0, defaultLimit⟩

/-! ### Frames -/

/-- What `name` is bound to in the frame `f`. -/
def binding? (s : State) (f : FrameId) (name : String) : Option Value :=
  s.frames[f]?.bind (·[name]?)

/-- What `name` is bound to in the first of these frames that binds it. -/
def firstBinding? (s : State) (name : String) : List FrameId → Option Value
  | [] => none
  | f :: fs =>
    match s.binding? f name with
    | some v => some v
    | none => firstBinding? s name fs

/-- What `name` means in a scope. -/
def lookup (s : State) (scope : Scope) (name : String) : Option Value :=
  match s.firstBinding? name scope.inner with
  | some v => some v
  | none => s.binding? scope.root name

/-- Adds a frame without bindings. -/
def newFrame (s : State) : FrameId × State :=
  (s.frames.size, { s with frames := s.frames.push ∅ })

/-- Binds `name` in the frame `f`. -/
def bind (s : State) (f : FrameId) (name : String) (v : Value) : State :=
  { s with frames := s.frames.modify f (·.insert name v) }

/-- Binds names in the frame `f`, from left to right. -/
def bindAll (s : State) (f : FrameId) (bindings : List (String × Value)) : State :=
  bindings.foldl (fun s b => s.bind f b.1 b.2) s

/-- Binds `name` in the innermost frame of a scope. -/
def define (s : State) (scope : Scope) (name : String) (v : Value) : State :=
  s.bind scope.frame name v

/-- Adds a frame inside a scope. -/
def newChild (s : State) (scope : Scope) : Scope × State :=
  let (f, s) := s.newFrame
  (scope.child f, s)

/-- Adds a frame that is a scope of its own. -/
def newGlobal (s : State) : Scope × State :=
  let (f, s) := s.newFrame
  (.global f, s)

/-- A new frame binds nothing and changes no other. -/
@[simp] theorem binding?_newFrame (s : State) (f : FrameId) (name : String) :
    s.newFrame.2.binding? f name = s.binding? f name := by
  simp only [binding?, newFrame, Array.getElem?_push]
  split
  · next h =>
    subst h
    simp
  · rfl

/-- A name means what it was bound to last. -/
theorem binding?_bind_self {s : State} {f : FrameId} (h : f < s.frames.size) (name : String)
    (v : Value) : (s.bind f name v).binding? f name = some v := by
  simp only [binding?, bind, Array.getElem?_modify, if_true, Array.getElem?_eq_getElem h]
  simp

/-- Binding a name changes no other name and no other frame. -/
theorem binding?_bind_of_ne {s : State} {f g : FrameId} {name other : String}
    (h : g ≠ f ∨ other ≠ name) (v : Value) :
    (s.bind f name v).binding? g other = s.binding? g other := by
  simp only [binding?, bind, Array.getElem?_modify]
  split
  · next hfg =>
    subst hfg
    have hn : name ≠ other := by
      rcases h with h | h
      · exact absurd rfl h
      · exact Ne.symm h
    cases s.frames[f]? with
    | none => rfl
    | some fr =>
      simp only [Option.map_some, Option.bind_some, Std.TreeMap.getElem?_insert]
      rw [if_neg]
      intro hc
      exact hn (Std.LawfulEqCmp.eq_of_compare hc)
  · rfl

/-- What a name means depends on nothing but what the frames of the scope bind it to. -/
theorem lookup_congr_frames {s t : State} {scope : Scope} {name : String}
    (h : ∀ f ∈ scope.frames, t.binding? f name = s.binding? f name) :
    t.lookup scope name = s.lookup scope name := by
  have hfirst (fs : List FrameId) (hfs : ∀ f ∈ fs, t.binding? f name = s.binding? f name) :
      t.firstBinding? name fs = s.firstBinding? name fs := by
    induction fs with
    | nil => rfl
    | cons f fs ih =>
      rw [List.forall_mem_cons] at hfs
      rw [firstBinding?, firstBinding?, hfs.1, ih hfs.2]
  have hinner := hfirst scope.inner fun f hf => h f (List.mem_append_left _ hf)
  have hroot := h scope.root (List.mem_append_right _ (.head _))
  rw [lookup, lookup, hinner, hroot]

/-- What a name means depends on nothing but what it is bound to. -/
theorem lookup_congr {s t : State} {name : String}
    (h : ∀ f, t.binding? f name = s.binding? f name) (scope : Scope) :
    t.lookup scope name = s.lookup scope name :=
  lookup_congr_frames fun f _ => h f

/-! ### Atoms -/

/-- What an atom holds. -/
def content (s : State) (c : CellId) : Value :=
  s.cells[c]?.getD .nil

/-- Adds an atom. -/
def newAtom (s : State) (v : Value) : CellId × State :=
  (s.cells.size, { s with cells := s.cells.push v })

/-- Replaces what an atom holds. -/
def setContent (s : State) (c : CellId) (v : Value) : State :=
  { s with cells := s.cells.set! c v }

/-- A new atom holds its first value. -/
@[simp] theorem content_newAtom_self (s : State) (v : Value) :
    (s.newAtom v).2.content (s.newAtom v).1 = v := by
  simp [content, newAtom]

/-- A new atom changes no other. -/
theorem content_newAtom_of_lt {s : State} {c : CellId} (h : c < s.cells.size) (v : Value) :
    (s.newAtom v).2.content c = s.content c := by
  simp [content, newAtom, Array.getElem?_push, Nat.ne_of_lt h]

/-- An atom holds what was put into it last. -/
theorem content_setContent_self {s : State} {c : CellId} (h : c < s.cells.size) (v : Value) :
    (s.setContent c v).content c = v := by
  simp [content, setContent, h]

/-- Changing an atom changes no other. -/
theorem content_setContent_of_ne {c d : CellId} (h : c ≠ d) (s : State) (v : Value) :
    (s.setContent c v).content d = s.content d := by
  simp [content, setContent, h]

/-- The text of what an atom holds, in which atoms are nested at most `n` deep. -/
def contentText (s : State) (style : Style) : Nat → CellId → String
  | 0, _ => ""
  | n + 1, c => (s.content c).render style (s.contentText style n)

/-- Whether the text of what an atom holds ends, in which atoms are nested less than `n` deep. -/
def endsWithin (s : State) : Nat → CellId → Bool
  | 0, _ => false
  | n + 1, c => (s.content c).atomsAll (s.endsWithin n)

/-- Whether a value has a text that ends. An atom that holds itself, directly or through others, has
none; where no atom does, there is no room to nest more of them than there are. -/
def prints (s : State) (v : Value) : Bool :=
  v.atomsAll (s.endsWithin (s.cells.size + 1))

/-- The text of a value, if it has one that ends. -/
def render (s : State) (style : Style) (v : Value) : String :=
  v.render style (s.contentText style (s.cells.size + 1))

/-- The wording of an error. -/
def errorMessage (s : State) (e : Error) : String :=
  e.message (s.render .display)

/-! ### The world outside -/

/-- Writes to the output. -/
def write (s : State) (text : String) : Except HostError Unit × State :=
  let (answer, host) := s.host.write text
  (answer, { s with host })

/-- Writes about an error. -/
def complain (s : State) (text : String) : State :=
  { s with host := s.host.complain text }

/-- Takes a line of input. -/
def readLine (s : State) : Except HostError (List Char) × State :=
  let (answer, host) := s.host.readLine
  (answer, { s with host })

/-- Reads the file at a path. -/
def readFile (s : State) (path : String) : Except HostError String × State :=
  let (answer, host) := s.host.readFile path
  (answer, { s with host })

/-- Reads the clock. -/
def readClock (s : State) : Except HostError Nat × State :=
  let (answer, host) := s.host.readClock
  (answer, { s with host })

end State

end Lisp
