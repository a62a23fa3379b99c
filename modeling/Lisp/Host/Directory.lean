import Lisp.Host.Standard

/-!
# A directory of files

Resolving a path in a working directory whose files are known, the way a system of nested
directories does it: component by component, each of which has to exist before the next is
looked at. Nothing is known of what lies outside the working directory, so no name is found
there, and a step to an outer directory is all that can be taken.
-/

namespace Lisp

/-- The files below a working directory: the components of each path and the bytes found there.
The directories are those that the paths lead through. -/
structure Directory where
  files : List (List String × ByteArray)

namespace Directory

/-- Where a path leads to so far. -/
inductive Place
  /-- The directory with these components, innermost first. -/
  | directory (reversed : List String)
  /-- A directory outside the working directory: one of those around it, or the root. -/
  | outside
  | file (content : ByteArray)

/-- The components of a path, without empty ones and dots. -/
def components (path : String) : List String :=
  (path.splitOn "/").filter fun c => c != "" && c != "."

/-- The directory with files at these paths, which lead downwards from it. -/
def ofPaths (files : List (String × ByteArray)) : Directory :=
  ⟨files.map fun f => (components f.1, f.2)⟩

/-- The content of the file with these components. -/
def content? (d : Directory) (path : List String) : Option ByteArray :=
  (d.files.find? fun f => f.1 == path).map (·.2)

/-- Whether some file lies below these components. -/
def isDirectory (d : Directory) (path : List String) : Bool :=
  d.files.any fun f => path.isPrefixOf f.1 && f.1 != path

/-- The longest name that a component may have, in bytes. -/
def maxName : Nat := 255

/-- The length that a path has to stay below, in bytes. -/
def maxPath : Nat := 4096

/-- One step from a directory to something that it holds. -/
def descend (d : Directory) (reversed : List String) (name : String) : Except HostError Place :=
  let path := (name :: reversed).reverse
  match d.content? path with
  | some content => .ok (.file content)
  | none => if d.isDirectory path then .ok (.directory (name :: reversed)) else .error .notFound

/-- One step from a place. An empty name and a dot stay there, two dots lead to the directory
around it; the root is the directory around itself. -/
def enter (d : Directory) (place : Place) (name : String) : Except HostError Place :=
  match place with
  | .file _ => .error .notDirectory
  | .directory reversed =>
    if name = "" ∨ name = "." then .ok place
    else if name = ".." then
      match reversed with
      | [] => .ok .outside
      | _ :: around => .ok (.directory around)
    else if name.utf8ByteSize > maxName then .error .nameTooLong
    else d.descend reversed name
  | .outside =>
    if name = "" ∨ name = "." ∨ name = ".." then .ok .outside
    else if name.utf8ByteSize > maxName then .error .nameTooLong
    else .error .notFound

/-- The place that a path leads to: from the root if it begins with a slash, else from the
working directory. -/
def resolve (d : Directory) (path : String) : Except HostError Place :=
  if path.toList.contains '\x00' then .error .nulInPath
  else if path = "" then .error .notFound
  else if path.utf8ByteSize ≥ maxPath then .error .nameTooLong
  else match path.splitOn "/" with
    | "" :: names => names.foldlM d.enter .outside
    | names => names.foldlM d.enter (.directory [])

/-- The text of the file at a path. -/
def read (d : Directory) (path : String) : Except HostError String := do
  match ← d.resolve path with
  | .file content =>
    match String.fromUTF8? content with
    | some s => .ok s
    | none => .error .notText
  | _ => .error .isDirectory

/-- A host with the files of a directory and a text as its input. -/
def host (d : Directory) (input : String) : Host :=
  { Host.empty with files := d.read, input := input.toList }

end Directory

end Lisp
