import Lisp.Text.Grapheme.Cluster

/-!
# Backspaces in a line

What a line holds once the backspaces in it have taken effect: each takes back the grapheme
cluster in front of it.
-/

namespace Lisp

/-- A backspace, which is a cluster of its own wherever it stands. -/
def backspace : List Char := ['\x08']

/-- The size of a text in bytes. -/
def byteSize : List Char → Nat
  | [] => 0
  | c :: cs => c.utf8Size + byteSize cs

/-- Drops the characters that lie within the first `n` bytes. -/
def dropBytes (n : Nat) : List Char → List Char
  | [] => []
  | c :: cs => if c.utf8Size ≤ n then dropBytes (n - c.utf8Size) cs else c :: cs

/-- A line that is being typed. -/
structure TypedLine where
  /-- The characters, newest first. -/
  chars : List Char
  /-- How many bytes the next backspaces take back, one number for each cluster, newest first. -/
  sizes : List Nat

/-- Types a cluster. The size of a cluster is kept in one byte, so only what a large cluster has
over a multiple of 256 bytes can be taken back. -/
def TypedLine.push (t : TypedLine) (cluster : List Char) : TypedLine :=
  if cluster = backspace then
    match t.sizes with
    | [] => t
    | n :: sizes => ⟨dropBytes n t.chars, sizes⟩
  else ⟨cluster.reverse ++ t.chars, byteSize cluster % 256 :: t.sizes⟩

/-- The line that is left once its backspaces have taken effect. -/
def applyBackspaces (line : List Char) : List Char :=
  ((Grapheme.clusters line).foldl TypedLine.push ⟨[], []⟩).chars.reverse

end Lisp
