/-!
# Integer literals

An optional minus sign and ASCII digits. The value has to fit in a signed 64-bit word.
-/

namespace Lisp.Decimal

/-- Splits off a leading minus sign and says whether there was one. -/
def sign : List Char → Bool × List Char
  | '-' :: cs => (true, cs)
  | cs => (false, cs)

/-- Whether the text is an integer literal, of whatever size. -/
def isLiteral (cs : List Char) : Bool :=
  let digits := (sign cs).2
  !digits.isEmpty && digits.all Char.isDigit

/-- The number that a run of digits stands for. -/
def magnitude (digits : List Char) : Nat :=
  digits.foldl (fun n d => 10 * n + (d.toNat - '0'.toNat)) 0

/-- The number that an integer literal stands for. -/
def value (cs : List Char) : Int :=
  match sign cs with
  | (true, digits) => -(magnitude digits : Int)
  | (false, digits) => magnitude digits

/-- The word that holds `n`, if there is one. -/
def word? (n : Int) : Option Int64 :=
  if Int64.minValue.toInt ≤ n ∧ n ≤ Int64.maxValue.toInt then some (Int64.ofInt n) else none

/-- How an integer is written. -/
def written (n : Int) : String :=
  toString n

/-- A word is the word that holds its own value. -/
@[simp] theorem word?_toInt (n : Int64) : word? n.toInt = some n := by
  rw [word?, if_pos ⟨n.minValue_le_toInt, n.toInt_le⟩, Int64.ofInt_toInt]

/-- The word found has the value that was asked for. -/
theorem toInt_of_word? {n : Int} {w : Int64} (h : word? n = some w) : w.toInt = n := by
  unfold word? at h
  split at h
  next hn =>
    rw [Int64.toInt_minValue, Int64.toInt_maxValue] at hn
    cases h
    exact Int64.toInt_ofInt_of_le hn.1 (by omega)
  next => cases h

end Lisp.Decimal
