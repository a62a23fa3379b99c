import Lisp.Text.Grapheme.BreakClass

/-!
# Grapheme clusters

Cutting a text into extended grapheme clusters, the units that a reader takes for one character.
Whether a character continues a cluster depends on its class and on four facts about the cluster
so far, so one pass suffices. `flatten_clusters` says that the clusters make up the text.
-/

namespace Lisp.Grapheme

/-- Where in a sequence of a pictograph, extending characters and a joiner a cluster ends. -/
inductive Picture
  | none
  /-- Behind a pictograph and any number of extending characters. -/
  | shown
  /-- Behind the joiner of such a sequence. -/
  | joined
  deriving DecidableEq

/-- Where in a conjunct a cluster ends. -/
inductive Conjunct
  | none
  /-- Behind a consonant that has not been linked yet. -/
  | begun
  /-- Behind a consonant and a linker, with more extending characters among them. -/
  | linked
  deriving DecidableEq

/-- What the rules need to know of the text before a character. -/
structure Context where
  last : BreakClass
  /-- Whether the text ends in an odd number of regional indicators. -/
  odd : Bool
  picture : Picture
  conjunct : Conjunct

/-- The context behind a character of class `b`, before which the context was `t`. -/
def Context.push (t : Context) (b : BreakClass) : Context where
  last := b
  odd := b == .regional && !(t.last == .regional && t.odd)
  picture :=
    match b with
    | .pictograph => .shown
    | .extend | .linker | .nonJoiner => if t.picture = .shown then .shown else .none
    | .joiner => if t.picture = .shown then .joined else .none
    | _ => .none
  conjunct :=
    match b with
    | .consonant => .begun
    | .linker => if t.conjunct = .none then .none else .linked
    | .extend | .joiner => t.conjunct
    | _ => .none

/-- The context at the start of a text, behind a first character of class `b`. -/
def Context.first (b : BreakClass) : Context :=
  Context.push ⟨.other, false, .none, .none⟩ b

/-- Whether a character of class `b` continues the cluster that ends in the context `t`: the
rules in their order, the first that fits decides. -/
def Context.joins (t : Context) (b : BreakClass) : Bool :=
  match t.last, b with
  | .carriageReturn, .lineFeed => true
  | .carriageReturn, _ | .lineFeed, _ | .control, _ => false
  | _, .carriageReturn | _, .lineFeed | _, .control => false
  | .leading, .leading | .leading, .vowel | .leading, .openSyllable
  | .leading, .closedSyllable => true
  | .openSyllable, .vowel | .openSyllable, .trailing | .vowel, .vowel
  | .vowel, .trailing => true
  | .closedSyllable, .trailing | .trailing, .trailing => true
  | _, .extend | _, .linker | _, .nonJoiner | _, .joiner | _, .spacing => true
  | .prepend, _ => true
  | _, .consonant => t.conjunct == .linked
  | _, .pictograph => t.picture == .joined
  | .regional, .regional => t.odd
  | _, _ => false

/-- Cuts the rest of a text behind the complete clusters `done`, newest first, and the characters
`open` of the current one, newest first. -/
def clustersOnto (done : List (List Char)) (current : List Char) (t : Context) :
    List Char → List (List Char)
  | [] => (current.reverse :: done).reverse
  | c :: cs =>
    let b := BreakClass.of c
    if t.joins b then clustersOnto done (c :: current) (t.push b) cs
    else clustersOnto (current.reverse :: done) [c] (t.push b) cs

/-- The grapheme clusters of a text, in order. -/
def clusters : List Char → List (List Char)
  | [] => []
  | c :: cs => clustersOnto [] [c] (Context.first (BreakClass.of c)) cs

theorem flatten_clustersOnto (done : List (List Char)) (current : List Char) (t : Context)
    (cs : List Char) :
    (clustersOnto done current t cs).flatten = done.reverse.flatten ++ current.reverse ++ cs := by
  induction cs generalizing done current t with
  | nil => simp [clustersOnto]
  | cons c cs ih =>
    simp only [clustersOnto]
    split <;> simp [ih]

/-- The clusters of a text make up the text. -/
@[simp] theorem flatten_clusters (cs : List Char) : (clusters cs).flatten = cs := by
  cases cs with
  | nil => rfl
  | cons c cs => simp [clusters, flatten_clustersOnto]

theorem ne_nil_of_mem_clustersOnto {done : List (List Char)} {current cs cluster : List Char}
    {t : Context} (hdone : ∀ c ∈ done, c ≠ []) (hcurrent : current ≠ [])
    (h : cluster ∈ clustersOnto done current t cs) : cluster ≠ [] := by
  have hmore : ∀ c ∈ current.reverse :: done, c ≠ [] :=
    List.forall_mem_cons.mpr ⟨mt List.reverse_eq_nil_iff.mp hcurrent, hdone⟩
  induction cs generalizing done current t with
  | nil => exact hmore cluster (List.mem_reverse.mp h)
  | cons c cs ih =>
    simp only [clustersOnto] at h
    split at h
    · exact ih hdone (List.cons_ne_nil c current) h
        (List.forall_mem_cons.mpr ⟨by simp, hdone⟩)
    · exact ih hmore (List.cons_ne_nil c []) h (List.forall_mem_cons.mpr ⟨by simp, hmore⟩)

/-- A cluster has a character at least. -/
theorem ne_nil_of_mem_clusters {cs cluster : List Char} (h : cluster ∈ clusters cs) :
    cluster ≠ [] := by
  cases cs with
  | nil => cases h
  | cons c cs =>
    exact ne_nil_of_mem_clustersOnto (List.forall_mem_nil _) (List.cons_ne_nil c []) h

end Lisp.Grapheme
