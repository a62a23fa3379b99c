import Lisp.Reader

/-!
# Reading what is inside a list

Inside an open round bracket the reader does what it does at the top of a text, with one level less:
forms are read one after the other until a round bracket closes where no form has begun. That
bracket ends the list, whatever stands behind it, while at the top of a text it would be an error.
-/

namespace Lisp.Reader

variable {limit top room : Nat} {opens : List Open} {base : List Value}

/-- How reading goes on inside the constructs `outer`: a form that is complete began with `top`
levels and is handed to them. -/
def Progress.within (top : Nat) (outer : List Open) : Progress → Progress
  | .finished v => complete v top outer
  | .more room opens => .more room (opens ++ outer)

/-- How reading goes on inside a round bracket that already holds `base`, newest first. -/
def Progress.inside (top : Nat) (base : List Value) : Progress → Progress
  | .finished v => .more top [.bracket .round (v :: base)]
  | .more room opens => .more room (opens ++ [.bracket .round base])

theorem Progress.within_bracket (top : Nat) (base : List Value) :
    Progress.within top [.bracket .round base] = Progress.inside top base :=
  funext fun p => by cases p <;> rfl

theorem complete_within {outer : List Open} (h : room + opens.length = top) (v : Value) :
    complete v room (opens ++ outer) = (complete v room opens).within top outer := by
  induction opens generalizing v room with
  | nil =>
    cases h
    rfl
  | cons o opens ih =>
    have hlen : room + 1 + opens.length = top := by
      rw [List.length_cons] at h
      omega
    cases o with
    | bracket b items => rfl
    | sigil s => exact ih hlen _
    | tag => rfl
    | target tag => exact ih hlen _

/-- A form that is complete gives back as many levels as it took. -/
theorem levels_complete {v : Value} {room' : Nat} {opens' : List Open}
    (h : complete v room opens = .more room' opens') :
    room' + opens'.length = room + opens.length ∧ opens' ≠ [] := by
  induction opens generalizing v room with
  | nil => cases h
  | cons o opens ih =>
    cases o with
    | bracket b items =>
      cases h
      exact ⟨rfl, List.cons_ne_nil _ _⟩
    | sigil s =>
      obtain ⟨hlevels, hne⟩ := ih h
      refine ⟨?_, hne⟩
      rw [hlevels, List.length_cons]
      omega
    | tag =>
      cases h
      exact ⟨rfl, List.cons_ne_nil _ _⟩
    | target tag =>
      obtain ⟨hlevels, hne⟩ := ih h
      refine ⟨?_, hne⟩
      rw [hlevels, List.length_cons]
      omega

/-- Every construct that is open has taken one level, and while more forms have to follow, one is
open. -/
theorem levels_step {t : Token} {room' : Nat} {opens' : List Open}
    (h : step limit room opens t = .ok (.more room' opens')) :
    room' + opens'.length = room + opens.length ∧ opens' ≠ [] := by
  have hcomplete {x : Except Error Value} {room : Nat} {opens : List Open}
      (h : (do return complete (← x) room opens) = Except.ok (.more room' opens')) :
      room' + opens'.length = room + opens.length ∧ opens' ≠ [] := by
    cases x with
    | ok v => exact levels_complete (Except.ok.inj h)
    | error e => cases h
  unfold step at h
  split at h
  next b items outer c =>
    split at h
    · obtain ⟨hlevels, hne⟩ := hcomplete h
      refine ⟨?_, hne⟩
      rw [hlevels, List.length_cons]
      omega
    · cases h
  next =>
    cases room with
    | zero => cases h
    | succ room =>
      cases t with
      | opening b =>
        cases h
        refine ⟨?_, List.cons_ne_nil _ _⟩
        rw [List.length_cons]
        omega
      | closing b => cases h
      | sigil s =>
        cases s <;>
        · cases h
          refine ⟨?_, List.cons_ne_nil _ _⟩
          rw [List.length_cons]
          omega
      | text raw => exact hcomplete h
      | word name => exact hcomplete h

/-- The next token closes no bracket among the constructs, or they are of another kind. -/
def Continues (opens : List Open) (t : Token) : Prop :=
  ∀ b items outer, opens = .bracket b items :: outer → ∀ c, t ≠ .closing c

/-- A token is read inside other constructs as it is at the top of a text, unless it closes the
innermost of these. -/
theorem step_within {outer : List Open} (h : room + opens.length = top) {t : Token}
    (ht : opens = [] → Continues outer t) :
    step limit room (opens ++ outer) t =
      Progress.within top outer <$> step limit room opens t := by
  have hcomplete (x : Except Error Value) {room : Nat} {opens : List Open}
      (h : room + opens.length = top) :
      (do return complete (← x) room (opens ++ outer)) =
        Progress.within top outer <$> (do return complete (← x) room opens : Except Error _) := by
    cases x with
    | ok v => exact congrArg Except.ok (complete_within h v)
    | error e => rfl
  have henter : enter limit room (opens ++ outer) t =
      Progress.within top outer <$> enter limit room opens t := by
    cases room with
    | zero => rfl
    | succ room =>
      cases t with
      | opening b => rfl
      | closing b => rfl
      | sigil s => cases s <;> rfl
      | text raw => exact hcomplete _ h
      | word name => exact hcomplete _ h
  cases opens with
  | nil =>
    have hstep : step limit room outer t = enter limit room outer t := by
      unfold step
      split
      next b items outer c => exact absurd rfl (ht rfl b items outer rfl c)
      next => rfl
    exact hstep.trans henter
  | cons o opens =>
    cases o with
    | bracket b items =>
      cases t with
      | closing c =>
        simp only [step, List.cons_append]
        split
        · refine hcomplete _ ?_
          rw [List.length_cons] at h
          omega
        · rfl
      | _ => exact henter
    | _ => exact henter

theorem step_inside (h : room + opens.length = top) {t : Token}
    (ht : opens = [] → ∀ c, t ≠ .closing c) :
    step limit room (opens ++ [.bracket .round base]) t =
      Progress.inside top base <$> step limit room opens t := by
  rw [← Progress.within_bracket]
  exact step_within h fun hopens _ _ _ _ => ht hopens

/-- Where no form has begun a closing bracket is an error. -/
theorem step_closing (limit room : Nat) (c : Bracket) :
    ∃ e, step limit room [] (.closing c) = .error e := by
  cases room with
  | zero => exact ⟨_, rfl⟩
  | succ room => exact ⟨_, rfl⟩

/-- The tokens in front of a round bracket that closes are read as the forms `fs`, on their own; the
tokens behind it are `rest`. -/
def ReadsUpTo (limit top : Nat) (done : List Value) (room : Nat) (opens : List Open)
    (us rest : List Token) (fs : List Value) : Prop :=
  ∃ ts, us = ts ++ .closing .round :: rest ∧ forms limit top done room opens ts = .ok fs

section ReadsUpTo

variable {done fs : List Value} {us rest : List Token}

theorem not_readsUpTo_nil : ¬ ReadsUpTo limit top done room opens [] rest fs := by
  rintro ⟨ts, hts, -⟩
  cases ts <;> cases hts

/-- A bracket that closes where no form has begun has to be the one. -/
theorem readsUpTo_closing {c : Bracket} :
    ReadsUpTo limit top done room [] (.closing c :: us) rest fs ↔
      c = .round ∧ us = rest ∧ fs = done.reverse := by
  constructor
  · rintro ⟨ts, hts, hfs⟩
    cases ts with
    | nil =>
      cases hts
      cases hfs
      exact ⟨rfl, rfl, rfl⟩
    | cons t ts =>
      cases hts
      obtain ⟨e, he⟩ := step_closing limit room c
      rw [forms, he] at hfs
      cases hfs
  · rintro ⟨rfl, rfl, rfl⟩
    exact ⟨[], rfl, rfl⟩

/-- Any other token is read, and the bracket stands behind it. -/
theorem readsUpTo_cons {t : Token} (ht : opens = [] → ∀ c, t ≠ .closing c) :
    ReadsUpTo limit top done room opens (t :: us) rest fs ↔
      match step limit room opens t with
      | .error _ => False
      | .ok (.finished v) => ReadsUpTo limit top (v :: done) top [] us rest fs
      | .ok (.more room opens) => ReadsUpTo limit top done room opens us rest fs := by
  have hcons : ReadsUpTo limit top done room opens (t :: us) rest fs ↔
      ∃ ts, us = ts ++ .closing .round :: rest ∧
        forms limit top done room opens (t :: ts) = .ok fs := by
    constructor
    · rintro ⟨ts, hts, hfs⟩
      cases ts with
      | nil =>
        cases hts
        cases opens with
        | nil => exact absurd rfl (ht rfl _)
        | cons o opens => cases hfs
      | cons t ts =>
        cases hts
        exact ⟨ts, rfl, hfs⟩
    · rintro ⟨ts, rfl, hfs⟩
      exact ⟨t :: ts, rfl, hfs⟩
  rw [hcons]
  simp only [forms]
  rcases step limit room opens t with e | v | ⟨room, opens⟩
  · constructor
    · rintro ⟨ts, -, hfs⟩
      cases hfs
    · exact False.elim
  · exact Iff.rfl
  · exact Iff.rfl

/-- A list that has begun is read up to the first round bracket that closes where no form has
begun. Its forms are those that the tokens in front of that bracket are read as on their own. -/
theorem form_inside (h : room + opens.length = top) {v : Value} :
    form limit room (opens ++ [.bracket .round (done ++ base)]) us = .ok (v, rest) ↔
      ∃ fs, ReadsUpTo limit top done room opens us rest fs ∧ v = .list (base.reverse ++ fs) := by
  induction us generalizing done room opens with
  | nil =>
    constructor
    · intro h
      cases h
    · rintro ⟨fs, hfs, -⟩
      exact absurd hfs not_readsUpTo_nil
  | cons t us ih =>
    by_cases ht : opens = [] ∧ ∃ c, t = .closing c
    · obtain ⟨rfl, c, rfl⟩ := ht
      simp only [readsUpTo_closing]
      constructor
      · intro h
        rw [List.nil_append, form, step] at h
        split at h
        next hc =>
          cases h
          exact ⟨_, ⟨hc, rfl, rfl⟩, by rw [List.reverse_append]⟩
        next => cases h
      · rintro ⟨fs, ⟨rfl, rfl, rfl⟩, rfl⟩
        rw [List.nil_append, form, step, if_pos rfl, List.reverse_append]
        rfl
    · have ht' : opens = [] → ∀ c, t ≠ .closing c := fun hopens c hc => ht ⟨hopens, c, hc⟩
      simp only [readsUpTo_cons ht', form, step_inside h ht']
      rcases hprogress : step limit room opens t with e | w | ⟨room', opens'⟩
      · constructor
        · intro h
          cases h
        · rintro ⟨fs, ⟨⟩, -⟩
      · exact @ih top [] (w :: done) rfl
      · exact ih ((levels_step hprogress).1.trans h)

end ReadsUpTo

theorem step_unreadable {raw : String} (h : ∃ cause, Quoted.read raw = .error cause)
    (limit room : Nat) (opens : List Open) :
    ∃ e, step limit room opens (.text raw) = .error e := by
  obtain ⟨cause, h⟩ := h
  have henter : ∃ e, enter limit room opens (.text raw) = .error e := by
    cases room with
    | zero => exact ⟨_, rfl⟩
    | succ room =>
      refine ⟨.malformed cause, ?_⟩
      rw [enter, start, text, h]
      rfl
  cases opens with
  | nil => exact henter
  | cons o opens => cases o <;> exact henter

/-- A string literal that cannot be read ends the reading of forms with an error. -/
theorem forms_of_unreadable {raw : String} (hraw : ∃ cause, Quoted.read raw = .error cause)
    {done : List Value} {ts : List Token} (hts : .text raw ∈ ts) (fs : List Value) :
    forms limit top done room opens ts ≠ .ok fs := by
  induction ts generalizing done room opens with
  | nil => cases hts
  | cons t ts ih =>
    intro h
    rw [forms] at h
    rcases List.mem_cons.mp hts with rfl | hts
    · obtain ⟨e, he⟩ := step_unreadable hraw limit room opens
      rw [he] at h
      cases h
    · cases hprogress : step limit room opens t with
      | error e =>
        rw [hprogress] at h
        cases h
      | ok progress =>
        rw [hprogress] at h
        cases progress with
        | finished v => exact ih hts h
        | more room opens => exact ih hts h

end Lisp.Reader
