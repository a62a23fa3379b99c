import Lisp.Proofs.Nesting.Levelled
import Lisp.Proofs.Value.Dict
import Lisp.Reader

/-!
# Levels of nesting in the reader

Every form takes a level while it is read, and a form begins with a token, so as many levels as
there are tokens, and one for the form that is missing at the end, are always enough. More levels
than a text needs do not change how it is read.
-/

namespace Lisp

/-- Building a map is refused nothing. -/
theorem Dict.not_refused_ofValues (values : List Value) : ¬ Refused (ofValues values) := by
  rintro ⟨limit, h⟩
  obtain ⟨cause, hcause⟩ := ofValues_error h
  cases hcause

namespace Reader

/-- Two ways for reading to go on that differ in the levels left alone. -/
inductive Progress.Le : Progress → Progress → Prop
  | finished (v : Value) : Le (.finished v) (.finished v)
  | more {room room' : Nat} (opens : List Open) :
      room ≤ room' → Le (.more room opens) (.more room' opens)

/-- Two steps fail alike or lead to progress that differs in the levels left alone. -/
inductive StepLe : Except Error Progress → Except Error Progress → Prop
  | error (e : Error) : StepLe (.error e) (.error e)
  | ok {p q : Progress} : p.Le q → StepLe (.ok p) (.ok q)

theorem complete_le (v : Value) {room room' : Nat} (h : room ≤ room') (opens : List Open) :
    (complete v room opens).Le (complete v room' opens) := by
  fun_induction complete v room opens generalizing room' with
  | case1 v room => exact .finished v
  | case2 v room b items opens => exact .more _ h
  | case3 v room s opens ih => exact ih (Nat.succ_le_succ h)
  | case4 v room opens => exact .more _ h
  | case5 v room tag opens ih => exact ih (Nat.succ_le_succ h)

/-- Completing a form never takes levels away. -/
theorem le_of_complete_eq_more {v : Value} {room room' : Nat} {opens opens' : List Open}
    (h : complete v room opens = .more room' opens') : room ≤ room' := by
  fun_induction complete v room opens with
  | case1 v room => cases h
  | case2 v room b items opens => cases h; exact Nat.le_refl _
  | case3 v room s opens ih => exact Nat.le_of_succ_le (ih h)
  | case4 v room opens => cases h; exact Nat.le_refl _
  | case5 v room tag opens ih => exact Nat.le_of_succ_le (ih h)

theorem not_refused_word (name : String) : ¬ Refused (word name) := by
  by_cases hlit : Decimal.isLiteral name.toList
  · simp only [word, hlit, if_true]
    split <;> simp
  · simp only [word, hlit]
    repeat' split
    all_goals simp

theorem not_refused_text (raw : String) : ¬ Refused (text raw) := by
  unfold text
  repeat' split
  all_goals simp

theorem not_refused_bracketed (items : List Value) (b : Bracket) :
    ¬ Refused (bracketed items b) := by
  cases b with
  | round | square => simp [bracketed]
  | curly =>
    rw [bracketed]
    split
    · rw [refused_bind_iff]
      rintro (h | ⟨d, _, h⟩)
      · exact Dict.not_refused_ofValues _ h
      · simp at h
    · simp

/-- A form that is complete is handed on with the levels it began with. -/
theorem stepLe_complete (x : Except Error Value) {room room' : Nat} (h : room ≤ room')
    (opens : List Open) :
    StepLe (return complete (← x) room opens) (return complete (← x) room' opens) := by
  cases x with
  | error e => exact .error e
  | ok v => exact .ok (complete_le v h opens)

theorem start_le {room room' : Nat} (h : room ≤ room') (opens : List Open) (t : Token) :
    StepLe (start room opens t) (start room' opens t) := by
  cases t with
  | opening b => exact .ok (.more _ h)
  | closing b => exact .error _
  | sigil s => cases s <;> exact .ok (.more _ h)
  | text raw => exact stepLe_complete _ (Nat.succ_le_succ h) opens
  | word name => exact stepLe_complete _ (Nat.succ_le_succ h) opens

theorem enter_le {limit limit' room room' : Nat} (h : room ≤ room') {opens : List Open}
    {t : Token} (ht : ¬ Refused (enter limit room opens t)) :
    StepLe (enter limit room opens t) (enter limit' room' opens t) := by
  cases room with
  | zero => simp [enter] at ht
  | succ room =>
    obtain ⟨room', rfl⟩ := Nat.exists_eq_add_of_lt h
    exact start_le (Nat.le_add_right room room') opens t

/-- A step that finds a level for its form does the same with more levels. -/
theorem step_le {limit limit' room room' : Nat} (h : room ≤ room') {opens : List Open}
    {t : Token} (ht : ¬ Refused (step limit room opens t)) :
    StepLe (step limit room opens t) (step limit' room' opens t) := by
  unfold step at ht ⊢
  split
  · split
    · exact stepLe_complete _ (Nat.succ_le_succ h) _
    · exact .error _
  · exact enter_le h (by simpa using ht)

/-- Where a text ends too early, the levels left show only if there are none. -/
theorem atEnd_eq {limit limit' room room' : Nat} (h : room ≤ room') {opens : List Open}
    (hend : ∀ l, atEnd limit room opens ≠ .depthExceeded l) :
    atEnd limit' room' opens = atEnd limit room opens := by
  unfold atEnd at hend ⊢
  split
  · rfl
  · have hroom : room ≠ 0 := by
      rintro rfl
      simp at hend
    rw [if_neg hroom, if_neg (by omega)]

/-- Reading a form that is not refused is the same with more levels. -/
theorem form_mono {limit limit' room room' : Nat} (h : room ≤ room') {opens : List Open}
    {ts : List Token} (hts : ¬ Refused (form limit room opens ts)) :
    form limit' room' opens ts = form limit room opens ts := by
  induction ts generalizing room room' opens with
  | nil =>
    rw [form, refused_error_iff, not_exists] at hts
    rw [form, form, atEnd_eq h hts]
  | cons t ts ih =>
    rw [form, refused_bind_iff, not_or] at hts
    have hstep : StepLe _ (step limit' room' opens t) := step_le h hts.1
    rw [form, form]
    generalize step limit room opens t = x, step limit' room' opens t = y at hts hstep
    cases hstep with
    | error e => rfl
    | ok hle =>
      cases hle with
      | finished v => rfl
      | more opens h => exact ih h fun hr => hts.2 ⟨_, rfl, hr⟩

/-- What a step that has a level for its form leads to: it is not refused, and where more forms
have to follow it leaves `room` levels for each. -/
inductive Leaves (room : Nat) : Except Error Progress → Prop
  | error {e : Error} : (∀ limit, e ≠ .depthExceeded limit) → Leaves room (.error e)
  | finished (v : Value) : Leaves room (.ok (.finished v))
  | more {room' : Nat} (opens : List Open) : room ≤ room' → Leaves room (.ok (.more room' opens))

theorem leaves_complete {x : Except Error Value} (hx : ¬ Refused x) {room room' : Nat}
    (h : room ≤ room') (opens : List Open) :
    Leaves room (return complete (← x) room' opens) := by
  cases x with
  | error e => exact .error (by simpa using hx)
  | ok v =>
    cases hv : complete v room' opens with
    | finished w =>
      have : Leaves room (.ok (.finished w)) := .finished w
      simpa [hv] using this
    | more room'' opens' =>
      have := Leaves.more opens' (Nat.le_trans h (le_of_complete_eq_more hv))
      simpa [hv] using this

theorem leaves_step (limit room : Nat) (opens : List Open) (t : Token) :
    Leaves room (step limit (room + 1) opens t) := by
  unfold step
  split
  · split
    · exact leaves_complete (not_refused_bracketed _ _) (by omega) _
    · exact .error (by simp)
  · cases t with
    | opening b => exact .more _ (Nat.le_refl room)
    | closing b => exact .error (by simp)
    | sigil s => cases s <;> exact .more _ (Nat.le_refl room)
    | text raw => exact leaves_complete (not_refused_text raw) (Nat.le_succ room) _
    | word name => exact leaves_complete (not_refused_word name) (Nat.le_succ room) _

/-- More levels than there are tokens are enough to read a form. -/
theorem not_refused_form (limit : Nat) {room : Nat} (opens : List Open) {ts : List Token}
    (h : ts.length < room) : ¬ Refused (form limit room opens ts) := by
  induction ts generalizing room opens with
  | nil =>
    have hroom : room ≠ 0 := Nat.ne_of_gt h
    rw [form, atEnd.eq_def]
    split <;> simp [hroom]
  | cons t ts ih =>
    obtain ⟨room, rfl⟩ := Nat.exists_eq_add_of_lt h
    rw [form]
    have hstep := leaves_step limit (ts.length + 1 + room) opens t
    generalize step limit _ opens t = x at hstep
    cases hstep with
    | error he => simpa [bind, Except.bind] using he
    | finished v => simp [bind, Except.bind]
    | more opens hle => exact ih opens (by omega)

/-- More levels than there are tokens are enough to read all forms. -/
theorem not_refused_forms (limit : Nat) {top room : Nat} (done : List Value) (opens : List Open)
    {ts : List Token} (htop : ts.length < top) (h : ts.length < room) :
    ¬ Refused (forms limit top done room opens ts) := by
  induction ts generalizing room done opens with
  | nil =>
    have hroom : room ≠ 0 := Nat.ne_of_gt h
    rw [forms]
    split
    · simp
    · rw [atEnd.eq_def]
      split <;> simp [hroom]
  | cons t ts ih =>
    have htop' : ts.length < top := Nat.lt_of_succ_lt htop
    obtain ⟨room, rfl⟩ := Nat.exists_eq_add_of_lt h
    rw [forms]
    have hstep := leaves_step limit (ts.length + 1 + room) opens t
    generalize step limit _ opens t = x at hstep
    cases hstep with
    | error he => simpa [bind, Except.bind] using he
    | finished v => exact ih _ _ htop' htop'
    | more opens hle => exact ih _ _ htop' (by omega)

end Reader

theorem readFirst_of_nil {s : String} (h : tokenize s = []) (limit depth : Nat) :
    readFirst limit depth s = .error .emptyInput := by
  simp [readFirst, h]

theorem readFirst_of_ne_nil {s : String} (h : tokenize s ≠ []) (limit depth : Nat) :
    readFirst limit depth s =
      Prod.fst <$> Reader.form limit (limit - depth) [] (tokenize s) := by
  unfold readFirst
  split
  next h' => exact absurd h' h
  next => rfl

/-- Reading the first form of a text takes levels, and no more than there are tokens and one. -/
theorem levelled_readFirst (s : String) :
    Levelled (fun limit depth => readFirst limit depth s) ((tokenize s).length + 1) where
  mono := by
    intro limit depth limit' depth' hle hr
    by_cases h : tokenize s = []
    · rw [readFirst_of_nil h, readFirst_of_nil h]
    · rw [readFirst_of_ne_nil h, refused_map_iff] at hr
      rw [readFirst_of_ne_nil h, readFirst_of_ne_nil h, Reader.form_mono hle hr]
  enough := by
    by_cases h : tokenize s = []
    · simp [readFirst_of_nil h]
    · rw [readFirst_of_ne_nil h, refused_map_iff]
      exact Reader.not_refused_form _ [] (Nat.lt_succ_self _)

end Lisp
