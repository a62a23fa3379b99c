import Lisp.Eval.NestedCalls
import Lisp.Proofs.Reader.Inside
import Lisp.Proofs.Reader.Reprinting
import Lisp.Proofs.Run.Levels

/-!
# Reading by recursive descent

Another way to read forms: one nested call for each form, counted in the state like every nested
call, with the forms inside a bracket read in a loop. Here the levels that are left are nowhere
computed; there is only the count, which goes up where a form begins and down where it ends.
`read_eq_readForm` says that the reader with its stack of open constructs does the same, on every
text and in every state. So a form is read within every limit that its nesting does not exceed, and
refused within every other (`readForm_limit`).
-/

namespace Lisp.Reader

variable {limit room top : Nat} {inner outer : List Open} {ts : List Token}

/-! ### A form inside other constructs -/

/-- A form begins in front of these tokens: they neither close the innermost bracket nor leave it
open at the end of the text. -/
def Begins (outer : List Open) (ts : List Token) : Prop :=
  ∀ b items opens, outer = .bracket b items :: opens → ∃ t us, ts = t :: us ∧ ∀ c, t ≠ .closing c

theorem atEnd_append {o : Open} : atEnd limit room (o :: inner) =
    atEnd limit room (o :: (inner ++ outer)) := by
  cases o <;> rfl

theorem atEnd_of_begins (h : Begins outer []) : atEnd limit room outer = atEnd limit room [] := by
  cases outer with
  | nil => rfl
  | cons o outer =>
    cases o with
    | bracket b items =>
      obtain ⟨t, us, hts, -⟩ := h b items outer rfl
      cases hts
    | _ => rfl

theorem Begins.continues {t : Token} (h : Begins outer (t :: ts)) : Continues outer t := by
  intro b items opens houter
  obtain ⟨t, us, ⟨⟩, ht⟩ := h b items opens houter
  exact ht

theorem form_cons (opens : List Open) (t : Token) (ts : List Token) :
    form limit room opens (t :: ts) =
      step limit room opens t >>= fun p => resume limit p ts := by
  rw [form]
  rcases step limit room opens t with e | v | ⟨room, opens⟩ <;> rfl

theorem form_append (h : room + inner.length = top) (hbegins : inner = [] → Begins outer ts) :
    form limit room (inner ++ outer) ts =
      form limit room inner ts >>= fun p => resume limit (complete p.1 top outer) p.2 := by
  induction ts generalizing room inner with
  | nil =>
    cases inner with
    | nil => exact congrArg Except.error (atEnd_of_begins (hbegins rfl))
    | cons o inner => exact congrArg Except.error atEnd_append.symm
  | cons t ts ih =>
    rw [form_cons, form_cons, step_within h fun hinner => (hbegins hinner).continues]
    cases hstep : step limit room inner t with
    | error e => rfl
    | ok p =>
      cases p with
      | finished v => rfl
      | more room' inner' =>
        obtain ⟨hlevels, hne⟩ := levels_step hstep
        exact ih (hlevels.trans h) fun hinner => absurd hinner hne

/-- A form that begins inside other constructs is read as on its own and then handed to them. -/
theorem form_within (h : Begins outer ts) :
    form limit room outer ts =
      form limit room [] ts >>= fun p => resume limit (complete p.1 room outer) p.2 := by
  have hlevels : room + ([] : List Open).length = room := rfl
  exact form_append hlevels fun _ => h

theorem form_of_no_room (ts : List Token) :
    form limit 0 [] ts = .error (.depthExceeded limit) := by
  cases ts with
  | nil => rfl
  | cons t ts =>
    rw [form_cons]
    cases t <;> rfl

/-- A form takes at least one token. -/
theorem length_of_form {v : Value} {rest : List Token}
    (h : form limit room [] ts = .ok (v, rest)) : rest.length < ts.length := by
  obtain ⟨n, us, -, rfl, hv⟩ := Opened.top.form h
  rw [List.length_append]
  exact Nat.lt_add_of_pos_left (List.length_pos_iff.mpr hv.ne_nil)

/-- A run that ends as a computation without state, followed by others that do. -/
theorem bind_eq_ofExcept {α β : Type} {x : Run α} {f : α → Run β} {y : Except Error α}
    {g : α → Except Error β} {s : State} (hx : x s = Run.ofExcept y s)
    (hf : ∀ a, y = .ok a → f a s = Run.ofExcept (g a) s) :
    (x >>= f) s = Run.ofExcept (y >>= g) s := by
  rw [Run.bind_apply, hx]
  cases y with
  | ok a => exact hf a rfl
  | error e => rfl

/-! ### Recursive descent -/

namespace Descent

/-- Reads one form and returns it with the tokens behind it. Its parts are read by `form`, and what
is inside a bracket by `items`. -/
def parts (form : List Token → Run (Value × List Token))
    (items : Bracket → List Token → Run (List Value × List Token)) :
    List Token → Run (Value × List Token)
  | [] => Run.raise (.malformed .unexpectedEnd)
  | .opening b :: ts => do
    let (vs, ts) ← items b ts
    return (← bracketed vs b, ts)
  | .closing b :: _ => Run.raise (.malformed (.unexpectedCloser b))
  | .sigil .withMeta :: ts => do
    let (tag, ts) ← form ts
    let (v, ts) ← form ts
    return (.list [.symbol Sigil.withMeta.head, v, tag], ts)
  | .sigil s :: ts => do
    let (v, ts) ← form ts
    return (.list [.symbol s.head, v], ts)
  | .text raw :: ts => return (← text raw, ts)
  | .word name :: ts => return (← word name, ts)

mutual

/-- Reads one form, as one more nested call. -/
def form : Nat → List Token → Run (Value × List Token)
  | 0, _ => Run.unfinished
  | fuel + 1, ts => Run.guarded (parts (form fuel) (items fuel) ts)

/-- Reads forms up to the bracket that closes, and returns them with the tokens behind it. -/
def items : Nat → Bracket → List Token → Run (List Value × List Token)
  | 0, _, _ => Run.unfinished
  | fuel + 1, b, ts =>
    match ts with
    | [] => Run.raise (.malformed .unexpectedEnd)
    | .closing c :: ts =>
      if c = b then return ([], ts) else Run.raise (.malformed (.mismatchedCloser c b))
    | ts => do
      let (v, ts) ← form fuel ts
      let (vs, ts) ← items fuel b ts
      return (v :: vs, ts)

end

/-- Reads the first form of a text. Two units of fuel for each token are enough. -/
def read (text : String) : Run Value :=
  match tokenize text with
  | [] => Run.raise .emptyInput
  | ts => Prod.fst <$> form (2 * ts.length + 1) ts

/-- Reading one form ends as it does with a stack of open constructs. -/
def FormAgrees (fuel : Nat) : Prop :=
  ∀ ts s, 2 * ts.length < fuel →
    form fuel ts s = Run.ofExcept (Reader.form s.limit (s.limit - s.depth) [] ts) s

/-- The value of a bracket that held the forms `done`, newest first, before the ones that are read
now. -/
def closed (b : Bracket) (done : List Value) (p : List Value × List Token) :
    Run (Value × List Token) := do
  return (← bracketed (done.reverse ++ p.1) b, p.2)

/-- A bracket that holds the forms `done`, newest first, is read as with a stack. -/
def ItemsAgree (fuel : Nat) : Prop :=
  ∀ b done ts s, 2 * ts.length + 1 < fuel →
    (items fuel b ts >>= closed b done) s =
      Run.ofExcept (Reader.form s.limit (s.limit - s.depth) [.bracket b done] ts) s

variable {fuel : Nat}

theorem items_cons {t : Token} (ht : ∀ c, t ≠ .closing c) (b : Bracket) (us : List Token) :
    items (fuel + 1) b (t :: us) = form fuel (t :: us) >>= fun p =>
      items fuel b p.2 >>= fun q => pure (p.1 :: q.1, q.2) := by
  cases t with
  | closing c => exact absurd rfl (ht c)
  | _ => rfl

theorem closed_cons (b : Bracket) (done : List Value) (v : Value) (q : List Value × List Token) :
    closed b done (v :: q.1, q.2) = closed b (v :: done) q := by
  rw [closed, closed, List.reverse_cons, List.append_assoc]
  rfl

theorem items_agree_succ (hform : FormAgrees fuel) (hitems : ItemsAgree fuel) :
    ItemsAgree (fuel + 1) := by
  intro b done ts s hfuel
  cases ts with
  | nil => rfl
  | cons t us =>
    by_cases ht : ∃ c, t = .closing c
    · obtain ⟨c, rfl⟩ := ht
      have hitems : items (fuel + 1) b (.closing c :: us) =
          if c = b then pure ([], us) else Run.raise (.malformed (.mismatchedCloser c b)) := rfl
      rw [hitems, form_cons, step]
      by_cases hc : c = b
      · rw [if_pos hc, if_pos hc, pure_bind, closed, List.append_nil]
        cases bracketed done.reverse b <;> rfl
      · rw [if_neg hc, if_neg hc]
        rfl
    · have hopen : ∀ c, t ≠ .closing c := fun c hc => ht ⟨c, hc⟩
      have hbegins : Begins [.bracket b done] (t :: us) := fun _ _ _ _ => ⟨t, us, rfl, hopen⟩
      rw [items_cons hopen, form_within hbegins, bind_assoc]
      refine bind_eq_ofExcept (hform _ s (by omega)) fun p hp => ?_
      simp only [bind_assoc, pure_bind, closed_cons]
      exact hitems b (p.1 :: done) p.2 s (by have := length_of_form hp; omega)

/-- What a sigil stands in front of is read in its place. -/
theorem parts_sigil (sigil : Sigil) (hform : FormAgrees fuel) (s : State) {ts : List Token}
    (hfuel : 2 * ts.length < fuel) :
    parts (form fuel) (items fuel) (.sigil sigil :: ts) s =
      Run.ofExcept (start (s.limit - s.depth) [] (.sigil sigil) >>= fun p => resume s.limit p ts)
        s := by
  have hbegins {o : Open} (ho : ∀ b items, o ≠ .bracket b items) (us : List Token) :
      Begins [o] us := by
    rintro b items opens ⟨⟩
    exact absurd rfl (ho b items)
  by_cases hsigil : sigil = .withMeta
  · subst hsigil
    have htag : Reader.form s.limit (s.limit - s.depth) [.tag] ts =
        Reader.form s.limit (s.limit - s.depth) [] ts >>= fun p =>
          Reader.form s.limit (s.limit - s.depth) [.target p.1] p.2 :=
      form_within (hbegins (o := .tag) nofun ts)
    refine Eq.trans ?_ (congrArg (Run.ofExcept · s) htag.symm)
    refine bind_eq_ofExcept (hform ts s hfuel) fun p hp => ?_
    have hlength := length_of_form hp
    rw [form_within (hbegins (o := .target p.1) nofun p.2)]
    exact bind_eq_ofExcept (hform p.2 s (by omega)) fun q _ => rfl
  · have hstart : start (s.limit - s.depth) [] (.sigil sigil) =
        .ok (.more (s.limit - s.depth) [.sigil sigil]) := by
      cases sigil with
      | withMeta => exact absurd rfl hsigil
      | _ => rfl
    have hparts : parts (form fuel) (items fuel) (.sigil sigil :: ts) =
        form fuel ts >>= fun p => pure (.list [.symbol sigil.head, p.1], p.2) := by
      cases sigil with
      | withMeta => exact absurd rfl hsigil
      | _ => rfl
    have hbehind : Reader.form s.limit (s.limit - s.depth) [.sigil sigil] ts =
        Reader.form s.limit (s.limit - s.depth) [] ts >>= fun p =>
          .ok (.list [.symbol sigil.head, p.1], p.2) :=
      form_within (hbegins (o := .sigil sigil) nofun ts)
    rw [hparts, hstart]
    refine Eq.trans ?_ (congrArg (Run.ofExcept · s) hbehind.symm)
    exact bind_eq_ofExcept (hform ts s hfuel) fun p _ => rfl

theorem form_agrees_succ (hform : FormAgrees fuel) (hitems : ItemsAgree fuel) :
    FormAgrees (fuel + 1) := by
  intro ts s hfuel
  rw [form]
  by_cases hs : s.limit ≤ s.depth
  · rw [Run.guarded_of_limit_le _ hs, Nat.sub_eq_zero_of_le hs, form_of_no_room]
    rfl
  refine Run.guarded_eq_of_deeper (Nat.lt_of_not_le hs) ?_
  rw [← Run.ofExcept_deeper]
  obtain ⟨room, hroom⟩ : ∃ room, s.limit - s.depth = room + 1 :=
    ⟨s.limit - s.depth - 1, by omega⟩
  have hdeeper : s.deeper.limit - s.deeper.depth = room := by
    simp only [State.deeper]
    omega
  rw [hroom]
  cases ts with
  | nil => rfl
  | cons t ts =>
    rw [form_cons]
    rw [List.length_cons] at hfuel
    cases t with
    | opening b =>
      have h := hitems b [] ts s.deeper (by omega)
      rw [hdeeper] at h
      exact h
    | closing b => rfl
    | sigil sigil =>
      have hlength : 2 * ts.length < fuel := by omega
      have h := parts_sigil sigil hform s.deeper hlength
      rw [hdeeper] at h
      exact h
    | text raw =>
      have hstep : step s.limit (room + 1) [] (.text raw) =
          (do return complete (← text raw) (room + 1) []) := rfl
      rw [parts, hstep]
      cases text raw <;> rfl
    | word name =>
      have hstep : step s.limit (room + 1) [] (.word name) =
          (do return complete (← word name) (room + 1) []) := rfl
      rw [parts, hstep]
      cases word name <;> rfl

/-- With fuel enough, recursive descent finds every form that is read with a stack, and fails where
that fails. -/
theorem agrees (fuel : Nat) : FormAgrees fuel ∧ ItemsAgree fuel := by
  induction fuel with
  | zero =>
    exact ⟨fun _ _ h => absurd h (Nat.not_lt_zero _), fun _ _ _ _ h => absurd h (Nat.not_lt_zero _)⟩
  | succ fuel ih => exact ⟨form_agrees_succ ih.1 ih.2, items_agree_succ ih.1 ih.2⟩

/-- Reading by recursive descent is reading with a stack of open constructs. -/
theorem read_eq_readForm (text : String) : read text = readForm text := by
  funext s
  rw [readForm_apply, read]
  cases htext : tokenize text with
  | nil =>
    rw [readFirst_of_nil htext]
    rfl
  | cons t ts =>
    have hne : tokenize text ≠ [] := by
      rw [htext]
      exact List.cons_ne_nil t ts
    have hform := (agrees _).1 (t :: ts) s (Nat.lt_succ_self _)
    rw [readFirst_of_ne_nil hne, htext]
    exact bind_eq_ofExcept hform fun _ _ => rfl

end Descent

/-! ### Limits -/

variable {text : String} {us rest : List Token} {n : Nat} {v : Value}

/-- A form takes as many levels as it is nested, and reading it leaves the state as it is. -/
theorem readForm_of_derives (htext : tokenize text = us ++ rest) (hv : Derives n us v) (s : State) :
    readForm text s =
      if s.depth + n ≤ s.limit then .done v s else .failed (.depthExceeded s.limit) s := by
  have hpos := hv.pos
  have hlevels : n ≤ s.limit - s.depth ↔ s.depth + n ≤ s.limit := by
    omega
  rw [readForm_apply, hv.readFirst_eq htext]
  simp only [hlevels]
  split
  · rfl
  · rfl

/-- A text whose first tokens spell a form, nested `n` deep, is read as that form within every limit
that leaves `n` levels, and refused within every other, whatever stands behind the form; the count
of nested calls ends where it began. A reader that does nothing but count nested calls does the
same. What is written of the form spells a form that is nested no deeper. -/
theorem readForm_limit (htext : tokenize text = us ++ rest) (hv : Derives n us v) :
    (∀ s, readForm text s =
      if s.depth + n ≤ s.limit then .done v s else .failed (.depthExceeded s.limit) s) ∧
    Descent.read text = readForm text ∧
    ∀ cell, ∃ m w, m ≤ n ∧ ∀ s, readForm (v.render .readable cell) s =
      if s.depth + m ≤ s.limit then .done w s else .failed (.depthExceeded s.limit) s := by
  refine ⟨readForm_of_derives htext hv, Descent.read_eq_readForm text, fun cell => ?_⟩
  have hwords := allWords_tokenize text
  rw [htext] at hwords
  obtain ⟨w, ⟨m, us', hm, hputs, hw⟩, -⟩ :=
    hv.survives (hwords.of_subset (List.subset_append_left us rest)) cell
  have htokens : tokenize (v.render .readable cell) = us' ++ [] :=
    (Value.tokenize_of_puts hputs).trans (List.append_nil us').symm
  exact ⟨m, w, hm, readForm_of_derives htokens hw⟩

/-- A quoted list in front of a bracket that closes nothing takes four levels. -/
theorem readForm_limit_quoted :
    let text := "\x27(:a [1]) )"
    let us : List Token := [.sigil .quote, .opening .round, .word ":a", .opening .square, .word "1",
      .closing .square, .closing .round]
    let v : Value := .list [.symbol "quote", .list [.keyword "a", .vector [.int 1]]]
    let s := State.initial Host.plain
    tokenize text = us ++ [.closing .round] ∧ Derives 4 us v ∧
      readForm text { s with limit := 4 } = .done v { s with limit := 4 } ∧
      Descent.read text { s with limit := 3 } =
        .failed (.depthExceeded 3) { s with limit := 3 } ∧
      ∃ w, readForm (v.render .readable fun _ => "") { s with limit := 4 } =
        .done w { s with limit := 4 } := by
  intro text us v s
  have htext : tokenize text = us ++ [.closing .round] := by decide +kernel
  have hone : Derives 1 [.word "1"] (.int 1) := .word (word_eq_ok_iff.mp rfl)
  have hkey : Derives 1 [.word ":a"] (.keyword "a") := .word (word_eq_ok_iff.mp rfl)
  have hv : Derives 4 us v :=
    .sigil nofun (.seq .list (.cons hkey (.cons (.seq .vector (.cons hone .nil)) .nil)))
  obtain ⟨hread, hdescent, hwritten⟩ := readForm_limit htext hv
  obtain ⟨m, w, hm, hw⟩ := hwritten fun _ => ""
  refine ⟨htext, hv, hread _, ?_, w, ?_⟩
  · rw [hdescent]
    exact hread _
  · rw [hw, if_pos]
    exact (Nat.zero_add m).trans_le hm

end Lisp.Reader
