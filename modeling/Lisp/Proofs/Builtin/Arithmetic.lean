import Lisp.Proofs.Eval.Levels
import Lisp.Proofs.Reader.Descent
import Lisp.Proofs.Reader.Printing

/-!
# Exact arithmetic

The sum, the difference and the product of two words are those of the integers that they stand
for, or an error if no word stands for that integer; nothing wraps around. Division rounds toward
zero, which settles the quotient (`isQuotient_iff`), and only one quotient by a divisor other than
zero has no word (`not_inWord_tdiv_iff`). What is written for a word, however it came about, is read
as that word again.
-/

namespace Lisp

open Run Eval

/-- There is a word for the integer. -/
def InWord (n : Int) : Prop :=
  -9223372036854775808 ≤ n ∧ n ≤ 9223372036854775807

/-- The quotient of `a` by `b`: what it leaves of `a` is smaller in size than `b`, and is zero or
has the sign of `a`. -/
def IsQuotient (a b q : Int) : Prop :=
  ∃ r : Int, a = q * b + r ∧ r.natAbs < b.natAbs ∧ (r = 0 ∨ r.sign = a.sign)

section Integers

variable {a b n q : Int}

theorem word?_of_inWord (h : InWord n) : ∃ c : Int64, c.toInt = n ∧ Decimal.word? n = some c := by
  have hword : Decimal.word? n = some (Int64.ofInt n) := if_pos h
  exact ⟨_, Decimal.toInt_of_word? hword, hword⟩

theorem word?_of_not_inWord (h : ¬ InWord n) : Decimal.word? n = none :=
  if_neg h

theorem isQuotient_tdiv (a : Int) (hb : b ≠ 0) : IsQuotient a b (a.tdiv b) := by
  refine ⟨a.tmod b, (Int.tdiv_mul_add_tmod a b).symm, ?_, ?_⟩
  · rw [Int.natAbs_tmod]
    exact Nat.mod_lt _ (Int.natAbs_pos.mpr hb)
  · by_cases hdvd : b ∣ a
    · exact .inl (Int.tmod_eq_zero_of_dvd hdvd)
    · right
      rw [Int.sign_tmod, if_neg hdvd]

/-- Two integers have one quotient. -/
theorem isQuotient_iff (hb : b ≠ 0) : IsQuotient a b q ↔ q = a.tdiv b := by
  constructor
  · rintro ⟨r, ha, hr, hsign⟩
    have hsum : r + b * q = a := by rw [ha, Int.mul_comm, Int.add_comm]
    rcases Int.le_total 0 a with hpos | hneg
    · have hnonneg : 0 ≤ r := by
        rcases hsign with rfl | hsign
        · exact Int.le_refl 0
        · exact Int.sign_nonneg_iff.mp (hsign ▸ Int.sign_nonneg_iff.mpr hpos)
      have hunique := (Int.tdiv_tmod_unique (q := q) (r := r) hpos hb).mpr
      exact (hunique ⟨hsum, hnonneg, by omega⟩).1.symm
    · have hnonpos : r ≤ 0 := by
        rcases hsign with rfl | hsign
        · exact Int.le_refl 0
        · exact Int.sign_nonpos_iff.mp (hsign ▸ Int.sign_nonpos_iff.mpr hneg)
      have hunique := (Int.tdiv_tmod_unique' (q := q) (r := r) hneg hb).mpr
      exact (hunique ⟨hsum, by omega, hnonpos⟩).1.symm
  · rintro rfl
    exact isQuotient_tdiv a hb

/-- Only the smallest integer has no quotient in a word, by minus one. -/
theorem not_inWord_tdiv_iff (ha : InWord a) (hb : b ≠ 0) :
    ¬ InWord (a.tdiv b) ↔ a = -9223372036854775808 ∧ b = -1 := by
  have habs : a.natAbs ≤ 9223372036854775808 := by
    unfold InWord at ha
    omega
  rcases Nat.lt_or_ge b.natAbs 2 with hunit | htwo
  · have hb : b = 1 ∨ b = -1 := by omega
    unfold InWord at ha ⊢
    rcases hb with rfl | rfl
    · rw [Int.tdiv_one]
      omega
    · rw [Int.tdiv_neg, Int.tdiv_one]
      omega
  · have hle : (a.tdiv b).natAbs ≤ a.natAbs / 2 := by
      rw [Int.natAbs_tdiv]
      exact Nat.div_le_div_left htwo (by decide)
    unfold InWord
    omega

end Integers

theorem inWord_toInt (a : Int64) : InWord a.toInt :=
  ⟨a.minValue_le_toInt, a.toInt_le⟩

namespace Builtin

/-! ### Calls with two integers -/

/-- Calling `who` with two integers ends in `r`, and so does a form that calls it if two levels are
left. -/
structure Computes (who : Builtin) (a b : Int64) (r : Except Error Value) : Prop where
  call : ∀ read ap s, who.call read ap [.int a, .int b] s = (ofExcept r : Run Value) s
  eval : ∀ s scope n, s.lookup scope who.name = some (.builtin who) →
    Takes 2 (Lisp.eval (n + 3) (.list [.symbol who.name, .int a, .int b]) scope) s
      ((ofExcept r : Run Value) s)

/-- Calling `who` with two integers yields `n` if there is a word for it, and else an error. -/
structure Exact (who : Builtin) (a b : Int64) (n : Int) : Prop where
  yields : InWord n → ∃ c : Int64, c.toInt = n ∧ who.Computes a b (.ok (.int c))
  fails : ¬ InWord n → who.Computes a b (.error (.type (.overflow who.name)))

variable {who : Builtin} {a b : Int64} {n : Int} {r r' : Except Error Value}

/-- An integer is its own value. -/
theorem eval_int_takes {s : State} {scope : Scope} (c : Int64) (n : Nat) :
    Takes 1 (Lisp.eval (n + 2) (.int c) scope) s (.done (.int c) s) :=
  eval_self_takes rfl (fun _ => rfl) n

theorem computes_of_call (hname : SpecialForm.ofName? who.name = Option.none)
    (h : ∀ read ap s, who.call read ap [.int a, .int b] s = (ofExcept r : Run Value) s) :
    who.Computes a b r where
  call := h
  eval s scope n hwho := by
    refine eval_builtin_takes hname hwho (Nat.le_refl 1) ?_
    simp only [evalEach, bind_assoc, pure_bind]
    refine (eval_int_takes a n).bind_more (Nat.le_refl 1) ((eval_int_takes b n).bind fun _ => ?_)
    rw [← ofExcept_deeper]
    exact h _ _ _

/-- A call ends in one way. -/
theorem Computes.unique (h : who.Computes a b r) (h' : who.Computes a b r') : r = r' := by
  have hcall : (ofExcept r : Run Value) (.initial Host.plain) =
      (ofExcept r' : Run Value) (.initial Host.plain) :=
    (h.call readForm (fun _ _ => pure .nil) _).symm.trans (h'.call _ _ _)
  cases r with
  | ok v =>
    cases r' with
    | ok v' => cases hcall; rfl
    | error e => cases hcall
  | error e =>
    cases r' with
    | ok v => cases hcall
    | error e' => cases hcall; rfl

theorem arithmetic_int (op : Int → Int → Int) :
    who.arithmetic op [.int a, .int b] =
      match Decimal.word? (op a.toInt b.toInt) with
      | some c => .ok (.int c)
      | .none => .error (Error.type (.overflow who.name)) :=
  rfl

/-- A function that applies an operation on integers is exact. -/
theorem exact_of_arithmetic {op : Int → Int → Int}
    (hname : SpecialForm.ofName? who.name = Option.none)
    (h : ∀ read ap s, who.call read ap [.int a, .int b] s =
      (ofExcept (who.arithmetic op [.int a, .int b]) : Run Value) s) :
    who.Exact a b (op a.toInt b.toInt) where
  yields hn := by
    obtain ⟨c, hc, hword⟩ := word?_of_inWord hn
    rw [arithmetic_int, hword] at h
    exact ⟨c, hc, computes_of_call hname h⟩
  fails hn := by
    rw [arithmetic_int, word?_of_not_inWord hn] at h
    exact computes_of_call hname h

/-! ### Division -/

theorem division_of_ne (hb : b ≠ 0) :
    division [.int a, .int b] = div.arithmetic Int.tdiv [.int a, .int b] := by
  have htwo : div.two [.int a, .int b] = .ok (.int a, .int b) := rfl
  unfold division
  rw [htwo]
  dsimp only [bind, Except.bind]
  split
  next h => exact absurd (Value.int.inj h) hb
  next => rfl

theorem computes_div_zero (a : Int64) :
    div.Computes a 0 (.error (.type .divisionByZero)) :=
  computes_of_call rfl fun _ _ _ => rfl

theorem exact_div (hb : b ≠ 0) : div.Exact a b (a.toInt.tdiv b.toInt) := by
  refine exact_of_arithmetic rfl fun _ _ s => ?_
  rw [← division_of_ne hb]
  rfl

theorem toInt_ne_zero (hb : b ≠ 0) : b.toInt ≠ 0 :=
  fun h => hb (Int64.toInt_inj.mp h)

theorem not_inWord_quotient_iff (hb : b ≠ 0) :
    ¬ InWord (a.toInt.tdiv b.toInt) ↔ a = Int64.minValue ∧ b = -1 := by
  rw [not_inWord_tdiv_iff (inWord_toInt a) (toInt_ne_zero hb), ← Int64.toInt_inj,
    ← Int64.toInt_inj]
  rfl

/-- Division fails for a zero divisor and where the quotient has no word. -/
theorem division_fails_iff :
    (∃ cause, div.Computes a b (.error (.type cause))) ↔
      b = 0 ∨ (a = Int64.minValue ∧ b = -1) := by
  by_cases hb : b = 0
  · subst hb
    exact iff_of_true ⟨_, computes_div_zero a⟩ (.inl rfl)
  · rw [or_iff_right hb, ← not_inWord_quotient_iff hb]
    constructor
    · rintro ⟨cause, hfails⟩ hword
      obtain ⟨c, -, hyields⟩ := (exact_div hb).yields hword
      cases hfails.unique hyields
    · exact fun hword => ⟨_, (exact_div hb).fails hword⟩

/-! ### Integers that are written -/

/-- What `pr-str` writes for an integer is read as that integer, and so is what it writes in a form
that reads it if three levels are left. -/
structure Reprints (c : Int64) : Prop where
  printed : ∀ read ap s,
    prStr.call read ap [.int c] s = .done (.text (Decimal.written c.toInt)) s
  reads : ∀ s, Takes 1 (readForm (Decimal.written c.toInt)) s (.done (.int c) s)
  eval : ∀ s scope n, s.lookup scope readString.name = some (.builtin readString) →
    s.lookup scope prStr.name = some (.builtin prStr) →
      Takes 3 (Lisp.eval (n + 4) (.list [.symbol readString.name,
        .list [.symbol prStr.name, .int c]]) scope) s (.done (.int c) s)

theorem prStr_int (c : Int64) (read : String → Run Value) (ap : Value → List Value → Run Value)
    (s : State) :
    prStr.call read ap [.int c] s = .done (.text (Decimal.written c.toInt)) s := by
  have hrender : s.render .readable (.int c) = Decimal.written c.toInt := by
    rw [State.render, Value.render, Value.renderOnto, String.empty_append]
  change Outcome.done (Value.text (s.render .readable (.int c))) s = _
  rw [hrender]

/-- An integer is read from what is written for it. -/
theorem readForm_written (c : Int64) (s : State) :
    Takes 1 (readForm (Decimal.written c.toInt)) s (.done (.int c) s) := by
  have hnumeral : Decimal.Numeral (Decimal.written c.toInt).toList c.toInt :=
    Decimal.numeral_written c.toInt
  have htokens := tokenize_eq_of_cuts (Scan.isWord_of_numeral hnumeral).cuts
  rw [String.ofList_toList] at htokens
  have htext := htokens.trans (List.append_nil _).symm
  exact Reader.readForm_of_derives htext (.word (.int hnumeral)) s

theorem isKeyword_written (n : Int) : Lisp.isKeyword (Decimal.written n) = false := by
  have hmark : (Decimal.written n).toList.head? ≠ some keywordMark := by
    intro h
    rcases (Decimal.numeral_written n).mem (List.mem_of_head? h) with hdigit | hminus
    · exact absurd hdigit (by decide)
    · exact absurd hminus (by decide)
  simpa [Lisp.isKeyword] using hmark

theorem readString_written (c : Int64) (ap : Value → List Value → Run Value) (s : State) :
    readString.call readForm ap [.text (Decimal.written c.toInt)] s =
      readForm (Decimal.written c.toInt) s := by
  have hstring : readString.stringOf (.text (Decimal.written c.toInt)) =
      .ok (Decimal.written c.toInt) := by
    simp [stringOf, isKeyword_written]
  change (Run.ofExcept (readString.stringOf (.text (Decimal.written c.toInt))) >>= readForm) s = _
  rw [hstring]
  rfl

theorem reprints (c : Int64) : Reprints c where
  printed := prStr_int c
  reads := readForm_written c
  eval s scope n hread hprint := by
    have hprint' : s.deeper.lookup scope prStr.name = some (.builtin prStr) :=
      (s.lookup_deeper scope _).trans hprint
    have hprinted : Takes 2 (Lisp.eval (n + 3) (.list [.symbol prStr.name, .int c]) scope) s.deeper
        (.done (.text (Decimal.written c.toInt)) s.deeper) := by
      refine eval_builtin_takes rfl hprint' (Nat.le_refl 1) ?_
      simp only [evalEach, bind_assoc, pure_bind]
      exact (eval_int_takes c n).bind fun _ => prStr_int c _ _ _
    refine eval_builtin_takes rfl hread (by decide) ?_
    simp only [evalEach, bind_assoc, pure_bind]
    refine hprinted.bind fun hlevels => ?_
    change readString.call readForm _ [.text (Decimal.written c.toInt)] s.deeper = _
    rw [readString_written]
    exact (readForm_written c s.deeper).eq (Nat.le_of_succ_le hlevels)

/-- Addition, subtraction and multiplication yield the exact integer if there is a word for it and
fail otherwise. Division fails for a zero divisor; by any other divisor there is one quotient, which
it yields unless it is the quotient of the smallest integer by minus one, the only one without a
word. What is written for an integer is read as that integer. -/
theorem arithmetic_exact :
    (∀ a b : Int64,
      add.Exact a b (a.toInt + b.toInt) ∧
      sub.Exact a b (a.toInt - b.toInt) ∧
      mul.Exact a b (a.toInt * b.toInt) ∧
      (b = 0 → div.Computes a b (.error (.type .divisionByZero))) ∧
      (b ≠ 0 → ∃ q, (∀ q', IsQuotient a.toInt b.toInt q' ↔ q' = q) ∧ div.Exact a b q ∧
        (¬ InWord q ↔ a = Int64.minValue ∧ b = -1)) ∧
      ((∃ cause, div.Computes a b (.error (.type cause))) ↔
        b = 0 ∨ (a = Int64.minValue ∧ b = -1))) ∧
    ∀ c, Reprints c := by
  refine ⟨fun a b => ⟨?_, ?_, ?_, ?_, fun hb => ?_, division_fails_iff⟩, reprints⟩
  · exact exact_of_arithmetic rfl fun _ _ _ => rfl
  · exact exact_of_arithmetic rfl fun _ _ _ => rfl
  · exact exact_of_arithmetic rfl fun _ _ _ => rfl
  · rintro rfl
    exact computes_div_zero a
  · exact ⟨_, fun q' => isQuotient_iff (toInt_ne_zero hb), exact_div hb,
      not_inWord_quotient_iff hb⟩

/-- A product that just fits, the negation of the smallest integer, its quotient by minus one, and a
quotient that is rounded toward zero. -/
theorem arithmetic_exact_limits :
    mul.Computes 4294967296 (-2147483648) (.ok (.int Int64.minValue)) ∧
    sub.Computes 0 Int64.minValue (.error (.type (.overflow "-"))) ∧
    div.Computes Int64.minValue (-1) (.error (.type (.overflow "/"))) ∧
    div.Computes (-7) 2 (.ok (.int (-3))) := by
  have hint {who : Builtin} {a b c : Int64} (h : who.Exact a b c.toInt) :
      who.Computes a b (.ok (.int c)) := by
    obtain ⟨d, hd, hcomputes⟩ := h.yields (inWord_toInt c)
    rwa [Int64.toInt_inj.mp hd] at hcomputes
  obtain ⟨hcases, -⟩ := arithmetic_exact
  obtain ⟨-, -, hmul, -⟩ := hcases 4294967296 (-2147483648)
  obtain ⟨-, hsub, -⟩ := hcases 0 Int64.minValue
  obtain ⟨-, -, -, -, hdiv, -⟩ := hcases Int64.minValue (-1)
  obtain ⟨-, -, -, -, hdiv', -⟩ := hcases (-7) 2
  obtain ⟨q, -, hexact, hword⟩ := hdiv (by decide)
  obtain ⟨q', hquotient, hexact', -⟩ := hdiv' (by decide)
  have hq' : (-3 : Int64).toInt = q' :=
    (hquotient _).mp ⟨-1, by decide, by decide, .inr (by decide)⟩
  have hproduct : (4294967296 : Int64).toInt * (-2147483648 : Int64).toInt =
      Int64.minValue.toInt := by decide
  have hnegated : ¬ InWord ((0 : Int64).toInt - Int64.minValue.toInt) := by
    rintro ⟨-, hle⟩
    exact absurd hle (by decide)
  exact ⟨hint (hproduct ▸ hmul), hsub.fails hnegated, hexact.fails (hword.mpr ⟨rfl, rfl⟩),
    hint (hq' ▸ hexact')⟩

end Builtin

end Lisp
