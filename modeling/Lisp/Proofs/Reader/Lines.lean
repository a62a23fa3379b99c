import Lisp.Proofs.Reader.Grammar
import Lisp.Proofs.Reader.Inside
import Lisp.Proofs.Token.Literals

/-!
# Reading lines

Where a text can be read, all its string literals are closed, so the lines behind it are cut into
tokens on their own. No form is left open at its end either: the forms behind it are read with as
many levels as if nothing stood in front of them.
-/

namespace Lisp

namespace Reader

variable {limit top room : Nat} {opens : List Open} {ts : List Token}

/-- The forms that have been read have no part in what is read next. -/
theorem forms_done (done : List Value) :
    forms limit top done room opens ts =
      (done.reverse ++ ·) <$> forms limit top [] room opens ts := by
  induction ts generalizing done room opens with
  | nil =>
    rw [forms, forms]
    split
    · exact congrArg Except.ok (List.append_nil _).symm
    · rfl
  | cons t ts ih =>
    rw [forms, forms]
    cases step limit room opens t with
    | error e => rfl
    | ok p =>
      cases p with
      | finished v =>
        change forms limit top (v :: done) top [] ts =
          (done.reverse ++ ·) <$> forms limit top [v] top [] ts
        rw [ih (v :: done), ih [v]]
        cases forms limit top [] top [] ts with
        | error e => rfl
        | ok vs => simp
      | more room opens => exact ih done

end Reader

variable {limit depth : Nat} {text : String} {forms : List Value}

/-- A text that can be read closes its string literals. -/
theorem closesTexts_of_readAll (h : readAll limit depth text = .ok forms) : ClosesTexts text := by
  by_contra hopen
  obtain ⟨ts, raw, -, htokens, -, hraw, -⟩ :=
    tokenize_append_of_open hopen (show '\x22' ∉ "".toList by decide)
  rw [readAll, htokens] at h
  exact Reader.forms_of_unreadable hraw (by simp) forms h

/-- The lines behind a text that can be read are read on their own. -/
theorem readAll_append_newline (h : readAll limit depth text = .ok forms) (t : String) :
    readAll limit depth (text ++ "\n" ++ t) = (forms ++ ·) <$> readAll limit depth t := by
  obtain ⟨n, ws, hn, rfl, hforms⟩ := Reader.Opened.top.forms h
  have hrest := hforms.forms_append limit (limit - depth) [] (tokenize t)
  rw [if_pos hn, List.append_nil] at hrest
  rw [readAll, tokenize_append_newline (closesTexts_of_readAll h)]
  refine (hrest.trans (Reader.forms_done _)).trans ?_
  rw [List.reverse_reverse]
  rfl

/-- Texts that are joined by a newline are read one after the other. If every string literal of the
first is closed, their tokens are those of the first and then those of the second. If the first can
be read, so are its string literals, and its forms come in front of those of the second; where the
second cannot be read, its error is the error of both. -/
theorem reads_lines (s t : String) :
    ((∀ raw, .text raw ∈ tokenize s → Quoted.Closed raw) →
      tokenize (s ++ "\n" ++ t) = tokenize s ++ tokenize t) ∧
    ∀ limit depth fs, readAll limit depth s = .ok fs →
      (∀ gs, readAll limit depth t = .ok gs →
        readAll limit depth (s ++ "\n" ++ t) = .ok (fs ++ gs)) ∧
      ∀ e, readAll limit depth t = .error e → readAll limit depth (s ++ "\n" ++ t) = .error e := by
  refine ⟨fun hs => tokenize_append_newline (closesTexts_iff.mpr hs) t, fun limit depth fs hfs => ?_⟩
  have hboth := readAll_append_newline hfs t
  constructor
  · intro gs hgs
    rw [hboth, hgs]
    rfl
  · intro e he
    rw [hboth, he]
    rfl

/-- The first line ends in a comment with a quote; a sigil without its form ends the second. -/
theorem reads_lines_comment :
    (∀ raw, .text raw ∈ tokenize "(f \"a;\") ; \"b" → Quoted.Closed raw) ∧
    tokenize ("(f \"a;\") ; \"b" ++ "\n" ++ "x ~") =
      tokenize "(f \"a;\") ; \"b" ++ tokenize "x ~" ∧
    readAll 2 0 ("(f \"a;\") ; \"b" ++ "\n" ++ "x") =
      .ok ([.list [.symbol "f", .text "a;"]] ++ [.symbol "x"]) ∧
    readAll 2 0 ("(f \"a;\") ; \"b" ++ "\n" ++ "x ~") = .error (.malformed .unexpectedEnd) := by
  have hclosed : ∀ raw, .text raw ∈ tokenize "(f \"a;\") ; \"b" → Quoted.Closed raw := by
    intro raw hraw
    have htokens : tokenize "(f \"a;\") ; \"b" =
        [.opening .round, .word "f", .text "\"a;\"", .closing .round] := by decide
    simp only [htokens, List.mem_cons, List.not_mem_nil, reduceCtorEq, Token.text.injEq, false_or,
      or_false] at hraw
    subst hraw
    exact ⟨['a', ';'], rfl, .plain (by decide) (by decide) (.plain (by decide) (by decide) .nil)⟩
  obtain ⟨htokens, hread⟩ := reads_lines "(f \"a;\") ; \"b" "x ~"
  obtain ⟨-, hread⟩ := hread 2 0 [.list [.symbol "f", .text "a;"]] rfl
  obtain ⟨-, hread'⟩ := reads_lines "(f \"a;\") ; \"b" "x"
  obtain ⟨hread', -⟩ := hread' 2 0 [.list [.symbol "f", .text "a;"]] rfl
  exact ⟨hclosed, htokens hclosed, hread' _ rfl, hread _ rfl⟩

end Lisp
