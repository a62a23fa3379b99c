import Mathlib.Data.List.DropRight
import Lisp.Proofs.Reader.Grammar
import Lisp.Proofs.Session.LoadFile
import Lisp.Proofs.Value.Rendering

/-!
# Texts that turn out as keywords

A keyword is a text that begins with a mark. String literals are kept from beginning with it, but
what else makes texts does not look: a rendered symbol, a file, a line of input, a grapheme cluster
or a message may begin with the mark, and then the text is a keyword. `keywords_made` says of each
of these exactly when it is; of the reader it says that a keyword in a form comes from a word that
begins with a colon.
-/

namespace Lisp

namespace Value

/-- The value is a keyword if the condition holds, and else a string. -/
structure KeywordIff (v : Value) (p : Prop) : Prop where
  keyword : v.kind = .keyword ↔ p
  string : v.kind = .string ↔ ¬ p

theorem kind_text (s : String) : (text s).kind = if isKeyword s then .keyword else .string :=
  rfl

theorem keywordIff_text {s : String} {p : Prop} (h : isKeyword s = true ↔ p) :
    (text s).KeywordIff p := by
  constructor
  · rw [kind_text, ← h]
    cases isKeyword s <;> simp
  · rw [kind_text, ← h]
    cases isKeyword s <;> simp

end Value

/-! ### Texts put together -/

/-- What stands behind a text without the mark does not bring it to the beginning. -/
theorem isKeyword_append_plain (s : String) {t : String} (h : Value.BeginsPlainly t) :
    isKeyword (s ++ t) = isKeyword s := by
  by_cases hs : s = ""
  · rw [hs, String.empty_append, h.unmarked]
    rfl
  · exact Value.isKeyword_append hs

theorem intercalate_cons (between t : String) (u : String) (ts : List String) :
    between.intercalate (t :: u :: ts) = t ++ (between ++ between.intercalate (u :: ts)) := by
  rw [← String.toList_inj]
  simp [String.toList_intercalate, List.intercalate]

theorem isKeyword_intercalate_blank (t : String) (ts : List String) :
    isKeyword (" ".intercalate (t :: ts)) = isKeyword t := by
  cases ts with
  | nil =>
    have ht : " ".intercalate [t] = t := by
      rw [← String.toList_inj]
      simp
    rw [ht]
  | cons u ts =>
    rw [intercalate_cons]
    exact isKeyword_append_plain t (.append ⟨by decide, by decide⟩ _)

theorem join_cons (t : String) (ts : List String) :
    "".intercalate (t :: ts) = t ++ "".intercalate ts := by
  cases ts with
  | nil =>
    rw [← String.toList_inj]
    simp
  | cons u ts => rw [intercalate_cons, String.empty_append]

/-- Displayed values make up a keyword if the first of them that displays as anything at all is a
symbol whose name begins with the mark. -/
theorem isKeyword_join_display {s : State} {args : List Value} :
    isKeyword ("".intercalate (args.map (s.render .display))) = true ↔
      ∃ blank name rest, args = blank ++ .symbol name :: rest ∧
        (∀ v ∈ blank, v = .symbol "" ∨ v = .text "") ∧ isKeyword name = true := by
  induction args with
  | nil =>
    refine iff_of_false Bool.false_ne_true ?_
    rintro ⟨blank, name, rest, hargs, -⟩
    simp at hargs
  | cons v vs ih =>
    rw [List.map_cons, join_cons]
    by_cases hv : s.render .display v = ""
    · rw [hv, String.empty_append, ih]
      have hblank : v = .symbol "" ∨ v = .text "" :=
        (Value.render_eq_empty_iff.mp hv).imp_right And.right
      constructor
      · rintro ⟨blank, name, rest, rfl, hall, hname⟩
        exact ⟨v :: blank, name, rest, rfl, List.forall_mem_cons.mpr ⟨hblank, hall⟩, hname⟩
      · rintro ⟨blank, name, rest, hvs, hall, hname⟩
        cases blank with
        | nil =>
          cases hvs
          rcases hblank with hblank | hblank
          · cases hblank
            cases hname
          · cases hblank
        | cons w blank =>
          cases hvs
          exact ⟨blank, name, rest, rfl, (List.forall_mem_cons.mp hall).2, hname⟩
    · rw [Value.isKeyword_append hv, State.render, Value.isKeyword_render]
      constructor
      · rintro ⟨name, rfl, hname⟩
        exact ⟨[], name, vs, rfl, List.forall_mem_nil _, hname⟩
      · rintro ⟨blank, name, rest, hvs, hall, hname⟩
        cases blank with
        | nil =>
          cases hvs
          exact ⟨name, rfl, hname⟩
        | cons w blank =>
          cases hvs
          refine absurd (Value.render_eq_empty_iff.mpr ?_) hv
          exact (hall v (.head _)).imp_right fun h => ⟨rfl, h⟩

/-- Values shown one behind the other make up a keyword if the first is a symbol whose name begins
with the mark. -/
theorem isKeyword_lines_readable {s : State} {args : List Value} :
    isKeyword (" ".intercalate (args.map (s.render .readable))) = true ↔
      ∃ name rest, args = .symbol name :: rest ∧ isKeyword name = true := by
  cases args with
  | nil =>
    refine iff_of_false Bool.false_ne_true ?_
    rintro ⟨name, rest, hargs, -⟩
    cases hargs
  | cons v vs =>
    rw [List.map_cons, isKeyword_intercalate_blank, State.render, Value.isKeyword_render]
    constructor
    · rintro ⟨name, rfl, hname⟩
      exact ⟨name, vs, rfl, hname⟩
    · rintro ⟨name, rest, hvs, hname⟩
      cases hvs
      exact ⟨name, rfl, hname⟩

/-- The text of values whose own texts end. -/
theorem returnText_of_prints (style : Style) (between : String) {args : List Value} {s : State}
    (h : ∀ v ∈ args, s.prints v = true) :
    (do return .text (← Builtin.texts style between args) : Run Value) s =
      .done (.text (between.intercalate (args.map (s.render style)))) s := by
  rw [Run.bind_apply, Builtin.texts, Run.printing_of_prints h]
  rfl

/-- There is none if one of them does not end. -/
theorem returnText_of_not_prints (style : Style) (between : String) {args : List Value} {s : State}
    {v : Value} (hv : v ∈ args) (h : s.prints v = false) :
    (do return .text (← Builtin.texts style between args) : Run Value) s = .unfinished := by
  rw [Run.bind_apply, Builtin.texts, Run.printing_of_not_prints hv h]
  rfl

/-! ### Clusters and lines -/

/-- The first piece of a text begins as the text does. -/
theorem exists_pieces_eq_cons (clusters : Segmentation) {text : String} (hne : text ≠ "") :
    ∃ piece pieces, clusters.pieces text = piece :: pieces ∧
      isKeyword piece = isKeyword text := by
  have hjoin := clusters.join_pieces text
  cases hpieces : clusters.pieces text with
  | nil =>
    rw [hpieces] at hjoin
    exact absurd hjoin.symm hne
  | cons piece pieces =>
    have hpiece : piece ≠ "" := clusters.ne_empty text piece (hpieces ▸ .head _)
    have htext : text = piece ++ String.join pieces := by
      rw [← hjoin, hpieces, ← String.toList_inj]
      simp [String.toList_join]
    refine ⟨piece, pieces, rfl, ?_⟩
    rw [htext, Value.isKeyword_append hpiece]

/-- The clusters of a string are texts, and the first is a string. One of them is a keyword if it
begins with the mark. -/
theorem listed_text (clusters : Segmentation) {text : String} (h : isKeyword text = false)
    (hne : text ≠ "") :
    ∃ v vs, Builtin.listed clusters [.text text] = .ok (.list (v :: vs)) ∧ v.kind = .string ∧
      (∀ w ∈ vs, w.kind = .keyword ∨ w.kind = .string) ∧
        ((∃ w ∈ vs, w.kind = .keyword) ↔
          ∃ piece ∈ clusters.pieces text, piece.toList.head? = some keywordMark) := by
  have hpiece (piece : String) : (Value.text piece).KeywordIff
      (piece.toList.head? = some keywordMark) := Value.keywordIff_text (by rw [isKeyword, beq_iff_eq])
  obtain ⟨first, pieces, hpieces, hfirst⟩ := exists_pieces_eq_cons clusters hne
  have hunmarked : first.toList.head? ≠ some keywordMark := by
    rw [h, isKeyword, beq_eq_false_iff_ne] at hfirst
    exact hfirst
  refine ⟨.text first, pieces.map .text, ?_, (hpiece first).string.mpr hunmarked, ?_, ?_⟩
  · have hargument : Builtin.seq.one [.text text] = .ok (.text text) := rfl
    rw [Builtin.listed, hargument, ← List.map_cons, ← hpieces]
    simp only [bind, Except.bind, h, hne]
    rfl
  · intro v hv
    obtain ⟨piece, -, rfl⟩ := List.mem_map.mp hv
    by_cases hmark : piece.toList.head? = some keywordMark
    · exact .inl ((hpiece piece).keyword.mpr hmark)
    · exact .inr ((hpiece piece).string.mpr hmark)
  · simp only [hpieces, List.mem_map, exists_exists_and_eq_and, (hpiece _).keyword,
      List.exists_mem_cons_iff, hunmarked, false_or]

/-- A line without its end begins as it does with it. -/
theorem isKeyword_chomp (line : List Char) :
    isKeyword (Builtin.chomp line) = true ↔ line.head? = some keywordMark := by
  let isEnd (c : Char) : Bool := c == '\n' || c == '\r'
  obtain ⟨ends, hline⟩ := line.rdropWhile_prefix isEnd
  rw [isKeyword, Builtin.chomp, String.toList_ofList, beq_iff_eq]
  show (line.rdropWhile isEnd).head? = some keywordMark ↔ line.head? = some keywordMark
  cases hkept : line.rdropWhile isEnd with
  | nil =>
    refine iff_of_false (Option.some_ne_none _).symm fun hmark => ?_
    have hends := List.rdropWhile_eq_nil_iff.mp hkept
    exact absurd (hends keywordMark (List.mem_of_mem_head? hmark)) (by decide)
  | cons c kept =>
    rw [hkept] at hline
    rw [← hline]
    rfl

/-- A line that has begun is not taken back. -/
theorem prefix_splitLine (read cs : List Char) : read.reverse <+: (Host.splitLine read cs).1 := by
  fun_induction Host.splitLine read cs with
  | case1 read => exact List.prefix_refl _
  | case2 read cs =>
    rw [List.reverse_cons]
    exact List.prefix_append _ _
  | case3 read c cs hc ih =>
    rw [List.reverse_cons] at ih
    exact (List.prefix_append _ _).trans ih

/-- A line of input begins as the input does. -/
theorem head?_splitLine (c : Char) (cs : List Char) :
    (Host.splitLine [] (c :: cs)).1.head? = some c := by
  by_cases hc : c = '\n'
  · subst hc
    rfl
  · rw [Host.splitLine]
    · obtain ⟨rest, hrest⟩ := prefix_splitLine [c] cs
      rw [← hrest]
      rfl
    · exact hc

/-- The host takes a prompt and lets the next line of its input be read. -/
structure Asks (host : Host) (prompt : String) : Prop where
  writes : host.blocked host.output prompt = none
  reads : host.garbled (Host.splitLine [] host.input).1 = none

/-- `readline` yields the next line. -/
theorem askLine_eq {s : State} {prompt : String} {c : Char} {cs : List Char}
    (hprompt : isKeyword prompt = false) (hasks : Asks s.host prompt)
    (hinput : s.host.input = c :: cs) :
    ∃ line t, Builtin.askLine [.text prompt] s = .done (.text (Builtin.chomp line)) t ∧
      line.head? = some c := by
  have hstring : (Run.ofExcept (Builtin.readLine.stringOf (.text prompt)) : Run String) =
      pure prompt := by
    simp [Builtin.stringOf, hprompt, Run.ofExcept]
  let source : Source := .stream Builtin.readLine.name
  let t : State := { s with host := { s.host with output := s.host.output ++ prompt } }
  have hwrite : Run.request source (·.write prompt) s = .done () t := by
    refine Run.request_of_ok _ _ ?_
    rw [State.write, Host.write, hasks.writes]
  obtain ⟨tail, hline⟩ : ∃ tail, (Host.splitLine [] (c :: cs)).1 = c :: tail :=
    ⟨_, List.eq_cons_of_mem_head? (head?_splitLine c cs)⟩
  have hread : Run.request source (·.readLine) t = .done (c :: tail) t.readLine.2 := by
    refine Run.request_of_ok _ _ (Prod.ext ?_ rfl)
    have hgarbled := hasks.reads
    rw [hinput, hline] at hgarbled
    simp only [State.readLine, Host.readLine, t, hinput, hline, List.isEmpty_cons,
      Bool.false_eq_true, if_false, hgarbled]
  refine ⟨c :: tail, t.readLine.2, ?_, rfl⟩
  change (Run.ofExcept (Builtin.readLine.stringOf (.text prompt)) >>= _) s = _
  rw [hstring, pure_bind]
  change ((Run.request source (·.write prompt) s).andThen _) = _
  rw [hwrite]
  change ((Run.request source (·.readLine) t).andThen _) = _
  rw [hread]
  rfl

/-! ### Messages -/

/-- What the wording of an error begins with and does not come from the wording itself: the name of
the operation that failed, or the text of what cannot be called. -/
def Error.lead : Error → String
  | .arity who _ _ => who
  | .type (.mismatch who _ _) => who
  | .type (.overflow who) => who
  | .type (.notCallable shown _) => shown
  | .unreadable (.stream who) _ => who
  | _ => ""

/-- Wording that is the same for all errors of a kind does not begin with the mark. -/
theorem isKeyword_wording {s : String} (rest : String) (hs : s ≠ "") (hmark : isKeyword s = false) :
    isKeyword (s ++ rest) = isKeyword "" :=
  (Value.isKeyword_append hs).trans hmark

theorem isKeyword_typeMessage (cause : TypeError) :
    isKeyword cause.message = isKeyword (Error.type cause).lead := by
  cases cause with
  | mismatch who expected found =>
    have hrest : Value.BeginsPlainly ": expected " := ⟨by decide, by decide⟩
    show isKeyword (who ++ ": expected " ++ expected ++ ", got " ++ found.name) = isKeyword who
    rw [String.append_assoc, String.append_assoc, String.append_assoc]
    exact isKeyword_append_plain who (hrest.append _)
  | overflow who => exact isKeyword_append_plain who ⟨by decide, by decide⟩
  | notCallable shown found =>
    have hrest : Value.BeginsPlainly " is not callable (" := ⟨by decide, by decide⟩
    show isKeyword (shown ++ " is not callable (" ++ found.name ++ ")") = isKeyword shown
    rw [String.append_assoc, String.append_assoc]
    exact isKeyword_append_plain shown (hrest.append _)
  | indexOutOfRange index length =>
    show isKeyword ("nth: index " ++ toString index ++ " out of range for length " ++
      toString length) = isKeyword ""
    rw [String.append_assoc, String.append_assoc]
    exact isKeyword_wording _ (by decide) (by decide)
  | parameter found | bindings found | parameters found | noMetadata found | oddMap count =>
    exact isKeyword_wording _ (by decide) (by decide)
  | oddPairs | functionEquality | divisionByZero | timeOutOfRange => decide

/-- The wording of an error begins with the mark if what it takes over in front does. -/
theorem isKeyword_message {e : Error} (he : ∀ v, e ≠ .thrown v) (display : Value → String) :
    isKeyword (e.message display) = isKeyword e.lead := by
  cases e with
  | type cause => exact isKeyword_typeMessage cause
  | arity who expected found =>
    have hrest : Value.BeginsPlainly ": wrong number of arguments (expected " :=
      ⟨by decide, by decide⟩
    show isKeyword (who ++ ": wrong number of arguments (expected " ++ expected.message ++
      ", got " ++ toString found ++ ")") = isKeyword who
    rw [String.append_assoc, String.append_assoc, String.append_assoc, String.append_assoc]
    exact isKeyword_append_plain who (hrest.append _)
  | malformed cause => exact isKeyword_wording _ (by decide) (by decide)
  | notFound name =>
    show isKeyword ("'" ++ name ++ "' not found") = isKeyword ""
    rw [String.append_assoc]
    exact isKeyword_wording _ (by decide) (by decide)
  | unreadable source cause =>
    cases source with
    | file path =>
      show isKeyword ("slurp: failed to read '" ++ path ++ "'" ++ ": " ++ cause.message) =
        isKeyword ""
      rw [String.append_assoc, String.append_assoc, String.append_assoc]
      exact isKeyword_wording _ (by decide) (by decide)
    | stream who =>
      have hrest : Value.BeginsPlainly ": I/O error" := ⟨by decide, by decide⟩
      show isKeyword (who ++ ": I/O error" ++ ": " ++ cause.message) = isKeyword who
      rw [String.append_assoc, String.append_assoc]
      exact isKeyword_append_plain who (hrest.append _)
    | clock =>
      show isKeyword ("time-ms: clock error" ++ ": " ++ cause.message) = isKeyword ""
      rw [String.append_assoc]
      exact isKeyword_wording _ (by decide) (by decide)
  | depthExceeded limit =>
    show isKeyword ("maximum recursion depth (" ++ toString limit ++ ") exceeded") = isKeyword ""
    rw [String.append_assoc]
    exact isKeyword_wording _ (by decide) (by decide)
  | emptyInput => exact (show isKeyword "no input" = isKeyword "" by decide)
  | thrown v => exact absurd rfl (he v)

/-- What a handler gets for an error that was not thrown is a keyword if the name of the operation
or the text in front begins with the mark. -/
theorem keywordIff_payload {e : Error} (he : ∀ v, e ≠ .thrown v) :
    e.payload.KeywordIff (isKeyword e.lead = true) := by
  have htext : e.payload = .text (e.message fun _ => "") := by
    cases e with
    | thrown v => exact absurd rfl (he v)
    | _ => rfl
  rw [htext]
  exact Value.keywordIff_text (iff_of_eq (congrArg (· = true) (isKeyword_message he _)))

/-! ### Forms that are read -/

namespace Reader

/-- A keyword comes from one of the words in which its name stands behind a colon. -/
def FromColon (us : List Token) (w : Value) : Prop :=
  w.kind = .keyword → ∃ name, .word (":" ++ name) ∈ us ∧ w = .keyword name

theorem fromColon_leaf {us : List Token} {v : Value} (h : v.Childless) (hv : FromColon us v) :
    v.HoldsIn True (FromColon us) :=
  (Value.holdsIn_iff_of_childless h).mpr hv

theorem fromColon_nil {us : List Token} : Value.nil.HoldsIn True (FromColon us) :=
  fromColon_leaf trivial (by rintro ⟨⟩)

theorem fromColon_seq {us : List Token} {kind : SeqKind} {vs : List Value}
    (h : ∀ v ∈ vs, v.HoldsIn True (FromColon us)) :
    (Value.seq kind vs .nil).HoldsIn True (FromColon us) :=
  Value.holdsIn_seq_iff.mpr ⟨by cases kind <;> rintro ⟨⟩, h, fun _ => fromColon_nil⟩

/-- Every keyword in a form comes from a word that begins with a colon. -/
theorem Derives.fromColon {n : Nat} {us ts : List Token} {v : Value} (h : Derives n us v)
    (hsub : us ⊆ ts) : v.HoldsIn True (FromColon ts) := by
  induction h using Derives.induct with
  | @word name v hword =>
    cases hword with
    | keyword name =>
      have hleaf : (Value.keyword name).Childless := by
        unfold Value.keyword
        split <;> trivial
      exact fromColon_leaf hleaf fun _ => ⟨name, hsub (.head _), rfl⟩
    | _ => exact fromColon_leaf trivial (by rintro ⟨⟩)
  | @text raw body cs hraw hbody hmark =>
    refine fromColon_leaf trivial fun hkeyword => absurd ?_ hmark
    rw [Value.kind_text] at hkeyword
    split at hkeyword
    next h =>
      rw [isKeyword, String.toList_ofList] at h
      exact beq_iff_eq.mp h
    next => cases hkeyword
  | @seq n us vs kind h ih =>
    refine fromColon_seq fun v hv => ?_
    obtain ⟨m, us', -, -, hus, ih⟩ := ih v hv
    exact ih (List.Subset.trans hus (List.Subset.trans (subset_bracketed _ us) hsub))
  | @map n us vs d h hlen hd ih =>
    have hvs (v : Value) (hv : v ∈ vs) : v.HoldsIn True (FromColon ts) := by
      obtain ⟨m, us', -, -, hus, ih⟩ := ih v hv
      exact ih (List.Subset.trans hus (List.Subset.trans (subset_bracketed _ us) hsub))
    refine Value.holdsIn_map_iff.mpr ⟨by rintro ⟨⟩, fun e he => ?_, fun _ => fromColon_nil⟩
    obtain ⟨hkey, hvalue⟩ := Dict.mem_ofValues hd e he
    exact ⟨hvs e.1 hkey, hvs e.2 hvalue⟩
  | @sigil n us s v hs h ih =>
    refine fromColon_seq (List.forall_mem_cons.mpr ⟨fromColon_leaf trivial (by rintro ⟨⟩), ?_⟩)
    exact List.forall_mem_singleton.mpr (ih (List.Subset.trans (List.subset_cons_self _ us) hsub))
  | @withMeta n m us us' tag v htag h ihtag ih =>
    have hsub := List.Subset.trans (List.subset_cons_self _ (us ++ us')) hsub
    refine fromColon_seq (List.forall_mem_cons.mpr ⟨fromColon_leaf trivial (by rintro ⟨⟩), ?_⟩)
    refine List.forall_mem_cons.mpr
      ⟨ih (List.Subset.trans (List.subset_append_right us us') hsub), ?_⟩
    exact List.forall_mem_singleton.mpr
      (ihtag (List.Subset.trans (List.subset_append_left us us') hsub))

end Reader

/-! ### The sources of keywords -/

/-- When an operation that makes texts makes a keyword. `str` does if the first argument that
displays as anything is a symbol whose name begins with the mark, and `pr-str` if the first argument
is, and neither is ever done with a text that has no end; `seq` does behind the first element, if a
grapheme cluster of the string begins with the mark; `slurp` and `readline` do if the file or the
line begins with it, and so does a handler that gets an error which was not thrown if the
operation's name or the text of what cannot be called does. In all other cases the text is a string.
A keyword in a form that is read comes from a word that begins with a colon. -/
theorem keywords_made (read : String → Run Value) (ap : Value → List Value → Run Value)
    (s : State) :
    (∀ args,
      ((∀ v ∈ args, s.prints v = true) → ∃ v, Builtin.str.call read ap args s = .done v s ∧
        v.KeywordIff (∃ blank name rest, args = blank ++ .symbol name :: rest ∧
          (∀ w ∈ blank, w = .symbol "" ∨ w = .text "") ∧ isKeyword name = true)) ∧
      ((∀ v ∈ args, s.prints v = true) → ∃ v, Builtin.prStr.call read ap args s = .done v s ∧
        v.KeywordIff (∃ name rest, args = .symbol name :: rest ∧ isKeyword name = true)) ∧
      ((∃ v ∈ args, s.prints v = false) → Builtin.str.call read ap args s = .unfinished ∧
        Builtin.prStr.call read ap args s = .unfinished)) ∧
      (∀ text, isKeyword text = false → text ≠ "" →
        ∃ v vs, Builtin.seq.call read ap [.text text] s = .done (.list (v :: vs)) s ∧
          v.kind = .string ∧ (∀ w ∈ vs, w.kind = .keyword ∨ w.kind = .string) ∧
            ((∃ w ∈ vs, w.kind = .keyword) ↔
              ∃ piece ∈ s.host.clusters.pieces text, piece.toList.head? = some keywordMark)) ∧
      (∀ path text, isKeyword path = false → s.host.files path = .ok text →
        ∃ v t, Builtin.slurp.call read ap [.text path] s = .done v t ∧
          v.KeywordIff (text.toList.head? = some keywordMark)) ∧
      (∀ prompt c cs, isKeyword prompt = false → Asks s.host prompt → s.host.input = c :: cs →
        ∃ v t, Builtin.readLine.call read ap [.text prompt] s = .done v t ∧
          v.KeywordIff (c = keywordMark)) ∧
      (∀ e : Error, (∀ v, e ≠ .thrown v) → e.payload.KeywordIff (isKeyword e.lead = true)) ∧
      (∀ v, s.prints v = true → ∃ e, (Eval.notCallable v : Run Value) s = .failed e s ∧
        e.payload.KeywordIff (∃ name, v = .symbol name ∧ isKeyword name = true)) ∧
      ∀ limit depth text v, readFirst limit depth text = .ok v →
        v.HoldsIn True (Reader.FromColon (tokenize text)) := by
  refine ⟨fun args => ⟨fun hprints => ?_, fun hprints => ?_, fun hendless => ?_⟩,
    fun text htext hne => ?_, fun path text hpath hfile => ?_,
    fun prompt c cs hprompt hasks hinput => ?_, fun e he => keywordIff_payload he,
    fun v hprints => ?_, fun limit depth text v h => ?_⟩
  · exact ⟨_, returnText_of_prints _ _ hprints, Value.keywordIff_text isKeyword_join_display⟩
  · exact ⟨_, returnText_of_prints _ _ hprints, Value.keywordIff_text isKeyword_lines_readable⟩
  · obtain ⟨v, hv, hendless⟩ := hendless
    exact ⟨returnText_of_not_prints _ _ hv hendless, returnText_of_not_prints _ _ hv hendless⟩
  · obtain ⟨v, vs, hlisted, hkinds⟩ := listed_text s.host.clusters htext hne
    refine ⟨v, vs, ?_, hkinds⟩
    show Run.ofExcept (Builtin.listed s.host.clusters [.text text]) s = _
    rw [hlisted]
    rfl
  · refine ⟨.text text, _, Session.fileText_eq hpath hfile, Value.keywordIff_text ?_⟩
    rw [isKeyword, beq_iff_eq]
  · obtain ⟨line, t, hline, hhead⟩ := askLine_eq hprompt hasks hinput
    refine ⟨_, t, hline, Value.keywordIff_text ((isKeyword_chomp line).trans ?_)⟩
    rw [hhead, Option.some.injEq]
  · have hpayload : (Error.type (.notCallable (s.render .readable v) v.kind)).payload.KeywordIff
        (isKeyword (s.render .readable v) = true) := keywordIff_payload (by rintro v ⟨⟩)
    rw [State.render, Value.isKeyword_render] at hpayload
    have hshown : Run.shown .readable v s = .done (s.render .readable v) s :=
      Run.printing_of_prints (List.forall_mem_singleton.mpr hprints) _
    refine ⟨_, ?_, hpayload⟩
    show (Run.shown .readable v s).andThen _ = _
    rw [hshown]
    rfl
  · obtain ⟨n, us, rest, -, hs, hv⟩ := Reader.derives_of_readFirst h
    rw [hs]
    exact hv.fromColon (List.subset_append_left us rest)

/-- The mark in the name of a symbol, behind a letter, in a file and in a line of input, and an atom
that holds itself. -/
theorem keywords_made_mark :
    let host := { Host.plain with files := fun _ => .ok "\u029efile", input := ['\u029e'] }
    let s : State := { State.initial host with cells := #[.atom 0] }
    let call (b : Builtin) (v : Value) := b.call readForm (fun _ _ => .unfinished) [v] s
    (∃ v, call .str (.symbol "\u029ex") = .done v s ∧ v.kind = .keyword) ∧
      call .prStr (.atom 0) = .unfinished ∧
      (∃ v vs, call .seq (.text "a\u029e") = .done (.list (v :: vs)) s ∧
        ∃ w ∈ vs, w.kind = .keyword) ∧
      (∃ v t, call .slurp (.text "f") = .done v t ∧ v.kind = .keyword) ∧
      ∃ v t, call .readLine (.text "") = .done v t ∧ v.kind = .keyword := by
  intro host s call
  obtain ⟨htexts, hseq, hslurp, hline, -⟩ := keywords_made readForm (fun _ _ => .unfinished) s
  have hprints : ∀ v ∈ [Value.symbol "\u029ex"], s.prints v = true :=
    List.forall_mem_singleton.mpr rfl
  have hendless : ∃ v ∈ [Value.atom 0], s.prints v = false := ⟨_, .head _, by decide⟩
  have hasks : Asks s.host "" := ⟨rfl, rfl⟩
  refine ⟨?_, ((htexts _).2.2 hendless).2, ?_, ?_, ?_⟩
  · obtain ⟨v, hv, hkeyword⟩ := (htexts _).1 hprints
    exact ⟨v, hv, hkeyword.keyword.mpr ⟨[], _, [], rfl, List.forall_mem_nil _, by decide⟩⟩
  · obtain ⟨v, vs, hv, -, -, hmark⟩ := hseq "a\u029e" (by decide) (by decide)
    exact ⟨v, vs, hv, hmark.mpr ⟨"\u029e", by decide, by decide⟩⟩
  · obtain ⟨v, t, hv, hkeyword⟩ := hslurp "f" "\u029efile" (by decide) rfl
    exact ⟨v, t, hv, hkeyword.keyword.mpr (by decide)⟩
  · obtain ⟨v, t, hv, hkeyword⟩ := hline "" '\u029e' [] (by decide) hasks rfl
    exact ⟨v, t, hv, hkeyword.keyword.mpr rfl⟩

end Lisp
