import Mathlib.Data.List.Induction
import Lisp.Proofs.Eval.Laws
import Lisp.Proofs.Eval.MacroExpansion
import Lisp.Proofs.Session.Start

/-!
# Clauses

The prelude defines `cond` as a macro: it expands to a choice whose test and whose first form are
those of the first clause, and whose second form is a `cond` of the clauses behind it. So a `cond`
evaluates the tests of its clauses in order up to the first one that is true, and then the form
behind that one. `Chooses` says this without the macro.

A test can take away what the macro relies on, by giving another meaning to a name that the macro is
written with. `StandsFor` says that no test that is passed over does.
-/

namespace Lisp.Session

open Run Eval

/-! ### The macro -/

/-- The built-in functions that the macro calls. -/
def condBuiltins : List Builtin :=
  [.gt, .count, .nth, .throw, .cons, .rest, .list, .first]

/-- The error of a test without a form. -/
def oddClauses : Error :=
  .thrown (.text "odd number of forms to cond")

/-- The form of the first clause. -/
def firstForm : List Value → Except Error Value
  | _ :: form :: _ => .ok form
  | _ => .error oddClauses

/-- What a `cond` of these forms expands to. -/
def expansion : List Value → Except Error Value
  | [] => .ok .nil
  | [_] => .error oddClauses
  | test :: form :: rest =>
    .ok (.list [.symbol "if", test, form, .list (.symbol "cond" :: rest)])

/-! ### Its body -/

/-- Within a call of the macro the forms have a name, and the names that its body is written with
mean what they are meant to. -/
structure Expanding (scope : Scope) (clauses : List Value) (s : State) : Prop where
  clauses : s.lookup scope "xs" = some (.list clauses)
  builtins : ∀ b ∈ condBuiltins, s.lookup scope b.name = some (.builtin b)
  choose : s.NoMacro scope "if"
  quote : s.NoMacro scope "quote"

namespace Expanding

variable {scope : Scope} {clauses : List Value} {s : State}

theorem withCounts (h : Expanding scope clauses s) (c : Counts) :
    Expanding scope clauses (s.withCounts c) := by
  constructor
  · exact (s.lookup_withCounts c scope _).trans h.clauses
  · exact fun b hb => (s.lookup_withCounts c scope _).trans (h.builtins b hb)
  · exact h.choose.congr (s.lookup_withCounts c scope _)
  · exact h.quote.congr (s.lookup_withCounts c scope _)

theorem deeper (h : Expanding scope clauses s) : Expanding scope clauses s.deeper :=
  h.withCounts ⟨s.depth + 1, s.limit⟩

variable (h : Expanding scope clauses s)
include h

theorem evaluates_clauses (hs : s.depth < s.limit) :
    Evaluates (.symbol "xs") scope s (.done (.list clauses) s) :=
  evaluates_symbol hs h.clauses

theorem evaluates_unary {b : Builtin} {form v : Value} {r : Except Error Value}
    (hb : b ∈ condBuiltins) (hname : SpecialForm.ofName? b.name = none)
    (hs : s.depth + 1 < s.limit) (hform : Evaluates form scope s.deeper (.done v s.deeper))
    (hr : ∀ (read : String → Run Value) (ap : Value → List Value → Run Value),
      b.call read ap [v] = ofExcept r) :
    Evaluates (.list [.symbol b.name, form]) scope s (ofExcept r s) :=
  evaluates_builtin hs hname (h.builtins b hb) (.done_cons hform .nil) hr

/-- The number of forms fits in 64 bits. -/
theorem evaluates_moreThan (hlength : clauses.length < 1 <<< 63) (n : Int64)
    (hs : s.depth + 2 < s.limit) :
    Evaluates (moreThan n) scope s (.done (.bool (n.toInt < clauses.length)) s) := by
  have hcount : Evaluates (.list [.symbol "count", .symbol "xs"]) scope s.deeper
      (.done (.int (Int64.ofNat clauses.length)) s.deeper) :=
    h.deeper.evaluates_unary (b := .count) (r := .ok _) (by decide) rfl hs
      (h.deeper.deeper.evaluates_clauses hs) fun _ _ => rfl
  have hn : Evaluates (.int n) scope s.deeper (.done (.int n) s.deeper) :=
    evaluates_plain (Nat.lt_of_succ_lt hs) rfl fun _ => rfl
  rw [← Int64.toInt_ofNat_of_lt hlength]
  exact evaluates_builtin (b := .gt) (r := .ok _) (Nat.lt_of_succ_lt hs) rfl
    (h.builtins .gt (by decide)) (.done_cons hcount (.done_cons hn .nil)) fun _ _ => rfl

theorem evaluates_oddClauses (hs : s.depth + 1 < s.limit) :
    Evaluates (.list [.symbol "throw", .text "odd number of forms to cond"]) scope s
      (.failed oddClauses s) :=
  h.evaluates_unary (b := .throw) (r := .error oddClauses) (by decide) rfl hs
    (evaluates_plain hs rfl fun _ => rfl) fun _ _ => rfl

theorem evaluates_secondForm (hlength : clauses.length < 1 <<< 63) (hs : s.depth + 3 < s.limit) :
    Evaluates secondForm scope s (ofExcept (firstForm clauses) s) := by
  have htest := h.deeper.evaluates_moreThan hlength 1 hs
  refine (evaluates_choose_iff (some _) h.choose).mpr ⟨by omega, _, htest, ?_⟩
  change Evaluates (if decide _ = true then _ else _) scope s _
  rcases clauses with _ | ⟨test, _ | ⟨form, rest⟩⟩
  case nil | cons.nil =>
    rw [if_neg (by simp)]
    exact h.evaluates_oddClauses (by omega)
  case cons.cons =>
    have hlong : (1 : Int64).toInt < ((test :: form :: rest).length : Int) := by
      rw [Int64.toInt_one, List.length_cons, List.length_cons]
      omega
    rw [if_pos (decide_eq_true hlong)]
    have hdeeper : s.deeper.depth < s.deeper.limit := show s.depth + 1 < s.limit by omega
    have hxs := h.deeper.evaluates_clauses hdeeper
    have hindex : Evaluates (.int 1) scope s.deeper (.done (.int 1) s.deeper) :=
      evaluates_plain hdeeper rfl fun _ => rfl
    exact evaluates_builtin (b := .nth) (r := .ok _) (by omega) rfl (h.builtins .nth (by decide))
      (.done_cons hxs (.done_cons hindex .nil)) fun _ _ => rfl

theorem evaluates_rest {form : Value} {items : List Value} (hs : s.depth + 1 < s.limit)
    (hform : Evaluates form scope s.deeper (.done (.list items) s.deeper)) :
    Evaluates (.list [.symbol "rest", form]) scope s (.done (.list items.tail) s) :=
  h.evaluates_unary (b := .rest) (r := .ok _) (by decide) rfl hs hform fun _ _ => rfl

theorem evaluates_remainderForm (hs : s.depth + 3 < s.limit) :
    Evaluates remainderForm scope s
      (.done (.list (.symbol "cond" :: clauses.tail.tail)) s) := by
  have hquote : Evaluates (.list [.symbol "quote", .symbol "cond"]) scope s.deeper
      (.done (.symbol "cond") s.deeper) :=
    evaluates_quote (show s.depth + 1 < s.limit by omega) h.deeper.quote _
  have hrest := h.deeper.deeper.evaluates_rest hs
    (h.deeper.deeper.deeper.evaluates_clauses hs)
  have hrests := h.deeper.evaluates_rest (Nat.lt_of_succ_lt hs) hrest
  exact evaluates_builtin (b := .cons) (r := .ok _) (by omega) rfl (h.builtins .cons (by decide))
    (.done_cons hquote (.done_cons hrests .nil)) fun _ _ => rfl

theorem evaluates_choiceForm {test : Value} {rest : List Value}
    (hlength : (test :: rest).length < 1 <<< 63) (hclauses : clauses = test :: rest)
    (hs : s.depth + 4 < s.limit) :
    Evaluates choiceForm scope s (ofExcept (expansion clauses) s) := by
  subst hclauses
  have hquote : Evaluates (.list [.symbol "quote", .symbol "if"]) scope s.deeper
      (.done (.symbol "if") s.deeper) :=
    evaluates_quote (show s.depth + 1 < s.limit by omega) h.deeper.quote _
  have htest : Evaluates (.list [.symbol "first", .symbol "xs"]) scope s.deeper
      (.done test s.deeper) :=
    h.deeper.evaluates_unary (b := .first) (r := .ok _) (by decide) rfl
      (show s.depth + 2 < s.limit by omega)
      (h.deeper.deeper.evaluates_clauses (show s.depth + 2 < s.limit by omega)) fun _ _ => rfl
  have hform := h.deeper.evaluates_secondForm hlength hs
  have hremainder := h.deeper.evaluates_remainderForm hs
  cases rest with
  | nil =>
    exact evaluates_builtin_failed (b := .list) (by omega) rfl (h.builtins .list (by decide))
      (.failed_cons hquote (.failed_cons htest (.failed hform)))
  | cons form rest =>
    exact evaluates_builtin (b := .list) (r := .ok _) (by omega) rfl (h.builtins .list (by decide))
      (.done_cons hquote (.done_cons htest (.done_cons hform (.done_cons hremainder .nil))))
      fun _ _ => rfl

theorem evaluates_condBody (hlength : clauses.length < 1 <<< 63) (hs : s.depth + 4 < s.limit) :
    Evaluates condBody scope s (ofExcept (expansion clauses) s) := by
  have htest := h.deeper.evaluates_moreThan hlength 0 (Nat.lt_of_succ_lt hs)
  refine (evaluates_choose_iff none h.choose).mpr ⟨by omega, _, htest, ?_⟩
  change Evaluates (if decide _ = true then _ else _) scope s _
  cases hclauses : clauses with
  | nil =>
    rw [if_neg (by simp)]
    exact evaluates_plain (by omega) rfl fun _ => rfl
  | cons test rest =>
    rw [if_pos (by simp), ← hclauses]
    exact h.evaluates_choiceForm (hclauses ▸ hlength) hclauses hs

end Expanding

/-! ### Its expansion -/

/-- The state in which a `cond` of these forms has been expanded. The call of the macro leaves
behind the frame that it binds the forms in. -/
def entered (root : FrameId) (clauses : List Value) (s : State) : State :=
  (s.newChild (.global root)).2.bind s.frames.size "xs" (.list clauses)

/-- The name `cond` means the macro, and the names that it relies on mean what they are meant to. -/
structure Standing (root : FrameId) (scope : Scope) (s : State) : Prop where
  cond : s.lookup scope "cond" = some (condMacro root)
  choose : s.NoMacro scope "if"
  chooseGlobal : s.NoMacro (.global root) "if"
  quoteGlobal : s.NoMacro (.global root) "quote"
  builtins : ∀ b ∈ condBuiltins, s.lookup (.global root) b.name = some (.builtin b)

variable {root : FrameId} {scope : Scope} {clauses : List Value} {s : State} {tag : Value}

theorem lookup_entered {name : String} (h : name ≠ "xs") :
    (entered root clauses s).lookup scope name = s.lookup scope name :=
  State.lookup_congr (fun f =>
    (State.binding?_bind_of_ne (.inr h) _).trans (s.binding?_newFrame f name)) scope

namespace Standing

theorem withCounts (h : Standing root scope s) (c : Counts) :
    Standing root scope (s.withCounts c) := by
  constructor
  · exact (s.lookup_withCounts c scope _).trans h.cond
  · exact h.choose.congr (s.lookup_withCounts c scope _)
  · exact h.chooseGlobal.congr (s.lookup_withCounts c _ _)
  · exact h.quoteGlobal.congr (s.lookup_withCounts c _ _)
  · exact fun b hb => (s.lookup_withCounts c _ _).trans (h.builtins b hb)

theorem deeper (h : Standing root scope s) : Standing root scope s.deeper :=
  h.withCounts ⟨s.depth + 1, s.limit⟩

theorem kept (h : Standing root scope s) : Standing root scope (entered root clauses s) := by
  have hbuiltins : ∀ b ∈ condBuiltins, b.name ≠ "xs" := by decide
  constructor
  · exact (lookup_entered (by decide)).trans h.cond
  · exact h.choose.congr (lookup_entered (by decide))
  · exact h.chooseGlobal.congr (lookup_entered (by decide))
  · exact h.quoteGlobal.congr (lookup_entered (by decide))
  · exact fun b hb => (lookup_entered (hbuiltins b hb)).trans (h.builtins b hb)

theorem expanding (h : Standing root scope s) :
    Expanding ((Scope.global root).child s.frames.size) clauses (entered root clauses s) := by
  have hname {name : String} (hname : name ≠ "xs") :
      (entered root clauses s).lookup ((Scope.global root).child s.frames.size) name =
        s.lookup (.global root) name :=
    State.lookup_bind_newChild_of_ne s (.global root) hname _
  have hbuiltins : ∀ b ∈ condBuiltins, b.name ≠ "xs" := by decide
  constructor
  · exact State.lookup_bind_newChild_self s (.global root) "xs" _
  · exact fun b hb => (hname (hbuiltins b hb)).trans (h.builtins b hb)
  · exact h.chooseGlobal.congr (hname (by decide))
  · exact h.quoteGlobal.congr (hname (by decide))

end Standing

theorem enterClosure_condMacro :
    enterClosure ⟨[], some "xs"⟩ (.global root) clauses s =
      .done ((Scope.global root).child s.frames.size) (entered root clauses s) := by
  rfl

/-- A `cond` expands to a choice, or to `nil`, or not at all. -/
theorem Standing.expands_cond_iff (h : Standing root scope s) {p : Outcome Value} :
    Expands (.seq .list (.symbol "cond" :: clauses) tag) scope s p ↔
      ∃ q, Evaluates condBody ((Scope.global root).child s.frames.size) (entered root clauses s) q ∧
        q.Leads (fun x => Expands x scope) p := by
  have hcall : macroCall? s scope (.seq .list (.symbol "cond" :: clauses) tag) =
      some ⟨⟨[], some "xs"⟩, condBody, .global root, clauses⟩ := by
    simp only [macroCall?, h.cond, condMacro]
  rw [expands_iff_of_call hcall, enterClosure_condMacro]
  rfl

namespace Standing

variable (h : Standing root scope s)
include h

/-- What a `cond` expands to is expanded no further. -/
theorem leads_expansion_iff {p : Outcome Value} :
    (ofExcept (expansion clauses) (entered root clauses s)).Leads (fun x => Expands x scope) p ↔
      p = ofExcept (expansion clauses) (entered root clauses s) := by
  rcases clauses with _ | ⟨test, _ | ⟨form, rest⟩⟩
  · exact expands_iff_of_not_macro rfl
  · exact Iff.rfl
  · exact expands_iff_of_not_macro (macroCall?_eq_none h.kept.choose)

variable (hlength : clauses.length < 1 <<< 63)
include hlength

theorem expands_cond (hs : s.depth + 5 ≤ s.limit) :
    Expands (.seq .list (.symbol "cond" :: clauses) tag) scope s
      (ofExcept (expansion clauses) (entered root clauses s)) :=
  h.expands_cond_iff.mpr
    ⟨_, h.expanding.evaluates_condBody hlength hs, h.leads_expansion_iff.mpr rfl⟩

theorem eq_of_expands {p : Outcome Value}
    (hp : Expands (.seq .list (.symbol "cond" :: clauses) tag) scope s p) :
    p = ofExcept (expansion clauses) (entered root clauses s) := by
  obtain ⟨q, hq, hlead⟩ := h.expands_cond_iff.mp hp
  -- The body is found to have its value under a limit that is high enough.
  have hraised := (h.expanding.withCounts ⟨s.depth, max s.limit (s.depth + 5)⟩).evaluates_condBody
    hlength (Nat.le_max_right s.limit (s.depth + 5))
  cases hq.eq_of_raised (Nat.le_max_left s.limit (s.depth + 5)) hraised
  exact h.leads_expansion_iff.mp hlead

/-- A `cond` evaluates to what its expansion evaluates to. -/
theorem evaluates_cond {o : Outcome Value} :
    (Evaluates (.seq .list (.symbol "cond" :: clauses) tag) scope s o →
      (ofExcept (expansion clauses) (entered root clauses s)).Leads
        (fun x => Evaluates x scope) o) ∧
    (s.depth + 6 ≤ s.limit →
      (ofExcept (expansion clauses) (entered root clauses s)).Leads
        (fun x => Evaluates x scope) o →
      Evaluates (.seq .list (.symbol "cond" :: clauses) tag) scope s o) := by
  have hout : (ofExcept (expansion clauses) (entered root clauses s.deeper)).mapState
      State.shallower = ofExcept (expansion clauses) (entered root clauses s) := by
    cases expansion clauses <;> rfl
  rw [← hout, evaluates_iff_expands]
  constructor
  · rintro ⟨-, q, hq, hlead⟩
    cases h.deeper.eq_of_expands hlength hq
    exact hlead
  · intro hs hlead
    have hexpands : Expands (.seq .list (.symbol "cond" :: clauses) tag) scope s.deeper _ :=
      h.deeper.expands_cond hlength hs
    exact ⟨by omega, _, hexpands, hlead⟩

end Standing

/-! ### Evaluating the clauses -/

/-- A `cond` of the clauses ends in `o`: it evaluates tests in order up to one that is true, and
then the form behind that one, or there is none and it is `nil`. A test that stands alone at the end
is never evaluated. -/
inductive Chooses (root : FrameId) (scope : Scope) : List Value → State → Outcome Value → Prop
  | none {s : State} : Chooses root scope [] s (.done .nil (entered root [] s))
  | odd {test : Value} {s : State} :
    Chooses root scope [test] s (.failed oddClauses (entered root [test] s))
  | first {test form v : Value} {rest : List Value} {s t : State} {o : Outcome Value} :
    Evaluates test scope (entered root (test :: form :: rest) s).deeper (.done v t) →
      v.isTruthy = true → Evaluates form scope t.shallower o →
        Chooses root scope (test :: form :: rest) s o
  | later {test form v : Value} {rest : List Value} {s t : State} {o : Outcome Value} :
    Evaluates test scope (entered root (test :: form :: rest) s).deeper (.done v t) →
      v.isTruthy = false → Chooses root scope rest t.shallower o →
        Chooses root scope (test :: form :: rest) s o
  | failed {test form : Value} {rest : List Value} {s t : State} {e : Error} :
    Evaluates test scope (entered root (test :: form :: rest) s).deeper (.failed e t) →
      Chooses root scope (test :: form :: rest) s (.failed e t.shallower)

/-- What `cond` relies on holds before the first test and behind every test that is passed over. -/
def StandsFor (root : FrameId) (scope : Scope) : List Value → State → Prop
  | test :: form :: rest, s => Standing root scope s ∧ ∀ v t,
    Evaluates test scope (entered root (test :: form :: rest) s).deeper (.done v t) →
      v.isTruthy = false → StandsFor root scope rest t.shallower
  | _, s => Standing root scope s

theorem StandsFor.standing (h : StandsFor root scope clauses s) : Standing root scope s := by
  rcases clauses with _ | ⟨test, _ | ⟨form, rest⟩⟩
  · exact h
  · exact h
  · exact h.1

/-- What a `cond` evaluates to is what its clauses choose. -/
theorem StandsFor.chooses (h : StandsFor root scope clauses s)
    (hlength : clauses.length < 1 <<< 63) {o : Outcome Value}
    (ho : Evaluates (.seq .list (.symbol "cond" :: clauses) tag) scope s o) :
    Chooses root scope clauses s o := by
  induction clauses using List.twoStepInduction generalizing s tag with
  | nil =>
    have hnil : Evaluates .nil scope (entered root [] s) o :=
      (h.standing.evaluates_cond hlength).1 ho
    have hself : Evaluates .nil scope (entered root [] s) (.done .nil (entered root [] s)) :=
      evaluates_plain (evaluates_iff.mp hnil).1 rfl fun _ => rfl
    cases hnil.unique hself
    exact .none
  | singleton test =>
    cases (h.standing.evaluates_cond hlength).1 ho
    exact .odd
  | cons_cons test form rest ih =>
    obtain ⟨-, q, hq, hlead⟩ := (evaluates_choose_iff (some _) h.standing.kept.choose).mp
      ((h.standing.evaluates_cond hlength).1 ho)
    cases q with
    | done v t =>
      have hchosen : Evaluates (if v.isTruthy then form else .list (.symbol "cond" :: rest)) scope
        t.shallower o := hlead
      cases hv : v.isTruthy with
      | true =>
        rw [hv] at hchosen
        exact .first hq hv hchosen
      | false =>
        rw [hv] at hchosen
        have hrest : rest.length < 1 <<< 63 := by simp only [List.length_cons] at hlength; omega
        exact .later hq hv (ih (h.2 v t hq hv) hrest hchosen)
    | failed e t =>
      cases hlead
      exact .failed hq
    | unfinished => exact hlead.elim

/-- What the clauses choose a `cond` evaluates to, if the limit leaves the levels that expanding it
takes. -/
theorem Chooses.evaluates {o : Outcome Value} (ho : Chooses root scope clauses s o)
    (h : StandsFor root scope clauses s) (hlength : clauses.length < 1 <<< 63)
    (hs : s.depth + 6 ≤ s.limit) :
    Evaluates (.seq .list (.symbol "cond" :: clauses) tag) scope s o := by
  have hdepth {clauses : List Value} {s : State} (hs : s.depth + 6 ≤ s.limit) :
      (entered root clauses s).depth < (entered root clauses s).limit :=
    show s.depth < s.limit by omega
  induction ho generalizing tag with
  | none =>
    exact (h.standing.evaluates_cond hlength).2 hs
      (evaluates_plain (hdepth hs) rfl fun _ => rfl)
  | odd => exact (h.standing.evaluates_cond hlength).2 hs rfl
  | first htest hv ho =>
    refine (h.standing.evaluates_cond hlength).2 hs ((evaluates_choose_iff (some _)
      h.standing.kept.choose).mpr ⟨hdepth hs, _, htest, ?_⟩)
    change Evaluates (if _ = true then _ else _) scope _ _
    rwa [if_pos hv]
  | @later test form v rest s t o htest hv ho ih =>
    refine (h.standing.evaluates_cond hlength).2 hs ((evaluates_choose_iff (some _)
      h.standing.kept.choose).mpr ⟨hdepth hs, _, htest, ?_⟩)
    have hcounts : t.shallower.counts = s.counts := State.counts_shallower htest.counts_eq
    have hlevels : t.shallower.depth + 6 ≤ t.shallower.limit := by
      rwa [show t.shallower.depth = s.depth from congrArg Counts.depth hcounts,
        show t.shallower.limit = s.limit from congrArg Counts.limit hcounts]
    have hrest : rest.length < 1 <<< 63 := by simp only [List.length_cons] at hlength; omega
    change Evaluates (if _ = true then _ else _) scope _ _
    rw [if_neg (by simp [hv])]
    exact ih (h.2 v t htest hv) hrest hlevels
  | failed htest =>
    exact (h.standing.evaluates_cond hlength).2 hs ((evaluates_choose_iff (some _)
      h.standing.kept.choose).mpr ⟨hdepth hs, _, htest, rfl⟩)

/-- A `cond` evaluates the tests of its clauses in order up to one that is true, and then to what
the form behind that one evaluates to, as long as no nested call is refused and no test takes away
what `cond` relies on. Expanding it takes six levels. -/
theorem cond_chooses (root : FrameId) (scope : Scope) (clauses : List Value) (tag : Value)
    (s : State) (h : StandsFor root scope clauses s) (hlength : clauses.length < 1 <<< 63)
    (o : Outcome Value) :
    (Evaluates (.seq .list (.symbol "cond" :: clauses) tag) scope s o →
      Chooses root scope clauses s o) ∧
    (s.depth + 6 ≤ s.limit → Chooses root scope clauses s o →
      Evaluates (.seq .list (.symbol "cond" :: clauses) tag) scope s o) :=
  ⟨h.chooses hlength, fun hs ho => ho.evaluates h hlength hs⟩

/-- In a new session `cond` is what it is meant to be. -/
theorem Prepared.standing {host : Host} (h : Prepared host s)
    (hcond : s.binding? 0 "cond" = some (condMacro 0)) : Standing 0 (.global 0) s where
  cond := hcond
  choose := h.not_macro .choose
  chooseGlobal := h.not_macro .choose
  quoteGlobal := h.not_macro .quote
  builtins b _ := h.builtins b

/-- `(cond nil 1 true 2)` in a new session. -/
theorem cond_chooses_second :
    let clauses := [Value.nil, .int 1, .bool true, .int 2]
    ∃ s u, start 5 (.initial Host.plain) = .done (.global 0) s ∧
      (StandsFor 0 (.global 0) clauses s ∧ clauses.length < 1 <<< 63 ∧ s.depth + 6 ≤ s.limit ∧
        Chooses 0 (.global 0) clauses s (.done (.int 2) u)) ∧
      Evaluates (.list (.symbol "cond" :: clauses)) (.global 0) s (.done (.int 2) u) := by
  intro clauses
  obtain ⟨s, hstart, hs, -, hcond⟩ := start_defines Host.plain 0
  have hstanding : Standing 0 (.global 0) s := hs.standing hcond
  let t := entered 0 clauses s
  let u := entered 0 [.bool true, .int 2] t
  have hlevels : s.depth + 6 ≤ s.limit := by
    rw [hs.depth, hs.limit]
    decide
  have hlt : s.depth + 1 < s.limit := by omega
  have hnil : Evaluates .nil (.global 0) t.deeper (.done .nil t.deeper) :=
    evaluates_plain hlt rfl fun _ => rfl
  have htrue : Evaluates (.bool true) (.global 0) u.deeper (.done (.bool true) u.deeper) :=
    evaluates_plain hlt rfl fun _ => rfl
  have htwo : Evaluates (.int 2) (.global 0) u (.done (.int 2) u) :=
    evaluates_plain (Nat.lt_of_succ_lt hlt) rfl fun _ => rfl
  have hchooses : Chooses 0 (.global 0) clauses s (.done (.int 2) u) :=
    .later hnil rfl (.first htrue rfl htwo)
  have hstands : StandsFor 0 (.global 0) clauses s := by
    refine ⟨hstanding, fun v w hv _ => ?_⟩
    cases hv.unique hnil
    refine ⟨hstanding.kept, fun v w hv hfalse => ?_⟩
    cases hv.unique htrue
    cases hfalse
  have hlength : clauses.length < 1 <<< 63 := by decide
  exact ⟨s, u, hstart, ⟨hstands, hlength, hlevels, hchooses⟩,
    (cond_chooses 0 (.global 0) clauses .nil s hstands hlength _).2 hlevels hchooses⟩

/-- The macro `(fn* (x) nil)`. -/
def nilMacro : Value :=
  .closure ⟨["x"], none⟩ .nil (.global 0) true .nil

/-- The type error that a run ends in. -/
def typeError? : Outcome Value → Option TypeError
  | .failed (.type e) _ => some e
  | _ => none

theorem eq_failed_of_typeError? {o : Outcome Value} {e : TypeError} (h : typeError? o = some e) :
    ∃ u, o = .failed (.type e) u := by
  unfold typeError? at h
  split at h
  next e' u => exact ⟨u, Option.some.inj h ▸ rfl⟩
  next => cases h

/-- In a new session in which `quote` is a macro, `(cond true 1)` expands to a call of `nil`. -/
theorem typeError?_without_quote :
    typeError? ((start 5 >>= fun scope => Run.update (·.define scope "quote" nilMacro) >>= fun _ =>
      Policy.stopping.trampoline 20 (.list [.symbol "cond", .bool true, .int 1]) scope)
        (.initial Host.plain)) = some (.notCallable "nil" .nil) := by
  decide +kernel

/-- Where `quote` is a macro, `(cond true 1)` is an error, although `if` is none, the built-in
functions are what they are in a new session, and so is `cond`. -/
theorem cond_fails_without_quote :
    ∃ s, start 5 (.initial Host.plain) = .done (.global 0) s ∧
      let clauses := [Value.bool true, .int 1]
      let t := s.define (.global 0) "quote" nilMacro
      (∀ b : Builtin, t.lookup (.global 0) b.name = some (.builtin b)) ∧
      t.lookup (.global 0) "cond" = some (condMacro 0) ∧ t.NoMacro (.global 0) "if" ∧
      Chooses 0 (.global 0) clauses t (.done (.int 1) (entered 0 clauses t)) ∧
      ∃ u, Evaluates (.list (.symbol "cond" :: clauses)) (.global 0) t
        (.failed (.type (.notCallable "nil" .nil)) u) := by
  obtain ⟨s, hstart, hs, -, hcond⟩ := start_defines Host.plain 0
  let clauses := [Value.bool true, .int 1]
  let t := s.define (.global 0) "quote" nilMacro
  have hkept {name : String} (hname : name ≠ "quote") :
      t.lookup (.global 0) name = s.lookup (.global 0) name :=
    State.binding?_bind_of_ne (.inr hname) nilMacro
  have hbuiltins : ∀ name ∈ Builtin.all.map Builtin.name, name ≠ "quote" := by decide +kernel
  have hbuiltin (b : Builtin) : t.lookup (.global 0) b.name = some (.builtin b) :=
    (hkept (hbuiltins _ (List.mem_map_of_mem (Builtin.mem_all b)))).trans (hs.builtins b)
  have hlevel : s.depth + 1 < s.limit := by
    rw [hs.depth, hs.limit]
    decide
  have htrue : Evaluates (.bool true) (.global 0) (entered 0 clauses t).deeper
      (.done (.bool true) (entered 0 clauses t).deeper) :=
    evaluates_plain hlevel rfl fun _ => rfl
  have hone : Evaluates (.int 1) (.global 0) (entered 0 clauses t)
      (.done (.int 1) (entered 0 clauses t)) :=
    evaluates_plain (Nat.lt_of_succ_lt hlevel) rfl fun _ => rfl
  have hif : t.NoMacro (.global 0) "if" :=
    State.NoMacro.congr (hs.not_macro .choose) (hkept (by decide))
  refine ⟨s, hstart, hbuiltin, (hkept (by decide)).trans hcond, hif, .first htrue rfl hone, ?_⟩
  obtain ⟨u, hrun⟩ := eq_failed_of_typeError? typeError?_without_quote
  rw [bind_apply, hstart] at hrun
  exact ⟨u, .of_stopping hrun nofun⟩

end Lisp.Session
