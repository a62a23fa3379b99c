import Lisp.Proofs.Eval.Levels
import Lisp.Proofs.State.Bindings
import Lisp.Session

/-!
# New sessions

A new session ends up with a global scope in which every built-in function is bound to its name, no
special form is hidden and `load-file` and `cond` are defined. Nothing is written and nothing is
asked for on the way.
-/

namespace Lisp

open Run Eval

namespace Session

/-- The form for the text of the file at the path `f`. -/
def slurpForm : Value :=
  .list [.symbol "slurp", .symbol "f"]

/-- The form that writes that text between `(do ` and a last line `nil)`. -/
def enclosingForm : Value :=
  .list [.symbol "str", .text "(do ", slurpForm, .text "\nnil)"]

/-- The form that reads what is enclosed so as a form. -/
def sourceForm : Value :=
  .list [.symbol "read-string", enclosingForm]

/-- The function `load-file` in the global scope `scope`. -/
def fileLoader (scope : Scope) : Value :=
  .closure ⟨["f"], none⟩ (.list [.symbol "eval", sourceForm]) scope false .nil

/-- The test that there are more than `n` forms. -/
def moreThan (n : Int64) : Value :=
  .list [.symbol ">", .list [.symbol "count", .symbol "xs"], .int n]

/-- The form for the form of the first clause. -/
def secondForm : Value :=
  .list [.symbol "if", moreThan 1, .list [.symbol "nth", .symbol "xs", .int 1],
    .list [.symbol "throw", .text "odd number of forms to cond"]]

/-- The form for a `cond` of the other clauses. -/
def remainderForm : Value :=
  .list [.symbol "cons", .list [.symbol "quote", .symbol "cond"],
    .list [.symbol "rest", .list [.symbol "rest", .symbol "xs"]]]

/-- The form for a choice between the first clause and the others. -/
def choiceForm : Value :=
  .list [.symbol "list", .list [.symbol "quote", .symbol "if"], .list [.symbol "first", .symbol "xs"],
    secondForm, remainderForm]

def condBody : Value :=
  .list [.symbol "if", moreThan 0, choiceForm]

/-- The macro `cond` in the global scope `root`. -/
def condMacro (root : FrameId) : Value :=
  .closure ⟨[], some "xs"⟩ condBody (.global root) true .nil

/-- What holds of a state while the prelude is evaluated: every built-in function is bound to its
name in the global frame, no special form is hidden, and otherwise nothing has happened. -/
structure Prepared (host : Host) (s : State) : Prop where
  frames : s.frames.size = 1
  builtins : ∀ b : Builtin, s.binding? 0 b.name = some (.builtin b)
  forms : ∀ form : SpecialForm, s.binding? 0 form.name = none
  host : s.host = host
  depth : s.depth = 0
  limit : s.limit = State.defaultLimit

section Prepared

variable {host : Host} {s : State}

/-- The built-in functions prepare a new state. -/
theorem prepared_bare (host : Host) :
    ∃ s, bare (.initial host) = .done (.global 0) s ∧ Prepared host s := by
  have hnames : (Builtin.all.map fun b => (b.name, Value.builtin b)).map Prod.fst =
      Builtin.all.map Builtin.name := by
    simp
  have hsize : (State.initial host).newGlobal.2.frames.size = 1 := rfl
  have hbare : bare (.initial host) = .done (.global 0) ((State.initial host).newGlobal.2.bindAll 0
      (Builtin.all.map fun b => (b.name, .builtin b))) := rfl
  refine ⟨_, hbare, ?_⟩
  constructor
  · exact (State.size_frames_bindAll _ _ _).trans hsize
  · intro b
    refine State.binding?_bindAll_of_mem ?_ (hnames ▸ Builtin.nodup_map_name_all) ?_
    · exact hsize ▸ Nat.zero_lt_one
    · exact List.mem_map.mpr ⟨b, Builtin.mem_all b, rfl⟩
  · intro form
    refine (State.binding?_bindAll_of_notMem ?_).trans rfl
    rw [hnames]
    cases form <;> decide +kernel
  · rw [State.bindAll_eq]
    rfl
  · rw [State.bindAll_eq]
    rfl
  · rw [State.bindAll_eq]
    rfl

/-- A name that is neither that of a function nor that of a special form may be bound. -/
theorem Prepared.define (h : Prepared host s) {name : String}
    (hbuiltins : name ∉ Builtin.all.map Builtin.name) (hforms : SpecialForm.ofName? name = none)
    (v : Value) : Prepared host (s.define (.global 0) name v) where
  frames := by
    rw [State.define, State.bind, Array.size_modify, h.frames]
  builtins b := by
    have hb : b.name ≠ name := by
      rintro rfl
      exact hbuiltins (List.mem_map.mpr ⟨b, Builtin.mem_all b, rfl⟩)
    exact (State.binding?_bind_of_ne (.inr hb) v).trans (h.builtins b)
  forms form := by
    have hform : form.name ≠ name := by
      rintro rfl
      cases (form.ofName?_name).symm.trans hforms
    exact (State.binding?_bind_of_ne (.inr hform) v).trans (h.forms form)
  host := h.host
  depth := h.depth
  limit := h.limit

theorem Prepared.not_macro (h : Prepared host s) (form : SpecialForm) :
    ∀ params body inner tag,
      s.lookup (.global 0) form.name ≠ some (.closure params body inner true tag) := by
  have hnone : s.lookup (.global 0) form.name = none := h.forms form
  rw [hnone]
  exact nofun

/-- What the prelude consists of, as it is read. -/
def preludeForms : List Value :=
  [.list [.symbol "def!", .symbol "not",
      .list [.symbol "fn*", .list [.symbol "a"],
        .list [.symbol "if", .symbol "a", .bool false, .bool true]]],
    .list [.symbol "def!", .symbol "load-file",
      .list [.symbol "fn*", .list [.symbol "f"], .list [.symbol "eval", sourceForm]]],
    .list [.symbol "defmacro!", .symbol "cond",
      .list [.symbol "fn*", .list [.symbol "&", .symbol "xs"],
        .list [.symbol "if", .list [.symbol ">", .list [.symbol "count", .symbol "xs"], .int 0],
          .list [.symbol "list", .list [.symbol "quote", .symbol "if"],
            .list [.symbol "first", .symbol "xs"],
            .list [.symbol "if", .list [.symbol ">", .list [.symbol "count", .symbol "xs"], .int 1],
              .list [.symbol "nth", .symbol "xs", .int 1],
              .list [.symbol "throw", .text "odd number of forms to cond"]],
            .list [.symbol "cons", .list [.symbol "quote", .symbol "cond"],
              .list [.symbol "rest", .list [.symbol "rest", .symbol "xs"]]]]]]],
    .list [.symbol "def!", .symbol "*host-language*", .text "rust"],
    .list [.symbol "def!", .symbol "*ARGV*", .list [.symbol "list"]]]

set_option maxRecDepth 10000 in
theorem readFirst_prelude :
    preludeSources.map (readFirst State.defaultLimit 0) = preludeForms.map .ok := by
  rfl

/-- `fn*` takes one level. -/
theorem Prepared.function_takes (h : Prepared host s) {params : List Value} {p : Params}
    (hparams : Params.parse params = .ok p) (body : Value) (n : Nat) :
    Takes 1 (eval (n + 2) (.list [.symbol "fn*", .list params, body]) (.global 0)) s.deeper
      (.done (.closure p body (.global 0) false .nil) s.deeper) := by
  have hmacro := h.not_macro .function
  simp only [← s.lookup_deeper] at hmacro
  change Takes 1 (eval (n + 2) (.list (.symbol SpecialForm.function.name :: _)) _) _ _
  refine eval_special_takes_one hmacro ?_
  change (ofExcept (Params.parse params) >>= _) _ = _
  rw [hparams]
  rfl

/-- A call of a built-in function without operands takes two levels. -/
theorem Prepared.builtin_takes (h : Prepared host s) {b : Builtin} {v : Value}
    (hname : SpecialForm.ofName? b.name = none)
    (hb : ∀ (ap : Value → List Value → Run Value) (s : State), b.call readForm ap [] s = .done v s)
    (n : Nat) :
    Takes 2 (eval (n + 3) (.list [.symbol b.name]) (.global 0)) s.deeper (.done v s.deeper) := by
  have hbound : s.deeper.lookup (.global 0) b.name = some (.builtin b) :=
    (s.lookup_deeper (.global 0) b.name).trans (h.builtins b)
  exact eval_builtin_takes_two hname hbound (hb _ _)

/-- Evaluating a source goes on behind the form that is read from it. -/
theorem Prepared.evalSources_cons (h : Prepared host s) {k n : Nat} {source : String}
    {sources : List String} {form v : Value} {t : State} (hk : k ≤ State.defaultLimit)
    (hread : readFirst State.defaultLimit 0 source = .ok form)
    (hform : Takes k (eval n form (.global 0)) s (.done v t)) :
    evalSources n (.global 0) (source :: sources) s = evalSources n (.global 0) sources t := by
  have hlevels : s.depth + k ≤ s.limit := by
    rwa [h.depth, h.limit, Nat.zero_add]
  rw [evalSources, bind_apply, evalSource, bind_apply, readForm_apply, h.depth, h.limit, hread]
  change ((eval n form (.global 0) s).andThen _) = _
  rw [hform.eq hlevels]
  rfl

/-- A `def!` form takes one level more than its value. -/
theorem Prepared.define_takes (h : Prepared host s) {k n : Nat} {form v : Value}
    (hform : Takes k (eval (n + 1) form (.global 0)) s.deeper (.done v s.deeper)) (name : String) :
    Takes (k + 1) (eval (n + 2) (.list [.symbol "def!", .symbol name, form]) (.global 0)) s
      (.done v (s.define (.global 0) name v)) := by
  change Takes _ (eval (n + 2) (.list (.symbol SpecialForm.define.name :: _)) _) _ _
  exact eval_special_takes (h.not_macro .define) (hform.bind fun _ => rfl)

/-- A `def!` form of the prelude binds its name to a value that is found without changing
anything. -/
theorem Prepared.define_source (h : Prepared host s) {k n : Nat} {source name : String}
    {form v : Value}
    (hread : readFirst State.defaultLimit 0 source =
      .ok (.list [.symbol "def!", .symbol name, form]))
    (hbuiltins : name ∉ Builtin.all.map Builtin.name) (hforms : SpecialForm.ofName? name = none)
    (hform : Takes k (eval (n + 1) form (.global 0)) s.deeper (.done v s.deeper))
    (hk : k + 1 ≤ State.defaultLimit) (sources : List String) :
    Prepared host (s.define (.global 0) name v) ∧
      evalSources (n + 2) (.global 0) (source :: sources) s =
        evalSources (n + 2) (.global 0) sources (s.define (.global 0) name v) :=
  ⟨h.define hbuiltins hforms v, h.evalSources_cons hk hread (h.define_takes hform name)⟩

/-- A `defmacro!` form of the prelude binds its name to a macro. -/
theorem Prepared.defineMacro_source (h : Prepared host s) {n : Nat} {source name : String}
    {params : List Value} {body : Value} {p : Params}
    (hread : readFirst State.defaultLimit 0 source = .ok (.list [.symbol "defmacro!", .symbol name,
      .list [.symbol "fn*", .list params, body]]))
    (hbuiltins : name ∉ Builtin.all.map Builtin.name) (hforms : SpecialForm.ofName? name = none)
    (hparams : Params.parse params = .ok p) (sources : List String) :
    Prepared host (s.define (.global 0) name (.closure p body (.global 0) true .nil)) ∧
      evalSources (n + 3) (.global 0) (source :: sources) s =
        evalSources (n + 3) (.global 0) sources
          (s.define (.global 0) name (.closure p body (.global 0) true .nil)) := by
  have hform : Takes 2 (eval (n + 3) (.list (.symbol SpecialForm.defineMacro.name ::
      [.symbol name, .list [.symbol "fn*", .list params, body]])) (.global 0)) s
      (.done (.closure p body (.global 0) true .nil)
        (s.define (.global 0) name (.closure p body (.global 0) true .nil))) :=
    eval_special_takes (h.not_macro .defineMacro)
      ((h.function_takes hparams body n).bind fun _ => rfl)
  exact ⟨h.define hbuiltins hforms _, h.evalSources_cons (by decide) hread hform⟩

end Prepared

/-- A new session binds the built-in functions and what the prelude defines as functions of files
and of clauses. -/
theorem start_defines (host : Host) (n : Nat) :
    ∃ s, start (n + 5) (.initial host) = .done (.global 0) s ∧ Prepared host s ∧
      s.binding? 0 "load-file" = some (fileLoader (.global 0)) ∧
        s.binding? 0 "cond" = some (condMacro 0) := by
  obtain ⟨s, hbare, hs⟩ := prepared_bare host
  obtain ⟨hnot, hread⟩ := List.cons.inj readFirst_prelude
  obtain ⟨hload, hread⟩ := List.cons.inj hread
  obtain ⟨hcond, hread⟩ := List.cons.inj hread
  obtain ⟨hhost, hread⟩ := List.cons.inj hread
  obtain ⟨hargv, -⟩ := List.cons.inj hread
  obtain ⟨hs₁, hrun₁⟩ := hs.define_source hnot (by decide +kernel) rfl
    (hs.function_takes rfl _ (n + 2)) (by decide) (preludeSources.drop 1)
  obtain ⟨hs₂, hrun₂⟩ := hs₁.define_source hload (by decide +kernel) rfl
    (hs₁.function_takes rfl _ (n + 2)) (by decide) (preludeSources.drop 2)
  obtain ⟨hs₃, hrun₃⟩ := hs₂.defineMacro_source (n := n + 2) hcond (by decide +kernel) rfl rfl
    (preludeSources.drop 3)
  obtain ⟨hs₄, hrun₄⟩ := hs₃.define_source hhost (by decide +kernel) rfl
    (eval_text_takes "rust" (n + 2)) (by decide) (preludeSources.drop 4)
  obtain ⟨hs₅, hrun₅⟩ := hs₄.define_source hargv (by decide +kernel) rfl
    (hs₄.builtin_takes (b := .list) rfl (fun _ _ => rfl) (n + 1)) (by decide) []
  refine ⟨_, ?_, hs₅, ?_, ?_⟩
  · have hrun := hrun₁.trans (hrun₂.trans (hrun₃.trans (hrun₄.trans hrun₅)))
    rw [start, bind_apply, hbare]
    change (evalSources (n + 5) (.global 0) preludeSources s).andThen _ = _
    rw [show evalSources (n + 5) (.global 0) preludeSources s = _ from hrun]
    rfl
  · have hbound := State.binding?_bind_self (hs₁.frames ▸ Nat.zero_lt_one) "load-file"
      (fileLoader (.global 0))
    refine (State.binding?_bind_of_ne (.inr (by decide)) _).trans ?_
    refine (State.binding?_bind_of_ne (.inr (by decide)) _).trans ?_
    refine (State.binding?_bind_of_ne (.inr (by decide)) _).trans ?_
    exact hbound
  · have hbound := State.binding?_bind_self (hs₂.frames ▸ Nat.zero_lt_one) "cond" (condMacro 0)
    refine (State.binding?_bind_of_ne (.inr (by decide)) _).trans ?_
    refine (State.binding?_bind_of_ne (.inr (by decide)) _).trans ?_
    exact hbound

/-- A new session binds the built-in functions and `load-file`. -/
theorem start_prepared (host : Host) (n : Nat) :
    ∃ s, start (n + 5) (.initial host) = .done (.global 0) s ∧ Prepared host s ∧
      s.binding? 0 "load-file" = some (fileLoader (.global 0)) := by
  obtain ⟨s, hstart, hs, hload, -⟩ := start_defines host n
  exact ⟨s, hstart, hs, hload⟩

end Session

end Lisp
