import Lisp.Proofs.Eval.Fuel
import Lisp.Proofs.Eval.Levels
import Lisp.Proofs.Run.Endings
import Lisp.Proofs.Template.Filling

/-!
# Flat templates

A list of values that hold no others is flat, but what it expands to is not: every call of `cons`
is an operand of the one in front of it, so the expansion nests as deep as the list is long, and
evaluating an operand takes a level. Hence the limit on nesting bounds the length of a flat
template (`quasiquote_flat`), although it bounds neither the length of a vector nor the number of
operands of a call.
-/

namespace Lisp

open Run Eval

/-! ### Vectors and calls -/

section Row

variable {n : Nat} {s : State} {scope : Scope} {xs : List Value} {form : Value → Value}

/-- Forms in a row are evaluated on the same level. -/
theorem evalEach_map (h : ∀ x ∈ xs, eval n (form x) scope s = .done x s) (done : List Value) :
    evalEach (.limited n) scope done (xs.map form) s = .done (done.reverse ++ xs) s := by
  induction xs generalizing done with
  | nil => simp [evalEach]
  | cons x xs ih =>
    rw [List.forall_mem_cons] at h
    change (eval n (form x) scope s).andThen _ = _
    rw [h.1]
    refine (ih h.2 (x :: done)).trans ?_
    rw [List.reverse_cons, List.append_assoc, List.singleton_append]

/-- A vector takes one level and those that its elements take, however many there are. -/
theorem eval_vector_map (hs : s.depth < s.limit)
    (h : ∀ x ∈ xs, eval (n + 1) (form x) scope s.deeper = .done x s.deeper) :
    eval (n + 2) (.vector (xs.map form)) scope s = .done (.vector xs) s := by
  have hstep : Eval.step (.limited (n + 1)) (n + 1) (.vector (xs.map form)) scope s.deeper =
      .done (.done (.vector xs)) s.deeper := by
    change ((evalEach (.limited (n + 1)) scope [] (xs.map form) s.deeper).andThen _).andThen _ = _
    rw [evalEach_map h]
    rfl
  rw [eval_eq_loop hs, loop_succ, bind_apply, hstep]
  rfl

/-- A call of `list` takes one level and those that its operands take, however many there are. -/
theorem eval_list_map {name : String} (hs : s.depth + 1 < s.limit)
    (hname : SpecialForm.ofName? name = none)
    (hlist : s.lookup scope name = some (.builtin .list))
    (h : ∀ x ∈ xs, eval (n + 2) (form x) scope s.deeper = .done x s.deeper) :
    eval (n + 3) (.list (.symbol name :: xs.map form)) scope s = .done (.list xs) s := by
  rw [← s.lookup_deeper] at hlist
  have hhead : eval (n + 2) (.symbol name) scope s.deeper = .done (.builtin .list) s.deeper :=
    (eval_symbol_takes hlist n).eq hs
  rw [eval_eq_loop (Nat.lt_of_succ_lt hs), loop_builtin hname hlist, bind_apply, hhead]
  change Outcome.mapState _ ((evalEach _ _ _ _ s.deeper).andThen _) = _
  rw [evalEach_map h]
  rfl

end Row

namespace Template

variable {limit room n : Nat} {s : State} {scope : Scope} {x : Value} {xs : List Value}

/-! ### The expansion -/

/-- The form that a value without parts expands to. -/
def quoted : Value → Value
  | .symbol name => .list [.symbol "quote", .symbol name]
  | v => v

/-- The form that a list of values without parts expands to. -/
def nest : List Value → Value
  | [] => .list []
  | x :: xs => .list [.symbol "cons", quoted x, nest xs]

theorem not_isForm_of_childless (h : x.Childless) (head : String) : ¬ x.isForm head := by
  intro hform
  obtain ⟨args, tag, rfl⟩ := Value.isForm_iff.mp hform
  exact h

theorem expand_childless (h : x.Childless) : expand limit (room + 1) x = .ok (quoted x) := by
  cases x with
  | seq | map | closure => exact h.elim
  | _ => rfl

theorem expand_elements (hflat : ∀ x ∈ xs, x.Childless) :
    xs.reverse.foldlM (element (expand limit (room + 1))) (.list []) = .ok (nest xs) := by
  induction xs with
  | nil => rfl
  | cons x xs ih =>
    rw [List.forall_mem_cons] at hflat
    refine elements_cons_eq_ok_iff.mpr ⟨_, ih hflat.2, ?_⟩
    rw [element_expanded (not_isForm_of_childless hflat.1 _), expand_childless hflat.1]
    rfl

/-- Expanding a flat list takes two levels. -/
theorem expand_flat (hflat : ∀ x ∈ xs, x.Childless) (hhead : xs.head? ≠ some (.symbol "unquote")) :
    expand limit (room + 2) (.list xs) = .ok (nest xs) := by
  cases xs with
  | nil => rfl
  | cons x xs =>
    refine (expand_seq limit (room + 1) fun hform => hhead ?_).trans (expand_elements hflat)
    obtain ⟨args, tag, heq⟩ := Value.isForm_iff.mp hform
    cases heq
    rfl

/-! ### Evaluating it -/

theorem Standard.deeper (h : Standard scope s) : Standard scope s.deeper where
  cons := by rw [s.lookup_deeper, h.cons]
  concat := by rw [s.lookup_deeper, h.concat]
  quote := by simpa only [s.lookup_deeper] using h.quote
  quasiquote := by simpa only [s.lookup_deeper] using h.quasiquote

/-- A value without parts is evaluated on one level. -/
theorem eval_quoted_takes (h : Standard scope s) (hx : x.Childless) :
    Takes 1 (eval (n + 2) (quoted x) scope) s (.done x s) := by
  cases x with
  | seq | map | closure => exact hx.elim
  | symbol name =>
    have hquote : Takes 1 (eval (n + 2) (.list [.symbol SpecialForm.quote.name, .symbol name])
        scope) s (.done (.symbol name) s) := eval_special_takes_one h.quote rfl
    exact hquote
  | _ => exact eval_self_takes rfl (fun _ => rfl) n

/-- The expansion of a flat list takes a level for every element, and one for the empty list
behind them. -/
theorem eval_nest_takes (h : Standard scope s) (hflat : ∀ x ∈ xs, x.Childless) :
    Takes (xs.length + 1) (eval (n + xs.length + 2) (nest xs) scope) s (.done (.list xs) s) := by
  induction xs generalizing s with
  | nil => exact eval_self_takes rfl (fun _ => rfl) n
  | cons x xs ih =>
    rw [List.forall_mem_cons] at hflat
    refine eval_builtin_takes rfl h.cons (Nat.le_add_left 1 _) ?_
    have hx : Takes 1 (eval (n + xs.length + 2) (quoted x) scope) s.deeper (.done x s.deeper) :=
      eval_quoted_takes h.deeper hflat.1
    simp only [evalEach, bind_assoc, pure_bind]
    exact hx.bind_more (Nat.le_add_left 1 _) ((ih h.deeper hflat.2).bind fun _ => rfl)

/-- A quasiquoted form ends as its expansion does, which takes its place. -/
theorem ends_quasiquote {t e : Value} {o : Outcome Value} (h : Standard scope s)
    (hs : s.depth < s.limit) (he : expand s.limit (s.limit - (s.depth + 1)) t = .ok e)
    (ho : Ends (fun n => eval n e scope) s o) :
    Ends (fun n => eval n (.list [.symbol "quasiquote", t]) scope) s o := by
  obtain ⟨hfinished, n, hn⟩ := ho
  cases n with
  | zero => exact absurd hn.symm hfinished
  | succ n =>
    replace hn := (eval_eq_loop hs n e scope).symm.trans hn
    have hloop : loop (.limited n) n n e scope s.deeper ≠ .unfinished :=
      Outcome.ne_unfinished_of_mapState (hn ▸ hfinished)
    have htemplate : special (.limited (n + 1)) (n + 1) .quasiquote [t] scope s.deeper =
        .done (.next e scope) s.deeper := by
      change (expandTemplate t s.deeper).andThen _ = _
      rw [expandTemplate_apply, State.deeper, he]
      rfl
    refine ⟨hfinished, n + 2, ?_⟩
    refine (eval_eq_loop hs _ _ _).trans (Eq.trans ?_ hn)
    have hspecial : loop (.limited (n + 1)) (n + 1) (n + 1)
        (.list [.symbol SpecialForm.quasiquote.name, t]) scope s.deeper =
          (special (.limited (n + 1)) (n + 1) .quasiquote [t] scope >>=
            Step.proceed (loop (.limited (n + 1)) (n + 1) n)) s.deeper :=
      loop_special h.deeper.quasiquote n
    refine congrArg _ (hspecial.trans ?_)
    rw [bind_apply, htemplate]
    exact loop_apply_eq (Nat.le_succ n) (Nat.le_refl n) hloop

/-- Where the names that expansions use mean what they are meant to, a flat quasiquoted list that
does not begin with `unquote` is built if it has fewer elements than there are levels left, and
refused otherwise. A vector of the same elements, and a call of `list`, are never too long. -/
theorem quasiquote_flat (h : Standard scope s) (hlimit : s.depth + 3 ≤ s.limit)
    (hflat : ∀ x ∈ xs, x.Childless) (hhead : xs.head? ≠ some (.symbol "unquote")) :
    (s.depth + xs.length < s.limit →
      Ends (fun n => eval n (.list [.symbol "quasiquote", .list xs]) scope) s
        (.done (.list xs) s)) ∧
    (s.limit ≤ s.depth + xs.length →
      Ends (fun n => eval n (.list [.symbol "quasiquote", .list xs]) scope) s
        (.failed (.depthExceeded s.limit) s)) ∧
    Ends (fun n => eval n (.vector (xs.map quoted)) scope) s (.done (.vector xs) s) ∧
    ∀ name, SpecialForm.ofName? name = none → s.lookup scope name = some (.builtin .list) →
      Ends (fun n => eval n (.list (.symbol name :: xs.map quoted)) scope) s
        (.done (.list xs) s) := by
  obtain ⟨room, hroom⟩ : ∃ room, s.limit - (s.depth + 1) = room + 2 :=
    ⟨s.limit - (s.depth + 3), by omega⟩
  have hs : s.depth < s.limit := by omega
  have hdeeper : s.deeper.depth + 1 ≤ s.deeper.limit := by
    change s.depth + 1 + 1 ≤ s.limit
    omega
  have hexpand : expand s.limit (s.limit - (s.depth + 1)) (.list xs) = .ok (nest xs) := by
    rw [hroom, expand_flat hflat hhead]
  have hnest : Takes (xs.length + 1) (eval (0 + xs.length + 2) (nest xs) scope) s
      (.done (.list xs) s) := eval_nest_takes h hflat
  have hquoted (n : Nat) (x : Value) (hx : x ∈ xs) :
      eval (n + 2) (quoted x) scope s.deeper = .done x s.deeper :=
    (eval_quoted_takes h.deeper (hflat x hx)).eq hdeeper
  refine ⟨fun hlength => ?built, fun hlength => ?refused, ?vector, fun name hname hlist => ?call⟩
  case built => exact ends_quasiquote h hs hexpand ⟨nofun, _, hnest.eq hlength⟩
  case refused =>
    exact ends_quasiquote h hs hexpand ⟨nofun, _, hnest.eq_refused (Nat.not_lt.mpr hlength)⟩
  case vector => exact ⟨nofun, _, eval_vector_map (n := 1) hs (hquoted 0)⟩
  case call => exact ⟨nofun, _, eval_list_map (n := 0) hdeeper hname hlist (hquoted 0)⟩

/-- The list `(1 a "b" :c)`, for which five levels are enough and four are not, although four are
enough for the call of `list`. -/
theorem quasiquote_flat_four :
    let xs := [.int 1, .symbol "a", .text "b", .text (String.ofList [keywordMark, 'c'])]
    let s (limit : Nat) : State :=
      { (State.initial Host.plain).newGlobal.2.bindAll 0
        [("cons", .builtin .cons), ("concat", .builtin .concat), ("list", .builtin .list)]
        with limit }
    let form := Value.list [.symbol "quasiquote", .list xs]
    let call := Value.list (.symbol "list" :: xs.map quoted)
    ((∀ limit, Standard (.global 0) (s limit)) ∧ (∀ x ∈ xs, x.Childless) ∧
      xs.head? ≠ some (.symbol "unquote")) ∧
      Ends (fun n => eval n form (.global 0)) (s 5) (.done (.list xs) (s 5)) ∧
      Ends (fun n => eval n form (.global 0)) (s 4) (.failed (.depthExceeded 4) (s 4)) ∧
      Ends (fun n => eval n call (.global 0)) (s 4) (.done (.list xs) (s 4)) := by
  intro xs s form call
  have hstandard (limit : Nat) : Standard (.global 0) (s limit) := ⟨rfl, rfl, nofun, nofun⟩
  have hflat : ∀ x ∈ xs, x.Childless := by simp [xs, Value.Childless]
  have hhead : xs.head? ≠ some (.symbol "unquote") := nofun
  obtain ⟨hbuilt, -⟩ := quasiquote_flat (hstandard 5) (by decide) hflat hhead
  obtain ⟨-, hrefused, -, hcall⟩ := quasiquote_flat (hstandard 4) (by decide) hflat hhead
  exact ⟨⟨hstandard, hflat, hhead⟩, hbuilt (by decide), hrefused (by decide), hcall "list" rfl rfl⟩

/-- With four levels a flat list of four elements is refused, one that begins with `unquote` is not
built but stands for its operand, and where a macro hides `quote` or `quasiquote` nothing is built
either. -/
theorem quasiquote_flat_limits :
    let s : State :=
      { (State.initial Host.plain).newGlobal.2.bindAll 0
        [("cons", .builtin .cons), ("concat", .builtin .concat)] with limit := 4 }
    let macroNil := Value.closure ⟨["x"], none⟩ .nil (.global 0) true .nil
    let quoteHidden := s.bind 0 "quote" macroNil
    let quasiquoteHidden := s.bind 0 "quasiquote" macroNil
    let ends (xs : List Value) :=
      Ends fun n => eval n (.list [.symbol "quasiquote", .list xs]) (.global 0)
    let endsOtherwise (xs : List Value) (s : State) (o : Outcome Value) :=
      ends xs s o ∧ ∀ t, ¬ ends xs s (.done (.list xs) t)
    endsOtherwise [.int 1, .int 2, .int 3, .int 4] s (.failed (.depthExceeded 4) s) ∧
      endsOtherwise [.symbol "unquote", .int 5] s (.done (.int 5) s) ∧
      endsOtherwise [.symbol "a"] quoteHidden
        (.done (.list [.nil]) (quoteHidden.newFrame.2.bind 1 "x" (.symbol "a"))) ∧
      endsOtherwise [.int 1] quasiquoteHidden
        (.done .nil (quasiquoteHidden.newFrame.2.bind 1 "x" (.list [.int 1]))) := by
  intro s macroNil quoteHidden quasiquoteHidden ends endsOtherwise
  have hends {xs : List Value} {s : State} {o : Outcome Value} (hfinished : o ≠ .unfinished)
      (hother : ∀ t, o ≠ .done (.list xs) t)
      (h : eval 10 (.list [.symbol "quasiquote", .list xs]) (.global 0) s = o) :
      endsOtherwise xs s o :=
    ⟨⟨hfinished, 10, h⟩, fun t ht =>
      hother t (Ends.unique (fun _ _ h => eval_refines h _ _) ⟨hfinished, 10, h⟩ ht)⟩
  refine ⟨hends nofun nofun ?_, hends nofun nofun ?_, hends nofun ?_ ?_, hends nofun nofun ?_⟩
  case refine_3 =>
    intro t ht
    injection ht with hv
    injection hv with _ hitems
    cases hitems
  · simp only [s, State.bindAll, State.bind, State.newGlobal, State.newFrame, State.initial,
      List.foldl_cons, List.foldl_nil, List.push_toArray, List.nil_append, List.modify_toArray,
      List.modify_zero_cons]
    cbv
  all_goals rfl

end Template

end Lisp
