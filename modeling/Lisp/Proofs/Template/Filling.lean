import Lisp.Proofs.Eval.Unbounded
import Lisp.Proofs.Run.After
import Lisp.Proofs.Template.IllFormed

/-!
# Filling templates

What a template stands for, said without expanding it: `fill` goes through the template and puts
the values of the operands of `unquote` and `splice-unquote` in their places, from left to right.
Evaluating the expansion, which is put together from right to left out of calls of `cons` and
`concat`, does exactly that, errors and effects included (`evalUnbounded_expand`).
-/

namespace Lisp.Template

open Run

section Fill

variable (ev : Value → Run Value)

mutual

/-- Fills a template, of which `ev` evaluates the operands. A map is evaluated as it is. -/
def fill : Value → Run Value
  | .seq .list [.symbol "unquote", form] _ => ev form
  | .seq _ (item :: items) _ => .list <$> fillItems (item :: items)
  | .seq .vector [] _ => pure (.vector [])
  | .map entries tag => ev (.map entries tag)
  | v => pure v

/-- Fills the elements of a list or vector. That the value to be spliced is no sequence shows only
behind the elements that follow. -/
def fillItems : List Value → Run (List Value)
  | [] => pure []
  | .seq .list [.symbol "splice-unquote", form] _ :: rest => do
    let v ← ev form
    let vs ← fillItems rest
    return (← Builtin.concat.itemsOrNil v) ++ vs
  | item :: rest => do
    let v ← fill item
    let vs ← fillItems rest
    return v :: vs

end

end Fill

mutual

/-- What is evaluated when a template is filled, from left to right. -/
def operands : Value → List Value
  | .seq .list [.symbol "unquote", form] _ => [form]
  | .seq _ (item :: items) _ => itemOperands (item :: items)
  | .map entries tag => [.map entries tag]
  | _ => []

/-- What is evaluated when elements are filled, from left to right. -/
def itemOperands : List Value → List Value
  | [] => []
  | .seq .list [.symbol "splice-unquote", form] _ :: rest => form :: itemOperands rest
  | item :: rest => operands item ++ itemOperands rest

end

section Layers

variable {kind : SeqKind} {item tag : Value} {items : List Value}

theorem not_unquote (h : ¬ (Value.seq kind (item :: items) tag).isForm "unquote") (form : Value)
    (hkind : kind = .list) (hitem : item = .symbol "unquote") (_ : items = [form]) : False := by
  subst hkind hitem
  exact h (Value.isForm_iff.mpr ⟨items, tag, rfl⟩)

/-- A list or vector is filled element by element, unless it is an `unquote` list. -/
theorem fill_seq (ev : Value → Run Value)
    (h : ¬ (Value.seq kind (item :: items) tag).isForm "unquote") :
    fill ev (.seq kind (item :: items) tag) = .list <$> fillItems ev (item :: items) :=
  fill.eq_2 ev kind item items tag (not_unquote h)

theorem operands_seq (h : ¬ (Value.seq kind (item :: items) tag).isForm "unquote") :
    operands (.seq kind (item :: items) tag) = itemOperands (item :: items) :=
  operands.eq_2 kind item items tag (not_unquote h)

theorem not_spliced (h : ¬ item.isForm "splice-unquote") (form tag : Value)
    (hitem : item = .seq .list [.symbol "splice-unquote", form] tag) : False :=
  h (Value.isForm_iff.mpr ⟨[form], tag, hitem⟩)

/-- An element is filled as a template, unless it is to be spliced. -/
theorem fillItems_cons (ev : Value → Run Value) (h : ¬ item.isForm "splice-unquote") :
    fillItems ev (item :: items) = do
      let v ← fill ev item
      let vs ← fillItems ev items
      return v :: vs :=
  fillItems.eq_3 ev item items (not_spliced h)

theorem itemOperands_cons (h : ¬ item.isForm "splice-unquote") :
    itemOperands (item :: items) = operands item ++ itemOperands items :=
  itemOperands.eq_3 item items (not_spliced h)

end Layers

/-- The property holds before, between and behind the evaluations of some forms. -/
def Throughout (P : State → Prop) (ev : Value → Run Value) : List Value → State → Prop
  | [], s => P s
  | form :: forms, s => P s ∧ (ev form).After s fun _ t => Throughout P ev forms t

/-! ### Filling evaluates the operands -/

section Throughout

variable {P : State → Prop} {ev : Value → Run Value} {xs ys : List Value} {s : State}

theorem Throughout.at_first (h : Throughout P ev xs s) : P s := by
  cases xs with
  | nil => exact h
  | cons => exact h.1

theorem Throughout.of_append (h : Throughout P ev (xs ++ ys) s) : Throughout P ev xs s := by
  induction xs generalizing s with
  | nil => exact h.at_first
  | cons x xs ih => exact ⟨h.1, h.2.mono fun _ _ => ih⟩

variable (P ev)

/-- Filling a template evaluates its operands and nothing else: what holds throughout their
evaluation and that of more forms holds throughout the latter behind the template. -/
theorem throughout_fill :
    (∀ (t : Value) {more : List Value} {s : State}, Throughout P ev (operands t ++ more) s →
      (fill ev t).After s fun _ u => Throughout P ev more u) ∧
    ∀ (items : List Value) {more : List Value} {s : State},
      Throughout P ev (itemOperands items ++ more) s →
        (fillItems ev items).After s fun _ u => Throughout P ev more u := by
  refine fill.mutual_induct _ _ ?unquote ?seq ?vector ?map ?leaf ?nil ?spliced ?filled
  case unquote =>
    intro form tag more s h
    exact h.2
  case seq =>
    intro kind item items tag hplain ih more s h
    rw [operands.eq_2 _ _ _ _ hplain] at h
    rw [fill.eq_2 _ _ _ _ _ hplain]
    exact .map (ih h)
  case vector =>
    intro tag more s h
    exact .pure h
  case map =>
    intro entries tag more s h
    exact h.2
  case leaf =>
    intro t hunquote hitems hvector hmap more s h
    rw [operands.eq_4 _ hunquote hitems hmap] at h
    rw [fill.eq_5 _ _ hunquote hitems hvector hmap]
    exact .pure h
  case nil =>
    intro more s h
    exact .pure h
  case spliced =>
    intro form tag rest ih more s h
    refine .bind (h.2.mono fun v t ht => ?_)
    refine .bind ((ih ht).mono fun vs u hu => ?_)
    exact .bind (.ofExcept fun items _ => .pure hu)
  case filled =>
    intro item rest hplain ihitem ihrest more s h
    rw [itemOperands.eq_3 _ _ hplain, List.append_assoc] at h
    rw [fillItems.eq_3 _ _ _ hplain]
    refine .bind ((ihitem h).mono fun v t ht => ?_)
    exact .bind ((ihrest ht).mono fun vs u hu => .pure hu)

end Throughout

/-! ### Evaluating an expansion -/

/-- The names that an expansion is written with mean what they are meant to. -/
structure Standard (scope : Scope) (s : State) : Prop where
  cons : s.lookup scope "cons" = some (.builtin .cons)
  concat : s.lookup scope "concat" = some (.builtin .concat)
  quote : ∀ params body inner tag,
    s.lookup scope "quote" ≠ some (.closure params body inner true tag)
  quasiquote : ∀ params body inner tag,
    s.lookup scope "quasiquote" ≠ some (.closure params body inner true tag)

namespace Standard

variable {scope : Scope} {s : State}

theorem eval_quote (h : Standard scope s) (v : Value) :
    evalUnbounded (.list [.symbol "quote", v]) scope s = .done v s :=
  (evalUnbounded_special .quote h.quote (growing_const (pure v)) fun _ => rfl).trans (by simp)

/-- A call of `cons` evaluates its operands and puts one in front of the other. -/
theorem eval_cons (h : Standard scope s) (form rest : Value) :
    evalUnbounded (.list [.symbol "cons", form, rest]) scope s = (do
      let v ← evalUnbounded form scope
      let w ← evalUnbounded rest scope
      Builtin.consed [v, w] : Run Value) s := by
  rw [evalUnbounded_builtin rfl h.cons fun _ _ _ => rfl]
  simp only [Eval.evalEach, bind_assoc, pure_bind]
  rfl

/-- A call of `concat` evaluates its operands and joins them. -/
theorem eval_concat (h : Standard scope s) (form rest : Value) :
    evalUnbounded (.list [.symbol "concat", form, rest]) scope s = (do
      let v ← evalUnbounded form scope
      let w ← evalUnbounded rest scope
      Builtin.concatenated [v, w] : Run Value) s := by
  rw [evalUnbounded_builtin rfl h.concat fun _ _ _ => rfl]
  simp only [Eval.evalEach, bind_assoc, pure_bind]
  rfl

/-- A quasiquoted form is evaluated by evaluating its expansion. -/
theorem eval_quasiquote (h : Standard scope s) {t e : Value}
    (he : expand t.height t.height t = .ok e) :
    evalUnbounded (.list [.symbol "quasiquote", t]) scope s = evalUnbounded e scope s := by
  have htemplate (ev : Value → Scope → Run Value) :
      (Policy.unlimited.calls ev).template t = ofExcept (expand t.height t.height t) := rfl
  refine evalUnbounded_special .quasiquote h.quasiquote (growing_direct e scope) fun n => ?_
  rw [Eval.special, Eval.template, htemplate, he]
  rfl

end Standard

section Expansion

variable {scope : Scope} {s : State} {e t : Value} {items : List Value}
  {f : Value → Except Error Value}

/-- An element is put in front of what the elements behind it expand to. -/
theorem elements_cons_eq_ok_iff {item rest : Value} :
    (item :: items).reverse.foldlM (element f) rest = .ok e ↔
      ∃ v, items.reverse.foldlM (element f) rest = .ok v ∧ element f v item = .ok e := by
  simp only [List.reverse_cons, List.foldlM_append, List.foldlM_cons, List.foldlM_nil, bind_pure]
  cases items.reverse.foldlM (element f) rest with
  | error e' => simp [bind, Except.bind]
  | ok v => simp [bind, Except.bind]

/-- Calling a function on the value of an expansion is calling it on the filled elements. -/
theorem eval_rest_bind {rest : Value} {g : Value → Run Value}
    (h : evalUnbounded rest scope s = (.list <$> fillItems (evalUnbounded · scope) items) s) :
    (evalUnbounded rest scope >>= g) s =
      (fillItems (evalUnbounded · scope) items >>= fun vs => g (.list vs)) s :=
  calc (evalUnbounded rest scope >>= g) s
      = ((.list <$> fillItems (evalUnbounded · scope) items) >>= g) s :=
        bind_congr_after h fun _ _ _ => rfl
    _ = _ := by rw [bind_map_left]

theorem concatenated_list (v : Value) (vs : List Value) :
    (Builtin.concatenated [v, .list vs] : Run Value) =
      .list <$> (do return (← Builtin.concat.itemsOrNil v) ++ vs) := by
  have hlist : Builtin.concat.itemsOrNil (.list vs) = .ok vs := rfl
  simp only [Builtin.concatenated, Builtin.joined, hlist]
  cases Builtin.concat.itemsOrNil v with
  | error e => rfl
  | ok items =>
    change Run.ofExcept (.ok (Value.list (vs.reverse ++ (items.reverse ++ [])).reverse)) =
      pure (Value.list (items ++ vs))
    simp [Run.ofExcept]

/-- If expansions of single elements evaluate to the filled elements, then those of many do. -/
theorem evalUnbounded_elements
    (hf : ∀ {t e s}, f t = .ok e →
      Throughout (Standard scope) (evalUnbounded · scope) (operands t) s →
        evalUnbounded e scope s = fill (evalUnbounded · scope) t s)
    (he : items.reverse.foldlM (element f) (.list []) = .ok e)
    (h : Throughout (Standard scope) (evalUnbounded · scope) (itemOperands items) s) :
    evalUnbounded e scope s = (.list <$> fillItems (evalUnbounded · scope) items) s := by
  induction items generalizing e s with
  | nil =>
    cases he
    exact evalUnbounded_plain rfl fun _ => rfl
  | cons item items ih =>
    obtain ⟨rest, hrest, hitem⟩ := elements_cons_eq_ok_iff.mp he
    by_cases hsplice : item.isForm "splice-unquote"
    · obtain ⟨args, tag, rfl⟩ := Value.isForm_iff.mp hsplice
      rw [element_spliced, map_eq_ok_iff] at hitem
      obtain ⟨form, hform, rfl⟩ := hitem
      cases operand_eq_ok_iff.mp hform
      rw [h.at_first.eval_concat, fillItems, map_bind]
      refine bind_congr_after rfl (h.2.mono fun v t ht => ?_)
      rw [eval_rest_bind (ih hrest ht), map_bind]
      exact congrArg (· t) (bind_congr fun vs => concatenated_list v vs)
    · rw [element_expanded hsplice, map_eq_ok_iff] at hitem
      obtain ⟨form, hform, rfl⟩ := hitem
      rw [itemOperands_cons hsplice] at h
      rw [h.at_first.eval_cons, fillItems_cons _ hsplice, map_bind]
      refine bind_congr_after (hf hform h.of_append) ?_
      refine ((throughout_fill _ _).1 item h).mono fun v t ht => ?_
      rw [eval_rest_bind (ih hrest ht), map_bind]
      rfl

/-- Evaluating an expansion is filling what was expanded. -/
theorem evalUnbounded_expand {limit room : Nat} (he : expand limit room t = .ok e)
    (h : Throughout (Standard scope) (evalUnbounded · scope) (operands t) s) :
    evalUnbounded e scope s = fill (evalUnbounded · scope) t s := by
  induction room generalizing t e s with
  | zero => cases he
  | succ room ih =>
    cases t with
    | symbol name =>
      cases he
      exact h.at_first.eval_quote (.symbol name)
    | map entries tag =>
      cases he
      rfl
    | seq kind items tag =>
      by_cases hform : (Value.seq kind items tag).isForm "unquote"
      · obtain ⟨args, tag', heq⟩ := Value.isForm_iff.mp hform
        cases heq
        cases operand_eq_ok_iff.mp he
        rfl
      · cases items with
        | nil =>
          cases kind with
          | list =>
            cases he
            exact evalUnbounded_plain rfl fun _ => rfl
          | vector =>
            cases he
            exact evalUnbounded_plain rfl fun _ => rfl
        | cons item items =>
          rw [expand_seq limit room hform] at he
          rw [fill_seq _ hform]
          rw [operands_seq hform] at h
          exact evalUnbounded_elements ih he h
    | _ =>
      cases he
      exact evalUnbounded_plain rfl fun _ => rfl

/-- A template fails to expand, except for want of levels, exactly if it is ill-formed. Where the
names that expansions use mean what they are meant to, throughout the evaluation of the operands,
evaluating any other quasiquoted template is filling it. -/
theorem quasiquote_fills (t : Value) :
    (∀ limit room, ¬ Refused (expand limit room t) →
      ((∃ e, expand limit room t = .error e) ↔ IllFormed t)) ∧
    (∀ limit room, t.height ≤ room → ¬ Refused (expand limit room t)) ∧
    (¬ IllFormed t → ∀ scope s,
      Throughout (Standard scope) (evalUnbounded · scope) (operands t) s →
        evalUnbounded (.list [.symbol "quasiquote", t]) scope s =
          fill (evalUnbounded · scope) t s ∧
        ∀ o, Evaluates (.list [.symbol "quasiquote", t]) scope s o →
          fill (evalUnbounded · scope) t s = o) := by
  have henough (limit room : Nat) (h : t.height ≤ room) : ¬ Refused (expand limit room t) :=
    not_refused_expand limit h
  refine ⟨fun _ _ => exists_error_iff, henough, fun hwell scope s h => ?_⟩
  have hfill : evalUnbounded (.list [.symbol "quasiquote", t]) scope s =
      fill (evalUnbounded · scope) t s := by
    cases he : expand t.height t.height t with
    | error e => exact absurd ((exists_error_iff (henough _ _ (Nat.le_refl _))).mp ⟨e, he⟩) hwell
    | ok e => rw [h.at_first.eval_quasiquote he, evalUnbounded_expand he h]
  exact ⟨hfill, fun o ho => hfill ▸ ho.unbounded⟩

end Expansion

/-- The template `(a (unquote 1) (splice-unquote xs))` where `xs` is the list `(2 3)`. -/
theorem quasiquote_fills_spliced :
    let t := Value.list [.symbol "a", .list [.symbol "unquote", .int 1],
      .list [.symbol "splice-unquote", .symbol "xs"]]
    let s := (State.initial Host.plain).newGlobal.2.bindAll 0
      [("cons", .builtin .cons), ("concat", .builtin .concat), ("xs", .list [.int 2, .int 3])]
    let filled := Outcome.done (.list [.symbol "a", .int 1, .int 2, .int 3]) s
    (t.height ≤ 3 ∧ ¬ Refused (expand 3 3 t) ∧ ¬ IllFormed t ∧
      Throughout (Standard (.global 0)) (evalUnbounded · (.global 0)) (operands t) s ∧
        Evaluates (.list [.symbol "quasiquote", t]) (.global 0) s filled) ∧
      (¬ ∃ e, expand 3 3 t = .error e) ∧
        evalUnbounded (.list [.symbol "quasiquote", t]) (.global 0) s = filled ∧
          fill (evalUnbounded · (.global 0)) t s = filled := by
  intro t s filled
  obtain ⟨hfails, henough, hfills⟩ := quasiquote_fills t
  have hheight : t.height ≤ 3 := by decide
  have hroom : ¬ Refused (expand 3 3 t) := henough 3 3 hheight
  have hexpands : ¬ ∃ e, expand 3 3 t = .error e := nofun
  have hwell : ¬ IllFormed t := fun h => hexpands ((hfails 3 3 hroom).mpr h)
  have hstandard : Standard (.global 0) s := ⟨rfl, rfl, nofun, nofun⟩
  have hthroughout : Throughout (Standard (.global 0)) (evalUnbounded · (.global 0))
      (operands t) s := by
    refine ⟨hstandard, .of_eq (evalUnbounded_plain (v := .int 1) rfl fun _ => rfl) ?_⟩
    refine ⟨hstandard, .of_eq (evalUnbounded_plain (v := .list [.int 2, .int 3]) rfl ?_) hstandard⟩
    exact fun _ => rfl
  have hevaluates : Evaluates (.list [.symbol "quasiquote", t]) (.global 0) s filled := by
    refine .of_stopping (n := 6) ?_ nofun
    simp only [filled, s, State.bindAll, State.bind, State.newGlobal, State.newFrame, State.initial,
      List.foldl_cons, List.foldl_nil, List.push_toArray, List.nil_append, List.modify_toArray,
      List.size_toArray, List.length_nil, List.modify_zero_cons]
    cbv
  obtain ⟨heval, hfill⟩ := hfills hwell (.global 0) s hthroughout
  have hfilled := hfill filled hevaluates
  exact ⟨⟨hheight, hroom, hwell, hthroughout, hevaluates⟩, hexpands, heval.trans hfilled, hfilled⟩

end Lisp.Template
