import Lisp.Proofs.Nesting.Template
import Lisp.Proofs.Reader.Descent
import Lisp.Proofs.Reader.Lines
import Lisp.Proofs.Run.Watched

/-!
# Reading and templates under watch

Reading a form and expanding a template are computed within the levels that are left. Here both
take their levels one by one, by nested calls that are watched: one for each form that is read, and
one for each part of a template. They agree with what is computed (`readFirst_agree`,
`readAll_agree`, `template_agree`).
-/

namespace Lisp

open Run

/-! ### Reading -/

namespace Reader

variable {limit top room : Nat} {opens : List Open} {done : List Value} {ts : List Token}
  {c : Counts}

/-- Forms are read one after the other. -/
theorem forms_eq_form (h : opens = [] → ts ≠ []) :
    forms limit top done room opens ts =
      form limit room opens ts >>= fun p => forms limit top (p.1 :: done) top [] p.2 := by
  induction ts generalizing room opens with
  | nil =>
    cases opens with
    | nil => exact absurd rfl (h rfl)
    | cons o opens => rfl
  | cons t ts ih =>
    rw [forms, form]
    cases hstep : step limit room opens t with
    | error e => rfl
    | ok p =>
      cases p with
      | finished v => rfl
      | more room' opens' => exact ih fun hopens => absurd hopens (levels_step hstep).2

namespace Descent

/-- Reads forms up to the end of the text. Each is read by `form`. -/
def each (form : List Token → Run (Value × List Token)) :
    Nat → List Token → Run (List Value)
  | 0, _ => Run.unfinished
  | _ + 1, [] => return []
  | fuel + 1, t :: ts => do
    let (v, ts) ← form (t :: ts)
    return v :: (← each form fuel ts)

/-- Reading forms one by one ends as it does with a stack of open constructs. -/
theorem each_eq_forms {fuel : Nat} {s : State} (h : ts.length < fuel) :
    each (fun ts => form (2 * ts.length + 1) ts) fuel ts s =
      ofExcept (forms s.limit (s.limit - s.depth) [] (s.limit - s.depth) [] ts) s := by
  induction fuel generalizing ts with
  | zero => exact absurd h (Nat.not_lt_zero _)
  | succ fuel ih =>
    cases ts with
    | nil => rfl
    | cons t ts =>
      rw [forms_eq_form fun _ => List.cons_ne_nil t ts]
      refine bind_eq_ofExcept ((agrees _).1 (t :: ts) s (Nat.lt_succ_self _)) fun p hp => ?_
      have hlength : p.2.length < fuel :=
        Nat.lt_of_lt_of_le (length_of_form hp) (Nat.le_of_lt_succ h)
      rw [forms_done [p.1], map_eq_pure_bind]
      exact bind_eq_ofExcept (ih hlength) fun _ _ => rfl

theorem each_eq_readForms (text : String) :
    each (fun ts => form (2 * ts.length + 1) ts) ((tokenize text).length + 1) (tokenize text) =
      readForms text :=
  funext fun _ => each_eq_forms (Nat.lt_succ_self _)

variable {f g : List Token → Run (Value × List Token)}
  {i j : Bracket → List Token → Run (List Value × List Token)}

/-- What is read of a form agrees if its parts do. -/
theorem parts_agree (hform : ∀ ts, AgreeAt c (f ts) (g ts))
    (hitems : ∀ b ts, AgreeAt c (i b ts) (j b ts)) (ts : List Token) :
    AgreeAt c (parts f i ts) (parts g j ts) := by
  cases ts with
  | nil => exact .raise _
  | cons t ts =>
    cases t with
    | opening b => exact (hitems b ts).bind fun p => (AgreeAt.ofExcept _).bind fun v => .pure _
    | closing b => exact .raise _
    | sigil s =>
      cases s with
      | withMeta => exact (hform ts).bind fun p => (hform p.2).bind fun q => .pure _
      | _ => exact (hform ts).bind fun p => .pure _
    | text raw => exact (AgreeAt.ofExcept _).bind fun v => .pure _
    | word name => exact (AgreeAt.ofExcept _).bind fun v => .pure _

theorem each_agree (hform : ∀ ts, AgreeAt c (f ts) (g ts)) (fuel : Nat) (ts : List Token) :
    AgreeAt c (each f fuel ts) (each g fuel ts) := by
  induction fuel generalizing ts with
  | zero => exact .unfinished
  | succ fuel ih =>
    cases ts with
    | nil => exact .pure _
    | cons t ts => exact (hform _).bind fun p => (ih p.2).bind fun vs => .pure _

end Descent

end Reader

/-! ### Templates -/

namespace Template

/-- Puts one element in front of the expanded elements behind it. -/
def elementRun (inside : Value → Run Value) (rest : Value) : Value → Run Value
  | .seq .list (.symbol "splice-unquote" :: args) _ =>
    return .list [.symbol "concat", ← operand "splice-unquote" args, rest]
  | v => return .list [.symbol "cons", ← inside v, rest]

/-- Expands one layer of a template. Its parts are expanded by `inside`. -/
def layer (inside : Value → Run Value) (v : Value) : Run Value :=
  match v with
  | .symbol _ => return .list [.symbol "quote", v]
  | .seq .list (.symbol "unquote" :: args) _ => operand "unquote" args
  | .seq _ (x :: xs) _ => (x :: xs).reverse.foldlM (elementRun inside) (.list [])
  | _ => return v

variable {c : Counts} {f g : Value → Run Value} {h : Value → Except Error Value} {s : State}
  {v rest : Value} {xs : List Value}

theorem elementRun_apply (hf : f v s = ofExcept (h v) s) :
    elementRun f rest v s = ofExcept (element h rest v) s := by
  by_cases hv : ∃ args tag, v = .seq .list (.symbol "splice-unquote" :: args) tag
  · obtain ⟨args, tag, rfl⟩ := hv
    exact Reader.bind_eq_ofExcept (x := ofExcept (operand "splice-unquote" args)) rfl fun _ _ => rfl
  · have hplain (args : List Value) (tag : Value) :
        v = .seq .list (.symbol "splice-unquote" :: args) tag → False :=
      fun hspliced => hv ⟨args, tag, hspliced⟩
    rw [elementRun.eq_2 _ _ _ hplain, element.eq_2 _ _ _ hplain]
    exact Reader.bind_eq_ofExcept hf fun _ _ => rfl

theorem elements_apply (hf : ∀ x ∈ xs, f x s = ofExcept (h x) s) (rest : Value) :
    xs.foldlM (elementRun f) rest s = ofExcept (xs.foldlM (element h) rest) s := by
  induction xs generalizing rest with
  | nil => rfl
  | cons x xs ih =>
    obtain ⟨hx, hxs⟩ := List.forall_mem_cons.mp hf
    rw [List.foldlM_cons, List.foldlM_cons]
    exact Reader.bind_eq_ofExcept (elementRun_apply hx) fun rest _ => ih hxs rest

theorem elementRun_agree (hv : AgreeAt c (f v) (g v)) :
    AgreeAt c (elementRun f rest v) (elementRun g rest v) := by
  unfold elementRun
  split
  · exact (AgreeAt.ofExcept _).bind fun _ => .pure _
  · exact hv.bind fun _ => .pure _

theorem elements_agree (hxs : ∀ x ∈ xs, AgreeAt c (f x) (g x)) (rest : Value) :
    AgreeAt c (xs.foldlM (elementRun f) rest) (xs.foldlM (elementRun g) rest) := by
  induction xs generalizing rest with
  | nil => exact .pure _
  | cons x xs ih =>
    obtain ⟨hx, hxs⟩ := List.forall_mem_cons.mp hxs
    rw [List.foldlM_cons, List.foldlM_cons]
    exact (elementRun_agree hx).bind fun rest => ih hxs rest

/-- Layers agree if what is inside of them does, which is less high. -/
theorem layer_agree (hparts : ∀ x, x.height < v.height → AgreeAt c (f x) (g x)) :
    AgreeAt c (layer f v) (layer g v) := by
  unfold layer
  split
  · exact .pure _
  · exact .ofExcept _
  · next kind x xs tag _ =>
    refine elements_agree (fun y hy => hparts y ?_) _
    exact Nat.lt_succ_of_le (Value.height_le_heights (List.mem_reverse.mp hy))
  · exact .pure _

/-- A template takes one level, and then its parts are expanded. -/
theorem expandTemplate_eq_guarded (v : Value) :
    expandTemplate v = Run.guarded (layer expandTemplate v) := by
  funext s
  rw [expandTemplate_apply]
  by_cases hs : s.limit ≤ s.depth
  · rw [guarded_of_limit_le _ hs, Nat.sub_eq_zero_of_le hs]
    rfl
  · obtain ⟨room, hroom⟩ : ∃ room, s.limit - s.depth = room + 1 :=
      ⟨s.limit - s.depth - 1, by omega⟩
    have hdeeper : s.deeper.limit - s.deeper.depth = room := by
      simp only [State.deeper]
      omega
    have hinside (x : Value) :
        expandTemplate x s.deeper = ofExcept (expand s.limit room x) s.deeper := by
      rw [expandTemplate_apply, hdeeper]
      rfl
    refine (guarded_eq_of_deeper (Nat.lt_of_not_le hs) ?_).symm
    rw [← ofExcept_deeper, hroom]
    unfold layer
    split
    next => rfl
    next => rfl
    next hunquote =>
      rw [expand.eq_4 _ _ _ _ _ _ hunquote]
      exact elements_apply (fun x _ => hinside x) _
    next hsymbol hunquote hseq =>
      rw [expand.eq_5 _ _ _ hsymbol hunquote hseq]
      rfl

end Template

namespace Watched

variable (alarm : Run Unit)

mutual

/-- Reads one form, with `k` nested calls under way. -/
def form : Nat → Nat → List Token → Run (Value × List Token)
  | 0, _, _ => .unfinished
  | fuel + 1, k, ts =>
    guarded alarm k (Reader.Descent.parts (form fuel (k + 1)) (items fuel (k + 1)) ts)

/-- Reads forms up to the bracket that closes, with `k` nested calls under way. -/
def items : Nat → Nat → Bracket → List Token → Run (List Value × List Token)
  | 0, _, _, _ => .unfinished
  | fuel + 1, k, b, ts =>
    match ts with
    | [] => .raise (.malformed .unexpectedEnd)
    | .closing c :: ts =>
      if c = b then return ([], ts) else .raise (.malformed (.mismatchedCloser c b))
    | ts => do
      let (v, ts) ← form fuel k ts
      let (vs, ts) ← items fuel k b ts
      return (v :: vs, ts)

end

/-- Reads the first form of a text. -/
def readFirst (k : Nat) (text : String) : Run Value :=
  match tokenize text with
  | [] => .raise .emptyInput
  | ts => Prod.fst <$> form alarm (2 * ts.length + 1) k ts

/-- Reads all forms of a text. -/
def readAll (k : Nat) (text : String) : Run (List Value) :=
  Reader.Descent.each (fun ts => form alarm (2 * ts.length + 1) k ts)
    ((tokenize text).length + 1) (tokenize text)

/-- Expands a template, with `k` nested calls under way. -/
def expand : Nat → Nat → Value → Run Value
  | 0, _, _ => .unfinished
  | fuel + 1, k, v => guarded alarm k (Template.layer (expand fuel (k + 1)) v)

/-- Expands a template; it takes no more levels than it is high. -/
def template (k : Nat) (v : Value) : Run Value :=
  expand alarm v.height k v

variable {alarm} {c : Counts}

theorem items_agree {fuel : Nat}
    (hform : ∀ ts, AgreeAt c (form alarm fuel c.depth ts) (Reader.Descent.form fuel ts))
    (hitems : ∀ b ts, AgreeAt c (items alarm fuel c.depth b ts) (Reader.Descent.items fuel b ts))
    (b : Bracket) (ts : List Token) :
    AgreeAt c (items alarm (fuel + 1) c.depth b ts) (Reader.Descent.items (fuel + 1) b ts) := by
  have hnext (ts : List Token) :
      AgreeAt c (form alarm fuel c.depth ts >>= fun p =>
          items alarm fuel c.depth b p.2 >>= fun q => pure (p.1 :: q.1, q.2))
        (Reader.Descent.form fuel ts >>= fun p =>
          Reader.Descent.items fuel b p.2 >>= fun q => pure (p.1 :: q.1, q.2)) :=
    (hform ts).bind fun p => (hitems b p.2).bind fun q => .pure _
  cases ts with
  | nil => exact .raise _
  | cons t ts =>
    cases t with
    | closing d =>
      rw [items, Reader.Descent.items]
      split
      · exact .pure _
      · exact .raise _
    | _ => exact hnext _

/-- Reading under watch agrees with reading by recursive descent. -/
theorem form_agree (fuel : Nat) (c : Counts) :
    (∀ ts, AgreeAt c (form alarm fuel c.depth ts) (Reader.Descent.form fuel ts)) ∧
      ∀ b ts, AgreeAt c (items alarm fuel c.depth b ts) (Reader.Descent.items fuel b ts) := by
  induction fuel generalizing c with
  | zero => exact ⟨fun _ => .unfinished, fun _ _ => .unfinished⟩
  | succ fuel ih =>
    obtain ⟨hform, hitems⟩ := ih ⟨c.depth + 1, c.limit⟩
    refine ⟨fun ts => ?_, items_agree (ih c).1 (ih c).2⟩
    rw [form, Reader.Descent.form]
    exact (Reader.Descent.parts_agree hform hitems ts).guarded

theorem readFirst_agree (c : Counts) (text : String) :
    AgreeAt c (readFirst alarm c.depth text) (readForm text) := by
  rw [← Reader.Descent.read_eq_readForm, readFirst, Reader.Descent.read]
  cases tokenize text with
  | nil => exact .raise _
  | cons t ts => exact ((form_agree _ c).1 _).map Prod.fst

theorem readAll_agree (c : Counts) (text : String) :
    AgreeAt c (readAll alarm c.depth text) (readForms text) := by
  rw [← Reader.Descent.each_eq_readForms]
  exact Reader.Descent.each_agree (fun ts => (form_agree _ c).1 ts) _ _

theorem expand_agree {fuel : Nat} {v : Value} (hv : v.height ≤ fuel) (c : Counts) :
    AgreeAt c (expand alarm fuel c.depth v) (expandTemplate v) := by
  induction fuel generalizing v c with
  | zero => exact absurd hv (Nat.not_le.mpr v.height_pos)
  | succ fuel ih =>
    rw [expand, Template.expandTemplate_eq_guarded]
    refine (Template.layer_agree fun x hx => ?_).guarded
    exact ih (Nat.le_of_lt_succ (Nat.lt_of_lt_of_le hx hv)) ⟨c.depth + 1, c.limit⟩

theorem template_agree (c : Counts) (v : Value) :
    AgreeAt c (template alarm c.depth v) (expandTemplate v) :=
  expand_agree (Nat.le_refl _) c

end Watched

end Lisp
