import Lisp.Eval.Call
import Lisp.Proofs.State.Bindings

/-!
# Parameters and arguments

A parameter list consists of symbols, of which the first `&`, if there is one, stands in front of
the last (`Written`). A call is refused if the number of arguments is wrong, before anything has
changed. Otherwise it adds one frame, in which the parameters are bound from left to right:
`binds_arguments` says which of them means what there, if a name occurs more than once, too.
-/

namespace Lisp.Params

open Run Eval

/-- The forms of a parameter list, with the names in it. -/
inductive Written : List Value → Params → Prop
  | fixed {names : List String} : restMark ∉ names → Written (names.map .symbol) ⟨names, none⟩
  | rest {names : List String} (rest : String) : restMark ∉ names →
      Written (names.map .symbol ++ [.symbol restMark, .symbol rest]) ⟨names, some rest⟩

/-- So many arguments are accepted: one for every fixed name, and more only with a rest name. -/
def Accepts (p : Params) (n : Nat) : Prop :=
  match p.rest with
  | none => n = p.fixed.length
  | some _ => p.fixed.length ≤ n

/-- What names mean inside of a call whose fixed names take the arguments `taken` and whose rest
name takes those behind, if names mean `outer` outside of it. -/
structure Means (p : Params) (taken surplus : List Value) (outer inner : String → Option Value) :
    Prop where
  rest : ∀ {name}, p.rest = some name → inner name = some (.list surplus)
  /-- A name that occurs more than once means the argument of its last occurrence. -/
  last : ∀ {name} before after, p.rest ≠ some name → p.fixed = before ++ name :: after →
    name ∉ after → ∃ v, taken[before.length]? = some v ∧ inner name = some v
  other : ∀ {name}, p.rest ≠ some name → name ∉ p.fixed → inner name = outer name

variable {p q : Params} {name : String} {v : Value} {vs forms args : List Value} {scope : Scope}
  {s : State}

/-! ### Parameter lists -/

theorem written_nil_iff : Written [] p ↔ p = ⟨[], none⟩ := by
  constructor
  · intro h
    generalize hforms : ([] : List Value) = forms at h
    cases h with
    | fixed =>
      rw [List.map_eq_nil_iff.mp hforms.symm]
    | rest =>
      simp at hforms
  · rintro rfl
    exact .fixed List.not_mem_nil

/-- The first form of a parameter list is a symbol. -/
theorem Written.head (h : Written (v :: vs) p) : ∃ name, v = .symbol name := by
  generalize hforms : v :: vs = forms at h
  cases h with
  | @fixed names =>
    cases names with
    | nil => cases hforms
    | cons name names =>
      cases hforms
      exact ⟨name, rfl⟩
  | @rest names rest =>
    cases names with
    | nil =>
      cases hforms
      exact ⟨_, rfl⟩
    | cons name names =>
      cases hforms
      exact ⟨name, rfl⟩

/-- Behind a first `&` there is the rest name and nothing else. -/
theorem written_restMark_iff :
    Written (.symbol restMark :: vs) p ↔ ∃ rest, vs = [.symbol rest] ∧ p = ⟨[], some rest⟩ := by
  constructor
  · intro h
    generalize hforms : Value.symbol restMark :: vs = forms at h
    cases h with
    | @fixed names hnames =>
      cases names with
      | nil => cases hforms
      | cons name names =>
        cases hforms
        exact absurd (.head _) hnames
    | @rest names rest hnames =>
      cases names with
      | nil =>
        cases hforms
        exact ⟨rest, rfl, rfl⟩
      | cons name names =>
        cases hforms
        exact absurd (.head _) hnames
  · rintro ⟨rest, rfl, rfl⟩
    exact .rest rest List.not_mem_nil

/-- Any other symbol is the first of the fixed names. -/
theorem written_symbol_iff (hname : name ≠ restMark) :
    Written (.symbol name :: vs) p ↔ ∃ q, Written vs q ∧ p = ⟨name :: q.fixed, q.rest⟩ := by
  constructor
  · intro h
    generalize hforms : Value.symbol name :: vs = forms at h
    cases h with
    | @fixed names hnames =>
      cases names with
      | nil => cases hforms
      | cons other names =>
        cases hforms
        exact ⟨_, .fixed (List.not_mem_of_not_mem_cons hnames), rfl⟩
    | @rest names rest hnames =>
      cases names with
      | nil =>
        cases hforms
        exact absurd rfl hname
      | cons other names =>
        cases hforms
        exact ⟨_, .rest rest (List.not_mem_of_not_mem_cons hnames), rfl⟩
  · rintro ⟨q, hq, rfl⟩
    cases hq with
    | fixed hnames => exact .fixed (List.not_mem_cons_of_ne_of_not_mem hname.symm hnames)
    | rest rest hnames => exact .rest rest (List.not_mem_cons_of_ne_of_not_mem hname.symm hnames)

theorem parseOnto_eq_ok_iff {fixed : List String} :
    parseOnto fixed forms = .ok p ↔
      ∃ q, Written forms q ∧ p = ⟨fixed.reverse ++ q.fixed, q.rest⟩ := by
  induction forms generalizing fixed with
  | nil =>
    simp only [parseOnto, written_nil_iff, exists_eq_left, List.append_nil, Except.ok.injEq]
    exact eq_comm
  | cons v vs ih =>
    unfold parseOnto
    cases hsymbol : v.symbol? with
    | none =>
      refine iff_of_false nofun ?_
      rintro ⟨q, hq, -⟩
      obtain ⟨name, rfl⟩ := hq.head
      cases hsymbol
    | some name =>
      obtain rfl : v = .symbol name := by
        cases v <;> cases hsymbol
        rfl
      by_cases hname : name = restMark
      · subst hname
        simp only [if_true, written_restMark_iff]
        constructor
        · intro h
          split at h
          next rest =>
            cases h
            exact ⟨_, ⟨rest, rfl, rfl⟩, by rw [List.append_nil]⟩
          next => cases h
          next => cases h
        · rintro ⟨_, ⟨rest, rfl, rfl⟩, rfl⟩
          simp only [List.append_nil]
      · simp only [if_neg hname, ih, written_symbol_iff hname]
        constructor
        · rintro ⟨q, hq, rfl⟩
          exact ⟨_, ⟨q, hq, rfl⟩, by simp⟩
        · rintro ⟨_, ⟨q, hq, rfl⟩, rfl⟩
          exact ⟨q, hq, by simp⟩

/-- A parameter list can be parsed exactly if it is written as one. -/
theorem parse_eq_ok_iff : parse forms = .ok p ↔ Written forms p := by
  rw [parse, parseOnto_eq_ok_iff]
  constructor
  · rintro ⟨q, hq, rfl⟩
    exact hq
  · exact fun h => ⟨p, h, rfl⟩

/-! ### Arguments -/

theorem admits_arity_iff {n : Nat} : p.arity.admits n = true ↔ p.Accepts n := by
  rw [arity, Accepts]
  cases p.rest with
  | none => exact beq_iff_eq
  | some _ => exact decide_eq_true_iff

theorem enterClosure_of_not_accepts (h : ¬ p.Accepts args.length) :
    enterClosure p scope args s = .failed (.arity "closure" p.arity args.length) s := by
  rw [enterClosure, Arity.check, if_neg (mt admits_arity_iff.mp h)]
  rfl

theorem enterClosure_of_accepts (h : p.Accepts args.length) :
    enterClosure p scope args s = .done (s.newChild scope).1
      ((s.newChild scope).2.bindAll s.frames.size (p.bindings args)) := by
  rw [enterClosure, Arity.check, if_pos (admits_arity_iff.mpr h)]
  rfl

/-- Behind the fixed names no name is bound but the rest name. -/
theorem bindings_eq (p : Params) (args : List Value) :
    ∃ bs, p.bindings args = p.fixed.zip args ++ bs ∧
      ∀ name, p.rest ≠ some name → name ∉ bs.map Prod.fst := by
  refine ⟨_, rfl, fun name hname => ?_⟩
  cases hrest : p.rest with
  | none => exact List.not_mem_nil
  | some rest =>
    intro h
    rw [hrest] at hname
    exact hname (congrArg some (List.mem_singleton.mp h).symm)

theorem notMem_zip {names : List String} (h : name ∉ names) (vs : List Value) :
    name ∉ (names.zip vs).map Prod.fst := by
  intro hmem
  obtain ⟨b, hb, rfl⟩ := List.mem_map.mp hmem
  exact h (List.of_mem_zip hb).1

/-- A fixed name is bound last to the argument at its last place, unless it is the rest name. -/
theorem exists_last_binding {before after : List String}
    (hfixed : p.fixed = before ++ name :: after) (hlength : p.fixed.length ≤ args.length)
    (hafter : name ∉ after) (hrest : p.rest ≠ some name) :
    ∃ v bs bs', args[before.length]? = some v ∧ p.bindings args = bs ++ (name, v) :: bs' ∧
      name ∉ bs'.map Prod.fst := by
  have hlt : before.length < args.length := by
    rw [hfixed, List.length_append, List.length_cons] at hlength
    omega
  obtain ⟨args₁, v, args₂, rfl, hlen⟩ : ∃ args₁ v args₂, args = args₁ ++ v :: args₂ ∧
      args₁.length = before.length :=
    ⟨args.take before.length, args[before.length], args.drop (before.length + 1), by simp,
      List.length_take_of_le (Nat.le_of_lt hlt)⟩
  obtain ⟨bs, hbindings, hbs⟩ := bindings_eq p (args₁ ++ v :: args₂)
  refine ⟨v, before.zip args₁, after.zip args₂ ++ bs, by simp [← hlen], ?_, ?_⟩
  · rw [hbindings, hfixed, List.zip_append hlen.symm, List.zip_cons_cons, List.append_assoc,
      List.cons_append]
  · rw [List.map_append, List.mem_append, not_or]
    exact ⟨notMem_zip hafter args₂, hbs name hrest⟩

/-- A name that is no parameter is not bound. -/
theorem notMem_bindings (hfixed : name ∉ p.fixed) (hrest : p.rest ≠ some name) :
    name ∉ (p.bindings args).map Prod.fst := by
  obtain ⟨bs, hbindings, hbs⟩ := bindings_eq p args
  rw [hbindings, List.map_append, List.mem_append, not_or]
  exact ⟨notMem_zip hfixed args, hbs name hrest⟩

/-- What names mean in the frame of a call. -/
theorem means_of_accepts (h : p.fixed.length ≤ args.length) (scope : Scope) (s : State) :
    p.Means (args.take p.fixed.length) (args.drop p.fixed.length) (s.lookup scope)
      (((s.newChild scope).2.bindAll s.frames.size (p.bindings args)).lookup
        (s.newChild scope).1) where
  rest {name} hname := by
    rw [bindings, hname]
    exact State.lookup_bindAll_newChild_of_last List.not_mem_nil
  last before after hrest hfixed hafter := by
    obtain ⟨v, bs, bs', hv, hbindings, hname⟩ := exists_last_binding hfixed h hafter hrest
    refine ⟨v, ?_, ?_⟩
    · rw [List.getElem?_take, if_pos, hv]
      rw [hfixed, List.length_append, List.length_cons]
      omega
    · rw [hbindings]
      exact State.lookup_bindAll_newChild_of_last hname
  other {name} hrest hfixed :=
    State.lookup_bindAll_newChild_of_notMem (notMem_bindings hfixed hrest)

/-- A parameter list can be parsed exactly if it consists of symbols of which the first `&`, if
there is one, is followed by one more. A call with another number of arguments than its parameters
accept changes nothing and fails. Any other call adds one frame and changes nothing else. In that
frame the rest name means the list of the arguments behind those of the fixed names, a fixed name
the argument of its last occurrence, and every other name what it means outside. -/
theorem binds_arguments (p : Params) (scope : Scope) (args : List Value) (s : State) :
    (∀ forms, parse forms = .ok p ↔ Written forms p) ∧
      (enterClosure p scope args s = .failed (.arity "closure" p.arity args.length) s ↔
        ¬ p.Accepts args.length) ∧
      (p.Accepts args.length → ∃ t, enterClosure p scope args s =
          .done (scope.child s.frames.size) t ∧
        t.frames.size = s.frames.size + 1 ∧
        (∀ f < s.frames.size, t.frames[f]? = s.frames[f]?) ∧
        t = { s with frames := t.frames } ∧
        ∃ taken surplus, args = taken ++ surplus ∧ taken.length = p.fixed.length ∧
          (p.rest = none → surplus = []) ∧
          p.Means taken surplus (s.lookup scope) (t.lookup (scope.child s.frames.size))) := by
  refine ⟨fun forms => parse_eq_ok_iff, ⟨fun h haccepts => ?_, enterClosure_of_not_accepts⟩,
    fun h => ?_⟩
  · rw [enterClosure_of_accepts haccepts] at h
    cases h
  · have hle : p.fixed.length ≤ args.length := by
      rw [Accepts] at h
      split at h
      · exact Nat.le_of_eq h.symm
      · exact h
    refine ⟨_, enterClosure_of_accepts h, State.size_frames_bindAll_newChild s scope _,
      fun f hf => State.getElem?_frames_bindAll_newChild hf _, ?_, args.take p.fixed.length,
      args.drop p.fixed.length, (List.take_append_drop _ _).symm, List.length_take_of_le hle,
      fun hrest => ?_, means_of_accepts hle scope s⟩
    · rw [State.bindAll_eq]
      rfl
    · rw [Accepts, hrest] at h
      rw [List.drop_eq_nil_iff]
      exact Nat.le_of_eq h

/-- A call of `(fn* (x y x & &) ...)` with three arguments: the second `x` hides the first, and
nothing is left for the list that `&` stands for. -/
theorem binds_arguments_repeated :
    let p : Params := ⟨["x", "y", "x"], some "&"⟩
    let s := (State.initial Host.plain).newGlobal.2
    p.Accepts 3 ∧ parse (["x", "y", "x", "&", "&"].map .symbol) = .ok p ∧
      ∃ t, enterClosure p (.global 0) [.int 1, .int 2, .int 3] s = .done ⟨[1], 0⟩ t ∧
        t.lookup ⟨[1], 0⟩ "x" = some (.int 3) ∧ t.lookup ⟨[1], 0⟩ "y" = some (.int 2) ∧
        t.lookup ⟨[1], 0⟩ "&" = some (.list []) := by
  intro p s
  have haccepts : p.Accepts 3 := Nat.le_refl 3
  obtain ⟨hparse, -, henter⟩ := binds_arguments p (.global 0) [.int 1, .int 2, .int 3] s
  obtain ⟨t, ht, -, -, -, taken, surplus, hargs, htaken, -, hmeans⟩ := henter haccepts
  have hsurplus : surplus = [] := by
    have hlen := congrArg List.length hargs
    rw [List.length_append, htaken] at hlen
    exact List.eq_nil_of_length_eq_zero (Nat.left_eq_add.mp hlen)
  subst hsurplus
  rw [List.append_nil] at hargs
  subst hargs
  have hwritten : Written (["x", "y", "x"].map .symbol ++ [.symbol "&", .symbol "&"]) p :=
    .rest "&" (by decide)
  refine ⟨haccepts, (hparse _).mpr hwritten, t, ht, ?_, ?_, hmeans.rest rfl⟩
  · obtain ⟨v, hv, hx⟩ := hmeans.last ["x", "y"] [] (by decide) rfl List.not_mem_nil
    cases hv
    exact hx
  · obtain ⟨v, hv, hy⟩ := hmeans.last ["x"] ["x"] (by decide) rfl (by decide)
    cases hv
    exact hy

end Lisp.Params
