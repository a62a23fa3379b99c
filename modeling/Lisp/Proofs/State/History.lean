import Lisp.Eval.Step
import Lisp.Proofs.Eval.Parameters

/-!
# Environments and their history

A name means in an environment what was defined for it last in the nearest frame that has a
definition, on the way from the environment outwards. Here this is said from the history alone,
which notes down what was done with environments and in which order, and knows nothing of frames:
`lookup_latest` says that looking a name up agrees with it at any point, and which environments can
tell that a name has been defined in one of them.
-/

namespace Lisp

open Run

/-! ### Names among frames -/

/-- On the way through `fs` the frame `f` is met before any other one that hides what is behind. -/
def Reaches (hides : FrameId → Prop) (fs : List FrameId) (f : FrameId) : Prop :=
  ∃ nearer farther, fs = nearer ++ f :: farther ∧ ∀ g ∈ nearer, ¬ hides g

section Reaches

variable {hides hides' : FrameId → Prop} {f g : FrameId} {fs : List FrameId}

theorem Reaches.head : Reaches hides (f :: fs) f :=
  ⟨[], fs, rfl, nofun⟩

theorem Reaches.tail (hg : ¬ hides g) (h : Reaches hides fs f) : Reaches hides (g :: fs) f := by
  obtain ⟨nearer, farther, rfl, hnearer⟩ := h
  exact ⟨g :: nearer, farther, rfl, List.forall_mem_cons.mpr ⟨hg, hnearer⟩⟩

theorem reaches_cons_iff :
    Reaches hides (g :: fs) f ↔ g = f ∨ ¬ hides g ∧ Reaches hides fs f := by
  constructor
  · rintro ⟨nearer, farther, heq, hnearer⟩
    cases nearer with
    | nil =>
      cases heq
      exact .inl rfl
    | cons g' nearer =>
      cases heq
      obtain ⟨hg, hnearer⟩ := List.forall_mem_cons.mp hnearer
      exact .inr ⟨hg, nearer, farther, rfl, hnearer⟩
  · rintro (rfl | ⟨hg, h⟩)
    · exact .head
    · exact h.tail hg

theorem reaches_congr (h : ∀ g, hides g ↔ hides' g) :
    Reaches hides fs f ↔ Reaches hides' fs f := by
  simp only [Reaches, h]

end Reaches

namespace State

variable {s : State} {f g : FrameId} {fs : List FrameId} {name other : String} {v : Value}

/-- The frame binds the name. -/
abbrev Binds (s : State) (name : String) (f : FrameId) : Prop :=
  ∃ v, s.binding? f name = some v

theorem not_binds_iff : ¬ s.Binds name f ↔ s.binding? f name = none := by
  rw [Option.eq_none_iff_forall_ne_some, not_exists]

theorem firstBinding?_eq_some_iff :
    s.firstBinding? name fs = some v ↔
      ∃ f, Reaches (s.Binds name) fs f ∧ s.binding? f name = some v := by
  induction fs with
  | nil =>
    refine iff_of_false nofun ?_
    rintro ⟨f, ⟨nearer, farther, heq, -⟩, -⟩
    cases nearer <;> cases heq
  | cons g fs ih =>
    rw [firstBinding?]
    cases hg : s.binding? g name with
    | some w =>
      refine ⟨fun h => ⟨g, .head, hg.trans h⟩, ?_⟩
      rintro ⟨f, hf, hv⟩
      rcases reaches_cons_iff.mp hf with rfl | ⟨hfree, -⟩
      · exact hg.symm.trans hv
      · exact absurd ⟨w, hg⟩ hfree
    | none =>
      have hfree : ¬ s.Binds name g := not_binds_iff.mpr hg
      rw [ih]
      constructor
      · rintro ⟨f, hf, hv⟩
        exact ⟨f, hf.tail hfree, hv⟩
      · rintro ⟨f, hf, hv⟩
        rcases reaches_cons_iff.mp hf with rfl | ⟨-, hf⟩
        · cases hg.symm.trans hv
        · exact ⟨f, hf, hv⟩

theorem firstBinding?_eq_none_iff :
    s.firstBinding? name fs = none ↔ ∀ f ∈ fs, ¬ s.Binds name f := by
  induction fs with
  | nil => exact iff_of_true rfl (List.forall_mem_nil _)
  | cons g fs ih =>
    rw [List.forall_mem_cons, ← ih, firstBinding?, not_binds_iff]
    cases s.binding? g name with
    | some w => exact iff_of_false (Option.some_ne_none w) fun h => Option.some_ne_none w h.1
    | none => exact (and_iff_right rfl).symm

/-- A binding shows where its frame is met before any other that binds the name. -/
theorem firstBinding?_bind_of_reaches (hf : f < s.frames.size)
    (h : Reaches (s.Binds name) fs f) (v : Value) :
    (s.bind f name v).firstBinding? name fs = some v := by
  induction fs with
  | nil =>
    obtain ⟨nearer, farther, heq, -⟩ := h
    cases nearer <;> cases heq
  | cons g fs ih =>
    rw [firstBinding?]
    by_cases hg : g = f
    · subst hg
      rw [binding?_bind_self hf]
    · obtain ⟨hfree, h⟩ := (reaches_cons_iff.mp h).resolve_left hg
      rw [binding?_bind_of_ne (.inl hg), not_binds_iff.mp hfree]
      exact ih h

/-- A binding shows nowhere else, and under no other name. -/
theorem firstBinding?_bind_of_not (h : ¬ (other = name ∧ Reaches (s.Binds name) fs f)) (v : Value) :
    (s.bind f name v).firstBinding? other fs = s.firstBinding? other fs := by
  induction fs with
  | nil => rfl
  | cons g fs ih =>
    have hne : g ≠ f ∨ other ≠ name := by
      by_contra heq
      push Not at heq
      obtain ⟨rfl, rfl⟩ := heq
      exact h ⟨rfl, .head⟩
    rw [firstBinding?, firstBinding?, binding?_bind_of_ne hne]
    cases hg : s.binding? g other with
    | some w => rfl
    | none =>
      refine ih fun hreach => h ⟨hreach.1, ?_⟩
      rw [hreach.1] at hg
      exact hreach.2.tail (not_binds_iff.mpr hg)

end State

/-! ### Environments -/

/-- Environments, numbered in the order in which they were made, and the state that has their
frames. -/
structure Environments where
  state : State
  scopes : List Scope

namespace Environments

/-- What is done with environments, which are given by their numbers. -/
inductive Operation
  | newRoot
  | newChild (e : Nat)
  | define (e : Nat) (name : String) (v : Value)
  /-- Makes an environment inside of `e` that binds parameters to arguments. -/
  | bind (e : Nat) (params : Params) (args : List Value)

/-- One more environment, unless it cannot be made. -/
def add (E : Environments) (x : Run Scope) : Environments :=
  match x E.state with
  | .done c s => ⟨s, E.scopes ++ [c]⟩
  | .failed _ s => { E with state := s }
  | .unfinished => E

/-- The environments after an operation. Nothing is done with one that there is not. -/
def perform (E : Environments) : Operation → Environments
  | .newRoot => E.add (.modify (·.newGlobal))
  | .newChild e =>
    match E.scopes[e]? with
    | some c => E.add (.modify (·.newChild c))
    | none => E
  | .define e name v =>
    match E.scopes[e]? with
    | some c => { E with state := E.state.define c name v }
    | none => E
  | .bind e params args =>
    match E.scopes[e]? with
    | some c => E.add (Eval.enterClosure params c args)
    | none => E

/-- The environments after operations that begin where there are none. -/
def after (host : Host) (ops : List Operation) : Environments :=
  ops.foldl perform ⟨.initial host, []⟩

/-! ### Histories -/

/-- What was done with environments. -/
structure History where
  /-- The environment that each one was made inside of, if it is no root. -/
  parents : List (Option Nat)
  /-- The names and values that were defined, with the environments to which the definitions went.
  The latest come first. -/
  definitions : List (Nat × String × Value)

namespace History

/-- Notes an operation down. Binding parameters makes an environment and then defines one name
after the other, if so many arguments are accepted. -/
def record (h : History) : Operation → History
  | .newRoot => { h with parents := h.parents ++ [none] }
  | .newChild e =>
    if e < h.parents.length then { h with parents := h.parents ++ [some e] } else h
  | .define e name v =>
    if e < h.parents.length then { h with definitions := (e, name, v) :: h.definitions } else h
  | .bind e params args =>
    if e < h.parents.length ∧ params.arity.admits args.length then
      ⟨h.parents ++ [some e],
        ((params.bindings args).map (h.parents.length, ·)).reverse ++ h.definitions⟩
    else h

/-- The history of operations that begin where there are no environments. -/
def ofOperations (ops : List Operation) : History :=
  ops.foldl record ⟨[], []⟩

/-- The name was defined in the environment at some time. -/
def Defines (h : History) (name : String) (e : Nat) : Prop :=
  ∃ v, (e, name, v) ∈ h.definitions

/-- What was defined last for a name in an environment. -/
def latest? (h : History) (e : Nat) (name : String) : Option Value :=
  (h.definitions.find? fun d => d.1 = e ∧ d.2.1 = name).map (·.2.2)

/-- The environments on the way from `e` outwards. -/
inductive Chain (h : History) : Nat → List Nat → Prop
  | root {e : Nat} : h.parents[e]? = some none → Chain h e [e]
  | child {e p : Nat} {es : List Nat} :
      h.parents[e]? = some (some p) → Chain h p es → Chain h e (e :: es)

variable {h h' : History} {e f : Nat} {es : List Nat} {name other : String} {v : Value}
  {ps : List (Option Nat)} {ds : List (Nat × String × Value)}

theorem latest?_eq_none_iff : h.latest? e name = none ↔ ¬ h.Defines name e := by
  rw [latest?, Option.map_eq_none_iff, List.find?_eq_none]
  constructor
  · rintro hnone ⟨v, hv⟩
    exact hnone _ hv (decide_eq_true ⟨rfl, rfl⟩)
  · rintro hnone ⟨e', name', v⟩ hv heq
    obtain ⟨rfl, rfl⟩ := of_decide_eq_true heq
    exact hnone ⟨v, hv⟩

theorem latest?_cons_self :
    latest? ⟨ps, (e, name, v) :: ds⟩ e name = some v := by
  simp [latest?]

theorem latest?_cons_of_ne (hne : e ≠ f ∨ other ≠ name) :
    latest? ⟨ps, (f, name, v) :: ds⟩ e other = latest? ⟨ps, ds⟩ e other := by
  have hno : ¬ (f = e ∧ name = other) := by
    rintro ⟨rfl, rfl⟩
    simp at hne
  simp [latest?, hno]

/-- What an environment was made inside of stays as it is. -/
theorem Chain.mono (hparents : h'.parents = h.parents ++ ps) (hc : h.Chain e es) :
    h'.Chain e es := by
  have hkept {e : Nat} {p? : Option Nat} (he : h.parents[e]? = some p?) :
      h'.parents[e]? = some p? := by
    rw [hparents, List.getElem?_append_left (List.getElem?_eq_some_iff.mp he).1, he]
  induction hc with
  | root he => exact .root (hkept he)
  | child he _ ih => exact .child (hkept he) ih

theorem Chain.head (hc : h.Chain e es) : es.head? = some e := by
  cases hc <;> rfl

theorem Chain.unique {es' : List Nat} (hc : h.Chain e es) (hc' : h.Chain e es') : es = es' := by
  induction hc generalizing es' with
  | root he =>
    cases hc' with
    | root => rfl
    | child he' => cases he.symm.trans he'
  | child he _ ih =>
    cases hc' with
    | root he' => cases he.symm.trans he'
    | child he' hc' =>
      cases he.symm.trans he'
      rw [ih hc']

end History

/-! ### What the frames of environments bind -/

/-- The environments are those that the history tells of. The frame of each one has the number that
it has, and binds what was defined last in it. -/
structure Tracks (E : Environments) (h : History) : Prop where
  size_eq : E.state.frames.size = h.parents.length
  length_eq : E.scopes.length = h.parents.length
  chain : ∀ {e c}, E.scopes[e]? = some c → h.Chain e c.frames
  binding?_eq : ∀ f name, E.state.binding? f name = h.latest? f name

namespace Tracks

variable {E : Environments} {h : History} {e f : Nat} {c : Scope} {cs : List Scope} {s : State}
  {ps : List (Option Nat)} {ds : List (Nat × String × Value)} {name : String} {v : Value}

theorem start (host : Host) : Tracks ⟨.initial host, []⟩ ⟨[], []⟩ where
  size_eq := rfl
  length_eq := rfl
  chain := nofun
  binding?_eq _ _ := rfl

theorem frame_eq (ht : Tracks E h) (hc : E.scopes[e]? = some c) : c.frame = e := by
  have hhead := (ht.chain hc).head
  have hframe : c.frames.head? = some c.frame := by
    obtain ⟨inner, root⟩ := c
    cases inner <;> rfl
  exact Option.some.inj (hframe.symm.trans hhead)

theorem lt_length (ht : Tracks E h) (hc : E.scopes[e]? = some c) : e < h.parents.length :=
  ht.length_eq ▸ (List.getElem?_eq_some_iff.mp hc).1

/-- A new frame, with the scope that begins with it. -/
theorem newFrame (ht : Tracks ⟨s, cs⟩ ⟨ps, ds⟩) {p? : Option Nat}
    (hc : History.Chain ⟨ps ++ [p?], ds⟩ ps.length c.frames) :
    Tracks ⟨s.newFrame.2, cs ++ [c]⟩ ⟨ps ++ [p?], ds⟩ where
  size_eq := by
    have hsize : s.frames.size = ps.length := ht.size_eq
    simp [State.newFrame, hsize]
  length_eq := by
    have hlength : cs.length = ps.length := ht.length_eq
    simp [hlength]
  chain {e c'} he := by
    have hlength : cs.length = ps.length := ht.length_eq
    rw [List.getElem?_append] at he
    split at he
    · exact (ht.chain he).mono rfl
    next hle =>
      have hlt : e - cs.length < 1 := (List.getElem?_eq_some_iff.mp he).1
      have he' : e = ps.length := by omega
      rw [he', hlength, Nat.sub_self] at he
      cases he
      exact he' ▸ hc
  binding?_eq f name := (s.binding?_newFrame f name).trans (ht.binding?_eq f name)

/-- One more definition in the environment with this frame. -/
theorem bind (ht : Tracks ⟨s, cs⟩ ⟨ps, ds⟩) (hf : f < ps.length) (name : String) (v : Value) :
    Tracks ⟨s.bind f name v, cs⟩ ⟨ps, (f, name, v) :: ds⟩ where
  size_eq := (s.size_frames_bind f name v).trans ht.size_eq
  length_eq := ht.length_eq
  chain hc := by
    have hparents : ps = ps ++ [] := (List.append_nil ps).symm
    exact (ht.chain hc).mono hparents
  binding?_eq g other := by
    have hsize : f < s.frames.size := by
      rw [show s.frames.size = ps.length from ht.size_eq]
      exact hf
    by_cases hg : g ≠ f ∨ other ≠ name
    · rw [History.latest?_cons_of_ne hg]
      exact (State.binding?_bind_of_ne hg v).trans (ht.binding?_eq g other)
    · push Not at hg
      obtain ⟨rfl, rfl⟩ := hg
      rw [History.latest?_cons_self]
      exact State.binding?_bind_self hsize other v

theorem bindAll (ht : Tracks ⟨s, cs⟩ ⟨ps, ds⟩) (hf : f < ps.length)
    (bindings : List (String × Value)) :
    Tracks ⟨s.bindAll f bindings, cs⟩ ⟨ps, (bindings.map (f, ·)).reverse ++ ds⟩ := by
  induction bindings generalizing s ds with
  | nil => exact ht
  | cons b bindings ih =>
    rw [List.map_cons, List.reverse_cons, List.append_assoc]
    exact ih (ht.bind hf b.1 b.2)

/-- A frame inside of a scope, with the scope that begins with it. -/
theorem newChild (ht : Tracks ⟨s, cs⟩ ⟨ps, ds⟩) (hc : cs[e]? = some c) :
    Tracks ⟨(s.newChild c).2, cs ++ [(s.newChild c).1]⟩ ⟨ps ++ [some e], ds⟩ := by
  have hsize : s.frames.size = ps.length := ht.size_eq
  refine ht.newFrame ?_
  change History.Chain _ _ (s.frames.size :: c.frames)
  rw [hsize]
  exact .child List.getElem?_concat_length ((ht.chain hc).mono rfl)

theorem not_lt_length (ht : Tracks E h) (hc : E.scopes[e]? = none) : ¬ e < h.parents.length :=
  Nat.not_lt.mpr (ht.length_eq ▸ List.getElem?_eq_none_iff.mp hc)

/-- Every operation makes of the environments what is noted down in the history. -/
theorem perform (ht : Tracks E h) (op : Operation) : Tracks (E.perform op) (h.record op) := by
  obtain ⟨s, cs⟩ := E
  obtain ⟨ps, ds⟩ := h
  have hsize : s.frames.size = ps.length := ht.size_eq
  cases op with
  | newRoot =>
    refine ht.newFrame ?_
    change History.Chain _ _ [s.frames.size]
    rw [hsize]
    exact .root List.getElem?_concat_length
  | newChild e =>
    rw [Environments.perform, History.record]
    cases hc : cs[e]? with
    | some c =>
      rw [if_pos (ht.lt_length hc)]
      exact ht.newChild hc
    | none =>
      rw [if_neg (ht.not_lt_length hc)]
      exact ht
  | define e name v =>
    rw [Environments.perform, History.record]
    cases hc : cs[e]? with
    | some c =>
      rw [if_pos (ht.lt_length hc)]
      change Tracks ⟨s.bind c.frame name v, cs⟩ _
      rw [ht.frame_eq hc]
      exact ht.bind (ht.lt_length hc) name v
    | none =>
      rw [if_neg (ht.not_lt_length hc)]
      exact ht
  | bind e params args =>
    rw [Environments.perform, History.record]
    cases hc : cs[e]? with
    | some c =>
      have hlt : e < ps.length := ht.lt_length hc
      by_cases hadmits : params.arity.admits args.length
      · have henter : Eval.enterClosure params c args s = _ :=
          Params.enterClosure_of_accepts (Params.admits_arity_iff.mp hadmits)
        simp only [add, henter, if_pos (And.intro hlt hadmits), hsize]
        exact (ht.newChild hc).bindAll (by simp) _
      · have henter : Eval.enterClosure params c args s = _ :=
          Params.enterClosure_of_not_accepts (mt Params.admits_arity_iff.mpr hadmits)
        rw [if_neg fun h => hadmits h.2]
        simp only [add, henter]
        exact ht
    | none =>
      rw [if_neg fun h => ht.not_lt_length hc h.1]
      exact ht

theorem after (host : Host) (ops : List Operation) :
    Tracks (Environments.after host ops) (.ofOperations ops) := by
  have hfold (E : Environments) (h : History) (ht : Tracks E h) :
      Tracks (ops.foldl Environments.perform E) (ops.foldl History.record h) := by
    induction ops generalizing E h with
    | nil => exact ht
    | cons op ops ih => exact ih _ _ (ht.perform op)
  exact hfold _ _ (start host)

theorem binds_iff (ht : Tracks E h) (name : String) (f : FrameId) :
    E.state.Binds name f ↔ h.Defines name f := by
  rw [← not_iff_not, State.not_binds_iff, ht.binding?_eq, History.latest?_eq_none_iff]

theorem lookup_eq_some_iff (ht : Tracks E h) (c : Scope) (name : String) (v : Value) :
    E.state.lookup c name = some v ↔
      ∃ f, Reaches (h.Defines name) c.frames f ∧ h.latest? f name = some v := by
  simp only [← State.firstBinding?_frames, State.firstBinding?_eq_some_iff, ht.binding?_eq,
    reaches_congr (ht.binds_iff name)]

theorem lookup_eq_none_iff (ht : Tracks E h) (c : Scope) (name : String) :
    E.state.lookup c name = none ↔ ∀ f ∈ c.frames, ¬ h.Defines name f := by
  simp only [← State.firstBinding?_frames, State.firstBinding?_eq_none_iff, ht.binds_iff]

/-- A definition goes to the frame that has the number of the environment. -/
theorem perform_define (ht : Tracks E h) (hf : f < E.scopes.length) (name : String) (v : Value) :
    E.perform (.define f name v) = ⟨E.state.bind f name v, E.scopes⟩ := by
  have hc : E.scopes[f]? = some E.scopes[f] := List.getElem?_eq_getElem hf
  rw [Environments.perform, hc]
  simp only [State.define, ht.frame_eq hc]

theorem lookup_define_of_reaches (ht : Tracks E h) (hf : f < E.scopes.length)
    (hreach : Reaches (h.Defines name) c.frames f) (v : Value) :
    (E.perform (.define f name v)).state.lookup c name = some v := by
  have hsize : f < E.state.frames.size := by
    rwa [ht.size_eq, ← ht.length_eq]
  rw [ht.perform_define hf, ← State.firstBinding?_frames]
  exact State.firstBinding?_bind_of_reaches hsize
    ((reaches_congr (ht.binds_iff name)).mpr hreach) v

theorem lookup_define_of_not (ht : Tracks E h) (hf : f < E.scopes.length) {other : String}
    (hnot : ¬ (other = name ∧ Reaches (h.Defines name) c.frames f)) (v : Value) :
    (E.perform (.define f name v)).state.lookup c other = E.state.lookup c other := by
  rw [ht.perform_define hf, ← State.firstBinding?_frames, ← State.firstBinding?_frames]
  refine State.firstBinding?_bind_of_not ?_ v
  rwa [reaches_congr (ht.binds_iff name)]

end Tracks

/-- After any operations with environments a name means in each of them what was defined last in
the first environment, on the way from it outwards, in which the name was ever defined, and nothing
if there is no such environment. A definition changes what a name means only if it is of that name,
and only in environments from which it is reached before any other of that name; there it is what
the name means from then on. That goes for an environment whose parent is given a definition after
it was made. -/
theorem lookup_latest (host : Host) (ops : List Operation) :
    let E := after host ops
    let h := History.ofOperations ops
    E.scopes.length = h.parents.length ∧
    ∀ e c, E.scopes[e]? = some c → ∃ es, h.Chain e es ∧
      (∀ name v, E.state.lookup c name = some v ↔
        ∃ f, Reaches (h.Defines name) es f ∧ h.latest? f name = some v) ∧
      (∀ name, E.state.lookup c name = none ↔ ∀ f ∈ es, ¬ h.Defines name f) ∧
      (∀ nested name, Eval.evalPlain nested (.symbol name) c E.state =
        match E.state.lookup c name with
        | some v => .done v E.state
        | none => .failed (.notFound name) E.state) ∧
      (∀ f name v, f < E.scopes.length →
        (E.perform (.define f name v)).scopes = E.scopes ∧
        (∀ other, (E.perform (.define f name v)).state.lookup c other ≠ E.state.lookup c other →
          other = name ∧ Reaches (h.Defines name) es f) ∧
        (Reaches (h.Defines name) es f →
          (E.perform (.define f name v)).state.lookup c name = some v)) ∧
      ∀ p name v, h.parents[e]? = some (some p) → ¬ h.Defines name e →
        (E.perform (.define p name v)).state.lookup c name = some v := by
  intro E h
  have ht : Tracks E h := .after host ops
  refine ⟨ht.length_eq, fun e c hc => ⟨c.frames, ht.chain hc, ht.lookup_eq_some_iff c,
    ht.lookup_eq_none_iff c, fun nested name => ?_, fun f name v hf => ⟨?_, fun other hne => ?_,
    fun hreach => ht.lookup_define_of_reaches hf hreach v⟩, fun p name v hp hfree => ?_⟩⟩
  · rw [Eval.evalPlain, bind_apply, inspect_apply]
    cases hv : E.state.lookup c name <;> rfl
  · rw [ht.perform_define hf]
  · by_contra hnot
    exact hne (ht.lookup_define_of_not hf hnot v)
  · have hchain := ht.chain hc
    generalize hes : c.frames = es at hchain
    cases hchain with
    | root he => cases hp.symm.trans he
    | @child _ p' es he hchain =>
      cases hp.symm.trans he
      have hlt : p < E.scopes.length := by
        rw [ht.length_eq]
        cases hchain with
        | root hp' | child hp' => exact (List.getElem?_eq_some_iff.mp hp').1
      refine ht.lookup_define_of_reaches hlt (c := c) ?_ v
      rw [hes]
      refine .tail hfree ?_
      cases hchain <;> exact .head

/-- Three environments inside of one another: a definition in the outermost one is hidden from the
innermost one by that in the middle, where a later one shows. -/
theorem lookup_latest_hidden :
    let ops : List Operation := [.newRoot, .newChild 0, .define 1 "a" (.int 1), .newChild 1,
      .define 0 "a" (.int 2), .define 0 "b" (.int 3)]
    let E := after Host.plain ops
    let h := History.ofOperations ops
    let c : Scope := ⟨[2, 1], 0⟩
    (E.scopes[2]? = some c ∧ 1 < E.scopes.length ∧ Reaches (h.Defines "a") [2, 1, 0] 1 ∧
      h.parents[2]? = some (some 1) ∧ ¬ h.Defines "b" 2) ∧
      E.state.lookup c "a" = some (.int 1) ∧ E.state.lookup c "b" = some (.int 3) ∧
        E.state.lookup c "c" = none ∧
          (E.perform (.define 1 "a" (.int 4))).state.lookup c "a" = some (.int 4) ∧
            (E.perform (.define 1 "b" (.int 5))).state.lookup c "b" = some (.int 5) ∧
              (E.perform (.define 0 "a" (.int 6))).state.lookup c "a" = some (.int 1) := by
  intro ops E h c
  have hc : E.scopes[2]? = some c := rfl
  have hp : h.parents[2]? = some (some 1) := rfl
  have hlength : E.scopes.length = 3 := rfl
  have hdefines (name : String) (f : Nat) : h.Defines name f ↔
      f = 0 ∧ name = "b" ∨ f = 0 ∧ name = "a" ∨ f = 1 ∧ name = "a" := by
    simp [History.Defines, h, ops, History.ofOperations, History.record, exists_or]
  obtain ⟨-, hlookup⟩ := lookup_latest Host.plain ops
  obtain ⟨es, hchain, hsome, hnone, -, hdefine, hparent⟩ := hlookup 2 c hc
  obtain rfl : es = [2, 1, 0] := hchain.unique (.child hp (.child rfl (.root rfl)))
  have ha : Reaches (h.Defines "a") [2, 1, 0] 1 := ⟨[2], [0], rfl, by simp [hdefines]⟩
  have hb : Reaches (h.Defines "b") [2, 1, 0] 0 := ⟨[2, 1], [], rfl, by simp [hdefines]⟩
  have hfree : ¬ h.Defines "b" 2 := by simp [hdefines]
  have hone : E.state.lookup c "a" = some (.int 1) := (hsome _ _).mpr ⟨1, ha, rfl⟩
  have hnothing : E.state.lookup c "c" = none :=
    (hnone "c").mpr fun f _ hf => by simpa using (hdefines "c" f).mp hf
  have hlt {f : Nat} (hf : f < 3) : f < E.scopes.length := hlength ▸ hf
  refine ⟨⟨hc, hlt (by decide), ha, hp, hfree⟩, hone, (hsome _ _).mpr ⟨0, hb, rfl⟩, hnothing,
    (hdefine 1 "a" (.int 4) (hlt (by decide))).2.2 ha, hparent 1 "b" (.int 5) hp hfree, ?_⟩
  rw [← hone]
  by_contra hne
  have hreach : Reaches (h.Defines "a") [2, 1, 0] 0 :=
    ((hdefine 0 "a" (.int 6) (hlt (by decide))).2.1 "a" hne).2
  simp [reaches_cons_iff, hdefines] at hreach

end Environments

end Lisp
