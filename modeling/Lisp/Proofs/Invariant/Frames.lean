import Mathlib.Logic.Relation
import Lisp.Proofs.Invariant.Captures
import Lisp.Proofs.Invariant.Session
import Lisp.Proofs.Session.Start

/-!
# Frames that evaluation changes

Evaluating a form binds names in the innermost frame of its scope, in the global frame and in frames
that it adds itself. `frames_kept` says so for every form, function and operation of a session: all
other frames stay exactly as they are, so the frames that closures captured never change again once
the form that made them has been evaluated.

A scope lists its frames from the innermost one to the global one, so the parent of a frame is the
one behind it in a scope. Frames that are added come in front of frames that there were before,
whose parents therefore stay what they were.
-/

namespace Lisp

open Run

namespace Scope

/-- The frame `p` is the parent of `f` in a scope. -/
def Parent (c : Scope) (f p : FrameId) : Prop :=
  [f, p] <:+: c.frames

theorem not_parent_outermost (c : Scope) (f p : FrameId) : ¬ c.outermost.Parent f p := by
  intro h
  have hlen : 2 ≤ 1 := h.length_le
  omega

/-- A frame that is added inside a scope is the only one to get a parent. -/
theorem Parent.of_child {c : Scope} {g f p : FrameId} (h : (c.child g).Parent f p) :
    f = g ∨ c.Parent f p := by
  rcases List.infix_cons_iff.mp h with h | h
  · exact .inl (List.cons_prefix_cons.mp h).1
  · exact .inr h

end Scope

/-- From `s` to `t` frames may have been added, and among the frames that there were only those in
`own` have changed. There no name has lost its binding. -/
structure State.ChangesOnly (own : List FrameId) (s t : State) : Prop where
  size_le : s.frames.size ≤ t.frames.size
  kept : ∀ f < s.frames.size, f ∉ own → t.frames[f]? = s.frames[f]?
  bound : ∀ f name, (s.binding? f name).isSome → (t.binding? f name).isSome

namespace State.ChangesOnly

variable {own : List FrameId} {s t u : State}

theorem refl (s : State) : s.ChangesOnly own s :=
  ⟨Nat.le_refl _, fun _ _ _ => rfl, fun _ _ h => h⟩

theorem trans (h : s.ChangesOnly own t) (h' : t.ChangesOnly own u) : s.ChangesOnly own u where
  size_le := Nat.le_trans h.size_le h'.size_le
  kept f hf hown := (h'.kept f (Nat.lt_of_lt_of_le hf h.size_le) hown).trans (h.kept f hf hown)
  bound f name hname := h'.bound f name (h.bound f name hname)

theorem newFrame (h : s.ChangesOnly own t) : s.ChangesOnly own t.newFrame.2 where
  size_le := by
    rw [size_frames_newFrame]
    exact Nat.le_succ_of_le h.size_le
  kept f hf hown := by
    have hne : f ≠ t.frames.size := Nat.ne_of_lt (Nat.lt_of_lt_of_le hf h.size_le)
    rw [State.newFrame, Array.getElem?_push, if_neg hne]
    exact h.kept f hf hown
  bound f name hname := by
    rw [binding?_newFrame]
    exact h.bound f name hname

/-- A name may be bound in a frame that may change, and in one that was added. -/
theorem bind (h : s.ChangesOnly own t) {g : FrameId} (hg : g ∈ own ∨ s.frames.size ≤ g)
    (name : String) (v : Value) : s.ChangesOnly own (t.bind g name v) where
  size_le := by
    rw [size_frames_bind]
    exact h.size_le
  kept f hf hown := by
    have hne : g ≠ f := by
      rintro rfl
      rcases hg with hg | hg
      · exact hown hg
      · exact Nat.not_lt.mpr hg hf
    rw [State.bind, Array.getElem?_modify, if_neg hne]
    exact h.kept f hf hown
  bound f other hother := by
    by_cases hne : f ≠ g ∨ other ≠ name
    · rw [binding?_bind_of_ne hne]
      exact h.bound f other hother
    · push Not at hne
      obtain ⟨rfl, rfl⟩ := hne
      by_cases hf : f < t.frames.size
      · rw [binding?_bind_self hf]
        rfl
      · have hbinding := h.bound f other hother
        rw [binding?, Array.getElem?_eq_none (Nat.not_lt.mp hf)] at hbinding
        cases hbinding

end State.ChangesOnly

/-! ### The invariants -/

/-- Every closure has the global frame `root`. -/
def rooted (root : FrameId) : Invariant where
  entries _ := True
  captured _ c := c.root = root
  entered _ c := c.root = root
  frames _ := True

theorem lawful_rooted (root : FrameId) : (rooted root).Lawful where
  shape _ := ⟨trivial, fun _ _ _ => trivial, fun _ _ => trivial⟩
  captured_mono _ h := h
  entered_mono _ h := h
  captured_of_entered h := h
  entered_outermost h := h
  entered_child _ h := h
  frames_push _ := trivial
  frames_modify _ _ := trivial

/-- Every frame of the scope of a closure exists. -/
def existing : Invariant where
  entries _ := True
  captured n c := ∀ f ∈ c.frames, f < n
  entered n c := ∀ f ∈ c.frames, f < n
  frames _ := True

theorem lawful_existing : existing.Lawful where
  shape _ := ⟨trivial, fun _ _ _ => trivial, fun _ _ => trivial⟩
  captured_mono hnm h f hf := Nat.lt_of_lt_of_le (h f hf) hnm
  entered_mono hnm h f hf := Nat.lt_of_lt_of_le (h f hf) hnm
  captured_of_entered h := h
  entered_outermost h f hf := h f (List.mem_append_right _ hf)
  entered_child _ h := List.forall_mem_cons.mpr
    ⟨Nat.lt_succ_self _, fun f hf => Nat.lt_succ_of_lt (h f hf)⟩
  frames_push _ := trivial
  frames_modify _ _ := trivial

/-- What holds while forms are evaluated behind the state `s`. Bindings go to the frames in `own`
and to frames that have been added; `root` is the global frame, and the frames that there were in
`s` have the parents that they have in the scopes in `known`. -/
def confined (s : State) (own : List FrameId) (root : FrameId) (known : Scope → Prop) :
    Invariant where
  entries _ := True
  captured _ c := c.root = root ∧
    ∀ f p, c.Parent f p → f < s.frames.size → ∃ c', known c' ∧ c'.Parent f p
  entered _ c := (c.root = root ∧
    ∀ f p, c.Parent f p → f < s.frames.size → ∃ c', known c' ∧ c'.Parent f p) ∧
    (c.frame ∈ own ∨ s.frames.size ≤ c.frame)
  frames fs := s.ChangesOnly own { s with frames := fs }

theorem lawful_confined (s : State) {own : List FrameId} {root : FrameId} (hroot : root ∈ own)
    (known : Scope → Prop) : (confined s own root known).Lawful where
  shape _ := ⟨trivial, fun _ _ _ => trivial, fun _ _ => trivial⟩
  captured_mono _ h := h
  entered_mono _ h := h
  captured_of_entered h := h.1
  entered_outermost := by
    rintro _ c ⟨⟨rfl, -⟩, -⟩
    exact ⟨⟨rfl, fun f p h _ => absurd h (c.not_parent_outermost f p)⟩, .inl hroot⟩
  entered_child := by
    rintro fs c hfs ⟨hc, hparent⟩
    refine ⟨⟨hc, fun f p h hf => ?_⟩, .inr hfs.size_le⟩
    rcases h.of_child with rfl | h
    · exact absurd hf (Nat.not_lt.mpr hfs.size_le)
    · exact hparent f p h hf
  frames_push h := h.newFrame
  frames_modify h hc := h.bind hc.2 _ _

/-! ### Evaluation -/

/-- What a run may do to the frames of `s`: only those in `own` change, and the frames that there
were have the parents that they have in the scopes in `known`. -/
structure Outcome.KeepsFrames (o : Outcome Value) (s : State) (own : List FrameId)
    (known : Scope → Prop) : Prop where
  changesOnly : ∀ t, o.Leaves t → s.ChangesOnly own t
  parents : ∀ c, o.Captures c → ∀ f p, c.Parent f p → f < s.frames.size →
    ∃ c', known c' ∧ c'.Parent f p

section Evaluation

variable {s : State} {own : List FrameId} {root : FrameId} {known : Scope → Prop}
  (hroot : ∀ c, known c → c.root = root)
include hroot

theorem confined_captured (n : Nat) {c : Scope} (hc : known c) :
    (confined s own root known).captured n c :=
  ⟨hroot c hc, fun _ _ h _ => ⟨c, hc, h⟩⟩

theorem confined_value (n : Nat) {v : Value} (hv : ∀ c, v.Captures c → known c) :
    (confined s own root known).Value n v :=
  fits_of_captures (fun _ => trivial) fun c hc => confined_captured hroot n (hv c hc)

/-- The invariant holds to begin with. -/
theorem confined_holds (hknown : ∀ c, s.Captures c → known c) :
    (confined s own root known).Holds s where
  frames := .refl s
  bindings hv := confined_value hroot _ fun c hc => hknown c (.inl ⟨_, _, _, hv, hc⟩)
  cells v hv := confined_value hroot _ fun c hc => hknown c (.inr ⟨v, hv, hc⟩)

omit hroot in
theorem Outcome.Keeps.changesOnly {α : Type} {n : Nat} {Q : Nat → α → Prop} {o : Outcome α}
    (ho : o.Keeps (confined s own root known) n Q) {t : State} (ht : o.Leaves t) :
    s.ChangesOnly own t := by
  have hframes := (ho.leaves ht).2.frames
  exact ⟨hframes.size_le, hframes.kept, hframes.bound⟩

omit hroot in
theorem Outcome.Keeps.keepsFrames {n : Nat} {o : Outcome Value}
    (ho : o.Keeps (confined s own root known) n (confined s own root known).Value) :
    o.KeepsFrames s own known := by
  constructor
  · intro t ht
    exact ho.changesOnly ht
  · intro c hc
    cases ho with
    | done _ ht hv =>
      rcases hc with hc | hc
      · exact (captured_of_fits hv hc).2
      · exact (ht.captured hc).2
    | failed _ ht he =>
      rcases hc with hc | hc
      · exact (captured_of_fits he hc).2
      · exact (ht.captured hc).2
    | unfinished => exact hc.elim

end Evaluation

namespace Session

variable {scope : Scope} {s t : State}

/-- The scope of a session is its global frame. -/
theorem Reachable.scope_eq (h : Reachable scope s) : scope = .global 0 := by
  induction h with
  | start hbare _ =>
    cases hbare
    rfl
  | perform _ _ _ ih => exact ih
  | outside _ _ _ ih => exact ih

theorem Reachable.frame_eq (h : Reachable scope s) : scope.frame = scope.root := by
  rw [h.scope_eq]
  rfl

/-- Every closure in a session has the global frame of the session. -/
theorem Reachable.root_eq (h : Reachable scope s) {c : Scope} (hc : s.Captures c) :
    c.root = scope.root := by
  rw [h.scope_eq]
  exact (h.holds (lawful_rooted 0) trivial rfl).1.captured hc

/-- Every frame that a closure in a session captured exists. -/
theorem Reachable.captures_lt (h : Reachable scope s) {c : Scope} (hc : s.Captures c) :
    ∀ f ∈ c.frames, f < s.frames.size :=
  (h.holds lawful_existing trivial (List.forall_mem_singleton.mpr Nat.zero_lt_one)).1.captured hc

theorem Reachable.root_lt (h : Reachable scope s) : scope.root < s.frames.size :=
  (h.holds lawful_existing trivial (List.forall_mem_singleton.mpr Nat.zero_lt_one)).2 _
    (List.mem_append_right _ (.head _))

/-- A new session is reachable. -/
theorem Reachable.of_start {n : Nat} {host : Host}
    (h : Session.start n (.initial host) = .done scope s) :
    Reachable scope s := by
  rw [Session.start, bind_apply] at h
  rcases hbare : bare (.initial host) with ⟨c, t⟩ | ⟨e, t⟩ | _
  · rw [hbare] at h
    change (evalSources n c preludeSources t).andThen (fun _ u => .done c u) = _ at h
    rcases hsources : evalSources n c preludeSources t with ⟨_, u⟩ | ⟨e, u⟩ | _
    · rw [hsources] at h
      cases h
      exact .start hbare (.inl ⟨_, hsources⟩)
    · rw [hsources] at h
      cases h
    · rw [hsources] at h
      cases h
  · rw [hbare] at h
    cases h
  · rw [hbare] at h
    cases h

/-- One operation of a session, or a change of what is outside of it, leads from `s` to `t`. -/
inductive Follows (scope : Scope) : State → State → Prop
  | perform {s t : State} (n : Nat) (op : Operation) :
      (op.perform n scope s).Leaves t → Follows scope s t
  | outside (s : State) (host : Host) (limit : Nat) :
      Follows scope s { s with host, limit }

theorem Reachable.follows (h : Reachable scope s) (ht : Follows scope s t) : Reachable scope t := by
  cases ht with
  | perform n op ht => exact .perform op h ht
  | outside host limit => exact .outside host limit h

/-- An operation changes no frame but the global one. -/
theorem Reachable.changesOnly (h : Reachable scope s) (ht : Follows scope s t) :
    s.ChangesOnly [scope.root] t := by
  cases ht with
  | perform n op ht =>
    have hroot : ∀ c, c = scope ∨ s.Captures c → c.root = scope.root := by
      rintro c (rfl | hc)
      · rfl
      · exact h.root_eq hc
    have hI := lawful_confined s (List.mem_singleton_self scope.root)
      fun c => c = scope ∨ s.Captures c
    have hscope : (confined s [scope.root] scope.root _).captured s.frames.size scope :=
      confined_captured hroot _ (.inl rfl)
    have hframe : scope.frame ∈ [scope.root] := List.mem_singleton.mpr h.frame_eq
    have hkeeps := Operation.perform_keeps hI ⟨hscope, .inl hframe⟩ n op s (Nat.le_refl _)
      (confined_holds hroot fun _ hc => .inr hc)
    exact hkeeps.changesOnly ht
  | outside => exact ⟨Nat.le_refl _, fun _ _ _ => rfl, fun _ _ h => h⟩

/-- However a session goes on, it changes no frame but the global one. -/
theorem Reachable.changesOnly_later (h : Reachable scope s)
    (ht : Relation.ReflTransGen (Follows scope) s t) : s.ChangesOnly [scope.root] t := by
  have hreach : Reachable scope t ∧ s.ChangesOnly [scope.root] t := by
    induction ht with
    | refl => exact ⟨h, .refl s⟩
    | tail _ hstep ih => exact ⟨ih.1.follows hstep, ih.2.trans (ih.1.changesOnly hstep)⟩
  exact hreach.2

/-- Evaluating a form in a scope changes only the innermost frame of that scope, the global frame
and frames that it adds; calling a function changes only the global frame and frames that it adds;
and the operations that a session goes on with change none of the frames that there are but the
global one. No binding is removed, and no frame changes its parent. -/
theorem frames_kept (h : Reachable scope s) :
    (∀ n form e, e.root = scope.root → (∀ c, form.Captures c → c.root = scope.root) →
      (eval n form e s).KeepsFrames s [e.frame, scope.root]
        fun c => c = e ∨ form.Captures c ∨ s.Captures c) ∧
      (∀ n f args, (∀ v ∈ f :: args, ∀ c, v.Captures c → c.root = scope.root) →
        (applyFunction n f args s).KeepsFrames s [scope.root]
          fun c => (∃ v ∈ f :: args, v.Captures c) ∨ s.Captures c) ∧
      ∀ t, Relation.ReflTransGen (Follows scope) s t → s.ChangesOnly [scope.root] t := by
  refine ⟨fun n form e he hform => ?_, fun n f args hargs => ?_, fun t ht => ?_⟩
  · have hroot : ∀ c, c = e ∨ form.Captures c ∨ s.Captures c → c.root = scope.root := by
      rintro c (rfl | hc | hc)
      · exact he
      · exact hform c hc
      · exact h.root_eq hc
    have hmem : scope.root ∈ [e.frame, scope.root] := .tail _ (.head _)
    have hscope : (confined s [e.frame, scope.root] scope.root _).captured s.frames.size e :=
      confined_captured hroot _ (.inl rfl)
    have hvalue : (confined s [e.frame, scope.root] scope.root _).Value s.frames.size form :=
      confined_value hroot _ fun c hc => .inr (.inl hc)
    have hkeeps := eval_keeps (lawful_confined s hmem _) n hvalue ⟨hscope, .inl (.head _)⟩
    exact (hkeeps s (Nat.le_refl _)
      (confined_holds hroot fun _ hc => .inr (.inr hc))).keepsFrames
  · have hroot : ∀ c, (∃ v ∈ f :: args, v.Captures c) ∨ s.Captures c → c.root = scope.root := by
      rintro c (⟨v, hv, hc⟩ | hc)
      · exact hargs v hv c hc
      · exact h.root_eq hc
    have hI := lawful_confined s (List.mem_singleton_self scope.root)
      fun c => (∃ v ∈ f :: args, v.Captures c) ∨ s.Captures c
    have hvalues : ∀ v ∈ f :: args, (confined s [scope.root] scope.root
        fun c => (∃ v ∈ f :: args, v.Captures c) ∨ s.Captures c).Value s.frames.size v :=
      fun v hv => confined_value hroot _ fun c hc => .inl ⟨v, hv, hc⟩
    obtain ⟨hf, hargs⟩ := List.forall_mem_cons.mp hvalues
    have hkeeps := Eval.apply_keeps hI (NestedCalls.limited_keeps hI n) n hf hargs
    exact (hkeeps s (Nat.le_refl _) (confined_holds hroot fun _ hc => .inr hc)).keepsFrames
  · exact h.changesOnly_later ht

/-- A function `(fn* (a) (def! b a))` called in a new session binds `b` in a frame of its own. -/
theorem frames_kept_call :
    let f := Value.closure ⟨["a"], none⟩ (.list [.symbol "def!", .symbol "b", .symbol "a"])
      (.global 0) false .nil
    ∃ s t, (Reachable (.global 0) s ∧ ∀ v ∈ [f, .int 1], ∀ c, v.Captures c → c.root = 0) ∧
      applyFunction 5 f [.int 1] s = .done (.int 1) t ∧ t.binding? 1 "b" = some (.int 1) ∧
      s.ChangesOnly [0] t := by
  intro f
  obtain ⟨s, hstart, hs, -⟩ := start_prepared Host.plain 0
  have hreach : Reachable (.global 0) s := .of_start hstart
  have hcaptures : ∀ v ∈ [f, .int 1], ∀ c, v.Captures c → c.root = 0 := by
    intro v hv c hc
    refine captured_of_fits (I := rooted 0) (n := 0) ?_ hc
    rcases List.mem_pair.mp hv with rfl | rfl
    · refine Shape.fits_closure.mpr ⟨rfl, Shape.fits_list.mpr ?_, .leaf trivial⟩
      simp only [List.forall_mem_cons]
      exact ⟨.leaf trivial, .leaf trivial, .leaf trivial, nofun⟩
    · exact .leaf trivial
  -- The frame of the call is added to the global one.
  let inner : Scope := ⟨[1], 0⟩
  let u := (s.newChild (.global 0)).2.bind 1 "a" (.int 1)
  have hsize : 1 < (s.newChild (.global 0)).2.frames.size := by
    rw [State.size_frames_newChild, hs.frames]
    decide
  have hchild : (s.newChild (.global 0)).1 = inner :=
    congrArg (fun f => Scope.mk [f] 0) hs.frames
  have ha : u.lookup inner "a" = some (.int 1) := by
    have hself := s.lookup_bind_newChild_self (.global 0) "a" (.int 1)
    rwa [hchild, hs.frames] at hself
  have hnew (name : String) (h : name ≠ "a") :
      u.lookup inner name = s.lookup (.global 0) name := by
    have hother := s.lookup_bind_newChild_of_ne (.global 0) h (.int 1)
    rwa [hchild, hs.frames] at hother
  have hdefine : Run.Takes 1 (Eval.special (.limited 4) 4 .define [.symbol "b", .symbol "a"] inner)
      u.deeper (.done (.done (.int 1)) (u.define inner "b" (.int 1)).deeper) :=
    (eval_symbol_takes ((u.lookup_deeper inner "a").trans ha) 2).bind fun _ => rfl
  have hmacro (params body inner' tag) :
      u.lookup inner SpecialForm.define.name ≠ some (.closure params body inner' true tag) := by
    rw [hnew _ (by decide)]
    exact fun h => nomatch (hs.forms .define).symm.trans h
  have hbody := (eval_special_takes (n := 3) hmacro hdefine).eq (k := 2) (by
    change s.depth + 2 ≤ s.limit
    rw [hs.depth, hs.limit]
    decide)
  have hcall : applyFunction 5 f [.int 1] s = .done (.int 1) (u.define inner "b" (.int 1)) := by
    have hentered : applyFunction 5 f [.int 1] s =
        eval 5 (.list [.symbol "def!", .symbol "b", .symbol "a"]) ⟨[s.frames.size], 0⟩
          ((s.newChild (.global 0)).2.bind s.frames.size "a" (.int 1)) := rfl
    rw [hentered, hs.frames]
    exact hbody
  have hkept := (frames_kept hreach).2.1 5 f [.int 1] hcaptures
  refine ⟨s, _, ⟨hreach, hcaptures⟩, hcall, ?_, hkept.changesOnly _ ?_⟩
  · refine State.binding?_bind_self ?_ "b" (.int 1)
    rw [State.size_frames_bind]
    exact hsize
  · exact .inl ⟨_, hcall⟩

end Session

end Lisp
