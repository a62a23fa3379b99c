import Lisp.Proofs.Run.Levels
import Lisp.Proofs.State.Printing
import Lisp.Proofs.Value.Renumbering

/-!
# Runs in states with one more frame

`State.Renumbered n s t` says that `t` is `s` with one more frame, which has the number `n` and
which nothing refers to, so that all frames behind it have moved by one; what was read from the
host may differ in what it noted down. A run matches another (`Run.Matches`) if they end alike in
such states, again in such states. Everything that runs are built of keeps to this.
-/

namespace Lisp

/-- The numbers of frames that leave out `n`. -/
def skip (n f : Nat) : Nat :=
  if f < n then f else f + 1

theorem skip_of_lt {n f : Nat} (h : f < n) : skip n f = f :=
  if_pos h

theorem skip_of_le {n f : Nat} (h : n ≤ f) : skip n f = f + 1 :=
  if_neg (Nat.not_lt.mpr h)

theorem skip_inj {n f g : Nat} : skip n f = skip n g ↔ f = g := by
  unfold skip
  split <;> split <;> omega

theorem skip_lt_succ_iff {n f size : Nat} (h : n ≤ size) :
    skip n f < size + 1 ↔ f < size := by
  unfold skip
  split <;> omega

/-- A value stays as it is if all frames that it captures come in front of the one left out. -/
theorem Value.renumber_skip_eq_self {n : Nat} {v : Value}
    (h : ∀ c, v.Captures c → ∀ f ∈ c.frames, f < n) : v.renumber (skip n) = v := by
  refine renumber_eq_self fun c hc => ?_
  have hlt := h c hc
  have hinner : c.inner.map (skip n) = c.inner :=
    (List.map_congr_left fun f hf => skip_of_lt (hlt f (List.mem_append_left _ hf))).trans
      (List.map_id' _)
  rw [Scope.renumber, hinner, skip_of_lt (hlt c.root (List.mem_append_right _ (.head _)))]

/-- The state `t` is `s` with one more frame, which has the number `n`. -/
structure State.Renumbered (n : FrameId) (s t : State) : Prop where
  le : n ≤ s.frames.size
  size : t.frames.size = s.frames.size + 1
  binding : ∀ f name,
    t.binding? (skip n f) name = (s.binding? f name).map (Value.renumber (skip n))
  cells : t.cells = s.cells.map (Value.renumber (skip n))
  host : ∃ asked, t.host = { s.host with asked }
  counts : t.counts = s.counts

namespace State.Renumbered

variable {n : FrameId} {s t : State} {scope : Scope} {name : String} {v : Value}

theorem depth (h : s.Renumbered n t) : t.depth = s.depth :=
  congrArg Counts.depth h.counts

theorem limit (h : s.Renumbered n t) : t.limit = s.limit :=
  congrArg Counts.limit h.counts

theorem skip_size (h : s.Renumbered n t) : skip n s.frames.size = t.frames.size := by
  rw [skip_of_le h.le, h.size]

theorem lt_size_iff (h : s.Renumbered n t) {f : FrameId} :
    skip n f < t.frames.size ↔ f < s.frames.size := by
  rw [h.size]
  exact skip_lt_succ_iff h.le

theorem lookup (h : s.Renumbered n t) (scope : Scope) (name : String) :
    t.lookup (scope.renumber (skip n)) name =
      (s.lookup scope name).map (Value.renumber (skip n)) := by
  have hfirst (fs : List FrameId) : t.firstBinding? name (fs.map (skip n)) =
      (s.firstBinding? name fs).map (Value.renumber (skip n)) := by
    induction fs with
    | nil => rfl
    | cons f fs ih =>
      rw [List.map_cons, State.firstBinding?, State.firstBinding?, h.binding, ih]
      cases s.binding? f name <;> rfl
  rw [State.lookup, State.lookup, Scope.renumber, hfirst, h.binding]
  cases s.firstBinding? name scope.inner <;> rfl

theorem frame_renumber (scope : Scope) :
    (scope.renumber (skip n)).frame = skip n scope.frame := by
  obtain ⟨inner, root⟩ := scope
  cases inner <;> rfl

/-- Binding a name in a frame that does not exist changes nothing. -/
theorem binding?_bind_of_size_le {s : State} {f : FrameId} (hf : s.frames.size ≤ f)
    (name : String) (v : Value) (g : FrameId) (other : String) :
    (s.bind f name v).binding? g other = s.binding? g other := by
  have hframes : (s.bind f name v).frames = s.frames := by
    refine Array.ext (State.size_frames_bind s f name v) fun i _ hi => ?_
    have hne : f ≠ i := Nat.ne_of_gt (Nat.lt_of_lt_of_le hi hf)
    simp [State.bind, Array.getElem_modify, hne]
  rw [State.binding?, hframes]
  rfl

theorem bind (h : s.Renumbered n t) (f : FrameId) (name : String) (v : Value) :
    (s.bind f name v).Renumbered n (t.bind (skip n f) name (v.renumber (skip n))) where
  le := by
    rw [State.size_frames_bind]
    exact h.le
  size := by
    rw [State.size_frames_bind, State.size_frames_bind, h.size]
  binding g other := by
    by_cases hf : f < s.frames.size
    · by_cases hne : g ≠ f ∨ other ≠ name
      · have hne' : skip n g ≠ skip n f ∨ other ≠ name := hne.imp_left (mt skip_inj.mp)
        rw [State.binding?_bind_of_ne hne, State.binding?_bind_of_ne hne', h.binding]
      · push Not at hne
        obtain ⟨rfl, rfl⟩ := hne
        rw [State.binding?_bind_self hf, State.binding?_bind_self (h.lt_size_iff.mpr hf)]
        rfl
    · have hf' := Nat.not_lt.mp (mt h.lt_size_iff.mp hf)
      rw [binding?_bind_of_size_le (Nat.not_lt.mp hf), binding?_bind_of_size_le hf', h.binding]
  cells := h.cells
  host := h.host
  counts := h.counts

theorem define (h : s.Renumbered n t) (scope : Scope) (name : String) (v : Value) :
    (s.define scope name v).Renumbered n
      (t.define (scope.renumber (skip n)) name (v.renumber (skip n))) := by
  rw [State.define, State.define, frame_renumber]
  exact h.bind _ name v

theorem bindAll (h : s.Renumbered n t) (f : FrameId) (bindings : List (String × Value)) :
    (s.bindAll f bindings).Renumbered n
      (t.bindAll (skip n f) (bindings.map (Prod.map id (Value.renumber (skip n))))) := by
  induction bindings generalizing s t with
  | nil => exact h
  | cons b bindings ih => exact ih (h.bind f b.1 b.2)

theorem newChild (h : s.Renumbered n t) (scope : Scope) :
    (t.newChild (scope.renumber (skip n))).1 = (s.newChild scope).1.renumber (skip n) ∧
      (s.newChild scope).2.Renumbered n (t.newChild (scope.renumber (skip n))).2 := by
  constructor
  · simp only [State.newChild, State.newFrame, Scope.child, Scope.renumber, ← h.skip_size,
      List.map_cons]
  · constructor
    · rw [State.size_frames_newChild]
      exact Nat.le_succ_of_le h.le
    · rw [State.size_frames_newChild, State.size_frames_newChild, h.size]
    · intro f name
      exact (t.binding?_newFrame _ name).trans
        ((h.binding f name).trans (congrArg _ (s.binding?_newFrame f name).symm))
    · exact h.cells
    · exact h.host
    · exact h.counts

theorem content (h : s.Renumbered n t) (c : CellId) :
    t.content c = (s.content c).renumber (skip n) := by
  rw [State.content, State.content, h.cells, Array.getElem?_map]
  cases s.cells[c]? <;> simp

theorem shownAlike (h : s.Renumbered n t) (c : CellId) :
    (t.content c).ShownAlike (s.content c) := by
  rw [h.content]
  exact Value.keepsLayers_renumber.shownAlike _

theorem size_cells (h : s.Renumbered n t) : t.cells.size = s.cells.size := by
  rw [h.cells, Array.size_map]

theorem newAtom (h : s.Renumbered n t) (v : Value) :
    (t.newAtom (v.renumber (skip n))).1 = (s.newAtom v).1 ∧
      (s.newAtom v).2.Renumbered n (t.newAtom (v.renumber (skip n))).2 := by
  refine ⟨?_, h.le, h.size, h.binding, ?_, h.host, h.counts⟩
  · simp only [State.newAtom, h.cells, Array.size_map]
  · simp only [State.newAtom, h.cells, Array.map_push]

theorem setContent (h : s.Renumbered n t) (c : CellId) (v : Value) :
    (s.setContent c v).Renumbered n (t.setContent c (v.renumber (skip n))) := by
  refine ⟨h.le, h.size, h.binding, ?_, h.host, h.counts⟩
  simp only [State.setContent, h.cells]
  exact (Array.map_setIfInBounds ..).symm

/-- The numbers of frames do not show in the text of a value. -/
theorem render (h : s.Renumbered n t) (style : Style) (v : Value) :
    t.render style (v.renumber (skip n)) = s.render style v :=
  State.render_congr h.shownAlike h.size_cells (Value.keepsLayers_renumber.shownAlike v) style

theorem prints (h : s.Renumbered n t) (v : Value) :
    t.prints (v.renumber (skip n)) = s.prints v :=
  State.prints_congr h.shownAlike h.size_cells (Value.keepsLayers_renumber.shownAlike v)

/-- Something that is done to the host is done to both. -/
theorem withHost (h : s.Renumbered n t) {host host' : Host}
    (hhost : ∃ asked, host' = { host with asked }) :
    State.Renumbered n { s with host } { t with host := host' } :=
  ⟨h.le, h.size, h.binding, h.cells, hhost, h.counts⟩

theorem write (h : s.Renumbered n t) (text : String) :
    (t.write text).1 = (s.write text).1 ∧ (s.write text).2.Renumbered n (t.write text).2 := by
  obtain ⟨asked, hhost⟩ := h.host
  have hwrite : (t.host.write text).1 = (s.host.write text).1 ∧
      ∃ asked, (t.host.write text).2 = { (s.host.write text).2 with asked } := by
    simp only [hhost, Host.write]
    cases s.host.blocked s.host.output text with
    | none => exact ⟨rfl, asked, rfl⟩
    | some cause => exact ⟨rfl, asked, rfl⟩
  exact ⟨hwrite.1, h.withHost hwrite.2⟩

theorem readLine (h : s.Renumbered n t) :
    t.readLine.1 = s.readLine.1 ∧ s.readLine.2.Renumbered n t.readLine.2 := by
  obtain ⟨asked, hhost⟩ := h.host
  have hline : t.host.readLine.1 = s.host.readLine.1 ∧
      ∃ asked, t.host.readLine.2 = { s.host.readLine.2 with asked } := by
    rw [hhost]
    refine ⟨rfl, ?_⟩
    simp only [Host.readLine]
    cases (Host.splitLine [] s.host.input).1.isEmpty with
    | true => exact ⟨_, rfl⟩
    | false => exact ⟨asked, rfl⟩
  exact ⟨hline.1, h.withHost hline.2⟩

theorem readFile (h : s.Renumbered n t) (path : String) :
    (t.readFile path).1 = (s.readFile path).1 ∧
      (s.readFile path).2.Renumbered n (t.readFile path).2 := by
  obtain ⟨asked, hhost⟩ := h.host
  refine ⟨?_, h.withHost ⟨(t.host.readFile path).2.asked, ?_⟩⟩
  · change t.host.files path = s.host.files path
    rw [hhost]
  · rw [hhost]
    rfl

theorem readClock (h : s.Renumbered n t) :
    t.readClock.1 = s.readClock.1 ∧ s.readClock.2.Renumbered n t.readClock.2 := by
  obtain ⟨asked, hhost⟩ := h.host
  refine ⟨?_, h.withHost ⟨t.host.readClock.2.asked, ?_⟩⟩
  · change t.host.clock t.host.ticks = s.host.clock s.host.ticks
    rw [hhost]
  · rw [hhost]
    rfl

theorem withDepth (h : s.Renumbered n t) (d : Nat) :
    State.Renumbered n { s with depth := d } { t with depth := d } := by
  refine ⟨h.le, h.size, h.binding, h.cells, h.host, ?_⟩
  exact congrArg (fun c : Counts => (⟨d, c.limit⟩ : Counts)) h.counts

theorem deeper (h : s.Renumbered n t) : s.deeper.Renumbered n t.deeper := by
  rw [State.deeper, State.deeper, h.depth]
  exact h.withDepth _

theorem shallower (h : s.Renumbered n t) : s.shallower.Renumbered n t.shallower := by
  rw [State.shallower, State.shallower, h.depth]
  exact h.withDepth _

end State.Renumbered

/-! ### Outcomes and runs -/

section Matches

variable {n : FrameId} {α β γ δ : Type} {g : α → β} {g' : γ → δ}

/-- Two outcomes are alike, in states of which the second has one more frame. -/
inductive Outcome.Matches (n : FrameId) (g : α → β) : Outcome α → Outcome β → Prop
  | unfinished : Matches n g .unfinished .unfinished
  | done (a : α) {s t : State} : s.Renumbered n t → Matches n g (.done a s) (.done (g a) t)
  | failed (e : Error) {s t : State} : s.Renumbered n t →
      Matches n g (.failed e s) (.failed (e.renumber (skip n)) t)

theorem Outcome.Matches.unfinished_iff {o : Outcome α} {p : Outcome β} (h : o.Matches n g p) :
    o = .unfinished ↔ p = .unfinished := by
  cases h <;> simp

namespace Run

/-- Two runs end alike in states of which the second has one more frame. -/
def Matches (n : FrameId) (g : α → β) (x : Run α) (y : Run β) : Prop :=
  ∀ s t, s.Renumbered n t → (x s).Matches n g (y t)

namespace Matches

theorem unfinished : Matches n g Run.unfinished Run.unfinished :=
  fun _ _ _ => .unfinished

theorem pure {a : α} {b : β} (h : g a = b) : Matches n g (Pure.pure a) (Pure.pure b) :=
  fun _ _ hst => h ▸ .done a hst

theorem raise (e : Error) : Matches n g (Run.raise e) (Run.raise (e.renumber (skip n))) :=
  fun _ _ hst => .failed e hst

/-- An error that nothing was thrown for is the same. -/
theorem raise_self {e : Error} (h : e.renumber (skip n) = e) :
    Matches n g (Run.raise e) (Run.raise e) := by
  have he := Matches.raise (n := n) (g := g) e
  rwa [h] at he

theorem bind {x : Run α} {y : Run β} {f : α → Run γ} {f' : β → Run δ} (h : Matches n g x y)
    (k : ∀ a, Matches n g' (f a) (f' (g a))) : Matches n g' (x >>= f) (y >>= f') := by
  intro s t hst
  have hxy := h s t hst
  rw [bind_apply, bind_apply]
  generalize x s = o, y t = p at hxy
  cases hxy with
  | unfinished => exact .unfinished
  | done a hst => exact k a _ _ hst
  | failed e hst => exact .failed e hst

theorem handle {x : Run α} {y : Run β} {f : α → Run γ} {f' : β → Run δ} {r : Error → Run γ}
    {r' : Error → Run δ} (h : Matches n g x y) (k : ∀ a, Matches n g' (f a) (f' (g a)))
    (k' : ∀ e, Matches n g' (r e) (r' (e.renumber (skip n)))) :
    Matches n g' (x.handle f r) (y.handle f' r') := by
  intro s t hst
  have hxy := h s t hst
  unfold Run.handle
  generalize x s = o, y t = p at hxy
  cases hxy with
  | unfinished => exact .unfinished
  | done a hst => exact k a _ _ hst
  | failed e hst => exact k' e _ _ hst

theorem ofExcept {x : Except Error α} {y : Except Error β} (h : Lisp.Matches (skip n) g x y) :
    Matches n g (Run.ofExcept x) (Run.ofExcept y) := by
  cases h with
  | ok a => exact pure rfl
  | error e => exact raise e

theorem inspect {f : State → α} {f' : State → β}
    (h : ∀ s t, s.Renumbered n t → f' t = g (f s)) :
    Matches n g (Run.inspect f) (Run.inspect f') := by
  intro s t hst
  rw [inspect_apply, inspect_apply, h s t hst]
  exact .done _ hst

/-- Looking for texts matches if they are alike and end alike. -/
theorem printing {f : State → α} {f' : State → β} (vs : List Value)
    (h : ∀ s t, s.Renumbered n t → f' t = g (f s)) :
    Matches n g (Run.printing vs f) (Run.printing (vs.map (Value.renumber (skip n))) f') := by
  intro s t hst
  have hprints : (vs.map (Value.renumber (skip n))).all t.prints = vs.all s.prints := by
    rw [List.all_map]
    exact congrArg vs.all (funext hst.prints)
  unfold Run.printing
  rw [hprints, h s t hst]
  split
  · exact .done _ hst
  · exact .unfinished

theorem shown (style : Style) (v : Value) :
    Matches n id (Run.shown style v) (Run.shown style (v.renumber (skip n))) :=
  printing [v] fun _ _ hst => hst.render style v

/-- Asking the host matches if it answers alike. -/
theorem request {source : Source} {f f' : State → Except HostError α × State}
    (h : ∀ s t, s.Renumbered n t → (f' t).1 = (f s).1 ∧ (f s).2.Renumbered n (f' t).2) :
    Matches n id (Run.request source f) (Run.request source f') := by
  intro s t hst
  obtain ⟨hanswer, hstate⟩ := h s t hst
  unfold Run.request
  generalize f s = p, f' t = q at hanswer hstate
  obtain ⟨answer, s⟩ := p
  obtain ⟨answer', t⟩ := q
  change answer' = answer at hanswer
  subst hanswer
  cases answer' with
  | ok a => exact .done a hstate
  | error cause => exact .failed _ hstate

theorem modify {f : State → α × State} {f' : State → β × State}
    (h : ∀ s t, s.Renumbered n t → (f' t).1 = g (f s).1 ∧ (f s).2.Renumbered n (f' t).2) :
    Matches n g (Run.modify f) (Run.modify f') := by
  intro s t hst
  obtain ⟨hvalue, hstate⟩ := h s t hst
  rw [modify_apply, modify_apply, hvalue]
  exact .done _ hstate

theorem update {f f' : State → State} (h : ∀ s t, s.Renumbered n t → (f s).Renumbered n (f' t)) :
    Matches n id (Run.update f) (Run.update f') := by
  intro s t hst
  rw [update_apply, update_apply]
  exact .done () (h s t hst)

theorem guarded {x : Run α} {y : Run β} (h : Matches n g x y) :
    Matches n g (Run.guarded x) (Run.guarded y) := by
  intro s t hst
  by_cases hlimit : s.limit ≤ s.depth
  · have hlimit' : t.limit ≤ t.depth := by rwa [hst.limit, hst.depth]
    rw [guarded_of_limit_le x hlimit, guarded_of_limit_le y hlimit', hst.limit]
    exact .failed _ hst
  · have hlt : s.depth < s.limit := Nat.lt_of_not_le hlimit
    have hlt' : t.depth < t.limit := by rwa [hst.limit, hst.depth]
    rw [guarded_eq_mapState x hlt, guarded_eq_mapState y hlt']
    have hxy := h _ _ hst.deeper
    generalize x s.deeper = o, y t.deeper = p at hxy
    cases hxy with
    | unfinished => exact .unfinished
    | done a hst => exact .done a hst.shallower
    | failed e hst => exact .failed e hst.shallower

end Matches

end Run

end Matches

end Lisp
