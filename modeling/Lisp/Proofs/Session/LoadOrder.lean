import Lisp.Proofs.Reader.Lines
import Lisp.Proofs.Session.InOrder
import Lisp.Proofs.Session.LoadFile
import Lisp.Proofs.Value.Rendering

/-!
# Loading a file and evaluating its text

A file whose text can be read as forms is loaded by evaluating these forms in order. Between the
brackets that `load-file` puts around the text the same forms are read, with the `nil` of the last
line behind them, also if the text ends in a comment (`readFirst_enclosed`). They are evaluated one
level further in and in a state in which the call of `load-file` has left a frame. Nothing refers to
that frame, so all it changes are the numbers of the frames behind it (`Reachable.renumbered`).
-/

namespace Lisp

open Run

namespace Session

variable {scope : Scope} {s : State} {path text : String} {forms : List Value}

/-- There are levels enough to call `load-file` and to read a text inside of the call. -/
structure EnoughLevels (s : State) (text : String) : Prop where
  call : s.depth + 5 ≤ s.limit
  read : ¬ Refused (readAll s.limit (s.depth + 3) text)

/-- How loading a file ends where evaluating its forms ends in a value or an error: in `nil` or in
that error, with the same bindings, the same atoms and the same output, in states of which the
second has one more frame, which has the number `n`. -/
inductive Loaded (n : FrameId) : Outcome Value → Outcome Value → Prop
  | done (v : Value) {t u : State} : t.Renumbered n u → Loaded n (.done v t) (.done .nil u)
  | failed (e : Error) {t u : State} : t.Renumbered n u →
      Loaded n (.failed e t) (.failed (e.renumber (skip n)) u)

/-- From `s` the runs `x` end in something if from `t` the runs `y` end in something related to it,
and the other way round. -/
structure EndAlike {α β : Type} (R : Outcome α → Outcome β → Prop) (x : Nat → Run α) (s : State)
    (y : Nat → Run β) (t : State) : Prop where
  forth : ∀ p, Ends x s p → ∃ q, Ends y t q ∧ R p q
  back : ∀ q, Ends y t q → ∃ p, Ends x s p ∧ R p q

/-! ### Reading the file -/

section Reading

variable {n : Nat}

theorem derivesAll_of_readAll {limit depth : Nat} (h : readAll limit depth text = .ok forms) :
    ∃ n, Reader.DerivesAll n (tokenize text) forms := by
  obtain ⟨n, ws, -, rfl, hws⟩ := Reader.Opened.top.forms h
  exact ⟨n, hws⟩

/-- The tokens of a text between the brackets that `load-file` puts around it. -/
theorem tokenize_enclosed (htext : isKeyword text = false) (hclosed : ClosesTexts text) :
    tokenize (enclosed text) = .opening .round ::
      ([.word "do"] ++ (tokenize text ++ [.word "nil"]) ++ [.closing .round]) := by
  have hshown : Value.renderText .display text = text := by
    simp only [Value.renderText, Value.keywordName?_eq_none_iff.mpr htext]
  have hlast : tokenize "nil)" = [.word "nil", .closing .round] := by
    decide
  have hline : tokenize (text ++ "\nnil)") = tokenize text ++ tokenize "nil)" := by
    have hnewline := tokenize_append_newline hclosed "nil)"
    rwa [String.append_assoc] at hnewline
  rw [enclosed, hshown, tokenize_do, hline, hlast]
  simp

/-- A text that spells forms is read between the brackets as a single form that holds them, if
there are levels enough. -/
theorem readFirst_enclosed (htext : isKeyword text = false) (hclosed : ClosesTexts text)
    (h : Reader.DerivesAll n (tokenize text) forms) (limit depth : Nat) :
    readFirst limit depth (enclosed text) =
      if max n 1 + 1 ≤ limit - depth then .ok (.list (.symbol "do" :: (forms ++ [.nil])))
      else .error (.depthExceeded limit) := by
  have hdo : Reader.Derives 1 [.word "do"] (.symbol "do") := .word (Reader.word_eq_ok_iff.mp rfl)
  have hform : Reader.Derives (max n 1 + 1) (tokenize (enclosed text))
      (.list (.symbol "do" :: (forms ++ [.nil]))) := by
    rw [tokenize_enclosed htext hclosed, ← Nat.max_eq_right (Nat.le_max_right n 1)]
    exact .seq .list (.cons hdo (h.concat (.word .nil)))
  have hread := hform.form_eq limit (limit - depth) []
  rw [List.append_nil] at hread
  rw [readFirst_of_ne_nil hform.ne_nil, hread]
  split <;> rfl

theorem enoughLevels_iff (h : Reader.DerivesAll n (tokenize text) forms) :
    EnoughLevels s text ↔
      s.depth + 5 ≤ s.limit ∧ max n 1 + 1 ≤ s.limit - (s.depth + 2) := by
  have hread : Refused (readAll s.limit (s.depth + 3) text) ↔ ¬ n ≤ s.limit - (s.depth + 3) := by
    rw [readAll, h.forms_eq]
    split
    next hn => simp [hn]
    next hn => simp [hn]
  constructor
  · rintro ⟨hcall, hlevels⟩
    rw [hread, not_not] at hlevels
    exact ⟨hcall, by omega⟩
  · rintro ⟨hcall, hlevels⟩
    refine ⟨hcall, ?_⟩
    rw [hread, not_not]
    omega

end Reading

/-- Where the levels do not suffice for reading a file, loading it is refused. -/
theorem Intact.loadFile_depthExceeded (h : Intact scope s) (hpath : isKeyword path = false)
    (hfile : s.host.files path = .ok text)
    (hread : s.depth + 5 ≤ s.limit →
      readFirst s.limit (s.depth + 2) (enclosed text) = .error (.depthExceeded s.limit)) :
    ∃ t, Untouched s t ∧
      ∀ n, loadFile (n + 6) scope path s = .failed (.depthExceeded s.limit) t := by
  refine h.loadFile_source_failed hfile (fun hlevels => ?_) fun _ => rfl
  refine ⟨_, (untouched_afterCall scope path s).afterFile path, ?_⟩
  rw [source, if_neg (ne_true_of_eq_false hpath)]
  change ofExcept (readFirst s.limit (s.depth + 2) (enclosed text)) _ = _
  rw [hread hlevels]
  rfl

/-! ### The frame of the call -/

/-- All that the call of `load-file` changes for the forms of the file is that there is one more
frame. -/
theorem Reachable.renumbered (h : Reachable scope s) (path : String) :
    s.Renumbered s.frames.size (afterFile path (afterCall scope path s)) := by
  have huntouched : Untouched s (afterFile path (afterCall scope path s)) :=
    (untouched_afterCall scope path s).afterFile path
  have hsize : (afterFile path (afterCall scope path s)).frames.size = s.frames.size + 1 :=
    (State.size_frames_bind _ _ _ _).trans (State.size_frames_newChild s scope)
  -- What closures captured are frames in front of the new one.
  have hkept (v : Value) (hv : ∀ c, v.Captures c → s.Captures c) :
      v.renumber (skip s.frames.size) = v :=
    Value.renumber_skip_eq_self fun c hc => h.captures_lt (hv c hc)
  constructor
  · exact Nat.le_refl _
  · exact hsize
  · intro f name
    by_cases hf : f < s.frames.size
    · rw [skip_of_lt hf, huntouched.binding?_eq hf]
      cases hv : s.binding? f name with
      | none => rfl
      | some v => rw [Option.map_some, hkept v fun c hc => .inl ⟨f, name, v, hv, hc⟩]
    · have hle : s.frames.size ≤ f := Nat.not_lt.mp hf
      rw [skip_of_le hle, State.binding?_of_size_le hle, State.binding?_of_size_le]
      · rfl
      · rw [hsize]
        exact Nat.succ_le_succ hle
  · have hcells : s.cells.map (Value.renumber (skip s.frames.size)) = s.cells :=
      (Array.map_congr_left fun v hv => hkept v fun c hc => .inr ⟨v, hv, hc⟩).trans
        (Array.map_id' _)
    rw [huntouched.cells, hcells]
  · exact ⟨_, rfl⟩
  · rfl

/-! ### Evaluating the forms -/

theorem EndAlike.of_matches {α β : Type} {g : α → β} {n : FrameId} {t : State} {x : Nat → Run α}
    {y : Nat → Run β} (h : ∀ k, Run.Matches n g (x k) (y k)) (hst : s.Renumbered n t) :
    EndAlike (Outcome.Matches n g) x s y t where
  forth := by
    rintro _ ⟨hend, k, rfl⟩
    exact ⟨y k t, ⟨mt (h k s t hst).unfinished_iff.mpr hend, k, rfl⟩, h k s t hst⟩
  back := by
    rintro _ ⟨hend, k, rfl⟩
    exact ⟨x k s, ⟨mt (h k s t hst).unfinished_iff.mp hend, k, rfl⟩, h k s t hst⟩

/-- The forms of a file are evaluated alike with the frame of the call and without it. -/
theorem Reachable.forms_alike (h : Reachable scope s)
    (hforms : readAll s.limit s.depth text = .ok forms) (path : String) :
    EndAlike (Outcome.Matches s.frames.size (Value.renumber (skip s.frames.size)))
      (fun n => evalForms n scope .nil forms) s.deeper (fun n => evalForms n scope .nil forms)
      (afterFile path (afterCall scope path s)).deeper := by
  refine .of_matches (fun k => ?_) (h.renumbered path).deeper
  obtain ⟨n, hderives⟩ := derivesAll_of_readAll hforms
  have hscope : scope.renumber (skip s.frames.size) = scope := by
    have hroot := h.root_lt
    rw [h.scope_eq] at hroot ⊢
    exact congrArg (Scope.mk []) (skip_of_lt hroot)
  have hsame : forms.map (Value.renumber (skip s.frames.size)) = forms := by
    refine (List.map_congr_left fun form hform => ?_).trans (List.map_id' _)
    obtain ⟨m, us, hv⟩ := hderives.mem hform
    exact hv.renumber_eq _
  have hmatches := evalForms_matches (f := s.frames.size) k scope .nil forms
  rwa [hscope, Value.renumber_nil, hsame] at hmatches

theorem loaded_of_matches {n : FrameId} {p q : Outcome Value}
    (h : p.Matches n (Value.renumber (skip n)) q) (hp : p ≠ .unfinished) :
    Loaded n (p.mapState State.shallower)
      ((q.andThen fun _ t => .done .nil t).mapState State.shallower) := by
  cases h with
  | unfinished => exact absurd rfl hp
  | done v hst => exact .done v hst.shallower
  | failed e hst => exact .failed e hst.shallower

/-- Loading a file ends the way its forms do in order behind the call of `load-file`. -/
theorem Intact.ends_loadFile_iff (h : Intact scope s) (hroot : scope.root < s.frames.size)
    (hdo : ∀ params body inner tag,
      s.binding? scope.root "do" ≠ some (.closure params body inner true tag))
    (hfile : s.host.files path = .ok text) (hloads : LoadsAs s path text (forms ++ [.nil]))
    (o : Outcome Value) :
    Ends (fun n => loadFile n scope path) s o ↔
      ∃ q, Ends (fun n => evalForms n scope .nil forms)
          (afterFile path (afterCall scope path s)).deeper q ∧
        o = (q.andThen fun _ t => .done .nil t).mapState State.shallower := by
  have hlookup : (afterFile path (afterCall scope path s)).lookup scope "do" =
      s.binding? scope.root "do" := by
    rw [State.lookup, h.inner_eq]
    exact ((untouched_afterCall scope path s).afterFile path).binding?_eq hroot "do"
  have hlt : (afterFile path (afterCall scope path s)).depth <
      (afterFile path (afterCall scope path s)).limit :=
    Nat.lt_of_lt_of_le (Nat.lt_add_of_pos_right (by decide)) hloads.levels
  rw [← hlookup] at hdo
  exact (h.ends_iff hfile hloads o).trans (ends_do_iff hdo hlt .nil forms)

/-- A file and a text that is the same mean the same. Where a text can be read as forms, a session
that has kept `load-file` loads a file with that text by evaluating the forms in order: loading ends
if that does, in `nil` or with the same error, and with the same bindings, atoms and output. Where
the levels do not suffice for that, loading is refused before anything is evaluated. And where no
nested call is refused while the forms are evaluated, evaluating the text ends the way they do. -/
theorem loadFile_in_order (hs : Reachable scope s) (h : Intact scope s)
    (hdo : ∀ params body inner tag,
      s.binding? scope.root "do" ≠ some (.closure params body inner true tag))
    (hpath : isKeyword path = false) (htext : isKeyword text = false)
    (hfile : s.host.files path = .ok text) (hforms : readAll s.limit s.depth text = .ok forms) :
    (EnoughLevels s text →
      EndAlike (fun p => Loaded s.frames.size (p.mapState State.shallower))
        (fun n => evalForms n scope .nil forms) s.deeper (fun n => loadFile n scope path) s) ∧
    (¬ EnoughLevels s text → ∃ t, Untouched s t ∧
      ∀ o, Ends (fun n => loadFile n scope path) s o ↔ o = .failed (.depthExceeded s.limit) t) ∧
    ∀ p, EvaluatesInOrder scope .nil forms s.deeper p →
      Ends (fun n => evalForms n scope .nil forms) s.deeper p ∧
        (forms ≠ [] → Ends (fun n => evalText n scope text) s (p.mapState State.shallower)) := by
  obtain ⟨n, hderives⟩ := derivesAll_of_readAll hforms
  have hread := readFirst_enclosed htext (closesTexts_of_readAll hforms) hderives s.limit
    (s.depth + 2)
  rw [enoughLevels_iff hderives]
  refine ⟨fun ⟨hcall, hlevels⟩ => ?_, fun hfew => ?_, fun p hp => ⟨hp.ends, fun hne => ?_⟩⟩
  · rw [if_pos hlevels] at hread
    obtain ⟨-, fs, hfs, heq⟩ := readFirst_do.mp hread
    cases heq
    have hends := h.ends_loadFile_iff hs.root_lt hdo hfile ⟨hpath, hcall, hfs⟩
    obtain ⟨hforth, hback⟩ := hs.forms_alike hforms path
    constructor
    · intro p hp
      obtain ⟨q, hq, hpq⟩ := hforth p hp
      exact ⟨_, (hends _).mpr ⟨q, hq, rfl⟩, loaded_of_matches hpq hp.1⟩
    · intro o ho
      obtain ⟨q, hq, rfl⟩ := (hends o).mp ho
      obtain ⟨p, hp, hpq⟩ := hback q hq
      exact ⟨p, hp, loaded_of_matches hpq hp.1⟩
  · obtain ⟨t, ht, hload⟩ := h.loadFile_depthExceeded hpath hfile fun hcall =>
      hread.trans (if_neg fun hlevels => hfew ⟨hcall, hlevels⟩)
    exact ⟨t, ht, fun o => ends_loadFile_eq_iff nofun hload⟩
  · exact ends_evalText hforms hne hp.shallower.ends

/-- Binding a number to a name takes two levels, and no call is refused. -/
theorem evaluates_define {name : String} {i : Int64}
    (hdefine : ∀ params body inner tag,
      s.lookup scope "def!" ≠ some (.closure params body inner true tag))
    (hs : s.depth + 2 ≤ s.limit) :
    Evaluates (.list [.symbol "def!", .symbol name, .int i]) scope s
      (.done (.int i) (s.define scope name (.int i))) := by
  have hdefine' : ∀ params body inner tag, s.deeper.lookup scope "def!" ≠
      some (.closure params body inner true tag) := by
    rwa [State.lookup_deeper]
  have hint : Policy.stopping.trampoline 2 (.int i) scope s.deeper = .done (.int i) s.deeper :=
    Policy.guard_of_depth_lt _ _ hs
  refine .of_stopping (n := 3) ?_ nofun
  refine (Policy.guard_of_depth_lt _ _ (Nat.lt_of_succ_lt hs)).trans ?_
  change Outcome.mapState State.shallower (Eval.loop _ 2 2 _ scope s.deeper) = _
  rw [loop_succ, bind_apply, step_of_not_macro hdefine' 1]
  change Outcome.mapState State.shallower (((Policy.stopping.trampoline 2 (.int i) scope
    s.deeper).andThen _).andThen _) = _
  rw [hint]
  rfl

/-- A file whose last line is a comment, in a new session. -/
theorem loadFile_in_order_comment :
    let text := "(def! x 1) ; one"
    ∃ s t u, start 5 (.initial { Host.plain with files := fun _ => .ok text }) =
        .done (.global 0) s ∧
      (Intact (.global 0) s ∧ s.host.files "f" = .ok text ∧ EnoughLevels s text) ∧
      Ends (fun n => evalText n (.global 0) text) s (.done (.int 1) t) ∧
        Ends (fun n => loadFile n (.global 0) "f") s (.done .nil u) ∧
          t.binding? 0 "x" = some (.int 1) ∧ u.binding? 0 "x" = some (.int 1) := by
  have hread (depth : Nat) (hdepth : depth = 0 ∨ depth = 3) :
      readAll State.defaultLimit depth "(def! x 1) ; one" =
        .ok [.list [.symbol "def!", .symbol "x", .int 1]] := by
    rcases hdepth with rfl | rfl <;> rfl
  have htext : isKeyword "(def! x 1) ; one" = false := rfl
  intro text
  obtain ⟨s, hstart, hs, hload⟩ :=
    start_prepared { Host.plain with files := fun _ => .ok text } 0
  have hfile : s.host.files "f" = .ok text := by rw [hs.host]
  have hforms := hread s.depth (.inl hs.depth)
  rw [← hs.limit] at hforms
  have henough : EnoughLevels s text := by
    refine ⟨?_, ?_⟩
    · rw [hs.depth, hs.limit]
      decide
    · rw [hs.depth, hs.limit, hread 3 (.inr rfl)]
      exact not_refused_ok _
  obtain ⟨hloads, -, hevaluates⟩ := loadFile_in_order (.of_start hstart) (hs.intact hload)
    (hs.not_macro .doInOrder) rfl htext hfile hforms
  have hlevels : s.deeper.depth + 2 ≤ s.deeper.limit :=
    Nat.le_trans (Nat.le_add_right (s.depth + 3) 2) henough.call
  obtain ⟨hends, heval⟩ := hevaluates _
    (.cons (evaluates_define (hs.not_macro .define) hlevels) (.nil _ _))
  obtain ⟨o, ho, hloaded⟩ := (hloads henough).forth _ hends
  have hsize : 0 < s.frames.size := hs.frames ▸ Nat.zero_lt_one
  have hbound : (s.deeper.define (.global 0) "x" (.int 1)).shallower.binding? 0 "x" =
      some (.int 1) := State.binding?_bind_self hsize "x" (.int 1)
  cases hloaded with
  | @done v t u htu =>
    have hbinding := htu.binding 0 "x"
    rw [skip_of_lt hsize, hbound, Option.map_some, Value.renumber_int] at hbinding
    exact ⟨s, _, u, hstart, ⟨hs.intact hload, hfile, henough⟩, heval (List.cons_ne_nil _ _), ho,
      hbound, hbinding⟩

end Session

end Lisp
