import Lisp.Proofs.Eval.Fuel
import Lisp.Proofs.Eval.Levels
import Lisp.Proofs.Reader.DoBlock
import Lisp.Proofs.Session.Start

/-!
# Loading files

`load-file` writes the text of a file between `(do ` and a last line `nil)`, reads the first form of
the result and evaluates it in the global scope. `loadFile_outcome` says what comes of this for
every text. Where the brackets enclose forms these are evaluated, also if the text as a whole is
malformed: behind a bracket too many it is not looked at, and a sigil at its end finds the `nil` of
the last line. Otherwise the file fails before anything is evaluated.
-/

namespace Lisp

open Run Eval

namespace Session

/-- `load-file` and what it is made of mean what they mean in a new session. -/
structure Intact (scope : Scope) (s : State) : Prop where
  inner_eq : scope.inner = []
  loader : s.binding? scope.root "load-file" = some (fileLoader scope)
  readString : s.binding? scope.root "read-string" = some (.builtin .readString)
  str : s.binding? scope.root "str" = some (.builtin .str)
  slurp : s.binding? scope.root "slurp" = some (.builtin .slurp)
  eval_not_macro : ∀ params body inner tag,
    s.binding? scope.root "eval" ≠ some (.closure params body inner true tag)

/-- A new session is intact. -/
theorem Prepared.intact {host : Host} {s : State} (h : Prepared host s)
    (hload : s.binding? 0 "load-file" = some (fileLoader (.global 0))) :
    Intact (.global 0) s where
  inner_eq := rfl
  loader := hload
  readString := h.builtins .readString
  str := h.builtins .str
  slurp := h.builtins .slurp
  eval_not_macro := h.not_macro .evalGlobal

/-- Nothing that a program can see has changed: the frames that were there bind what they bound, the
atoms hold what they held, and the streams are as they were. -/
structure Untouched (s t : State) : Prop where
  frames : ∀ f < s.frames.size, t.frames[f]? = s.frames[f]?
  cells : t.cells = s.cells
  host : { t.host with asked := s.host.asked } = s.host
  depth : t.depth = s.depth
  limit : t.limit = s.limit

theorem Untouched.refl (s : State) : Untouched s s :=
  ⟨fun _ _ => rfl, rfl, rfl, rfl, rfl⟩

theorem Untouched.lt_size_frames {s t : State} (h : Untouched s t) {f : FrameId}
    (hf : f < s.frames.size) : f < t.frames.size := by
  have hframe : t.frames[f]? = some s.frames[f] :=
    (h.frames f hf).trans (Array.getElem?_eq_getElem hf)
  exact (Array.getElem?_eq_some_iff.mp hframe).1

theorem Untouched.binding?_eq {s t : State} (h : Untouched s t) {f : FrameId}
    (hf : f < s.frames.size) (name : String) : t.binding? f name = s.binding? f name := by
  rw [State.binding?, h.frames f hf]
  rfl

/-- Loading the file at `path`, whose text is `text`, gets as far as evaluating the forms `fs`. -/
structure LoadsAs (s : State) (path text : String) (fs : List Value) : Prop where
  path : isKeyword path = false
  levels : s.depth + 5 ≤ s.limit
  forms : ReadsInside s.limit (s.depth + 3) (Value.renderText .display text) fs

/-! ### Reading the file -/

section Source

variable {scope : Scope} {s : State} {path text : String}

/-- The error of `slurp` for a keyword in place of a path. -/
def keywordPath (path : String) : Error :=
  Builtin.slurp.mismatch "string" (.text path)

/-- The state behind reading a file. -/
def afterFile (path : String) (s : State) : State :=
  (s.readFile path).2

/-- The text that stands for a file as a single form. -/
def enclosed (text : String) : String :=
  "(do " ++ Value.renderText .display text ++ "\nnil)"

theorem fileText_eq (hpath : isKeyword path = false) (hfile : s.host.files path = .ok text) :
    Builtin.fileText [.text path] s = .done (.text text) (afterFile path s) := by
  have hstring : (ofExcept (Builtin.slurp.stringOf (.text path)) : Run String) = pure path := by
    simp [Builtin.stringOf, hpath, Run.ofExcept]
  have hanswer : Run.request (.file path) (·.readFile path) s = .done text (afterFile path s) :=
    request_of_ok _ _ (Prod.ext hfile rfl)
  change (ofExcept (Builtin.slurp.stringOf (.text path)) >>= _) s = _
  rw [hstring, pure_bind, bind_apply, hanswer]
  rfl

theorem fileText_eq_failed (hpath : isKeyword path = true) :
    Builtin.fileText [.text path] s = .failed (keywordPath path) s := by
  have hstring : Builtin.slurp.stringOf (.text path) = .error (keywordPath path) := by
    simp [Builtin.stringOf, hpath, keywordPath]
  change (ofExcept (Builtin.slurp.stringOf (.text path)) >>= _) s = _
  rw [hstring]
  rfl

/-- The names that the form which reads a file looks up. -/
structure Reads (path : String) (scope : Scope) (s : State) : Prop where
  readString : s.lookup scope "read-string" = some (.builtin .readString)
  str : s.lookup scope "str" = some (.builtin .str)
  slurp : s.lookup scope "slurp" = some (.builtin .slurp)
  path : s.lookup scope "f" = some (.text path)

theorem Reads.deeper (h : Reads path scope s) : Reads path scope s.deeper where
  readString := (s.lookup_deeper scope _).trans h.readString
  str := (s.lookup_deeper scope _).trans h.str
  slurp := (s.lookup_deeper scope _).trans h.slurp
  path := (s.lookup_deeper scope _).trans h.path

theorem Reads.slurp_takes (h : Reads path scope s) (hpath : isKeyword path = false)
    (hfile : s.host.files path = .ok text) (n : Nat) :
    Takes 2 (eval (n + 3) slurpForm scope) s
      (.done (.text text) (afterFile path s)) := by
  have hfile' : s.deeper.host.files path = .ok text := hfile
  refine eval_builtin_takes rfl h.slurp (Nat.le_refl 1) ?_
  simp only [evalEach, bind_assoc, pure_bind]
  exact (eval_symbol_takes h.deeper.path n).bind fun _ => fileText_eq hpath hfile'

theorem Reads.slurp_takes_failed (h : Reads path scope s) (hpath : isKeyword path = true)
    (n : Nat) :
    Takes 2 (eval (n + 3) slurpForm scope) s
      (.failed (keywordPath path) s) := by
  refine eval_builtin_takes rfl h.slurp (Nat.le_refl 1) ?_
  simp only [evalEach, bind_assoc, pure_bind]
  exact (eval_symbol_takes h.deeper.path n).bind fun _ => fileText_eq_failed hpath

theorem render_text (s : State) (text : String) :
    s.render .display (.text text) = Value.renderText .display text := by
  rw [State.render, Value.render, Value.renderOnto, String.empty_append]

/-- What `str` makes of the file. -/
theorem str_enclosed (read : String → Run Value) (ap : Value → List Value → Run Value)
    (text : String) :
    Builtin.str.call read ap [.text "(do ", .text text, .text "\nnil)"] s =
      .done (.text (enclosed text)) s := by
  have htexts : "".intercalate (List.map (s.render .display)
      [.text "(do ", .text text, .text "\nnil)"]) = enclosed text := by
    have hopen : Value.renderText .display "(do " = "(do " := rfl
    have hclose : Value.renderText .display "\nnil)" = "\nnil)" := rfl
    simp only [List.map, render_text, hopen, hclose]
    change "(do " ++ "" ++ Value.renderText .display text ++ "" ++ "\nnil)" = _
    rw [String.append_empty, String.append_empty]
    rfl
  exact congrArg (fun text => Outcome.done (Value.text text) s) htexts

/-- What `read-string` makes of the file. -/
theorem readString_enclosed (ap : Value → List Value → Run Value) (text : String) :
    Builtin.readString.call readForm ap [.text (enclosed text)] s =
      ofExcept (readFirst s.limit s.depth (enclosed text)) s := by
  have hkeyword : isKeyword (enclosed text) = false := by
    rw [isKeyword, enclosed, String.toList_append, String.toList_append]
    rfl
  have hstring : Builtin.readString.stringOf (.text (enclosed text)) = .ok (enclosed text) := by
    simp [Builtin.stringOf, hkeyword]
  change (ofExcept (Builtin.readString.stringOf (.text (enclosed text))) >>= readForm) s = _
  rw [hstring]
  rfl

theorem Reads.str_takes (h : Reads path scope s) (hpath : isKeyword path = false)
    (hfile : s.host.files path = .ok text) (n : Nat) :
    Takes 3 (eval (n + 4) enclosingForm scope) s
      (.done (.text (enclosed text)) (afterFile path s)) := by
  have hslurp : Takes 2 (eval (n + 3) slurpForm scope) s.deeper
      (.done (.text text) (afterFile path s.deeper)) :=
    h.deeper.slurp_takes hpath hfile n
  refine eval_builtin_takes rfl h.str (by decide) ?_
  simp only [evalEach, bind_assoc, pure_bind]
  refine (eval_text_takes "(do " (n + 1)).bind_more (by decide) (hslurp.bind fun hlevels => ?_)
  have hline : Takes 1 (eval (n + 3) (.text "\nnil)") scope) (afterFile path s.deeper)
      (.done (.text "\nnil)") (afterFile path s.deeper)) := eval_text_takes _ (n + 1)
  have hleft : (afterFile path s.deeper).depth + 1 ≤ (afterFile path s.deeper).limit :=
    Nat.le_of_succ_le hlevels
  change (eval (n + 3) (.text "\nnil)") scope >>= _) (afterFile path s.deeper) = _
  rw [bind_apply, hline.eq hleft]
  exact str_enclosed readForm (apply (.limited (n + 3)) (n + 3)) text

theorem Reads.str_takes_failed (h : Reads path scope s) (hpath : isKeyword path = true) (n : Nat) :
    Takes 3 (eval (n + 4) enclosingForm scope) s
      (.failed (keywordPath path) s) := by
  have hslurp : Takes 2 (eval (n + 3) slurpForm scope) s.deeper
      (.failed (keywordPath path) s.deeper) :=
    h.deeper.slurp_takes_failed hpath n
  refine eval_builtin_takes rfl h.str (by decide) ?_
  simp only [evalEach, bind_assoc, pure_bind]
  exact (eval_text_takes "(do " (n + 1)).bind_more (by decide) hslurp.bind_failed

/-- How reading the file ends if enough levels are left. -/
def source (path text : String) (s : State) : Outcome Value :=
  if isKeyword path then .failed (keywordPath path) s
  else ofExcept (readFirst s.limit (s.depth + 1) (enclosed text)) (afterFile path s)

/-- Reading the file takes four levels. -/
theorem Reads.source_takes (h : Reads path scope s) (hfile : s.host.files path = .ok text)
    (n : Nat) : Takes 4 (eval (n + 5) sourceForm scope) s (source path text s) := by
  refine eval_builtin_takes rfl h.readString (by decide) ?_
  simp only [evalEach, bind_assoc, pure_bind]
  rw [source]
  split
  next hpath => exact (h.deeper.str_takes_failed hpath n).bind_failed
  next hpath =>
    refine (h.deeper.str_takes (Bool.not_eq_true _ ▸ hpath) hfile n).bind fun _ => ?_
    exact (readString_enclosed _ text).trans (ofExcept_deeper _ (afterFile path s))

end Source

/-! ### Calling `load-file` -/

section Call

variable {scope : Scope} {s : State} {path text : String}

/-- The scope of the body of `load-file`. -/
def loaderScope (scope : Scope) (s : State) : Scope :=
  (s.newChild scope).1

/-- The state in which the body of `load-file` is evaluated: a new frame binds the path. -/
def afterCall (scope : Scope) (path : String) (s : State) : State :=
  (s.newChild scope).2.bind s.frames.size "f" (.text path)

theorem lookup_afterCall_path :
    (afterCall scope path s).lookup (loaderScope scope s) "f" = some (.text path) :=
  s.lookup_bind_newChild_self scope "f" (.text path)

/-- The new frame hides nothing but the name of its parameter. -/
theorem lookup_afterCall (h : scope.inner = []) {name : String} (hname : name ≠ "f") :
    (afterCall scope path s).lookup (loaderScope scope s) name = s.binding? scope.root name := by
  refine (s.lookup_bind_newChild_of_ne scope hname (.text path)).trans ?_
  rw [State.lookup, h]
  rfl

theorem Intact.reads (h : Intact scope s) (path : String) :
    Reads path (loaderScope scope s) (afterCall scope path s) where
  readString := (lookup_afterCall h.inner_eq (by decide)).trans h.readString
  str := (lookup_afterCall h.inner_eq (by decide)).trans h.str
  slurp := (lookup_afterCall h.inner_eq (by decide)).trans h.slurp
  path := lookup_afterCall_path

theorem Intact.lookup_loader (h : Intact scope s) :
    s.lookup scope "load-file" = some (fileLoader scope) := by
  rw [State.lookup, h.inner_eq]
  exact h.loader

/-- Calling `load-file` takes a level for its name and one for the path. -/
theorem Intact.step_takes (h : Intact scope s) (path : String) (n : Nat) :
    Takes 1 (Eval.step (.limited (n + 2)) (n + 2) (.list [.symbol "load-file", .text path]) scope) s
      (.done (.next (.list [.symbol "eval", sourceForm]) (loaderScope scope s))
        (afterCall scope path s)) := by
  have hmacro : ∀ params body inner tag,
      s.lookup scope "load-file" ≠ some (.closure params body inner true tag) := by
    rw [h.lookup_loader]
    exact nofun
  have hcall : Eval.step (.limited (n + 2)) (n + 2) (.list [.symbol "load-file", .text path]) scope
        s =
      stepCall (.limited (n + 2)) (n + 2) (.symbol "load-file") [.text path] scope s :=
    step_of_not_macro hmacro (n + 1)
  refine .congr ?_ hcall
  rw [stepCall_function rfl]
  refine (eval_symbol_takes h.lookup_loader n).bind_more (Nat.le_refl 1) ?_
  simp only [evalEach, bind_assoc, pure_bind]
  exact (eval_text_takes path n).bind fun _ => rfl

/-- The body of `load-file` goes on with the form that it has read. -/
theorem Intact.loop_body (h : Intact scope s) (path : String) (n m : Nat) :
    loop (.limited (n + 1)) (n + 1) (m + 1) (.list [.symbol "eval", sourceForm])
        (loaderScope scope s) (afterCall scope path s).deeper =
      (eval (n + 1) sourceForm (loaderScope scope s) >>= fun form =>
        loop (.limited (n + 1)) (n + 1) m form scope)
        (afterCall scope path s).deeper := by
  have hmacro : ∀ params body inner tag, (afterCall scope path s).deeper.lookup
      (loaderScope scope s) "eval" ≠ some (.closure params body inner true tag) := by
    rw [State.lookup_deeper, lookup_afterCall h.inner_eq (by decide)]
    exact h.eval_not_macro
  have hscope : (loaderScope scope s).outermost = scope := by
    obtain ⟨inner, root⟩ := scope
    cases h.inner_eq
    rfl
  have hstep : stepCall (.limited (n + 1)) (n + 1) (.symbol "eval") [sourceForm]
      (loaderScope scope s) =
      eval (n + 1) sourceForm (loaderScope scope s) >>= fun form => pure (.next form scope) := by
    rw [← hscope]
    rfl
  rw [loop_succ, bind_apply, step_of_not_macro hmacro n, hstep, ← bind_apply, bind_assoc]
  rfl

theorem Intact.deeper (h : Intact scope s) : Intact scope s.deeper :=
  ⟨h.inner_eq, h.loader, h.readString, h.str, h.slurp, h.eval_not_macro⟩

theorem Intact.loadFile_refused (h : Intact scope s) (hlevels : ¬ s.depth + 2 ≤ s.limit)
    (path : String) (n : Nat) :
    loadFile (n + 3) scope path s = .failed (.depthExceeded s.limit) s := by
  have hlevels' : ¬ s.deeper.depth + 1 ≤ s.deeper.limit := hlevels
  rw [loadFile, eval_succ]
  refine guarded_of_refused ?_
  rw [loop_succ, bind_apply, (h.deeper.step_takes path n).eq_refused hlevels']
  rfl

/-- `load-file` evaluates the form that it has read in its own place. -/
theorem Intact.loadFile_eq (h : Intact scope s) (hlevels : s.depth + 2 ≤ s.limit)
    (path : String) (n : Nat) :
    loadFile (n + 3) scope path s =
      ((eval (n + 2) sourceForm (loaderScope scope s) >>= fun form =>
        loop (.limited (n + 2)) (n + 2) n form scope) (afterCall scope path s).deeper).mapState
          State.shallower := by
  have hlevels' : s.deeper.depth + 1 ≤ s.deeper.limit := hlevels
  rw [loadFile, eval_eq_loop (by omega), loop_succ, bind_apply,
    (h.deeper.step_takes path n).eq hlevels']
  exact congrArg _ (h.loop_body path (n + 1) n)

/-! ### What is left behind -/

theorem untouched_afterCall (scope : Scope) (path : String) (s : State) :
    Untouched s (afterCall scope path s) where
  frames f hf := by
    have hframes : (afterCall scope path s).frames =
        (s.frames.push ∅).modify s.frames.size (·.insert "f" (.text path)) := rfl
    rw [hframes, Array.getElem?_modify, if_neg (Nat.ne_of_gt hf), Array.getElem?_push,
      if_neg (Nat.ne_of_lt hf)]
  cells := rfl
  host := rfl
  depth := rfl
  limit := rfl

theorem Untouched.afterFile {t : State} (h : Untouched s t) (path : String) :
    Untouched s (afterFile path t) where
  frames := h.frames
  cells := h.cells
  host := h.host
  depth := h.depth
  limit := h.limit

theorem source_failed (hlevels : s.depth + 5 ≤ s.limit)
    (hbad : ∀ fs, ¬ LoadsAs s path text fs) :
    ∃ e t, Untouched s t ∧
      source path text (afterCall scope path s).deeper = .failed e t.deeper := by
  have huntouched : Untouched s (afterCall scope path s) := untouched_afterCall scope path s
  cases hpath : isKeyword path with
  | true => exact ⟨keywordPath path, _, huntouched, if_pos hpath⟩
  | false =>
    have hsource : source path text (afterCall scope path s).deeper =
        ofExcept (readFirst s.limit (s.depth + 2) (enclosed text))
          (afterFile path (afterCall scope path s).deeper) :=
      if_neg (ne_true_of_eq_false hpath)
    rcases hread : readFirst s.limit (s.depth + 2) (enclosed text) with e | v
    · rw [hread] at hsource
      exact ⟨e, _, huntouched.afterFile path, hsource⟩
    · obtain ⟨-, fs, hfs, -⟩ := readFirst_do.mp hread
      exact absurd ⟨hpath, hlevels, hfs⟩ (hbad fs)

/-- A file is not loaded if reading it fails, be it for want of levels. -/
theorem Intact.loadFile_source_failed (h : Intact scope s) (hfile : s.host.files path = .ok text)
    {e : Error}
    (hsource : s.depth + 5 ≤ s.limit → ∃ t, Untouched s t ∧
      source path text (afterCall scope path s).deeper = .failed e t.deeper)
    (hfew : ¬ s.depth + 5 ≤ s.limit → e = .depthExceeded s.limit) :
    ∃ t, Untouched s t ∧ ∀ n, loadFile (n + 6) scope path s = .failed e t := by
  have htakes (n : Nat) := (h.reads path).deeper.source_takes hfile n
  have hread : ∃ t, Untouched s t ∧ ∀ n, eval (n + 5) sourceForm (loaderScope scope s)
      (afterCall scope path s).deeper = .failed e t.deeper := by
    by_cases hfive : s.depth + 1 + 4 ≤ s.limit
    · obtain ⟨t, ht, hsource⟩ := hsource hfive
      exact ⟨t, ht, fun n => ((htakes n).eq hfive).trans hsource⟩
    · rw [hfew hfive]
      exact ⟨_, untouched_afterCall scope path s, fun n => (htakes n).eq_refused hfive⟩
  by_cases htwo : s.depth + 2 ≤ s.limit
  · obtain ⟨t, ht, hread⟩ := hread
    refine ⟨t, ht, fun n => ?_⟩
    rw [h.loadFile_eq htwo path (n + 3), bind_apply, hread n]
    rfl
  · rw [hfew fun hfive => htwo (Nat.le_trans (Nat.le_add_right _ 3) hfive)]
    exact ⟨s, .refl s, fun n => h.loadFile_refused htwo path (n + 3)⟩

/-- A file that is not read as forms is not loaded, and nothing happens. -/
theorem Intact.loadFile_failed (h : Intact scope s) (hfile : s.host.files path = .ok text)
    (hbad : ∀ fs, ¬ LoadsAs s path text fs) :
    ∃ e t, Untouched s t ∧ ∀ n, loadFile (n + 6) scope path s = .failed e t := by
  by_cases hlevels : s.depth + 5 ≤ s.limit
  · obtain ⟨e, t, ht, hsource⟩ := source_failed hlevels hbad
    exact ⟨e, h.loadFile_source_failed hfile (fun _ => ⟨t, ht, hsource⟩) fun h => absurd hlevels h⟩
  · exact ⟨_, h.loadFile_source_failed hfile (fun h => absurd h hlevels) fun _ => rfl⟩

/-- The forms that a file is read as are evaluated as the operands of `do`. -/
theorem Intact.loadFile_loop (h : Intact scope s) (hfile : s.host.files path = .ok text)
    {fs : List Value} (hfs : LoadsAs s path text fs) (n : Nat) :
    loadFile (n + 6) scope path s =
      (loop (.limited (n + 5)) (n + 5) (n + 3) (.list (.symbol "do" :: fs)) scope
        (afterFile path (afterCall scope path s)).deeper).mapState State.shallower := by
  have htwo : s.depth + 2 ≤ s.limit := Nat.le_trans (Nat.le_add_right _ 3) hfs.levels
  have hlevels : s.depth + 1 + 4 ≤ s.limit := hfs.levels
  have hread : readFirst s.limit (s.depth + 2) (enclosed text) =
      .ok (.list (.symbol "do" :: fs)) :=
    readFirst_do.mpr ⟨Nat.le_of_succ_le hfs.levels, fs, hfs.forms, rfl⟩
  have hsource : source path text (afterCall scope path s).deeper =
      .done (.list (.symbol "do" :: fs)) (afterFile path (afterCall scope path s)).deeper := by
    rw [source, if_neg (ne_true_of_eq_false hfs.path)]
    change ofExcept (readFirst s.limit (s.depth + 2) (enclosed text)) _ = _
    rw [hread]
    rfl
  have htakes := (h.reads path).deeper.source_takes hfile n
  rw [h.loadFile_eq htwo path (n + 3), bind_apply, (htakes.eq hlevels).trans hsource]
  rfl

theorem loadFile_refines (scope : Scope) (path : String) {n m : Nat} (h : n ≤ m) :
    Refines Counts.same (loadFile n scope path) (loadFile m scope path) :=
  eval_refines h _ scope

/-- Loading a file ends in what it ends in with any fuel but a little. -/
theorem ends_loadFile_eq_iff {o p : Outcome Value} (hp : p ≠ .unfinished)
    (h : ∀ n, loadFile (n + 6) scope path s = p) : Ends (loadFile · scope path) s o ↔ o = p := by
  constructor
  · intro ho
    obtain ⟨n, hn⟩ := ho.eq_of_le (loadFile_refines scope path)
    rw [← hn (n + 6) (Nat.le_add_right n 6), h n]
  · rintro rfl
    exact ⟨hp, 6, h 0⟩

/-- Loading a file that is not read as forms ends in one error. -/
theorem Intact.ends_failed (h : Intact scope s) (hfile : s.host.files path = .ok text)
    (hbad : ∀ fs, ¬ LoadsAs s path text fs) :
    ∃ e t, Untouched s t ∧ ∀ o, Ends (loadFile · scope path) s o ↔ o = .failed e t := by
  obtain ⟨e, t, ht, hfailed⟩ := h.loadFile_failed hfile hbad
  exact ⟨e, t, ht, fun o => ends_loadFile_eq_iff nofun hfailed⟩

/-- Loading a file ends the way its forms do as the operands of `do`. -/
theorem Intact.ends_iff (h : Intact scope s) (hfile : s.host.files path = .ok text)
    {fs : List Value} (hfs : LoadsAs s path text fs) (o : Outcome Value) :
    Ends (loadFile · scope path) s o ↔
      Ends (eval · (.list (.symbol "do" :: fs)) scope)
        (afterFile path (afterCall scope path s)) o := by
  have hlt : (afterFile path (afterCall scope path s)).depth <
      (afterFile path (afterCall scope path s)).limit :=
    Nat.lt_of_lt_of_le (Nat.lt_add_of_pos_right (by decide)) hfs.levels
  constructor
  · intro ho
    obtain ⟨n, hn⟩ := ho.eq_of_le (loadFile_refines scope path)
    have hload := (h.loadFile_loop hfile hfs n).symm.trans (hn (n + 6) (Nat.le_add_right n 6))
    have hend := Outcome.ne_unfinished_of_mapState (hload ▸ ho.1)
    refine ⟨ho.1, n + 6, (eval_eq_loop hlt _ _ scope).trans ?_⟩
    rw [loop_apply_eq (Nat.le_refl _) (Nat.le_add_right _ 2) hend, hload]
  · intro ho
    obtain ⟨n, hn⟩ := ho.eq_of_le (eval_refines · _ scope)
    have hdo := (eval_eq_loop hlt n _ scope).symm.trans (hn (n + 1) (Nat.le_add_right n 1))
    have hend := Outcome.ne_unfinished_of_mapState (hdo ▸ ho.1)
    refine ⟨ho.1, n + 6, (h.loadFile_loop hfile hfs n).trans ?_⟩
    rw [loop_apply_eq (Nat.le_add_right n 5) (Nat.le_add_right n 3) hend, hdo]

end Call

/-- Loading a file evaluates the forms that its text is read as inside the brackets around it, and
where it is read as none it fails and changes nothing. -/
theorem loadFile_outcome {scope : Scope} {s : State} (h : Intact scope s) {path text : String}
    (hfile : s.host.files path = .ok text) :
    ((∀ fs, ¬ LoadsAs s path text fs) →
      ∃ e t, Untouched s t ∧ ∀ o, Ends (loadFile · scope path) s o ↔ o = .failed e t) ∧
    ∀ fs, LoadsAs s path text fs →
      ∃ t, Untouched s t ∧ ∀ o, Ends (loadFile · scope path) s o ↔
        Ends (eval · (.list (.symbol "do" :: fs)) scope) t o := by
  constructor
  · exact h.ends_failed hfile
  · intro fs hfs
    exact ⟨_, (untouched_afterCall scope path s).afterFile path, h.ends_iff hfile hfs⟩

/-- A bracket too many at the end of a file makes the file malformed, and still it is loaded. -/
theorem loadFile_outcome_stray :
    let text := "(def! x 1))"
    ∃ s, start 5 (.initial { Host.plain with files := fun _ => .ok text }) = .done (.global 0) s ∧
      (Intact (.global 0) s ∧ s.host.files "f" = .ok text) ∧
      readAll s.limit s.depth text = .error (.malformed (.unexpectedCloser .round)) ∧
      ∃ t, Ends (loadFile · (.global 0) "f") s (.done (.int 1) t) ∧
        t.binding? 0 "x" = some (.int 1) := by
  have hshown : Value.renderText .display "(def! x 1))" = "(def! x 1))" := rfl
  have htokens : tokenize "(def! x 1))" =
      [.opening .round, .word "def!", .word "x", .word "1", .closing .round] ++
        .closing .round :: [] := by
    decide +kernel
  have hmalformed : readAll State.defaultLimit 0 "(def! x 1))" =
      .error (.malformed (.unexpectedCloser .round)) := rfl
  intro text
  obtain ⟨s, hstart, hs, hload⟩ :=
    start_prepared { Host.plain with files := fun _ => .ok text } 0
  have hintact : Intact (.global 0) s := hs.intact hload
  have hfile : s.host.files "f" = .ok text := by rw [hs.host]
  have hforms : LoadsAs s "f" text [.list [.symbol "def!", .symbol "x", .int 1]] := by
    refine ⟨rfl, ?_, ?_⟩
    · rw [hs.depth, hs.limit]
      decide
    · rw [hs.depth, hs.limit]
      exact .inr ⟨_, _, (congrArg tokenize hshown).trans htokens, rfl⟩
  rw [← hs.limit, ← hs.depth] at hmalformed
  obtain ⟨t, ht, hends⟩ := (loadFile_outcome hintact hfile).2 _ hforms
  have hsize : 0 < s.frames.size := hs.frames ▸ Nat.zero_lt_one
  -- The global scope binds what it bound, so no macro hides `do` and `def!`.
  have hheads (form : SpecialForm) (params body inner tag) :
      t.lookup (.global 0) form.name ≠ some (.closure params body inner true tag) := by
    have hlookup : t.lookup (.global 0) form.name = s.lookup (.global 0) form.name :=
      ht.binding?_eq hsize form.name
    rw [hlookup]
    exact hs.not_macro form params body inner tag
  have hint : Takes 1 (eval 4 (.int 1) (.global 0)) t.deeper (.done (.int 1) t.deeper) :=
    .guarded_of_eq rfl
  have hlevels : t.depth + 2 ≤ t.limit := by
    rw [ht.depth, ht.limit, hs.depth, hs.limit]
    decide
  have hdefine : Takes 1 (special (.limited 4) 4 .define [.symbol "x", .int 1] (.global 0)) t.deeper
      (.done (.done (.int 1)) (t.define (.global 0) "x" (.int 1)).deeper) :=
    hint.bind fun _ => rfl
  have heval := eval_do_takes (hheads .define) (hheads .doInOrder) hdefine
  exact ⟨s, hstart, ⟨hintact, hfile⟩, hmalformed, _, (hends _).mpr ⟨nofun, 5, heval.eq hlevels⟩,
    State.binding?_bind_self (ht.lt_size_frames hsize) "x" (.int 1)⟩

end Session

end Lisp
