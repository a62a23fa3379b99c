import Lisp.State

/-!
# Runs

A run takes a state and ends in a value or an error, with the state it leaves behind. Errors keep
what happened before them. A third outcome stands for a run that has not ended: one that was given
too little fuel, or one that prints a text without end. It is no error, and no handler sees it.

`guarded` counts nested calls: it raises the count around a run and refuses it at the limit.
-/

namespace Lisp

/-- How a run ends. -/
inductive Outcome (α : Type)
  | done (a : α) (s : State)
  | failed (e : Error) (s : State)
  /-- The fuel did not last, as none would for a text without end. -/
  | unfinished

/-- A computation that works on the state. -/
def Run (α : Type) := State → Outcome α

namespace Outcome

variable {α β : Type}

/-- Continues behind a value. -/
@[inline] def andThen (o : Outcome α) (f : α → State → Outcome β) : Outcome β :=
  match o with
  | done a s => f a s
  | failed e s => failed e s
  | unfinished => unfinished

/-- Changes the state left behind, whatever the outcome. -/
@[inline] def mapState (f : State → State) : Outcome α → Outcome α
  | done a s => done a (f s)
  | failed e s => failed e (f s)
  | unfinished => unfinished

end Outcome

namespace Run

variable {α β : Type}

@[always_inline, inline] instance : Monad Run where
  pure a := fun s => .done a s
  bind x f := fun s => (x s).andThen f

instance : LawfulMonad Run :=
  LawfulMonad.mk' Run
    (fun x => funext fun s => by
      show (x s).andThen .done = x s
      cases x s <;> rfl)
    (fun _ _ => rfl)
    (fun x f g => funext fun s => by
      show ((x s).andThen f).andThen g = (x s).andThen fun a s => (f a s).andThen g
      cases x s <;> rfl)

/-- Fails with an error. -/
@[inline] def raise (e : Error) : Run α :=
  fun s => .failed e s

/-- A run that does not end, or whose fuel did not last. -/
@[inline] def unfinished : Run α :=
  fun _ => .unfinished

/-- Looks at the state. -/
@[inline] def inspect (f : State → α) : Run α :=
  fun s => .done (f s) s

/-- Looks at the state for the texts of values. If one of them has no end, it is never done. -/
def printing (vs : List Value) (f : State → α) : Run α := fun s =>
  if vs.all s.prints then .done (f s) s else .unfinished

/-- The text of a value. -/
def shown (style : Style) (v : Value) : Run String :=
  printing [v] fun s => s.render style v

/-- Changes the state. -/
@[inline] def update (f : State → State) : Run Unit :=
  fun s => .done () (f s)

/-- Changes the state and yields a value. -/
@[inline] def modify (f : State → α × State) : Run α :=
  fun s => match f s with
    | (a, s) => .done a s

/-- Asks the host for something, and fails if it refuses. -/
def request (source : Source) (f : State → Except HostError α × State) : Run α := fun s =>
  match f s with
  | (.ok a, s) => .done a s
  | (.error cause, s) => .failed (.unreadable source cause) s

/-- Yields the value, or fails with the error, of a computation that needs no state. -/
@[inline] def ofExcept (x : Except Error α) : Run α :=
  match x with
  | .ok a => pure a
  | .error e => raise e

@[always_inline, inline] instance : MonadLift (Except Error) Run where
  monadLift := ofExcept

/-- Continues with the value of a run or with its error. -/
@[inline] def handle (x : Run α) (f : α → Run β) (g : Error → Run β) : Run β := fun s =>
  match x s with
  | .done a s => f a s
  | .failed e s => g e s
  | .unfinished => .unfinished

/-- Runs `x` as one more nested call, unless as many are under way as the limit allows. -/
def guarded (x : Run α) : Run α := fun s =>
  if s.limit ≤ s.depth then .failed (.depthExceeded s.limit) s
  else
    (x { s with depth := s.depth + 1 }).mapState fun s => { s with depth := s.depth - 1 }

/-- As many nested calls as `n` and one more, around the count `n`. -/
def nested : Nat → Run Nat
  | 0 => guarded (return 0)
  | n + 1 => guarded do return (← nested n) + 1

/-! ### What each operation does to a state -/

/-- A value leaves the state as it is. -/
@[simp] theorem pure_apply (a : α) (s : State) : (pure a : Run α) s = .done a s := rfl

/-- A run continues in the state that the one before it leaves behind. -/
@[simp] theorem bind_apply (x : Run α) (f : α → Run β) (s : State) :
    (x >>= f) s = (x s).andThen f := rfl

/-- An error leaves the state as it is. -/
@[simp] theorem raise_apply (e : Error) (s : State) : (raise e : Run α) s = .failed e s := rfl

/-- Looking at the state leaves it as it is. -/
@[simp] theorem inspect_apply (f : State → α) (s : State) : inspect f s = .done (f s) s := rfl

/-- Values whose texts end are looked at. -/
theorem printing_of_prints {vs : List Value} {s : State} (h : ∀ v ∈ vs, s.prints v = true)
    (f : State → α) : printing vs f s = .done (f s) s :=
  if_pos (List.all_eq_true.mpr h)

/-- A text without end is never done with. -/
theorem printing_of_not_prints {vs : List Value} {s : State} {v : Value} (hv : v ∈ vs)
    (h : s.prints v = false) (f : State → α) : printing vs f s = .unfinished :=
  if_neg fun hall => Bool.false_ne_true (h.symm.trans (List.all_eq_true.mp hall v hv))

/-- What the host answers is the value. -/
theorem request_of_ok (source : Source) (f : State → Except HostError α × State) {s t : State}
    {a : α} (h : f s = (.ok a, t)) : request source f s = .done a t := by
  rw [request, h]

/-- Changing the state yields nothing. -/
@[simp] theorem update_apply (f : State → State) (s : State) : update f s = .done () (f s) := rfl

/-- Changing the state can yield a value. -/
@[simp] theorem modify_apply (f : State → α × State) (s : State) :
    modify f s = .done (f s).1 (f s).2 := rfl

/-- At the limit a nested call is refused before it begins. -/
theorem guarded_of_limit_le (x : Run α) {s : State} (h : s.limit ≤ s.depth) :
    guarded x s = .failed (.depthExceeded s.limit) s := by
  simp [guarded, h]

/-- Below the limit a nested call is counted while it is under way. -/
theorem guarded_of_depth_lt (x : Run α) {s : State} (h : s.depth < s.limit) :
    guarded x s =
      (x { s with depth := s.depth + 1 }).mapState fun s => { s with depth := s.depth - 1 } := by
  simp [guarded, Nat.not_le.2 h]

end Run

end Lisp
