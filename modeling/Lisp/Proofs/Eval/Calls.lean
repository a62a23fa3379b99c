import Lisp.Proofs.Eval.Completion

/-!
# The two ways of calling a function

A call that a step of evaluation ends in leaves the body of a closure to the loop that the step is
part of (`CallsInPlace`). A built-in function that calls another one has it applied, which
evaluates the body by a nested call (`Applies`). Both are `Direct.call` and differ in nothing but
how a body is evaluated, so they end alike as long as no nested call is refused. The functions
`apply` and `map` call functions in the second way; what they come to is said in terms of it.
-/

namespace Lisp

open Run

open Fueled (Refining)

variable {f : Value} {args : List Value} {s : State} {o p : Outcome Value}

/-- Applying a function to arguments ends in `o`, and no nested call is refused on the way. -/
def Applies (f : Value) (args : List Value) : State → Outcome Value → Prop :=
  Completes fun nested n => Eval.apply nested n f args

/-- A step that calls a function ends in `o` once the loop that it is part of has run what it leads
to, and no nested call is refused on the way. -/
def CallsInPlace (f : Value) (args : List Value) : State → Outcome Value → Prop :=
  Completes fun nested n => Eval.invoke nested n f args >>= Eval.Step.proceed (Eval.loop nested n n)

/-- Applying a function to each of the values in turn ends in the list of the results, or in the
first error, behind which it is not applied any more. -/
abbrev AppliesEach (f : Value) : List Value → State → Outcome (List Value) → Prop :=
  Each fun x => Applies f [x]

/-! ### What a call consists of -/

theorem Eval.apply_succ (nested : NestedCalls) (n : Nat) (f : Value) (args : List Value) :
    Eval.apply nested (n + 1) f args = Direct.call nested nested.eval n f args := by
  cases f <;> rfl

theorem Eval.proceed_refines {R : Counts → Counts → Prop} {a b : NestedCalls}
    (h : a.Refines R b) {n m k l : Nat} (hnm : n ≤ m) (hkl : k ≤ l) (next : Eval.Step) :
    Refines R (Eval.Step.proceed (Eval.loop a n k) next)
      (Eval.Step.proceed (Eval.loop b m l) next) := by
  cases next with
  | done v => exact .pure v
  | next form scope => exact Eval.loop_refines h hnm hkl form scope

namespace Fueled.Refining

theorem applied (f : Value) (args : List Value) :
    Refining fun nested n => Direct.call nested nested.eval n f args := by
  simp only [← Eval.apply_succ]
  exact ⟨fun h hnm => Eval.apply_refines h (Nat.succ_le_succ hnm) f args⟩

theorem proceed (next : Eval.Step) :
    Refining fun nested n => Eval.Step.proceed (Eval.loop nested n n) next :=
  ⟨fun h hnm => Eval.proceed_refines h hnm hnm next⟩

theorem called (f : Value) (args : List Value) :
    Refining fun nested n => Direct.call nested (Eval.loop nested n n) n f args := by
  simp only [Direct.call_eq]
  exact bind ⟨fun h hnm => Eval.invoke_refines h hnm f args⟩ proceed

theorem mapOnto (f : Value) (done xs : List Value) :
    Refining fun nested n => Builtin.mapOnto (Eval.apply nested n) f done xs :=
  ⟨fun h hnm => Builtin.mapOnto_refines (Eval.apply_refines h hnm) f done xs⟩

end Fueled.Refining

theorem applies_iff :
    Applies f args s o ↔
      Completes (fun nested n => Direct.call nested nested.eval n f args) s o :=
  completes_congr_succ (.apply f args) fun nested n => congrFun (Eval.apply_succ nested n f args) s

theorem callsInPlace_iff : CallsInPlace f args s o ↔
    Completes (fun nested n => Direct.call nested (Eval.loop nested n n) n f args) s o := by
  simp only [Direct.call_eq]
  rfl

/-- Calling a built-in function in place is applying it. -/
theorem callsInPlace_builtin_iff {b : Builtin} :
    CallsInPlace (.builtin b) args s o ↔ Applies (.builtin b) args s o := by
  rw [callsInPlace_iff, applies_iff]
  rfl

/-! ### The two ways agree -/

/-- What applying a function ends in, calling it in place ends in, which needs a level less. -/
theorem Applies.callsInPlace (h : Applies f args s o) : CallsInPlace f args s o := by
  rw [applies_iff] at h
  rw [callsInPlace_iff]
  cases f with
  | closure params body scope isMacro tag =>
    have henter := Refining.enterClosure params scope args
    obtain ⟨q, hq, hlead⟩ := (completes_bind_iff henter fun inner => .eval body inner).mp h
    refine (completes_bind_iff henter fun inner => .loop body inner).mpr
      ⟨q, hq, hlead.mono fun inner t _ ht => ?_⟩
    obtain ⟨-, p, hp, rfl⟩ := evaluates_iff.mp ht
    exact hp.shallower (.loop body inner)
  | _ => exact h

/-- What calling a function in place ends in, applying it one level further out ends in. -/
theorem CallsInPlace.applies (hs : s.depth < s.limit) (h : CallsInPlace f args s.deeper o) :
    Applies f args s (o.mapState State.shallower) := by
  rw [callsInPlace_iff] at h
  rw [applies_iff]
  cases f with
  | closure params body scope isMacro tag =>
    have henter := Refining.enterClosure params scope args
    obtain ⟨q, hq, hlead⟩ :=
      (tail_evaluates_iff henter (fun _ => body) id hs).mp ⟨o, h, rfl⟩
    exact (completes_bind_iff henter fun inner => .eval body inner).mpr
      ⟨_, hq.shallower henter, hlead⟩
  | _ => exact h.shallower (.applied _ args)

theorem CallsInPlace.unique (h : CallsInPlace f args s o) (h' : CallsInPlace f args s p) :
    o = p :=
  Completes.unique (.called f args) (callsInPlace_iff.mp h) (callsInPlace_iff.mp h')

/-! ### Functions that call functions -/

theorem call_spread (nested : NestedCalls) (n : Nat) (f : Value) (before items : List Value)
    (kind : SeqKind) (tag : Value) :
    Direct.call nested nested.eval n (.builtin .apply) (f :: (before ++ [.seq kind items tag])) =
      Eval.apply nested n f (before ++ items) := by
  obtain ⟨a, more, hargs⟩ : ∃ a more, before ++ [.seq kind items tag] = a :: more := by
    cases before <;> exact ⟨_, _, rfl⟩
  rw [hargs]
  change (Run.ofExcept (Builtin.apply.itemsOf ((a :: more).getLastD .nil)) >>= fun last =>
    Eval.apply nested n f ((a :: more).dropLast ++ last)) = _
  rw [← hargs, List.getLastD_concat, List.dropLast_concat]
  rfl

theorem call_map (nested : NestedCalls) (n : Nat) {f xs : Value} {items : List Value}
    (hitems : Builtin.map.itemsOrNil xs = .ok items) :
    Direct.call nested nested.eval n (.builtin .map) [f, xs] =
      Builtin.mapOnto (Eval.apply nested n) f [] items := by
  change (Run.ofExcept (Builtin.map.itemsOrNil xs) >>= fun items =>
    Builtin.mapOnto (Eval.apply nested n) f [] items) = _
  rw [hitems]
  rfl

/-- Calling `apply` is applying its function to the arguments in front of the last one and those
that the last one lists. -/
theorem applies_spread_iff {before items : List Value} {kind : SeqKind} {tag : Value} :
    Applies (.builtin .apply) (f :: (before ++ [.seq kind items tag])) s o ↔
      Applies f (before ++ items) s o := by
  rw [applies_iff]
  simp only [call_spread]
  rfl

/-- Calling `map` is applying its function to each element of a sequence in turn. -/
theorem applies_map_iff {xs : Value} {items : List Value}
    (hitems : Builtin.map.itemsOrNil xs = .ok items) :
    Applies (.builtin .map) [f, xs] s o ↔
      ∃ q, AppliesEach f items s q ∧ o = q.andThen fun ws t => .done (.list ws) t := by
  rw [applies_iff]
  simp only [call_map _ _ hitems]
  exact completes_each_iff Value.list (fun x => .apply f [x]) (.mapOnto f) (fun _ => rfl)
    fun _ _ _ => rfl

/-- Applying a function and calling it in place end alike, if the limit leaves the level that
applying it takes. So `apply` comes to a call with all the arguments, and `map` to a call for each
element in turn. -/
theorem calls_agree (f : Value) (args : List Value) (s : State) :
    (∀ o, Applies f args s o → CallsInPlace f args s o ∧ ∀ p, CallsInPlace f args s p → p = o) ∧
    (s.depth < s.limit → ∀ o, CallsInPlace f args s.deeper o →
      Applies f args s (o.mapState State.shallower)) ∧
    (∀ before kind items tag o,
      CallsInPlace (.builtin .apply) (f :: (before ++ [.seq kind items tag])) s o ↔
        Applies f (before ++ items) s o) ∧
    ∀ xs items o, Builtin.map.itemsOrNil xs = .ok items →
      (CallsInPlace (.builtin .map) [f, xs] s o ↔
        ∃ q, AppliesEach f items s q ∧ o = q.andThen fun ws t => .done (.list ws) t) := by
  refine ⟨fun o ho => ⟨ho.callsInPlace, fun p hp => hp.unique ho.callsInPlace⟩,
    fun hs o ho => ho.applies hs, fun before kind items tag o => ?_, fun xs items o hitems => ?_⟩
  · exact callsInPlace_builtin_iff.trans applies_spread_iff
  · exact callsInPlace_builtin_iff.trans (applies_map_iff hitems)

/-- The identity, called in place, applied, and mapped over one element. -/
theorem calls_agree_identity :
    let f := Value.closure ⟨["x"], none⟩ (.symbol "x") (.global 0) false .nil
    let s := (State.initial Host.plain).newGlobal.2
    let t := s.newFrame.2.bind 1 "x" (.int 7)
    (s.depth < s.limit ∧ CallsInPlace f [.int 7] s.deeper (.done (.int 7) t.deeper)) ∧
      Applies f [.int 7] s (.done (.int 7) t) ∧
        CallsInPlace (.builtin .map) [f, .list [.int 7]] s (.done (.list [.int 7]) t) := by
  intro f s t
  have hs : s.depth < s.limit := by decide
  have hcalls : CallsInPlace f [.int 7] s.deeper (.done (.int 7) t.deeper) := by
    rw [callsInPlace_iff]
    refine (completes_iff_ends (.called f [.int 7])).mpr ⟨Outcome.done_ne_unfinished _ _, 5, ?_⟩
    simp only [t, s, State.bind, State.newGlobal, State.newFrame, State.initial]
    cbv
  obtain ⟨-, happlies, -, hmap⟩ := calls_agree f [.int 7] s
  have happlied : Applies f [.int 7] s (.done (.int 7) t) := happlies hs _ hcalls
  exact ⟨⟨hs, hcalls⟩, happlied, (hmap _ _ _ rfl).mpr ⟨_, .cons happlied .nil, rfl⟩⟩

end Lisp
