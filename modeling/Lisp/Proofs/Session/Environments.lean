import Lisp.Proofs.Eval.Global
import Lisp.Proofs.Invariant.FrameTree
import Lisp.Proofs.Invariant.Frames

/-!
# Environments of a session

In every state of a session the frames form a tree below the global frame, and every closure has a
scope of that tree. So whoever follows the parents of a frame, to look a name up or to find the
global frame, comes to the global frame of the session after finitely many steps, and that is where
`eval` goes on, wherever it stands.
-/

namespace Lisp

open Run

variable {g : FrameId} {T : FrameTree g} {s : State}

/-- The state left behind is described by a tree that `T` has grown to. That tree has the scopes
that the value captured, or what was thrown. -/
def Outcome.KeepsTree (o : Outcome Value) (T : FrameTree g) : Prop :=
  ∀ t, o.Leaves t → ∃ T', T ≤ T' ∧ T'.Describes t ∧ ∀ c, o.Captures c → T'.Has c

theorem Outcome.Within.keepsTree {o : Outcome Value}
    (ho : o.Within (treelike g) T (treelike g).Value) : o.KeepsTree T := by
  rintro t (⟨v, rfl⟩ | ⟨e, rfl⟩)
  · cases ho with
    | done hle hs hv =>
      exact ⟨_, hle, holds_treelike_iff.mp hs, fun c hc => hc.elim hv.scope_of_captures hs.captured⟩
  · cases ho with
    | failed hle hs he =>
      exact ⟨_, hle, holds_treelike_iff.mp hs, fun c hc => hc.elim he.scope_of_captures hs.captured⟩

/-- Runs that agree under the discipline end alike where the tree describes the state. -/
theorem Run.Agree.keepsTree {x y : Run Value} (h : Agree (treelike g) T (treelike g).Value x y)
    (hs : T.Describes s) : x s = y s ∧ (x s).KeepsTree T := by
  obtain ⟨hxy, hx⟩ := h T s (le_refl T) (holds_treelike_iff.mpr hs)
  exact ⟨hxy, hx.keepsTree⟩

namespace FrameTree.Describes

variable (hs : T.Describes s)
include hs

theorem eval_eq (n : Nat) {form : Value} {e : Scope} (he : T.Has e)
    (hform : ∀ c, form.Captures c → T.Has c) :
    eval n form e s = evalIn g n form e s ∧ (eval n form e s).KeepsTree T :=
  (evalIn_agree (lawful_treelike g) Has.root_eq n (treelike_value hform) he).keepsTree hs

theorem expandMacros_eq (n : Nat) {form : Value} {e : Scope} (he : T.Has e)
    (hform : ∀ c, form.Captures c → T.Has c) :
    expandMacros n form e s = expandMacrosIn g n form e s ∧ (expandMacros n form e s).KeepsTree T :=
  (expandMacrosIn_agree (lawful_treelike g) Has.root_eq n (treelike_value hform) he).keepsTree hs

theorem applyFunction_eq (n : Nat) {f : Value} {args : List Value}
    (hvalues : ∀ v ∈ f :: args, ∀ c, v.Captures c → T.Has c) :
    applyFunction n f args s = applyFunctionIn g n f args s ∧
      (applyFunction n f args s).KeepsTree T := by
  obtain ⟨hf, hargs⟩ := List.forall_mem_cons.mp hvalues
  have hargs : (treelike g).Values T args := fun v hv => treelike_value (hargs v hv)
  exact (applyFunctionIn_agree (lawful_treelike g) Has.root_eq n (treelike_value hf) hargs).keepsTree
    hs

end FrameTree.Describes

namespace Session

variable {scope : Scope}

/-- In every reachable state the frames form a tree that has all scopes that closures captured, and
from then on the tree only grows. The chain of parents of every frame descends to the global frame
of the session, which is the one that `eval` goes on in, whatever is evaluated, expanded or
called. -/
theorem environments_linked (h : Reachable scope s) :
    ∃ T : FrameTree scope.root, T.Describes s ∧ T.Has scope ∧
      ∀ (U : FrameTree scope.root) (t : State), T ≤ U → U.Describes t →
        (∀ f < t.frames.size, (U.chain f).Pairwise (· > ·) ∧
          (U.chain f).getLast? = some scope.root ∧ U.root f = scope.root) ∧
        (∀ c, U.Has c → c.frames = U.chain c.frame ∧ c.root = U.root c.frame ∧
          ∀ name, t.lookup c name = U.lookup t name c.frame) ∧
        (∀ n form e, U.Has e → (∀ c, form.Captures c → U.Has c) →
          (eval n form e t = evalIn scope.root n form e t ∧ (eval n form e t).KeepsTree U) ∧
          expandMacros n form e t = expandMacrosIn scope.root n form e t ∧
            (expandMacros n form e t).KeepsTree U) ∧
        (∀ n f args, (∀ v ∈ f :: args, ∀ c, v.Captures c → U.Has c) →
          applyFunction n f args t = applyFunctionIn scope.root n f args t ∧
            (applyFunction n f args t).KeepsTree U) ∧
        ∀ n (op : Operation) t', (op.perform n scope t).Leaves t' →
          ∃ U', U ≤ U' ∧ U'.Describes t' := by
  obtain rfl := h.scope_eq
  have hD := lawful_treelike 0
  obtain ⟨T, -, hs, hscope⟩ := h.exists_holds (w := FrameTree.single) hD rfl
    (FrameTree.has_global _)
  refine ⟨T, holds_treelike_iff.mp hs, hscope, fun U t hle ht => ⟨?_, ?_, ?_, ?_, ?_⟩⟩
  · intro f hf
    have hroot := U.root_eq (ht.size_eq ▸ hf)
    exact ⟨U.chain_decreasing f, (U.getLast?_chain f).trans (congrArg some hroot), hroot⟩
  · intro c hc
    exact ⟨hc.frames_eq, hc.root_eq.trans (U.root_eq hc.frame_lt).symm, hc.lookup_eq t⟩
  · intro n form e he hform
    exact ⟨ht.eval_eq n he hform, ht.expandMacros_eq n he hform⟩
  · intro n f args hvalues
    exact ht.applyFunction_eq n hvalues
  · intro n op t' ht'
    have hperform := Operation.perform_keepsTo hD (hD.entered_mono hle hscope) n op
    obtain ⟨-, hop⟩ := hperform U t (le_refl U) (holds_treelike_iff.mpr ht)
    obtain ⟨U', hle', hleft⟩ := hop.leaves ht'
    exact ⟨U', hle', holds_treelike_iff.mp hleft⟩

/-- A function `(fn* (a) (fn* () (eval 'a)))` called in a new session yields a function over a new
frame, whose parent is the global frame, and that function looks `a` up in the global frame. -/
theorem environments_linked_returned :
    let body := Value.list [.symbol "eval", .list [.symbol "quote", .symbol "a"]]
    let f := Value.closure ⟨["a"], none⟩ (.list [.symbol "fn*", .list [], body]) (.global 0) false
      .nil
    let made := Value.closure ⟨[], none⟩ body ⟨[1], 0⟩ false .nil
    ∃ s t, Reachable (.global 0) s ∧ applyFunction 5 f [.int 1] s = .done made t ∧
      ∃ T : FrameTree 0, T.Describes t ∧ T.chain 1 = [1, 0] ∧
        ∀ n, applyFunction n made [] t = applyFunctionIn 0 n made [] t := by
  intro body f made
  obtain ⟨s, hstart, hs, -⟩ := start_prepared Host.plain 0
  have hreach : Reachable (.global 0) s := .of_start hstart
  obtain ⟨T, hT, hscope, hlinked⟩ := environments_linked hreach
  have hcaptures : ∀ v ∈ [f, .int 1], ∀ c, v.Captures c → T.Has c := by
    let S : Shape := ⟨fun _ => True, T.Has⟩
    have hsymbol (name : String) : S.Fits (.symbol name) := .leaf trivial
    have hf : S.Fits f := Shape.fits_closure.mpr ⟨hscope, by simp [body, hsymbol], .leaf trivial⟩
    have hone : S.Fits (.int 1) := .leaf trivial
    exact List.forall_mem_cons.mpr ⟨fun _ hc => hf.scope_of_captures hc,
      List.forall_mem_singleton.mpr fun _ hc => hone.scope_of_captures hc⟩
  -- The scope of the call, and the state in which the body is evaluated.
  let inner := (s.newChild (.global 0)).1
  let u := (s.newChild (.global 0)).2.bind s.frames.size "a" (.int 1)
  have hinner : inner = ⟨[1], 0⟩ := congrArg (fun f => Scope.mk [f] 0) hs.frames
  have hcall : applyFunction 5 f [.int 1] s = .done made u := by
    have hmacro (params body inner' tag) :
        u.lookup inner SpecialForm.function.name ≠ some (.closure params body inner' true tag) := by
      rw [s.lookup_bind_newChild_of_ne (.global 0) (by decide) (.int 1)]
      exact hs.not_macro .function params body inner' tag
    have hbody : Takes 1 (eval 5 (.list [.symbol SpecialForm.function.name, .list [], body]) inner)
        u (.done (.closure ⟨[], none⟩ body inner false .nil) u) :=
      eval_special_takes_one hmacro rfl
    have hdepth : u.depth + 1 ≤ u.limit := by
      change s.depth + 1 ≤ s.limit
      rw [hs.depth, hs.limit]
      decide
    have hentered : applyFunction 5 f [.int 1] s =
        eval 5 (.list [.symbol SpecialForm.function.name, .list [], body]) inner u := rfl
    rw [hentered, hbody.eq hdepth, hinner]
  obtain ⟨-, -, -, hcalls, -⟩ := hlinked T s (le_refl T) hT
  obtain ⟨U, hle, hU, hcaptured⟩ := (hcalls 5 f [.int 1] hcaptures).2 u (.inl ⟨made, hcall⟩)
  rw [hcall] at hcaptured
  have hmade : ∀ c, made.Captures c → U.Has c := fun c hc => hcaptured c (.inl hc)
  obtain ⟨-, hscopes, -, hcalls, -⟩ := hlinked U u hle hU
  have hchain := (hscopes ⟨[1], 0⟩ (hmade _ ⟨_, _, _, _, .self⟩)).1
  refine ⟨s, u, hreach, hcall, U, hU, hchain.symm, fun n => ?_⟩
  exact (hcalls n made [] (List.forall_mem_singleton.mpr hmade)).1

end Session

end Lisp
