import Mathlib.Data.List.Forall2
import Lisp.Proofs.Value.Parts

/-!
# How values are compared

Comparing two lists or maps is comparing their parts in turn until one comparison decides. The
lemmas here say so without the recursion: when such a comparison answers at all, when it answers
that the two are equal, and with which error it can fail. Two values of which one holds no closure
are always comparable, and no comparison fails with anything else than a function to compare.
-/

namespace Lisp.Value

section Deciding

variable {α : Type} {x : Except Error Bool} {y z : Except Error α}

/-- One comparison decides what is done next. -/
theorem ite_bind_eq_ok {a : α} :
    (do if ← x then y else z) = .ok a ↔ x = .ok true ∧ y = .ok a ∨ x = .ok false ∧ z = .ok a := by
  rcases x with e | (_ | _) <;> simp [bind, Except.bind]

theorem ite_bind_eq_error {e : Error} :
    (do if ← x then y else z) = .error e ↔
      x = .error e ∨ x = .ok true ∧ y = .error e ∨ x = .ok false ∧ z = .error e := by
  rcases x with e | (_ | _) <;> simp [bind, Except.bind]

end Deciding

/-! ### Unfolding -/

theorem equal_seq (k k' : SeqKind) (xs ys : List Value) (t t' : Value) :
    equal (.seq k xs t) (.seq k' ys t') =
      if xs.length = ys.length then equalItems xs ys else .ok false := by
  rw [equal]

theorem equal_map (xs ys : List (Value × Value)) (t t' : Value) :
    equal (.map xs t) (.map ys t') =
      if xs.length = ys.length then equalEntries xs ys else .ok false := by
  rw [equal]

/-- Comparing answers at once unless both are sequences, both maps or both closures. -/
theorem equal_ok_or (a b : Value) :
    (∃ r, equal a b = .ok r) ∨
      (∃ k xs t k' ys t', a = .seq k xs t ∧ b = .seq k' ys t') ∨
      (∃ xs t ys t', a = .map xs t ∧ b = .map ys t') ∨
      (∃ p w c m t p' w' c' m' t', a = .closure p w c m t ∧ b = .closure p' w' c' m' t') := by
  cases a <;> cases b <;> simp [equal]

/-! ### Answers -/

/-- A property of comparisons that every answer has and that survives one comparison deciding
about another. -/
structure Decisive (Q : Except Error Bool → Prop) : Prop where
  ok : ∀ b, Q (.ok b)
  ite : ∀ {x y z}, Q x → Q y → Q z → Q (do if ← x then y else z)

variable {Q : Except Error Bool → Prop}

theorem decisive_answers : Decisive fun x => ∃ b, x = .ok b where
  ok b := ⟨b, rfl⟩
  ite := by
    rintro _ y z ⟨b, rfl⟩ hy hz
    cases b with
    | true => exact hy
    | false => exact hz

theorem decisive_functionEquality :
    Decisive fun x => ∀ e, x = .error e → e = .type .functionEquality where
  ok b := fun e h => by cases h
  ite := by
    intro x y z hx hy hz e h
    rcases x with e' | (_ | _)
    · cases h
      exact hx _ rfl
    · exact hz e h
    · exact hy e h

theorem Decisive.equalItems (hQ : Decisive Q) {xs ys : List Value}
    (h : ∀ x ∈ xs, ∀ y ∈ ys, Q (equal x y)) : Q (equalItems xs ys) := by
  induction xs generalizing ys with
  | nil =>
    rw [Value.equalItems]
    · exact hQ.ok true
    · simp
  | cons x xs ih =>
    cases ys with
    | nil =>
      rw [Value.equalItems]
      · exact hQ.ok true
      · simp
    | cons y ys =>
      rw [Value.equalItems]
      refine hQ.ite (h x (.head _) y (.head _)) (ih fun x' hx y' hy => ?_) (hQ.ok false)
      exact h x' (.tail _ hx) y' (.tail _ hy)

theorem Decisive.hasEntry (hQ : Decisive Q) {ys : List (Value × Value)} {k v : Value}
    (hk : ∀ e ∈ ys, Q (equal e.1 k)) (hv : ∀ e ∈ ys, Q (equal v e.2)) :
    Q (hasEntry ys k v) := by
  induction ys with
  | nil =>
    rw [Value.hasEntry]
    exact hQ.ok false
  | cons e ys ih =>
    rw [Value.hasEntry]
    refine hQ.ite (hk e (.head _)) (hv e (.head _)) (ih ?_ ?_)
    · exact fun f hf => hk f (.tail _ hf)
    · exact fun f hf => hv f (.tail _ hf)

theorem Decisive.equalEntries (hQ : Decisive Q) {xs ys : List (Value × Value)}
    (hk : ∀ e ∈ xs, ∀ f ∈ ys, Q (equal f.1 e.1)) (hv : ∀ e ∈ xs, ∀ f ∈ ys, Q (equal e.2 f.2)) :
    Q (equalEntries xs ys) := by
  induction xs with
  | nil =>
    rw [Value.equalEntries]
    exact hQ.ok true
  | cons e xs ih =>
    rw [Value.equalEntries]
    refine hQ.ite (hQ.hasEntry (hk e (.head _)) (hv e (.head _))) (ih ?_ ?_) (hQ.ok false)
    · exact fun f hf => hk f (.tail _ hf)
    · exact fun f hf => hv f (.tail _ hf)

/-- What every comparison of two values has that comes down to comparing parts of them. `S` is
what is asked of the two values; keys are looked up in the other map, so it is asked of them in
the other order. -/
theorem Decisive.equal (hQ : Decisive Q) {S : Value → Value → Prop}
    (hseq : ∀ {k xs t k' ys t'}, S (.seq k xs t) (.seq k' ys t') → ∀ x ∈ xs, ∀ y ∈ ys, S x y)
    (hmap : ∀ {xs t ys t'}, S (.map xs t) (.map ys t') →
      ∀ e ∈ xs, ∀ f ∈ ys, S f.1 e.1 ∧ S e.2 f.2)
    (hclosure : ∀ {p w c m t p' w' c' m' t'},
      S (.closure p w c m t) (.closure p' w' c' m' t') → Q (.error (.type .functionEquality)))
    {a b : Value} (h : S a b) : Q (Value.equal a b) := by
  rcases equal_ok_or a b with ⟨r, hr⟩ | ⟨k, xs, t, k', ys, t', rfl, rfl⟩ |
    ⟨xs, t, ys, t', rfl, rfl⟩ | ⟨p, w, c, m, t, p', w', c', m', t', rfl, rfl⟩
  · rw [hr]
    exact hQ.ok r
  · rw [equal_seq]
    split
    · exact hQ.equalItems fun x hx y hy => hQ.equal hseq hmap hclosure (hseq h x hx y hy)
    · exact hQ.ok false
  · rw [equal_map]
    split
    · refine hQ.equalEntries (fun e he f hf => ?_) fun e he f hf => ?_
      · exact hQ.equal hseq hmap hclosure (hmap h e he f hf).1
      · exact hQ.equal hseq hmap hclosure (hmap h e he f hf).2
    · exact hQ.ok false
  · rw [Value.equal]
    exact hclosure h
termination_by sizeOf a + sizeOf b
decreasing_by
  · subst_vars
    exact Nat.add_lt_add (sizeOf_item_lt hx) (sizeOf_item_lt hy)
  · subst_vars
    have he := @sizeOf_entry_lt xs t e he
    have hf := @sizeOf_entry_lt ys t' f hf
    omega
  · subst_vars
    have he := @sizeOf_entry_lt xs t e he
    have hf := @sizeOf_entry_lt ys t' f hf
    omega

/-- Comparing fails with no other error than that two functions had to be compared. -/
theorem equal_error {a b : Value} {e : Error} (h : a.equal b = .error e) :
    e = .type .functionEquality :=
  decisive_functionEquality.equal (S := fun _ _ => True) (fun _ _ _ _ _ => trivial)
    (fun _ _ _ _ _ => ⟨trivial, trivial⟩) (fun _ _ h => by cases h; rfl) trivial e h

/-- Two values can be compared if one of them holds no closure. -/
theorem equal_ok_of_closureFree {a b : Value} (h : a.ClosureFree ∨ b.ClosureFree) :
    ∃ r, a.equal b = .ok r := by
  refine decisive_answers.equal (S := fun a b => a.ClosureFree ∨ b.ClosureFree)
    ?_ ?_ ?_ h
  · rintro k xs t k' ys t' (h | h) x hx y hy
    · exact .inl (closureFree_seq.mp h x hx)
    · exact .inr (closureFree_seq.mp h y hy)
  · rintro xs t ys t' (h | h) e he f hf
    · exact ⟨.inr (closureFree_map.mp h e he).1, .inl (closureFree_map.mp h e he).2⟩
    · exact ⟨.inl (closureFree_map.mp h f hf).1, .inr (closureFree_map.mp h f hf).2⟩
  · rintro p w c m t p' w' c' m' t' (h | h)
    · exact absurd h not_closureFree_closure
    · exact absurd h not_closureFree_closure

/-! ### The answer yes -/

/-- Two values are compared and found equal. -/
def Alike (a b : Value) : Prop :=
  a.equal b = .ok true

theorem equalItems_eq_true_iff {xs ys : List Value} (hlen : xs.length = ys.length) :
    equalItems xs ys = .ok true ↔ List.Forall₂ Alike xs ys := by
  induction xs generalizing ys with
  | nil =>
    cases ys with
    | nil => simp [equalItems]
    | cons y ys => cases hlen
  | cons x xs ih =>
    cases ys with
    | nil => cases hlen
    | cons y ys =>
      rw [equalItems, ite_bind_eq_ok, List.forall₂_cons, ih (Nat.succ.inj hlen)]
      simp [Alike]

theorem equalEntries_eq_true_iff {xs ys : List (Value × Value)} :
    equalEntries xs ys = .ok true ↔ ∀ e ∈ xs, hasEntry ys e.1 e.2 = .ok true := by
  induction xs with
  | nil => simp [equalEntries]
  | cons e xs ih =>
    rw [equalEntries, ite_bind_eq_ok, ih, List.forall_mem_cons]
    simp

/-- An entry that is found has an equal key and an equal value. -/
theorem exists_of_hasEntry {ys : List (Value × Value)} {k v : Value}
    (h : hasEntry ys k v = .ok true) : ∃ f ∈ ys, f.1.Alike k ∧ v.Alike f.2 := by
  induction ys with
  | nil => simp [hasEntry] at h
  | cons f ys ih =>
    rw [hasEntry, ite_bind_eq_ok] at h
    rcases h with ⟨hk, hv⟩ | ⟨_, h⟩
    · exact ⟨f, .head _, hk, hv⟩
    · obtain ⟨g, hg, hgk, hgv⟩ := ih h
      exact ⟨g, .tail _ hg, hgk, hgv⟩

/-- Sequences are equal if they have equal elements, lists and vectors alike. -/
theorem alike_seq_iff {k k' : SeqKind} {xs ys : List Value} {t t' : Value} :
    Alike (.seq k xs t) (.seq k' ys t') ↔ List.Forall₂ Alike xs ys := by
  rw [Alike, equal_seq]
  split
  next hlen => exact equalItems_eq_true_iff hlen
  next hlen => exact ⟨fun h => by simp at h, fun h => absurd h.length_eq hlen⟩

/-- Maps are equal if they have as many entries and the second has an equal one for each entry of
the first. -/
theorem alike_map_iff {xs ys : List (Value × Value)} {t t' : Value} :
    Alike (.map xs t) (.map ys t') ↔
      xs.length = ys.length ∧ ∀ e ∈ xs, hasEntry ys e.1 e.2 = .ok true := by
  rw [Alike, equal_map, ← equalEntries_eq_true_iff]
  split
  next hlen => simp [hlen]
  next hlen => simp [hlen]

/-- Equal values are the same unless both are sequences or both are maps. -/
theorem Alike.eq_or {a b : Value} (h : Alike a b) :
    a = b ∧ a.ClosureFree ∨
      (∃ k xs t k' ys t', a = .seq k xs t ∧ b = .seq k' ys t' ∧ List.Forall₂ Alike xs ys) ∨
      ∃ xs t ys t', a = .map xs t ∧ b = .map ys t' ∧ xs.length = ys.length ∧
        ∀ e ∈ xs, hasEntry ys e.1 e.2 = .ok true := by
  cases a with
  | seq k xs t =>
    cases b with
    | seq k' ys t' => exact .inr (.inl ⟨_, _, _, _, _, _, rfl, rfl, alike_seq_iff.mp h⟩)
    | _ => simp [Alike, equal] at h
  | map xs t =>
    cases b with
    | map ys t' => exact .inr (.inr ⟨_, _, _, _, rfl, rfl, alike_map_iff.mp h⟩)
    | _ => simp [Alike, equal] at h
  | closure => cases b <;> simp [Alike, equal] at h
  | _ =>
    cases b <;> simp only [Alike, equal, reduceCtorEq, Except.ok.injEq, beq_iff_eq] at h
    all_goals
      subst_vars
      exact .inl ⟨rfl, closureFree_of_childless trivial⟩

end Lisp.Value
