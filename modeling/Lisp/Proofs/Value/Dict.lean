import Lisp.Proofs.Value.Comparison

/-!
# Entries of maps

What inserting and erasing one entry does to the entries of a map: each key is compared with the
given one until the two are equal. Where that fails, it is because two functions had to be compared.
-/

namespace Lisp.Dict

variable {d d' : Dict} {key v : Value}

theorem insert_cons_eq_ok {k w : Value} :
    insert key v ((k, w) :: d) = .ok d' ↔
      k.Alike key ∧ d' = (key, v) :: d ∨
        k.equal key = .ok false ∧ ∃ e, insert key v d = .ok e ∧ d' = (k, w) :: e := by
  rw [insert, Value.ite_bind_eq_ok, Value.Alike]
  cases insert key v d <;> simp [bind, Except.bind, eq_comm]

theorem erase_cons_eq_ok {k w : Value} :
    erase key ((k, w) :: d) = .ok d' ↔
      k.Alike key ∧ d' = d ∨
        k.equal key = .ok false ∧ ∃ e, erase key d = .ok e ∧ d' = (k, w) :: e := by
  rw [erase, Value.ite_bind_eq_ok, Value.Alike]
  cases erase key d <;> simp [bind, Except.bind, eq_comm]

/-- Inserting puts the entry behind all others, or in the place of the first one with an equal
key. -/
theorem insert_eq_ok (h : d.insert key v = .ok d') :
    (∀ e ∈ d, e.1.equal key = .ok false) ∧ d' = d ++ [(key, v)] ∨
      ∃ d₁ e d₂, d = d₁ ++ e :: d₂ ∧ e.1.Alike key ∧ (∀ f ∈ d₁, f.1.equal key = .ok false) ∧
        d' = d₁ ++ (key, v) :: d₂ := by
  induction d generalizing d' with
  | nil =>
    cases h
    exact .inl ⟨nofun, rfl⟩
  | cons e d ih =>
    rcases insert_cons_eq_ok.mp h with ⟨he, rfl⟩ | ⟨he, d'', hd, rfl⟩
    · exact .inr ⟨[], e, d, rfl, he, nofun, rfl⟩
    · rcases ih hd with ⟨hall, rfl⟩ | ⟨d₁, f, d₂, rfl, hf, hall, rfl⟩
      · exact .inl ⟨List.forall_mem_cons.mpr ⟨he, hall⟩, rfl⟩
      · exact .inr ⟨e :: d₁, f, d₂, rfl, hf, List.forall_mem_cons.mpr ⟨he, hall⟩, rfl⟩

/-- Erasing takes out the first entry with an equal key, if there is one. -/
theorem erase_eq_ok (h : d.erase key = .ok d') :
    (∀ e ∈ d, e.1.equal key = .ok false) ∧ d' = d ∨
      ∃ d₁ e d₂, d = d₁ ++ e :: d₂ ∧ e.1.Alike key ∧ (∀ f ∈ d₁, f.1.equal key = .ok false) ∧
        d' = d₁ ++ d₂ := by
  induction d generalizing d' with
  | nil =>
    cases h
    exact .inl ⟨nofun, rfl⟩
  | cons e d ih =>
    rcases erase_cons_eq_ok.mp h with ⟨he, rfl⟩ | ⟨he, d'', hd, rfl⟩
    · exact .inr ⟨[], e, d', rfl, he, nofun, rfl⟩
    · rcases ih hd with ⟨hall, rfl⟩ | ⟨d₁, f, d₂, rfl, hf, hall, rfl⟩
      · exact .inl ⟨List.forall_mem_cons.mpr ⟨he, hall⟩, rfl⟩
      · exact .inr ⟨e :: d₁, f, d₂, rfl, hf, List.forall_mem_cons.mpr ⟨he, hall⟩, rfl⟩

/-- An entry of a map into which one was inserted is that one or was there before. -/
theorem mem_insert (h : d.insert key v = .ok d') : ∀ e ∈ d', e = (key, v) ∨ e ∈ d := by
  intro e he
  rcases insert_eq_ok h with ⟨-, rfl⟩ | ⟨d₁, f, d₂, rfl, -, -, rfl⟩
  · rcases List.mem_append.mp he with he | he
    · exact .inr he
    · exact .inl (List.mem_singleton.mp he)
  · rcases List.mem_append.mp he with he | he
    · exact .inr (List.mem_append_left _ he)
    · rcases List.mem_cons.mp he with rfl | he
      · exact .inl rfl
      · exact .inr (List.mem_append_right _ (.tail _ he))

/-- The keys and values of a map that is made of given ones are among these. -/
theorem mem_insertAll {values : List Value} (h : d.insertAll values = .ok d') :
    ∀ e ∈ d', e ∈ d ∨ e.1 ∈ values ∧ e.2 ∈ values := by
  fun_induction insertAll d values with
  | case1 d key v rest ih =>
    rcases hd : d.insert key v with e' | d''
    · rw [hd] at h
      cases h
    · rw [hd] at h
      intro e he
      rcases ih d'' h e he with he | ⟨hkey, hv⟩
      · rcases mem_insert hd e he with rfl | he
        · exact .inr ⟨.head _, .tail _ (.head _)⟩
        · exact .inl he
      · exact .inr ⟨.tail _ (.tail _ hkey), .tail _ (.tail _ hv)⟩
  | case2 values d hvalues =>
    cases h
    exact fun e he => .inl he

theorem mem_ofValues {values : List Value} (h : ofValues values = .ok d) :
    ∀ e ∈ d, e.1 ∈ values ∧ e.2 ∈ values := by
  unfold ofValues at h
  split at h
  · exact fun e he => (mem_insertAll h e he).resolve_left List.not_mem_nil
  · cases h

/-- What is left of a map was there before, in the same order. -/
theorem erase_sublist (h : d.erase key = .ok d') : d'.Sublist d := by
  rcases erase_eq_ok h with ⟨-, rfl⟩ | ⟨d₁, e, d₂, rfl, -, -, rfl⟩
  · exact List.Sublist.refl _
  · exact (List.append_sublist_append_left d₁).mpr (List.sublist_cons_self e d₂)

/-- The value at a key is the value of some entry with an equal key. -/
theorem mem_of_find? (h : d.find? key = .ok (some v)) : ∃ k, (k, v) ∈ d ∧ k.Alike key := by
  induction d with
  | nil => cases h
  | cons e d ih =>
    rw [find?, Value.ite_bind_eq_ok] at h
    rcases h with ⟨he, h⟩ | ⟨-, h⟩
    · cases h
      exact ⟨e.1, .head _, he⟩
    · obtain ⟨k, hmem, hk⟩ := ih h
      exact ⟨k, .tail _ hmem, hk⟩

/-! ### Errors -/

variable {e : Error}

/-- What is done with a result fails only if there is none. -/
theorem map_eq_error {α β : Type} {x : Except Error α} {f : α → β}
    (h : (do let a ← x; Except.ok (f a)) = .error e) : x = .error e := by
  cases x with
  | ok a => cases h
  | error e =>
    cases h
    rfl

theorem find?_error (h : d.find? key = .error e) : e = .type .functionEquality := by
  induction d with
  | nil => cases h
  | cons f d ih =>
    rw [find?, Value.ite_bind_eq_error] at h
    rcases h with h | ⟨-, h⟩ | ⟨-, h⟩
    · exact Value.equal_error h
    · cases h
    · exact ih h

theorem insert_error (h : d.insert key v = .error e) : e = .type .functionEquality := by
  induction d with
  | nil => cases h
  | cons f d ih =>
    rw [insert, Value.ite_bind_eq_error] at h
    rcases h with h | ⟨-, h⟩ | ⟨-, h⟩
    · exact Value.equal_error h
    · cases h
    · exact ih (map_eq_error h)

theorem erase_error (h : d.erase key = .error e) : e = .type .functionEquality := by
  induction d with
  | nil => cases h
  | cons f d ih =>
    rw [erase, Value.ite_bind_eq_error] at h
    rcases h with h | ⟨-, h⟩ | ⟨-, h⟩
    · exact Value.equal_error h
    · cases h
    · exact ih (map_eq_error h)

theorem insertAll_error {values : List Value} (h : d.insertAll values = .error e) :
    e = .type .functionEquality := by
  fun_induction insertAll d values with
  | case1 d key v rest ih =>
    rcases hd : d.insert key v with e' | d'
    · rw [hd] at h
      cases h
      exact insert_error hd
    · rw [hd] at h
      exact ih d' h
  | case2 d values hvalues => cases h

theorem ofValues_error {values : List Value} (h : ofValues values = .error e) :
    ∃ cause, e = .type cause := by
  unfold ofValues at h
  split at h
  · exact ⟨_, insertAll_error h⟩
  · cases h
    exact ⟨_, rfl⟩

/-! ### Keys without closures -/

/-- A key that holds no closure can be inserted into every map. -/
theorem insert_ok (h : key.ClosureFree) : ∃ d', d.insert key v = .ok d' := by
  induction d with
  | nil => exact ⟨_, rfl⟩
  | cons e d ih =>
    obtain ⟨d', hd⟩ := ih
    obtain ⟨r, hr⟩ := Value.equal_ok_of_closureFree (a := e.1) (.inr h)
    cases r with
    | true => exact ⟨_, insert_cons_eq_ok.mpr (.inl ⟨hr, rfl⟩)⟩
    | false => exact ⟨_, insert_cons_eq_ok.mpr (.inr ⟨hr, d', hd, rfl⟩)⟩

/-- A key that holds no closure can be erased from every map. -/
theorem erase_ok (h : key.ClosureFree) : ∃ d', d.erase key = .ok d' := by
  induction d with
  | nil => exact ⟨_, rfl⟩
  | cons e d ih =>
    obtain ⟨d', hd⟩ := ih
    obtain ⟨r, hr⟩ := Value.equal_ok_of_closureFree (a := e.1) (.inr h)
    cases r with
    | true => exact ⟨_, erase_cons_eq_ok.mpr (.inl ⟨hr, rfl⟩)⟩
    | false => exact ⟨_, erase_cons_eq_ok.mpr (.inr ⟨hr, d', hd, rfl⟩)⟩

theorem insertAll_ok {values : List Value} (h : ∀ v ∈ values, v.ClosureFree) :
    ∃ d', d.insertAll values = .ok d' := by
  fun_induction insertAll d values with
  | case1 d key v rest ih =>
    simp only [List.forall_mem_cons] at h
    obtain ⟨hkey, -, hrest⟩ := h
    obtain ⟨d', hd⟩ := insert_ok (d := d) (v := v) hkey
    obtain ⟨d'', hd'⟩ := ih d' hrest
    exact ⟨d'', by rw [hd]; exact hd'⟩
  | case2 values d hvalues => exact ⟨d, rfl⟩

theorem ofValues_ok {values : List Value} (h : ∀ v ∈ values, v.ClosureFree)
    (hlen : values.length % 2 = 0) : ∃ d, ofValues values = .ok d := by
  rw [ofValues, if_pos hlen]
  exact insertAll_ok h

/-! ### Building a map from its own entries -/

/-- The keys and values of a map, alternating. -/
def toValues (d : Dict) : List Value :=
  d.flatMap fun e => [e.1, e.2]

@[simp] theorem toValues_cons (e : Value × Value) (d : Dict) :
    toValues (e :: d) = e.1 :: e.2 :: toValues d :=
  rfl

theorem length_toValues (d : Dict) : (toValues d).length = 2 * d.length := by
  induction d with
  | nil => rfl
  | cons e d ih =>
    rw [toValues_cons, List.length_cons, List.length_cons, ih, List.length_cons]
    omega

/-- A key that differs from all others comes last. -/
theorem insert_of_apart (h : ∀ e ∈ d, e.1.equal key = .ok false) :
    d.insert key v = .ok (d ++ [(key, v)]) := by
  induction d with
  | nil => rfl
  | cons e d ih =>
    rw [List.forall_mem_cons] at h
    exact insert_cons_eq_ok.mpr (.inr ⟨h.1, _, ih h.2, rfl⟩)

theorem insertAll_toValues {d e : Dict} (h : Distinct (d ++ e)) :
    d.insertAll (toValues e) = .ok (d ++ e) := by
  induction e generalizing d with
  | nil => rw [List.append_nil]; rfl
  | cons f e ih =>
    obtain ⟨-, -, hf⟩ := List.pairwise_append.mp h
    rw [List.append_cons] at h ⊢
    rw [toValues_cons, insertAll, insert_of_apart fun g hg => hf g hg f (.head _)]
    exact ih h

/-- A map is made of its own keys and values in their order. -/
theorem ofValues_toValues (h : d.Distinct) : ofValues (toValues d) = .ok d := by
  rw [ofValues, if_pos (by rw [length_toValues]; omega)]
  exact insertAll_toValues h

theorem toValues_append (d e : Dict) : toValues (d ++ e) = toValues d ++ toValues e :=
  List.flatMap_append

/-- Inserting makes a map longer by one entry, which then comes last, or leaves it as long as it
was. -/
theorem length_insert (h : d.insert key v = .ok d') :
    d' = d ++ [(key, v)] ∨ d'.length = d.length := by
  rcases insert_eq_ok h with ⟨-, rfl⟩ | ⟨d₁, e, d₂, rfl, -, -, rfl⟩
  · exact .inl rfl
  · refine .inr ?_
    rw [List.length_append, List.length_append, List.length_cons, List.length_cons]

/-- A map with an entry for every key that was inserted has these entries in their order: none has
taken the place of another. -/
theorem toValues_of_length {values : List Value} (hlen : values.length % 2 = 0)
    (h : d.insertAll values = .ok d') :
    2 * d'.length ≤ 2 * d.length + values.length ∧
      (2 * d'.length = 2 * d.length + values.length → toValues d' = toValues d ++ values) := by
  fun_induction insertAll d values with
  | case1 d key v rest ih =>
    rcases hd : d.insert key v with e' | d''
    · rw [hd] at h
      cases h
    · rw [hd] at h
      rw [List.length_cons, List.length_cons] at hlen ⊢
      obtain ⟨hle, heq⟩ := ih d'' (by omega) h
      rcases length_insert hd with rfl | hsame
      · rw [List.length_append, List.length_singleton] at hle heq
        refine ⟨by omega, fun hfull => ?_⟩
        rw [heq (by omega), toValues_append, List.append_assoc]
        rfl
      · exact ⟨by omega, fun hfull => by omega⟩
  | case2 values d hvalues =>
    cases h
    cases values with
    | nil => exact ⟨Nat.le_refl _, fun _ => (List.append_nil _).symm⟩
    | cons key rest =>
      cases rest with
      | nil => cases hlen
      | cons v rest => exact absurd rfl (hvalues key v rest)

end Lisp.Dict
