import Mathlib.Data.List.Induction
import Lisp.Proofs.Value.Dict
import Lisp.Proofs.Value.Equivalence

/-!
# Looking keys up

A key is looked up by comparing it with the keys of a map until one is equal, and inserting and
erasing stop at that key as well. That the other keys are not touched, and that nothing is found any
more at a key that was erased, is because equality is an equivalence and the keys of a map differ
from each other.
-/

namespace Lisp.Dict

open Value

variable {d d' : Dict} {k key key' v w : Value} {b : Bool}

/-! ### Finding -/

theorem find?_cons_of_alike (h : k.Alike key) : find? key ((k, w) :: d) = .ok (some w) := by
  rw [find?, show k.equal key = .ok true from h]
  rfl

theorem find?_cons_of_apart (h : k.equal key = .ok false) :
    find? key ((k, w) :: d) = find? key d := by
  rw [find?, h]
  rfl

/-- A key that holds no closure can be looked up in every map. -/
theorem find?_ok (h : key.ClosureFree) : ∃ r, d.find? key = .ok r := by
  induction d with
  | nil => exact ⟨none, rfl⟩
  | cons e d ih =>
    obtain ⟨b, hb⟩ := equal_ok_of_closureFree (a := e.1) (.inr h)
    cases b with
    | true => exact ⟨_, find?_cons_of_alike hb⟩
    | false => rwa [find?_cons_of_apart hb]

theorem find?_of_apart (h : ∀ e ∈ d, e.1.equal key = .ok false) : d.find? key = .ok none := by
  induction d with
  | nil => rfl
  | cons e d ih =>
    rw [List.forall_mem_cons] at h
    exact (find?_cons_of_apart h.1).trans (ih h.2)

theorem find?_of_alike {d₁ d₂ : Dict} {e : Value × Value}
    (h₁ : ∀ f ∈ d₁, f.1.equal key = .ok false) (he : e.1.Alike key) :
    find? key (d₁ ++ e :: d₂) = .ok (some e.2) := by
  induction d₁ with
  | nil => exact find?_cons_of_alike he
  | cons f d₁ ih =>
    rw [List.forall_mem_cons] at h₁
    exact (find?_cons_of_apart h₁.1).trans (ih h₁.2)

theorem contains_of_find? {r : Option Value} (h : d.find? key = .ok r) :
    d.contains key = .ok r.isSome := by
  rw [contains, h]
  rfl

/-- What is found behind entries that stay does not depend on them. -/
theorem find?_append_congr (d₁ : Dict) {d₂ d₂' : Dict} (h : d₂.find? key = d₂'.find? key) :
    find? key (d₁ ++ d₂) = find? key (d₁ ++ d₂') := by
  induction d₁ with
  | nil => exact h
  | cons e d₁ ih => rw [List.cons_append, List.cons_append, find?, find?, ih]

/-! ### Equal keys -/

/-- A key that differs from all others differs from them like any key that is equal to it. -/
theorem apart_congr (hd : ∀ e ∈ d, e.1.WellKeyed) (hkey : key.WellKeyed) (hkey' : key'.WellKeyed)
    (h : key.Alike key') (hall : ∀ e ∈ d, e.1.equal key = .ok false) :
    ∀ e ∈ d, e.1.equal key' = .ok false := by
  intro e he
  rw [← equivalenceOn_wellKeyed.congr_right hkey hkey' (hd e he) h]
  exact hall e he

theorem find?_congr (hd : ∀ e ∈ d, e.1.WellKeyed) (hkey : key.WellKeyed) (hkey' : key'.WellKeyed)
    (h : key.Alike key') : d.find? key = d.find? key' := by
  induction d with
  | nil => rfl
  | cons e d ih =>
    rw [List.forall_mem_cons] at hd
    rw [find?, find?, ih hd.2, equivalenceOn_wellKeyed.congr_right hkey hkey' hd.1 h]

/-! ### Finding what was inserted or erased -/

section Update

variable (hd : ∀ e ∈ d, e.1.WellKeyed) (hkey : key.WellKeyed) (hkey' : key'.WellKeyed)
include hd hkey hkey'

/-- Behind an insertion the new value is found at equal keys, and at all others what was there
before. -/
theorem find?_insert (h : d.insert key v = .ok d') (hb : key.equal key' = .ok b) :
    d'.find? key' = if b then .ok (some v) else d.find? key' := by
  rcases insert_eq_ok h with ⟨hall, rfl⟩ | ⟨d₁, e, d₂, rfl, he, hall, rfl⟩
  · cases b with
    | true => exact find?_of_alike (apart_congr hd hkey hkey' hb hall) hb
    | false =>
      have hnone : find? key' [(key, v)] = find? key' [] := find?_cons_of_apart hb
      have hsame := find?_append_congr d hnone
      rwa [List.append_nil] at hsame
  · rw [List.forall_mem_append, List.forall_mem_cons] at hd
    obtain ⟨hd₁, heKeyed, -⟩ := hd
    cases b with
    | true => exact find?_of_alike (apart_congr hd₁ hkey hkey' hb hall) hb
    | false =>
      have hb' : e.1.equal key' = .ok false :=
        (equivalenceOn_wellKeyed.congr_left heKeyed hkey hkey' he).trans hb
      exact find?_append_congr d₁
        ((find?_cons_of_apart hb).trans (find?_cons_of_apart hb').symm)

/-- Nothing is found any more at keys that are equal to one that was erased, and at all others what
was there before. -/
theorem find?_erase (hdistinct : d.Distinct) (h : d.erase key = .ok d')
    (hb : key.equal key' = .ok b) :
    d'.find? key' = if b then .ok none else d.find? key' := by
  have hequiv := equivalenceOn_wellKeyed
  rcases erase_eq_ok h with ⟨hall, rfl⟩ | ⟨d₁, e, d₂, rfl, he, hall, rfl⟩
  · cases b with
    | true => exact find?_of_apart (apart_congr hd hkey hkey' hb hall)
    | false => rfl
  · rw [List.forall_mem_append, List.forall_mem_cons] at hd
    obtain ⟨hd₁, heKeyed, hd₂⟩ := hd
    cases b with
    | true =>
      obtain ⟨-, hdistinct, -⟩ := List.pairwise_append.mp hdistinct
      have hfree : e.1.ClosureFree := hequiv.closureFree heKeyed hkey he
      have hekey' : e.1.Alike key' := hequiv.trans heKeyed hkey hkey' he hb
      -- The keys behind the one that was erased differ from it.
      have hapart (f) (hf : f ∈ d₂) : f.1.equal e.1 = .ok false :=
        (hequiv.comm (hd₂ f hf) heKeyed (.inr hfree)).trans
          ((List.pairwise_cons.mp hdistinct).1 f hf)
      refine find?_of_apart (List.forall_mem_append.mpr ⟨?_, ?_⟩)
      · exact apart_congr hd₁ hkey hkey' hb hall
      · exact apart_congr hd₂ heKeyed hkey' hekey' hapart
    | false =>
      have hb' : e.1.equal key' = .ok false := (hequiv.congr_left heKeyed hkey hkey' he).trans hb
      exact find?_append_congr d₁ (find?_cons_of_apart hb').symm

end Update

/-! ### Building maps -/

/-- Keys and values that alternate are those of some entries. -/
theorem exists_toValues {values : List Value} (hlen : values.length % 2 = 0) :
    ∃ entries, values = toValues entries := by
  induction values using List.twoStepInduction with
  | nil => exact ⟨[], rfl⟩
  | singleton v => cases hlen
  | cons_cons key v values ih _ =>
    rw [List.length_cons, List.length_cons] at hlen
    obtain ⟨entries, rfl⟩ := ih (by omega)
    exact ⟨(key, v) :: entries, rfl⟩

/-- A map is built by inserting one entry after the other. -/
theorem insertAll_eq_foldlM (d entries : Dict) :
    d.insertAll (toValues entries) = entries.foldlM (fun d e => Dict.insert e.1 e.2 d) d := by
  induction entries generalizing d with
  | nil => rfl
  | cons e entries ih =>
    rw [toValues_cons, insertAll, List.foldlM_cons]
    exact congrArg _ (funext ih)

theorem ofValues_eq_foldlM (entries : Dict) :
    ofValues (toValues entries) = entries.foldlM (fun d e => Dict.insert e.1 e.2 d) [] := by
  rw [ofValues, if_pos (by rw [length_toValues]; omega)]
  exact insertAll_eq_foldlM [] entries

/-! ### The laws of maps -/

/-- With keys that hold no closure nothing that is done with a map fails. What was inserted is found
at equal keys and what was erased at none, and other keys find what they found before. An entry with
an equal key is replaced in its place, by the new key and the new value, and an entry with a new key
comes last; at most one entry is erased and the others keep their order. Maps are built by inserting
from left to right, by `assoc` as by `hash-map`, and a map is built again from its own keys and
values. -/
theorem map_laws (hdistinct : d.Distinct) (hd : ∀ e ∈ d, e.1.WellKeyed)
    (hfree : key.ClosureFree) (hkey : key.WellKeyed) (hkey' : key'.WellKeyed) (v : Value) :
    (∃ r b, d.find? key = .ok r ∧ d.contains key = .ok r.isSome ∧ key.equal key' = .ok b ∧
      (∃ d', d.insert key v = .ok d' ∧
        d'.find? key' = (if b then .ok (some v) else d.find? key') ∧
        (r = none → d' = d ++ [(key, v)]) ∧
        (r ≠ none → ∃ d₁ e d₂, d = d₁ ++ e :: d₂ ∧ e.1.equal key = .ok true ∧
          d' = d₁ ++ (key, v) :: d₂)) ∧
      ∃ d', d.erase key = .ok d' ∧
        d'.find? key' = (if b then .ok none else d.find? key') ∧
        (r = none → d' = d) ∧
        (r ≠ none → ∃ d₁ e d₂, d = d₁ ++ e :: d₂ ∧ e.1.equal key = .ok true ∧ d' = d₁ ++ d₂)) ∧
    ofValues (toValues d) = .ok d ∧
    ∀ kvs : List Value, kvs.length % 2 = 0 →
      (∃ entries, kvs = toValues entries ∧
        ofValues kvs = entries.foldlM (fun d e => Dict.insert e.1 e.2 d) []) ∧
      ∀ tag read ap s,
        Builtin.hashMap.call read ap kvs s = Run.ofExcept ((.map · .nil) <$> ofValues kvs) s ∧
        Builtin.assoc.call read ap (.map [] tag :: kvs) s =
          Run.ofExcept ((.map · tag) <$> ofValues kvs) s := by
  refine ⟨?_, ofValues_toValues hdistinct, fun kvs hlen => ⟨?_, fun tag read ap s => ⟨?_, ?_⟩⟩⟩
  · obtain ⟨r, hr⟩ := find?_ok (d := d) hfree
    obtain ⟨b, hb⟩ := equal_ok_of_closureFree (b := key') (.inl hfree)
    obtain ⟨d', hinsert⟩ := insert_ok (d := d) (v := v) hfree
    obtain ⟨d'', herase⟩ := erase_ok (d := d) hfree
    refine ⟨r, b, hr, contains_of_find? hr, hb,
      ⟨d', hinsert, find?_insert hd hkey hkey' hinsert hb, ?_⟩,
      d'', herase, find?_erase hd hkey hkey' hdistinct herase hb, ?_⟩
    · rcases insert_eq_ok hinsert with ⟨hall, rfl⟩ | ⟨d₁, e, d₂, rfl, he, hall, rfl⟩
      · rw [find?_of_apart hall] at hr
        cases hr
        exact ⟨fun _ => rfl, fun h => absurd rfl h⟩
      · rw [find?_of_alike hall he] at hr
        cases hr
        exact ⟨nofun, fun _ => ⟨d₁, e, d₂, rfl, he, rfl⟩⟩
    · rcases erase_eq_ok herase with ⟨hall, rfl⟩ | ⟨d₁, e, d₂, rfl, he, hall, rfl⟩
      · rw [find?_of_apart hall] at hr
        cases hr
        exact ⟨fun _ => rfl, fun h => absurd rfl h⟩
      · rw [find?_of_alike hall he] at hr
        cases hr
        exact ⟨nofun, fun _ => ⟨d₁, e, d₂, rfl, he, rfl⟩⟩
  · obtain ⟨entries, rfl⟩ := exists_toValues hlen
    exact ⟨entries, rfl, ofValues_eq_foldlM entries⟩
  · change Run.ofExcept (Builtin.mapping kvs) s = _
    rw [Builtin.mapping]
    cases ofValues kvs <;> rfl
  · have hassoc : Builtin.associated (.map [] tag :: kvs) = (.map · tag) <$> ofValues kvs := by
      rw [ofValues, if_pos hlen]
      change (if kvs.length % 2 = 0 then _ else _) = _
      rw [if_pos hlen]
      cases insertAll [] kvs <;> rfl
    rw [← hassoc]
    rfl

/-- A vector takes the place of the list that is equal to it. -/
theorem map_laws_compound :
    let d : Dict := [(.list [.int 1], .nil), (.dict [(.int 2, .int 3)], .bool true)]
    d.Distinct ∧
      (∃ d', d.insert (.vector [.int 1]) (.int 5) = .ok d' ∧
        d'.find? (.list [.int 1]) = .ok (some (.int 5))) ∧
      ofValues (toValues d) = .ok d := by
  have hfree (n : Int64) : (Value.int n).ClosureFree := closureFree_of_childless trivial
  have hkeyed (n : Int64) : (Value.int n).WellKeyed := wellKeyed_of_childless trivial
  have hlist (kind : SeqKind) : (Value.seq kind [.int 1] .nil).ClosureFree :=
    closureFree_seq.mpr (List.forall_mem_singleton.mpr (hfree 1))
  have hlist' (kind : SeqKind) : (Value.seq kind [.int 1] .nil).WellKeyed :=
    wellKeyed_seq.mpr (List.forall_mem_singleton.mpr (hkeyed 1))
  have hdict : (Value.dict [(.int 2, .int 3)]).WellKeyed :=
    wellKeyed_map.mpr ⟨List.pairwise_singleton .., List.forall_mem_singleton.mpr
      ⟨hkeyed 2, hkeyed 3⟩⟩
  intro d
  have hdistinct : d.Distinct := by
    simp [d, Distinct, Apart, list, dict, equal]
  have hd : ∀ e ∈ d, e.1.WellKeyed :=
    List.forall_mem_cons.mpr ⟨hlist' .list, List.forall_mem_singleton.mpr hdict⟩
  have halike : (Value.vector [.int 1]).equal (.list [.int 1]) = .ok true :=
    alike_seq_iff.mpr (.cons (alike_self (hfree 1) (hkeyed 1)) .nil)
  obtain ⟨⟨r, b, -, -, hb, ⟨d', hinsert, hfind, -⟩, -⟩, hvalues, -⟩ :=
    map_laws hdistinct hd (hlist .vector) (hlist' .vector) (hlist' .list) (.int 5)
  cases hb.symm.trans halike
  exact ⟨hdistinct, ⟨d', hinsert, hfind⟩, hvalues⟩

end Lisp.Dict
