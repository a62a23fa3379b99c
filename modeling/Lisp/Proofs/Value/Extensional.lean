import Mathlib.Data.List.Pairwise
import Lisp.Proofs.Value.Lookup

/-!
# Maps as functions of their keys

Maps are equal if the same is found in both, whatever is looked up: no key of the second is left
over where each key of the first is found, because distinct keys find distinct ones. So the order in
which entries came does not matter to equality.
-/

namespace Lisp

open Value

namespace Dict

variable {d xs ys : Dict} {key v : Value} {e f : Value × Value}

/-- No two entries have equal keys. -/
theorem Distinct.eq_of_alike (hd : d.Distinct) (hkeys : ∀ e ∈ d, e.1.WellKeyed) (he : e ∈ d)
    (hf : f ∈ d) (h : e.1.Alike f.1) : e = f := by
  by_contra hne
  have hor : d.Pairwise fun e f => e.1.equal f.1 = .ok false ∨ f.1.equal e.1 = .ok false :=
    hd.imp .inl
  have : Std.Symm fun e f : Value × Value =>
      e.1.equal f.1 = .ok false ∨ f.1.equal e.1 = .ok false := ⟨fun _ _ => Or.symm⟩
  rcases hor.forall he hf hne with happart | happart
  · cases happart.symm.trans h
  · cases happart.symm.trans (equivalenceOn_wellKeyed.symm (hkeys e he) (hkeys f hf) h)

/-- Keys that hold no closure are distinct in every order. -/
theorem Distinct.perm (hd : xs.Distinct) (hkeys : ∀ e ∈ xs, e.1.WellKeyed)
    (hfree : ∀ e ∈ xs, e.1.ClosureFree) (h : xs.Perm ys) : ys.Distinct := by
  have hor : xs.Pairwise fun e f => e.1.equal f.1 = .ok false ∨ f.1.equal e.1 = .ok false :=
    hd.imp .inl
  refine ((h.pairwise_iff Or.symm).mp hor).imp_of_mem fun {e f} he hf hor => ?_
  have he := h.mem_iff.mpr he
  have hf := h.mem_iff.mpr hf
  rcases hor with hef | hfe
  · exact hef
  · exact (equivalenceOn_wellKeyed.comm (hkeys e he) (hkeys f hf) (.inl (hfree e he))).trans hfe

/-- An entry is found at every key that is equal to its own. -/
theorem find?_of_mem (hd : d.Distinct) (hkeys : ∀ e ∈ d, e.1.WellKeyed) (hkey : key.WellKeyed)
    (he : e ∈ d) (h : e.1.Alike key) : d.find? key = .ok (some e.2) := by
  obtain ⟨d₁, d₂, rfl⟩ := List.append_of_mem he
  obtain ⟨-, -, hd₁⟩ := List.pairwise_append.mp hd
  obtain ⟨hkeys₁, -⟩ := List.forall_mem_append.mp hkeys
  exact find?_of_alike (apart_congr hkeys₁ (hkeys e he) hkey h fun f hf => hd₁ f hf e (.head _)) h

/-- If each of some distinct keys has an equal one among others, there are at least as many
others. -/
theorem length_le_of_distinct (hx : ∀ e ∈ xs, e.1.WellKeyed) (hy : ∀ f ∈ ys, f.1.WellKeyed)
    (hxs : xs.Distinct) (hr : ∀ e ∈ xs, ∃ f ∈ ys, f.1.Alike e.1) : xs.length ≤ ys.length := by
  have hequiv := equivalenceOn_wellKeyed
  by_contra hlt
  cases xs with
  | nil => exact hlt (Nat.zero_le _)
  | cons e xs =>
    rw [List.forall_mem_cons] at hx hr
    obtain ⟨he, hxs⟩ := List.pairwise_cons.mp hxs
    -- Without the first key there are still enough of them to take up all the others.
    have hlen : ys.length ≤ xs.length := by
      rw [List.length_cons] at hlt
      omega
    have hinj : xs.Pairwise fun e e' => ∀ f ∈ ys, f.1.Alike e.1 → ¬ f.1.Alike e'.1 := by
      refine hxs.imp_of_mem fun {e e'} he he' happart f hf hfe hfe' => ?_
      have hef := hequiv.symm (hy f hf) (hx.2 e he) hfe
      have hee' := hequiv.trans (hx.2 e he) (hy f hf) (hx.2 e' he') hef hfe'
      cases happart.symm.trans hee'
    obtain ⟨f, hf, hfe⟩ := hr.1
    obtain ⟨e', he', hfe'⟩ := exists_of_pairwise_not hlen hr.2 hinj f hf
    have hef := hequiv.symm (hy f hf) hx.1 hfe
    have hee' := hequiv.trans hx.1 (hy f hf) (hx.2 e' he') hef hfe'
    cases (he e' he').symm.trans hee'

end Dict

namespace Value

variable {xs ys : Dict} {t t' : Value}

theorem hasEntry_eq_true_iff {k v : Value} :
    hasEntry ys k v = .ok true ↔ ∃ w, ys.find? k = .ok (some w) ∧ v.Alike w := by
  induction ys with
  | nil => simp [hasEntry, Dict.find?]
  | cons e ys ih =>
    rw [hasEntry, ite_bind_eq_ok, ih]
    simp only [Dict.find?, ite_bind_eq_ok, Except.ok.injEq, Option.some.injEq]
    constructor
    · rintro (⟨he, hv⟩ | ⟨he, w, hw, hv⟩)
      · exact ⟨e.2, .inl ⟨he, rfl⟩, hv⟩
      · exact ⟨w, .inr ⟨he, hw⟩, hv⟩
    · rintro ⟨w, ⟨he, rfl⟩ | ⟨he, hw⟩, hv⟩
      · exact .inl ⟨he, hv⟩
      · exact .inr ⟨he, w, hw, hv⟩

/-- What is found in a map is found in every map that is equal to it. -/
theorem Alike.find?_eq (h : Alike (.map xs t) (.map ys t')) (hx : ∀ e ∈ xs, e.1.WellKeyed)
    (hy : ∀ f ∈ ys, f.1.WellKeyed) {k v : Value} (hk : k.WellKeyed)
    (hv : xs.find? k = .ok (some v)) : ∃ w, ys.find? k = .ok (some w) ∧ v.Alike w := by
  obtain ⟨k', hmem, hkk'⟩ := Dict.mem_of_find? hv
  obtain ⟨w, hw, hvw⟩ := hasEntry_eq_true_iff.mp ((alike_map_iff.mp h).2 _ hmem)
  exact ⟨w, (Dict.find?_congr hy (hx _ hmem) hk hkk').symm.trans hw, hvw⟩

/-- At a key nothing is found in either of two maps, or equal values in both. -/
def FindsAlike (xs ys : Dict) (k : Value) : Prop :=
  ∃ r r', xs.find? k = .ok r ∧ ys.find? k = .ok r' ∧ Option.Rel Alike r r'

theorem FindsAlike.exists {k v : Value} (h : FindsAlike xs ys k) (hv : xs.find? k = .ok (some v)) :
    ∃ w, ys.find? k = .ok (some w) ∧ v.Alike w := by
  obtain ⟨r, r', hr, hr', hrel⟩ := h
  cases hr.symm.trans hv
  cases hrel with
  | some hvw => exact ⟨_, hr', hvw⟩

theorem FindsAlike.exists_right {k w : Value} (h : FindsAlike xs ys k)
    (hw : ys.find? k = .ok (some w)) : ∃ v, xs.find? k = .ok (some v) ∧ v.Alike w := by
  obtain ⟨r, r', hr, hr', hrel⟩ := h
  cases hr'.symm.trans hw
  cases hrel with
  | some hvw => exact ⟨_, hr, hvw⟩

/-- Maps without closures are equal if and only if the same is found in both at every key. -/
theorem alike_map_iff_findsAlike (hx : (Value.map xs t).WellKeyed) (hy : (Value.map ys t').WellKeyed)
    (hfree : (Value.map xs t).ClosureFree) (hfree' : (Value.map ys t').ClosureFree) :
    Alike (.map xs t) (.map ys t') ↔
      ∀ k, k.ClosureFree → k.WellKeyed → FindsAlike xs ys k := by
  have hequiv := equivalenceOn_wellKeyed
  obtain ⟨hxs, hxKeyed⟩ := wellKeyed_map.mp hx
  obtain ⟨hys, hyKeyed⟩ := wellKeyed_map.mp hy
  rw [closureFree_map] at hfree hfree'
  have hx' (e) (he : e ∈ xs) : WellKeyed e.1 := (hxKeyed e he).1
  have hy' (f) (hf : f ∈ ys) : WellKeyed f.1 := (hyKeyed f hf).1
  constructor
  · intro h k hk hkKeyed
    obtain ⟨r, hr⟩ := Dict.find?_ok (d := xs) hk
    obtain ⟨r', hr'⟩ := Dict.find?_ok (d := ys) hk
    refine ⟨r, r', hr, hr', ?_⟩
    cases r with
    | some v =>
      obtain ⟨w, hw, hvw⟩ := h.find?_eq hx' hy' hkKeyed hr
      cases hr'.symm.trans hw
      exact .some hvw
    | none =>
      cases r' with
      | none => exact .none
      | some w =>
        obtain ⟨v, hv, -⟩ := (hequiv.symm hx hy h).find?_eq hy' hx' hkKeyed hr'
        cases hr.symm.trans hv
  · intro h
    have hforth (e) (he : e ∈ xs) : ∃ f ∈ ys, f.1.Alike e.1 ∧ e.2.Alike f.2 := by
      have he₁ := alike_self (hfree e he).1 (hx' e he)
      obtain ⟨w, hw, hew⟩ := (h e.1 (hfree e he).1 (hx' e he)).exists
        (Dict.find?_of_mem hxs hx' (hx' e he) he he₁)
      obtain ⟨k, hmem, hk⟩ := Dict.mem_of_find? hw
      exact ⟨(k, w), hmem, hk, hew⟩
    have hback (f) (hf : f ∈ ys) : ∃ e ∈ xs, e.1.Alike f.1 := by
      have hf₁ := alike_self (hfree' f hf).1 (hy' f hf)
      obtain ⟨v, hv, -⟩ := (h f.1 (hfree' f hf).1 (hy' f hf)).exists_right
        (Dict.find?_of_mem hys hy' (hy' f hf) hf hf₁)
      obtain ⟨k, hmem, hk⟩ := Dict.mem_of_find? hv
      exact ⟨(k, v), hmem, hk⟩
    refine (hequiv.alike_map_iff_exists hys hx' hy').mpr ⟨Nat.le_antisymm ?_ ?_, hforth⟩
    · exact Dict.length_le_of_distinct hx' hy' hxs fun e he =>
        (hforth e he).imp fun f hf => ⟨hf.1, hf.2.1⟩
    · exact Dict.length_le_of_distinct hy' hx' hys hback

/-! ### The order of entries -/

theorem ClosureFree.perm (h : (Value.map xs t).ClosureFree) (hperm : xs.Perm ys) :
    (Value.map ys t').ClosureFree := by
  rw [closureFree_map] at h ⊢
  exact fun f hf => h f (hperm.mem_iff.mpr hf)

theorem WellKeyed.perm (h : (Value.map xs t).WellKeyed) (hfree : (Value.map xs t).ClosureFree)
    (hperm : xs.Perm ys) : (Value.map ys t').WellKeyed := by
  rw [closureFree_map] at hfree
  rw [wellKeyed_map] at h ⊢
  exact ⟨h.1.perm (fun e he => (h.2 e he).1) (fun e he => (hfree e he).1) hperm,
    fun f hf => h.2 f (hperm.mem_iff.mpr hf)⟩

end Value

end Lisp
