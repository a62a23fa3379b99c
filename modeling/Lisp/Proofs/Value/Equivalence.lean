import Lisp.Builtin.Call
import Lisp.Proofs.Value.Comparison

/-!
# Equality is an equivalence

Two maps are compared by looking the keys of the first one up in the second, so that the second is
exhausted as well is a matter of counting: distinct keys find distinct keys. That argument needs
symmetry and transitivity for the keys, which may hold maps in turn, so `EquivalenceOn` collects
what is known about the parts of values and `EquivalenceOn.madeOf` says that the same is then known
about the values themselves.
-/

namespace Lisp

/-- If `xs` is at least as long as `ys` and no two of its elements are related to the same one of
`ys`, then nothing in `ys` is left out. -/
theorem exists_of_pairwise_not {α β : Type} {r : α → β → Prop} {xs : List α} {ys : List β}
    (hlen : ys.length ≤ xs.length) (hr : ∀ x ∈ xs, ∃ y ∈ ys, r x y)
    (hinj : xs.Pairwise fun x x' => ∀ y ∈ ys, r x y → ¬ r x' y) : ∀ y ∈ ys, ∃ x ∈ xs, r x y := by
  induction xs generalizing ys with
  | nil =>
    rw [List.eq_nil_of_length_eq_zero (Nat.le_zero.mp hlen)]
    exact fun y hy => absurd hy List.not_mem_nil
  | cons x xs ih =>
    obtain ⟨y, hy, hxy⟩ := hr x (.head _)
    obtain ⟨hx, hxs⟩ := List.pairwise_cons.mp hinj
    -- What is related to another element is still there once `y` is taken away.
    obtain ⟨as, bs, rfl⟩ := List.append_of_mem hy
    have hsub {z : β} (hz : z ∈ as ++ bs) : z ∈ as ++ y :: bs := by
      rw [List.mem_append, List.mem_cons]
      exact (List.mem_append.mp hz).imp_right .inr
    have hrest (z : β) (hz : z ∈ as ++ y :: bs) : z = y ∨ z ∈ as ++ bs := by
      simp only [List.mem_append, List.mem_cons] at hz ⊢
      tauto
    have hleft (x' : α) (hx' : x' ∈ xs) : ∃ z ∈ as ++ bs, r x' z := by
      obtain ⟨z, hz, hx'z⟩ := hr x' (.tail _ hx')
      rcases hrest z hz with rfl | hz
      · exact absurd hx'z (hx x' hx' z hy hxy)
      · exact ⟨z, hz, hx'z⟩
    have hlen' : (as ++ bs).length ≤ xs.length := by
      simp only [List.length_append, List.length_cons] at hlen ⊢
      omega
    intro z hz
    rcases hrest z hz with rfl | hz
    · exact ⟨x, .head _, hxy⟩
    · obtain ⟨x', hx', hx'z⟩ := ih hlen' hleft (hxs.imp fun h z hz => h z (hsub hz)) z hz
      exact ⟨x', .tail _ hx', hx'z⟩

namespace Value

/-- Among the values in `S` equality is symmetric and transitive, and what equals something holds
no closure. -/
structure EquivalenceOn (S : Value → Prop) : Prop where
  closureFree : ∀ {a b}, S a → S b → Alike a b → a.ClosureFree
  symm : ∀ {a b}, S a → S b → Alike a b → Alike b a
  trans : ∀ {a b c}, S a → S b → S c → Alike a b → Alike b c → Alike a c

namespace EquivalenceOn

variable {S : Value → Prop} (h : EquivalenceOn S)
include h

theorem mono {T : Value → Prop} (hT : ∀ v, T v → S v) : EquivalenceOn T where
  closureFree ha hb := h.closureFree (hT _ ha) (hT _ hb)
  symm ha hb := h.symm (hT _ ha) (hT _ hb)
  trans ha hb hc := h.trans (hT _ ha) (hT _ hb) (hT _ hc)

/-- Equal values compare alike with any other on the right. -/
theorem congr_left {a b c : Value} (ha : S a) (hb : S b) (hc : S c) (hab : Alike a b) :
    a.equal c = b.equal c := by
  have hba := h.symm ha hb hab
  have hiff : Alike a c ↔ Alike b c := ⟨h.trans hb ha hc hba, h.trans ha hb hc hab⟩
  obtain ⟨r, hr⟩ := equal_ok_of_closureFree (b := c) (.inl (h.closureFree ha hb hab))
  obtain ⟨r', hr'⟩ := equal_ok_of_closureFree (b := c) (.inl (h.closureFree hb ha hba))
  rw [Alike, Alike, hr, hr'] at hiff
  rw [hr, hr']
  cases r <;> cases r' <;> simp_all

/-- Equal values compare alike with any other on the left. -/
theorem congr_right {a b c : Value} (ha : S a) (hb : S b) (hc : S c) (hab : Alike a b) :
    c.equal a = c.equal b := by
  have hba := h.symm ha hb hab
  have hiff : Alike c a ↔ Alike c b :=
    ⟨fun hca => h.trans hc ha hb hca hab, fun hcb => h.trans hc hb ha hcb hba⟩
  obtain ⟨r, hr⟩ := equal_ok_of_closureFree (a := c) (.inr (h.closureFree ha hb hab))
  obtain ⟨r', hr'⟩ := equal_ok_of_closureFree (a := c) (.inr (h.closureFree hb ha hba))
  rw [Alike, Alike, hr, hr'] at hiff
  rw [hr, hr']
  cases r <;> cases r' <;> simp_all

/-- The order in which two values are compared does not matter if one of them holds no closure. -/
theorem comm {a b : Value} (ha : S a) (hb : S b) (hfree : a.ClosureFree ∨ b.ClosureFree) :
    a.equal b = b.equal a := by
  have hiff : Alike a b ↔ Alike b a := ⟨h.symm ha hb, h.symm hb ha⟩
  obtain ⟨r, hr⟩ := equal_ok_of_closureFree hfree
  obtain ⟨r', hr'⟩ := equal_ok_of_closureFree hfree.symm
  rw [Alike, Alike, hr, hr'] at hiff
  rw [hr, hr']
  cases r <;> cases r' <;> simp_all

/-- An entry with an equal key and an equal value is found. -/
theorem hasEntry_of_mem {d : Dict} (hd : d.Distinct) (hS : ∀ e ∈ d, S e.1) {f : Value × Value}
    (hf : f ∈ d) {k v : Value} (hk : S k) (hfk : f.1.Alike k) (hv : v.Alike f.2) :
    hasEntry d k v = .ok true := by
  induction d with
  | nil => exact absurd hf List.not_mem_nil
  | cons e d ih =>
    obtain ⟨he, hd⟩ := List.pairwise_cons.mp hd
    rw [hasEntry, ite_bind_eq_ok]
    rcases List.mem_cons.mp hf with rfl | hf
    · exact .inl ⟨hfk, hv⟩
    · refine .inr ⟨?_, ih hd (fun e he => hS e (.tail _ he)) hf⟩
      rw [← h.congr_right (hS f (.tail _ hf)) hk (hS e (.head _)) hfk]
      exact he f hf

/-- Maps with distinct keys are equal if they have as many entries and each entry of the first has
an equal one among those of the second, wherever it is. -/
theorem alike_map_iff_exists {xs ys : Dict} {t t' : Value} (hys : ys.Distinct)
    (hx : ∀ e ∈ xs, S e.1) (hy : ∀ f ∈ ys, S f.1) :
    Alike (.map xs t) (.map ys t') ↔
      xs.length = ys.length ∧ ∀ e ∈ xs, ∃ f ∈ ys, f.1.Alike e.1 ∧ e.2.Alike f.2 := by
  rw [alike_map_iff]
  refine and_congr_right fun _ => forall₂_congr fun e he => ⟨exists_of_hasEntry, ?_⟩
  rintro ⟨f, hf, hfe, hef⟩
  exact h.hasEntry_of_mem hys hy hf (hx e he) hfe hef

/-- If as many entries with distinct keys have equal ones among `ys`, then no entry of `ys` is left
out. -/
theorem exists_of_distinct {xs ys : Dict} (hlen : ys.length ≤ xs.length) (hxs : xs.Distinct)
    (hx : ∀ e ∈ xs, S e.1) (hy : ∀ f ∈ ys, S f.1)
    (hr : ∀ e ∈ xs, ∃ f ∈ ys, f.1.Alike e.1 ∧ e.2.Alike f.2) :
    ∀ f ∈ ys, ∃ e ∈ xs, f.1.Alike e.1 ∧ e.2.Alike f.2 := by
  refine exists_of_pairwise_not hlen hr (hxs.imp_of_mem ?_)
  intro e e' he he' hapart f hf hfe hfe'
  have hee' := h.trans (hx e he) (hy f hf) (hx e' he') (h.symm (hy f hf) (hx e he) hfe.1) hfe'.1
  rw [Alike, show e.1.equal e'.1 = .ok false from hapart] at hee'
  cases hee'

end EquivalenceOn

/-- The elements of a sequence are in `S`, and so are the keys and values of a map, whose keys are
distinct. -/
def MadeOf (S : Value → Prop) : Value → Prop
  | .seq _ items _ => ∀ x ∈ items, S x
  | .map entries _ => Dict.Distinct entries ∧ ∀ e ∈ entries, S e.1 ∧ S e.2
  | _ => True

namespace EquivalenceOn

variable {S : Value → Prop}

/-- What is known about the equality of parts is known about what is made of them. -/
theorem madeOf (h : EquivalenceOn S) : EquivalenceOn (MadeOf S) where
  closureFree {a b} ha hb hab := by
    rcases hab.eq_or with ⟨-, hfree⟩ | ⟨k, xs, t, k', ys, t', rfl, rfl, hxy⟩ |
      ⟨xs, t, ys, t', rfl, rfl, -, hxy⟩
    · exact hfree
    · rw [closureFree_seq]
      intro x hx
      obtain ⟨i, hi, rfl⟩ := List.getElem_of_mem hx
      obtain ⟨hlen, hget⟩ := List.forall₂_iff_get.mp hxy
      exact h.closureFree (ha _ hx) (hb _ (List.getElem_mem (hlen ▸ hi))) (hget i hi (hlen ▸ hi))
    · rw [closureFree_map]
      intro e he
      obtain ⟨f, hf, hfe, hef⟩ := exists_of_hasEntry (hxy e he)
      have hef' := h.symm (hb.2 f hf).1 (ha.2 e he).1 hfe
      exact ⟨h.closureFree (ha.2 e he).1 (hb.2 f hf).1 hef',
        h.closureFree (ha.2 e he).2 (hb.2 f hf).2 hef⟩
  symm {a b} ha hb hab := by
    rcases hab.eq_or with ⟨rfl, -⟩ | ⟨k, xs, t, k', ys, t', rfl, rfl, hxy⟩ |
      ⟨xs, t, ys, t', rfl, rfl, -⟩
    · exact hab
    · obtain ⟨hlen, hget⟩ := List.forall₂_iff_get.mp hxy
      refine alike_seq_iff.mpr (List.forall₂_iff_get.mpr ⟨hlen.symm, fun i hi hi' => ?_⟩)
      exact h.symm (ha _ (List.get_mem ..)) (hb _ (List.get_mem ..)) (hget i hi' hi)
    · have hx (e) (he : e ∈ xs) : S e.1 := (ha.2 e he).1
      have hy (f) (hf : f ∈ ys) : S f.1 := (hb.2 f hf).1
      obtain ⟨hlen, hxy⟩ := (h.alike_map_iff_exists hb.1 hx hy).mp hab
      refine (h.alike_map_iff_exists ha.1 hy hx).mpr ⟨hlen.symm, fun f hf => ?_⟩
      obtain ⟨e, he, hfe, hef⟩ := h.exists_of_distinct (Nat.le_of_eq hlen.symm) ha.1 hx hy hxy f hf
      exact ⟨e, he, h.symm (hy f hf) (hx e he) hfe, h.symm (ha.2 e he).2 (hb.2 f hf).2 hef⟩
  trans {a b c} ha hb hc hab hbc := by
    rcases hab.eq_or with ⟨rfl, -⟩ | ⟨k, xs, t, k', ys, t', rfl, rfl, hxy⟩ |
      ⟨xs, t, ys, t', rfl, rfl, -⟩
    · exact hbc
    · rcases hbc.eq_or with ⟨rfl, -⟩ | ⟨_, _, _, k, zs, t, hys, rfl, hyz⟩ | ⟨_, _, _, _, hys, -⟩
      · exact hab
      · cases hys
        obtain ⟨hlen, hget⟩ := List.forall₂_iff_get.mp hxy
        obtain ⟨hlen', hget'⟩ := List.forall₂_iff_get.mp hyz
        refine alike_seq_iff.mpr (List.forall₂_iff_get.mpr ⟨hlen.trans hlen', fun i hi hi' => ?_⟩)
        have hi₁ : i < ys.length := hlen ▸ hi
        exact h.trans (ha _ (List.get_mem ..)) (hb _ (List.get_mem ..)) (hc _ (List.get_mem ..))
          (hget i hi hi₁) (hget' i hi₁ hi')
      · cases hys
    · rcases hbc.eq_or with ⟨rfl, -⟩ | ⟨_, _, _, _, _, _, hys, -⟩ | ⟨_, _, zs, t, hys, rfl, -⟩
      · exact hab
      · cases hys
      · cases hys
        have hx (e) (he : e ∈ xs) : S e.1 := (ha.2 e he).1
        have hy (f) (hf : f ∈ ys) : S f.1 := (hb.2 f hf).1
        have hz (g) (hg : g ∈ zs) : S g.1 := (hc.2 g hg).1
        obtain ⟨hlen, hxy⟩ := (h.alike_map_iff_exists hb.1 hx hy).mp hab
        obtain ⟨hlen', hyz⟩ := (h.alike_map_iff_exists hc.1 hy hz).mp hbc
        refine (h.alike_map_iff_exists hc.1 hx hz).mpr ⟨hlen.trans hlen', fun e he => ?_⟩
        obtain ⟨f, hf, hfe, hef⟩ := hxy e he
        obtain ⟨g, hg, hgf, hfg⟩ := hyz f hf
        exact ⟨g, hg, h.trans (hz g hg) (hy f hf) (hx e he) hgf hfe,
          h.trans (ha.2 e he).2 (hb.2 f hf).2 (hc.2 g hg).2 hef hfg⟩

end EquivalenceOn

/-- What is well keyed is made of smaller parts that are. -/
theorem WellKeyed.madeOf {n : Nat} {v : Value} (hv : v.WellKeyed) (hn : sizeOf v < n + 1) :
    MadeOf (fun w => WellKeyed w ∧ sizeOf w < n) v := by
  cases v with
  | seq kind items tag =>
    intro x hx
    have hlt := @sizeOf_item_lt kind items tag x hx
    exact ⟨wellKeyed_seq.mp hv x hx, by omega⟩
  | map entries tag =>
    obtain ⟨hd, hentries⟩ := wellKeyed_map.mp hv
    refine ⟨hd, fun e he => ?_⟩
    have hlt := @sizeOf_entry_lt entries tag e he
    exact ⟨⟨(hentries e he).1, by omega⟩, (hentries e he).2, by omega⟩
  | _ => trivial

theorem equivalenceOn_below (n : Nat) : EquivalenceOn fun v => WellKeyed v ∧ sizeOf v < n := by
  induction n with
  | zero => exact ⟨nofun, nofun, nofun⟩
  | succ n ih => exact ih.madeOf.mono fun v hv => hv.1.madeOf hv.2

/-- Equality of values whose maps have distinct keys is symmetric and transitive. -/
theorem equivalenceOn_wellKeyed : EquivalenceOn WellKeyed where
  closureFree {a b} ha hb := by
    have h := equivalenceOn_below (sizeOf a + sizeOf b + 1)
    exact h.closureFree ⟨ha, by omega⟩ ⟨hb, by omega⟩
  symm {a b} ha hb := by
    have h := equivalenceOn_below (sizeOf a + sizeOf b + 1)
    exact h.symm ⟨ha, by omega⟩ ⟨hb, by omega⟩
  trans {a b c} ha hb hc := by
    have h := equivalenceOn_below (sizeOf a + sizeOf b + sizeOf c + 1)
    exact h.trans ⟨ha, by omega⟩ ⟨hb, by omega⟩ ⟨hc, by omega⟩

/-- A value without closures equals itself. -/
theorem alike_self {a : Value} (hfree : a.ClosureFree) (ha : a.WellKeyed) : Alike a a := by
  induction a with
  | seq kind items tag ih =>
    rw [closureFree_seq] at hfree
    rw [wellKeyed_seq] at ha
    exact alike_seq_iff.mpr (List.forall₂_same.mpr fun x hx => ih x hx (hfree x hx) (ha x hx))
  | map entries tag ih =>
    rw [closureFree_map] at hfree
    rw [wellKeyed_map] at ha
    have hkeys (e) (he : e ∈ entries) : WellKeyed e.1 := (ha.2 e he).1
    refine (equivalenceOn_wellKeyed.alike_map_iff_exists ha.1 hkeys hkeys).mpr
      ⟨rfl, fun e he => ⟨e, he, ?_, ?_⟩⟩
    · exact (ih e he).1 (hfree e he).1 (ha.2 e he).1
    · exact (ih e he).2 (hfree e he).2 (ha.2 e he).2
  | closure => exact absurd hfree not_closureFree_closure
  | _ => simp [Alike, equal]

/-- Maps with the same entries in another order are equal. -/
theorem alike_of_perm {xs ys : Dict} {t t' : Value} (hperm : xs.Perm ys)
    (hfree : ClosureFree (.map xs t)) (hx : WellKeyed (.map xs t)) (hy : WellKeyed (.map ys t')) :
    Alike (.map xs t) (.map ys t') := by
  rw [closureFree_map] at hfree
  rw [wellKeyed_map] at hx hy
  refine (equivalenceOn_wellKeyed.alike_map_iff_exists hy.1 (fun e he => (hx.2 e he).1)
    fun f hf => (hy.2 f hf).1).mpr ⟨hperm.length_eq, fun e he => ⟨e, hperm.subset he, ?_, ?_⟩⟩
  · exact alike_self (hfree e he).1 (hx.2 e he).1
  · exact alike_self (hfree e he).2 (hx.2 e he).2

/-! ### The laws of equality -/

/-- An atom equals itself alone, whatever the two atoms hold. -/
theorem alike_atom_iff {cell : CellId} {v : Value} : Alike (.atom cell) v ↔ v = .atom cell := by
  cases v with
  | atom cell' =>
    rw [Alike, equal]
    simpa using eq_comm
  | _ => simp [Alike, equal]

/-- A built-in function equals itself alone. -/
theorem alike_builtin_iff {f : Builtin} {v : Value} : Alike (.builtin f) v ↔ v = .builtin f := by
  cases v with
  | builtin f' =>
    rw [Alike, equal]
    simpa using eq_comm
  | _ => simp [Alike, equal]

/-- Values whose maps have distinct keys can be compared if one of them holds no closure. Among
those without closures equality is an equivalence; neither the kind of a sequence nor the order of a
map's entries matters to it, atoms and built-in functions equal themselves alone, and the state in
which two values are compared plays no part. -/
theorem equality_laws {a b c : Value} (ha : a.WellKeyed) (hb : b.WellKeyed) (hc : c.WellKeyed) :
    (a.ClosureFree ∨ b.ClosureFree → ∃ r, a.equal b = .ok r) ∧
      (a.ClosureFree → a.equal a = .ok true) ∧
      (a.ClosureFree ∨ b.ClosureFree → a.equal b = b.equal a) ∧
      (a.equal b = .ok true → b.equal c = .ok true → a.equal c = .ok true) ∧
      (∀ k xs t k' ys t', a = .seq k xs t → b = .seq k' ys t' →
        (a.equal b = .ok true ↔ List.Forall₂ (fun x y => x.equal y = .ok true) xs ys)) ∧
      (∀ xs t ys t', a = .map xs t → b = .map ys t' → a.ClosureFree → xs.Perm ys →
        a.equal b = .ok true ∧ a.equal c = b.equal c ∧ c.equal a = c.equal b) ∧
      (∀ cell, a = .atom cell → (a.equal b = .ok true ↔ b = .atom cell)) ∧
      (∀ f, a = .builtin f → (a.equal b = .ok true ↔ b = .builtin f)) ∧
      ∀ read ap (s : State),
        Builtin.eq.call read ap [a, b] s = Run.ofExcept (.bool <$> a.equal b) s := by
  have h := equivalenceOn_wellKeyed
  refine ⟨equal_ok_of_closureFree, fun hfree => alike_self hfree ha, h.comm ha hb,
    h.trans ha hb hc, ?_, ?_, ?_, ?_, fun read ap s => ?_⟩
  · rintro k xs t k' ys t' rfl rfl
    exact alike_seq_iff
  · rintro xs t ys t' rfl rfl hfree hperm
    have hab := alike_of_perm hperm hfree ha hb
    exact ⟨hab, h.congr_left ha hb hc hab, h.congr_right ha hb hc hab⟩
  · rintro cell rfl
    exact alike_atom_iff
  · rintro f rfl
    exact alike_builtin_iff
  · have hcall : Builtin.equality [a, b] = .bool <$> a.equal b := by
      cases hab : a.equal b <;>
        simp only [Builtin.equality, Builtin.two, bind, Except.bind, hab] <;> rfl
    rw [← hcall]
    rfl

/-- Two maps with the same two entries in another order are equal. -/
theorem equality_laws_reordered :
    let a := dict [(.int 1, .atom 0), (.text "k", .nil)]
    let b := dict [(.text "k", .nil), (.int 1, .atom 0)]
    (a.WellKeyed ∧ b.WellKeyed ∧ a.ClosureFree) ∧ a.equal b = .ok true := by
  intro a b
  have ha : a.WellKeyed := by
    refine wellKeyed_map.mpr ⟨by simp [Dict.Distinct, Dict.Apart, equal], ?_⟩
    rintro e (_ | ⟨_, _ | ⟨_, ⟨⟩⟩⟩) <;>
      exact ⟨wellKeyed_of_childless trivial, wellKeyed_of_childless trivial⟩
  have hb : b.WellKeyed := by
    refine wellKeyed_map.mpr ⟨by simp [Dict.Distinct, Dict.Apart, equal], ?_⟩
    rintro e (_ | ⟨_, _ | ⟨_, ⟨⟩⟩⟩) <;>
      exact ⟨wellKeyed_of_childless trivial, wellKeyed_of_childless trivial⟩
  have hfree : a.ClosureFree := by
    refine closureFree_map.mpr ?_
    rintro e (_ | ⟨_, _ | ⟨_, ⟨⟩⟩⟩) <;>
      exact ⟨closureFree_of_childless trivial, closureFree_of_childless trivial⟩
  obtain ⟨-, -, -, -, -, hperm, -⟩ := equality_laws ha hb ha
  exact ⟨⟨ha, hb, hfree⟩, (hperm _ _ _ _ rfl rfl hfree (.swap ..)).1⟩

end Value

end Lisp
