import Lisp.Proofs.Invariant.DistinctKeys
import Lisp.Proofs.Reader.Printing

/-!
# Reading what was read and written

Every form that the reader yields is written as a text that the reader takes at the same levels:
`readFirst_written`. It need not be the same form. The name in front of which the reader puts the
mark of keywords may begin with that mark itself, and then it is left as it is; of a mark that is
written twice one is therefore lost. A form is read back as itself if and only if no name of a
keyword in it begins with the mark.

The proof is by induction over the tokens that spell the form. What is read back may be another
form at every place, so the entries of a map are compared as a whole: if as many come out as were
written, none has taken the place of another.
-/

namespace Lisp

namespace Value

/-- No keyword in the value has a name that begins with the mark of keywords. -/
def NamesUnmarked : Value → Prop :=
  HoldsIn False fun
    | .text s => ∀ name, keywordName? s = some name → isKeyword name = false
    | _ => True

theorem namesUnmarked_seq {kind : SeqKind} {items : List Value} {tag : Value} :
    NamesUnmarked (.seq kind items tag) ↔ ∀ x ∈ items, NamesUnmarked x := by
  simp [NamesUnmarked, holdsIn_seq_iff]

theorem namesUnmarked_map {entries : Dict} {tag : Value} :
    NamesUnmarked (.map entries tag) ↔ ∀ x ∈ Dict.toValues entries, NamesUnmarked x := by
  simp only [NamesUnmarked, holdsIn_map_iff, true_and, false_implies, and_true, Dict.toValues,
    List.mem_flatMap, List.mem_cons, List.not_mem_nil, or_false]
  constructor
  · rintro h x ⟨e, he, rfl | rfl⟩
    · exact (h e he).1
    · exact (h e he).2
  · exact fun h e he => ⟨h e.1 ⟨e, he, .inl rfl⟩, h e.2 ⟨e, he, .inr rfl⟩⟩

end Value

namespace Reader

open Scan Value

/-- The text of `v` is cut into tokens that spell `w`, nested `n` deep at most. -/
def ReadsBack (cell : CellId → String) (n : Nat) (v w : Value) : Prop :=
  ∃ m us, m ≤ n ∧ Puts (fun out => v.renderOnto .readable cell out) us ∧ Derives m us w

/-- The text of `v` is cut into tokens that spell a form, which is `v` if and only if no name of a
keyword in it begins with the mark. -/
def Survives (cell : CellId → String) (n : Nat) (v : Value) : Prop :=
  ∃ w, ReadsBack cell n v w ∧ (w = v ↔ v.NamesUnmarked)

variable {cell : CellId → String} {n m : Nat} {us : List Token} {v w : Value} {vs ws : List Value}

theorem Survives.mono (h : Survives cell n v) (hle : n ≤ m) : Survives cell m v := by
  obtain ⟨w, ⟨k, us, hk, hus⟩, hw⟩ := h
  exact ⟨w, ⟨k, us, Nat.le_trans hk hle, hus⟩, hw⟩

theorem Derives.pos (h : Derives n us v) : 0 < n := by
  cases h <;> exact Nat.succ_pos _

/-! ### Forms one after the other -/

theorem readsBack_items (h : List.Forall₂ (ReadsBack cell n) vs ws) :
    ∃ m us, m ≤ n ∧ Puts (fun out => renderItems .readable cell out vs) us ∧
      DerivesAll m us ws := by
  induction h with
  | nil => exact ⟨0, [], Nat.zero_le n, puts_nil, .nil⟩
  | @cons v w vs ws hv hvs ih =>
    obtain ⟨m, us, hm, hputs, hw⟩ := hv
    obtain ⟨m', us', hm', hputs', hws⟩ := ih
    refine ⟨max m m', us ++ us', Nat.max_le.mpr ⟨hm, hm'⟩, ?_, .cons hw hws⟩
    cases hvs with
    | nil =>
      cases hws
      rw [List.append_nil]
      exact hputs
    | cons _ _ => exact hputs.blank hputs'

theorem readsBack_entries {d : Dict} (h : List.Forall₂ (ReadsBack cell n) d.toValues ws) :
    ∃ m us, m ≤ n ∧ Puts (fun out => renderEntries .readable cell out d) us ∧
      DerivesAll m us ws := by
  induction d generalizing ws with
  | nil =>
    cases h
    exact ⟨0, [], Nat.zero_le n, puts_nil, .nil⟩
  | cons e d ih =>
    rw [Dict.toValues_cons] at h
    cases h with
    | cons hk h =>
      cases h with
      | cons hv h =>
        obtain ⟨m, us, hm, hputs, hk⟩ := hk
        obtain ⟨m', us', hm', hputs', hv⟩ := hv
        obtain ⟨m'', us'', hm'', hputs'', hrest⟩ := ih h
        refine ⟨max m (max m' m''), us ++ (us' ++ us''), ?_, ?_, .cons hk (.cons hv hrest)⟩
        · exact Nat.max_le.mpr ⟨hm, Nat.max_le.mpr ⟨hm', hm''⟩⟩
        cases d with
        | nil =>
          cases h
          cases hrest
          rw [List.append_nil]
          exact hputs.blank hputs'
        | cons e' d => exact hputs.blank (hputs'.blank hputs'')

theorem survives_all (h : ∀ v ∈ vs, Survives cell n v) :
    ∃ ws, List.Forall₂ (ReadsBack cell n) vs ws ∧ (ws = vs ↔ ∀ v ∈ vs, v.NamesUnmarked) := by
  induction vs with
  | nil => exact ⟨[], .nil, iff_of_true rfl (List.forall_mem_nil _)⟩
  | cons v vs ih =>
    rw [List.forall_mem_cons] at h
    obtain ⟨w, hw, hsame⟩ := h.1
    obtain ⟨ws, hws, hall⟩ := ih h.2
    refine ⟨w :: ws, .cons hw hws, ?_⟩
    rw [List.cons.injEq, hsame, hall, List.forall_mem_cons]

/-! ### One form -/

theorem survives_seq (kind : SeqKind) (h : ∀ v ∈ vs, Survives cell n v) :
    Survives cell (n + 1) (.seq kind vs .nil) := by
  obtain ⟨ws, hws, hall⟩ := survives_all h
  obtain ⟨m, us, hm, hputs, hitems⟩ := readsBack_items hws
  refine ⟨.seq kind ws .nil, ⟨m + 1, _, Nat.succ_le_succ hm, hputs.bracket kind.bracket,
    .seq kind hitems⟩, ?_⟩
  rw [Value.seq.injEq, namesUnmarked_seq]
  simp only [true_and, and_true]
  exact hall

theorem survives_dict {d : Dict} (hd : d.Distinct) (h : ∀ v ∈ d.toValues, Survives cell n v) :
    Survives cell (n + 1) (.dict d) := by
  obtain ⟨ws, hws, hall⟩ := survives_all h
  obtain ⟨m, us, hm, hputs, hentries⟩ := readsBack_entries hws
  have hlen : ws.length = 2 * d.length := by
    rw [← hws.length_eq, Dict.length_toValues]
  have heven : ws.length % 2 = 0 := by
    omega
  obtain ⟨d', hd'⟩ := Dict.ofValues_ok hentries.closureFree heven
  refine ⟨.dict d', ⟨m + 1, _, Nat.succ_le_succ hm, hputs.bracket .curly,
    .map hentries heven hd'⟩, ?_⟩
  rw [dict, dict, Value.map.injEq, namesUnmarked_map, ← hall]
  constructor
  · rintro ⟨rfl, -⟩
    rw [Dict.ofValues, if_pos heven] at hd'
    refine ((Dict.toValues_of_length heven hd').2 ?_).symm
    rw [hlen, List.length_nil]
    omega
  · rintro rfl
    rw [Dict.ofValues_toValues hd] at hd'
    cases hd'
    exact ⟨rfl, rfl⟩

theorem survives_printable (h : v.Printable) (hnesting : v.nesting = 1)
    (huntagged : v.untagged = v) (hnames : v.NamesUnmarked) : Survives cell 1 v := by
  obtain ⟨us, hputs, hv⟩ := h.writesForm cell
  rw [hnesting, huntagged] at hv
  exact ⟨v, ⟨1, us, Nat.le_refl 1, hputs, hv⟩, iff_of_true rfl hnames⟩

theorem namesUnmarked_leaf (h : v.Childless) (hv : ∀ s, v ≠ .text s) : v.NamesUnmarked := by
  refine (holdsIn_iff_of_childless h).mpr ?_
  cases v with
  | text s => exact absurd rfl (hv s)
  | _ => trivial

theorem survives_symbol {name : String} (hname : IsWord name.toList)
    (hnumeral : ∀ n, ¬ Decimal.Numeral name.toList n) (hconstant : name ∉ ["true", "false", "nil"])
    (hcolon : name.toList.head? ≠ some ':') : Survives cell 1 (.symbol name) := by
  refine survives_printable (.symbol ?_ hname.plain (fun c hc => ?_) hnumeral hconstant) rfl rfl
    (namesUnmarked_leaf trivial nofun)
  · exact fun h => hname.ne_nil (String.toList_eq_nil_iff.mpr h)
  · refine List.not_mem_cons_of_ne_of_not_mem ?_ (hname.head c hc)
    rintro rfl
    exact hcolon hc

/-- A keyword is written as its name behind a colon. -/
theorem survives_marked {name : String} (hname : ∀ c ∈ name.toList, isDelimiter c = false) :
    Survives cell 1 (.text (keywordMark.toString ++ name)) := by
  have hword : IsWord (":" ++ name).toList := by
    simp only [String.toList_append]
    exact isWord_cons (by decide) (by decide) hname
  refine ⟨.keyword name, ⟨1, _, Nat.le_refl 1, ?_, .word (.keyword name)⟩, ?_⟩
  · simp only [renderOnto, renderText_keyword]
    exact puts_word hword
  · have hleaf : (Value.text (keywordMark.toString ++ name)).Childless := trivial
    rw [NamesUnmarked, holdsIn_iff_of_childless hleaf]
    simp only [keywordName?_marked, Option.some.injEq, forall_eq']
    constructor
    · intro h
      rw [keyword] at h
      split at h
      next hmarked =>
        have hlen : name.length = (keywordMark.toString ++ name).length :=
          congrArg String.length (Value.text.inj h)
        simp at hlen
      next hmarked => exact Bool.eq_false_iff.mpr hmarked
    · intro h
      rw [keyword, h]
      rfl

theorem survives_word {name : String} (hname : IsWord name.toList) (hword : Word name v) :
    Survives cell 1 v := by
  cases hword with
  | int => exact survives_printable (.int _) rfl rfl (namesUnmarked_leaf trivial nofun)
  | true => exact survives_printable (.bool _) rfl rfl (namesUnmarked_leaf trivial nofun)
  | false => exact survives_printable (.bool _) rfl rfl (namesUnmarked_leaf trivial nofun)
  | nil => exact survives_printable .nil rfl rfl (namesUnmarked_leaf trivial nofun)
  | symbol hnumeral hconstant hhead =>
    exact survives_symbol hname hnumeral hconstant hhead
  | keyword name =>
    have hplain : ∀ c ∈ name.toList, isDelimiter c = false := by
      rw [String.toList_append] at hname
      exact fun c hc => hname.plain c (List.mem_append_right _ hc)
    rw [keyword]
    split
    next hmarked =>
      -- The name begins with the mark, so that the name of the keyword is what stands behind it.
      obtain ⟨cs, hcs⟩ := List.head?_eq_some_iff.mp (beq_iff_eq.mp hmarked)
      have hrest : name = keywordMark.toString ++ String.ofList cs := by
        rw [← String.toList_inj, hcs]
        simp
      rw [hrest]
      refine survives_marked fun c hc => hplain c ?_
      rw [String.toList_ofList] at hc
      rw [hcs]
      exact .tail _ hc
    next => exact survives_marked hplain

theorem survives_head (s : Sigil) : Survives cell 1 (.symbol s.head) := by
  have hplain : ∀ c ∈ s.head.toList, isDelimiter c = false := by
    cases s <;> exact plain_of_all (by decide)
  have hhead : ∀ c, s.head.toList.head? = some c → c ∉ [':', '~', '^', '@'] := by
    cases s <;>
    · rintro c ⟨⟩
      decide
  refine survives_symbol ⟨?_, hplain, fun c hc h => hhead c hc (.tail _ h)⟩ (fun n hn => ?_) ?_
    fun h => hhead _ h (.head _)
  · cases s <;> decide
  · have hliteral := (Decimal.numeral_iff.mp hn).1
    cases s <;> cases hliteral
  · cases s <;> decide

theorem survives_string {cs : List Char} (hcs : cs.head? ≠ some keywordMark) :
    Survives cell 1 (.text (String.ofList cs)) := by
  have hleaf : (Value.text (String.ofList cs)).Childless := trivial
  have hstring : isKeyword (String.ofList cs) = false := by
    rw [isKeyword, String.toList_ofList]
    exact beq_eq_false_iff_ne.mpr hcs
  refine survives_printable (.string hstring) ?_ ?_ ((holdsIn_iff_of_childless hleaf).mpr ?_)
  · rw [nesting] <;> simp
  · rw [untagged] <;> simp
  · intro name hname
    rw [keywordName?_eq_none_iff.mpr hstring] at hname
    cases hname

/-! ### All forms -/

/-- A form that is spelt by words and other tokens is written so that a form is read back at the
same levels. -/
theorem Derives.survives (h : Derives n us v) (hus : AllWords us) (cell : CellId → String) :
    Survives cell n v := by
  induction h using Derives.induct with
  | word hword => exact survives_word (hus _ (.head _)) hword
  | text hraw hbody hmark => exact survives_string hmark
  | @seq n us vs kind h ih =>
    refine survives_seq kind fun v hv => ?_
    obtain ⟨m, us', -, hm, hsub, ih⟩ := ih v hv
    exact (ih (hus.of_subset (List.Subset.trans hsub (subset_bracketed _ us)))).mono hm
  | @map n us vs d h hlen hd ih =>
    have hfits := (Derives.map h hlen hd).fits (lawful_distinctKeys.shape 0)
    refine survives_dict (Shape.fits_dict.mp hfits).1 fun v hv => ?_
    have hmem : v ∈ vs := by
      obtain ⟨e, he, hv⟩ := List.mem_flatMap.mp hv
      obtain ⟨hkey, hvalue⟩ := Dict.mem_ofValues hd e he
      simp only [List.mem_cons, List.not_mem_nil, or_false] at hv
      rcases hv with rfl | rfl
      · exact hkey
      · exact hvalue
    obtain ⟨m, us', -, hm, hsub, ih⟩ := ih v hmem
    exact (ih (hus.of_subset (List.Subset.trans hsub (subset_bracketed _ us)))).mono hm
  | @sigil n us s v hs h ih =>
    have hv := ih (hus.of_subset (List.subset_cons_self _ us))
    have hhead : Survives cell n (.symbol s.head) := (survives_head s).mono h.pos
    exact survives_seq .list (List.forall_mem_cons.mpr ⟨hhead, List.forall_mem_singleton.mpr hv⟩)
  | @withMeta n m us us' tag v htag h ihtag ih =>
    have hus := hus.of_subset (List.subset_cons_self _ (us ++ us'))
    have htag := ihtag (hus.of_subset (List.subset_append_left us us'))
    have hv := ih (hus.of_subset (List.subset_append_right us us'))
    have hpos := Nat.lt_of_lt_of_le h.pos (Nat.le_max_right n m)
    have hhead : Survives cell (max n m) (.symbol Sigil.withMeta.head) :=
      (survives_head .withMeta).mono hpos
    refine survives_seq .list (List.forall_mem_cons.mpr ⟨hhead, List.forall_mem_cons.mpr ⟨?_, ?_⟩⟩)
    · exact hv.mono (Nat.le_max_right n m)
    · exact List.forall_mem_singleton.mpr (htag.mono (Nat.le_max_left n m))

end Reader

open Reader

/-- What is read from a text is written so that it can be read again at the same levels. The form
read back is the same, and compares equal, if and only if no name of a keyword in it begins with the
mark of keywords. -/
theorem readFirst_written {limit depth : Nat} {s : String} {v : Value}
    (h : readFirst limit depth s = .ok v) (cell : CellId → String) :
    v.equal v = .ok true ∧ ∃ w, readFirst limit depth (v.render .readable cell) = .ok w ∧
      (w = v ↔ v.NamesUnmarked) := by
  obtain ⟨n, us, rest, hn, hs, hv⟩ := derives_of_readFirst h
  have hwords := allWords_tokenize s
  rw [hs] at hwords
  have hself : v.equal v = .ok true :=
    Value.alike_self hv.closureFree (wellKeyed_of_fits (hv.fits (lawful_distinctKeys.shape 0)))
  obtain ⟨w, ⟨m, us', hm, hputs, hw⟩, hsame⟩ :=
    hv.survives (hwords.of_subset (List.subset_append_left us rest)) cell
  refine ⟨hself, w, ?_, hsame⟩
  exact (Value.readFirst_of_puts hputs hw limit depth).trans (if_pos (Nat.le_trans hm hn))

/-- A map from a keyword that loses its mark to one that does not. -/
theorem readFirst_written_marked :
    let v : Value := .dict [(.text "\u029e\u029ex", .vector [.text "\u029ex"])]
    readFirst 3 0 "\x7b:\u029e\u029ex [:x]\x7d" = .ok v ∧
      ∃ w, readFirst 3 0 (v.render .readable fun _ => "") = .ok w ∧ w ≠ v := by
  intro v
  have h : readFirst 3 0 "\x7b:\u029e\u029ex [:x]\x7d" = .ok v := rfl
  obtain ⟨-, w, hw, hsame⟩ := readFirst_written h fun _ => ""
  refine ⟨h, w, hw, fun hwv => ?_⟩
  have hmarked := hsame.mp hwv (.text "\u029e\u029ex") (.key (.head _) .self)
  exact absurd (hmarked "\u029ex" rfl) (by decide)

end Lisp
