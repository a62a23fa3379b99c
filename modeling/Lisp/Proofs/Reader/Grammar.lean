import Lisp.Proofs.Invariant.Reading
import Lisp.Proofs.Nesting.Reader
import Lisp.Proofs.Text.Decimal
import Lisp.Proofs.Text.Quoted

/-!
# The grammar of forms

Which tokens spell which form, without reading them: `Derives n us v` says that the tokens `us`
spell `v`, with forms nested `n` deep. The reader yields `v` from those tokens, whatever stands
behind them and whatever is open in front of them, if there are `n` levels left, and else finds none
(`Derives.leads`). The other way round, every token that is read keeps that what is open has been
spelt by the tokens in front (`Opened.step`), so nothing else is read. `reads_grammar` puts the two
together.
-/

namespace Lisp.Reader

/-- A word that spells a form without parts. -/
inductive Word : String → Value → Prop
  | int {name : String} {n : Int64} : Decimal.Numeral name.toList n.toInt → Word name (.int n)
  | true : Word "true" (.bool true)
  | false : Word "false" (.bool false)
  | nil : Word "nil" .nil
  | keyword (name : String) : Word (":" ++ name) (.keyword name)
  | symbol {name : String} : (∀ n, ¬ Decimal.Numeral name.toList n) →
      name ∉ ["true", "false", "nil"] → name.toList.head? ≠ some ':' → Word name (.symbol name)

mutual

/-- The tokens spell one form, nested `n` deep. -/
inductive Derives : Nat → List Token → Value → Prop
  | word {name : String} {v : Value} : Word name v → Derives 1 [.word name] v
  | text {raw : String} {body cs : List Char} : raw.toList = '\x22' :: (body ++ ['\x22']) →
      Quoted.Spells body cs → cs.head? ≠ some keywordMark →
        Derives 1 [.text raw] (.text (String.ofList cs))
  | seq {n : Nat} {us : List Token} {vs : List Value} (kind : SeqKind) : DerivesAll n us vs →
      Derives (n + 1) (.opening kind.bracket :: (us ++ [.closing kind.bracket])) (.seq kind vs .nil)
  | map {n : Nat} {us : List Token} {vs : List Value} {d : Dict} : DerivesAll n us vs →
      vs.length % 2 = 0 → Dict.ofValues vs = .ok d →
        Derives (n + 1) (.opening .curly :: (us ++ [.closing .curly])) (.dict d)
  | sigil {n : Nat} {us : List Token} {s : Sigil} {v : Value} : s ≠ .withMeta → Derives n us v →
      Derives (n + 1) (.sigil s :: us) (.list [.symbol s.head, v])
  | withMeta {n m : Nat} {us us' : List Token} {tag v : Value} : Derives n us tag →
      Derives m us' v → Derives (max n m + 1) (.sigil .withMeta :: (us ++ us'))
        (.list [.symbol Sigil.withMeta.head, v, tag])

/-- The tokens spell forms one after the other, nested `n` deep at most. -/
inductive DerivesAll : Nat → List Token → List Value → Prop
  | nil : DerivesAll 0 [] []
  | cons {n m : Nat} {us us' : List Token} {v : Value} {vs : List Value} : Derives n us v →
      DerivesAll m us' vs → DerivesAll (max n m) (us ++ us') (v :: vs)

end

variable {limit room top n m : Nat} {opens : List Open} {us us' ts : List Token} {v : Value}
  {vs : List Value} {p q : Progress} {x : Except Error Progress} {e : Error}

theorem Derives.ne_nil (h : Derives n us v) : us ≠ [] := by
  cases h <;> exact List.cons_ne_nil _ _

theorem DerivesAll.concat (h : DerivesAll n us vs) (hv : Derives m us' v) :
    DerivesAll (max n m) (us ++ us') (vs ++ [v]) := by
  induction vs generalizing n us with
  | nil =>
    cases h
    have hcons := DerivesAll.cons hv .nil
    rwa [Nat.max_comm, List.append_nil] at hcons
  | cons w vs ih =>
    cases h with
    | cons hw h =>
      rw [Nat.max_assoc, List.append_assoc]
      exact .cons hw (ih h)

theorem DerivesAll.mem (h : DerivesAll n us vs) (hv : v ∈ vs) : ∃ m us', Derives m us' v := by
  induction vs generalizing n us with
  | nil => cases hv
  | cons w vs ih =>
    cases h with
    | cons hw h =>
      rcases List.mem_cons.mp hv with rfl | hv
      · exact ⟨_, _, hw⟩
      · exact ih h hv

/-- Induction over the tokens that spell a form: what is inside a bracket is spelt by some of the
tokens there. -/
@[elab_as_elim]
theorem Derives.induct {motive : ∀ n us v, Derives n us v → Prop}
    (word : ∀ {name v} (h : Word name v), motive 1 [.word name] v (.word h))
    (text : ∀ {raw body cs} (hraw : raw.toList = '\x22' :: (body ++ ['\x22']))
      (hbody : Quoted.Spells body cs) (hmark : cs.head? ≠ some keywordMark),
        motive 1 [.text raw] (.text (String.ofList cs)) (.text hraw hbody hmark))
    (seq : ∀ {n us vs} (kind : SeqKind) (h : DerivesAll n us vs),
      (∀ v ∈ vs, ∃ m us', ∃ h : Derives m us' v, m ≤ n ∧ us' ⊆ us ∧ motive m us' v h) →
        motive (n + 1) (.opening kind.bracket :: (us ++ [.closing kind.bracket]))
          (.seq kind vs .nil) (.seq kind h))
    (map : ∀ {n us vs d} (h : DerivesAll n us vs) (hlen : vs.length % 2 = 0)
      (hd : Dict.ofValues vs = .ok d),
      (∀ v ∈ vs, ∃ m us', ∃ h : Derives m us' v, m ≤ n ∧ us' ⊆ us ∧ motive m us' v h) →
        motive (n + 1) (.opening .curly :: (us ++ [.closing .curly])) (.dict d) (.map h hlen hd))
    (sigil : ∀ {n us s v} (hs : s ≠ .withMeta) (h : Derives n us v), motive n us v h →
      motive (n + 1) (.sigil s :: us) (.list [.symbol s.head, v]) (.sigil hs h))
    (withMeta : ∀ {n m us us' tag v} (htag : Derives n us tag) (h : Derives m us' v),
      motive n us tag htag → motive m us' v h →
        motive (max n m + 1) (.sigil .withMeta :: (us ++ us'))
          (.list [.symbol Sigil.withMeta.head, v, tag]) (.withMeta htag h))
    {n : Nat} {us : List Token} {v : Value} (h : Derives n us v) : motive n us v h := by
  refine @Derives.rec motive
    (fun n us vs _ => ∀ v ∈ vs, ∃ m us', ∃ h : Derives m us' v, m ≤ n ∧ us' ⊆ us ∧
      motive m us' v h)
    word text seq map sigil withMeta ?_ ?_ n us v h
  · exact List.forall_mem_nil _
  · intro n m us us' v vs h hvs ih ihs
    refine List.forall_mem_cons.mpr ⟨?_, fun w hw => ?_⟩
    · exact ⟨n, us, h, Nat.le_max_left n m, List.subset_append_left us us', ih⟩
    · obtain ⟨k, us'', h', hk, hsub, hw⟩ := ihs w hw
      exact ⟨k, us'', h', Nat.le_trans hk (Nat.le_max_right n m),
        List.subset_append_of_subset_right us hsub, hw⟩

/-- The tokens inside a bracket are among those with it. -/
theorem subset_bracketed (b : Bracket) (us : List Token) :
    us ⊆ .opening b :: (us ++ [.closing b]) :=
  fun _ h => .tail _ (List.mem_append_left _ h)

theorem word_int {name : String} {n : Int64} (h : Decimal.Numeral name.toList n.toInt) :
    word name = .ok (.int n) := by
  obtain ⟨hliteral, hvalue⟩ := Decimal.numeral_iff.mp h
  simp only [word, hliteral, if_true, hvalue, Decimal.word?_toInt]

theorem word_keyword (name : String) : word (":" ++ name) = .ok (.keyword name) := by
  have hname : (":" ++ name).toList = ':' :: name.toList := by simp
  have hliteral : Decimal.isLiteral (':' :: name.toList) = false := rfl
  have hne {other : String} (h : other.toList.head? ≠ some ':') : ":" ++ name ≠ other := by
    rintro rfl
    rw [hname] at h
    exact h rfl
  simp only [word, hname, hliteral, Bool.false_eq_true, if_false, String.ofList_toList,
    hne (show "true".toList.head? ≠ some ':' by decide),
    hne (show "false".toList.head? ≠ some ':' by decide),
    hne (show "nil".toList.head? ≠ some ':' by decide)]

theorem word_symbol {name : String} (hnumeral : ∀ n, ¬ Decimal.Numeral name.toList n)
    (hname : name ∉ ["true", "false", "nil"]) (hhead : name.toList.head? ≠ some ':') :
    word name = .ok (.symbol name) := by
  have hliteral : Decimal.isLiteral name.toList = false :=
    Bool.eq_false_iff.mpr fun h => hnumeral _ (Decimal.numeral_iff.mpr ⟨h, rfl⟩)
  simp only [List.mem_cons, List.not_mem_nil, or_false, not_or] at hname
  simp only [word, hliteral, Bool.false_eq_true, if_false, hname]
  split
  next rest hrest =>
    rw [hrest] at hhead
    exact absurd rfl hhead
  next => rfl

/-- A text that begins with a colon is the colon and the name behind it. -/
theorem eq_colon_append {name : String} (h : name.toList.head? = some ':') :
    ∃ other, name = ":" ++ other := by
  obtain ⟨rest, hrest⟩ := List.head?_eq_some_iff.mp h
  refine ⟨String.ofList rest, String.toList_inj.mp ?_⟩
  rw [hrest, String.toList_append, String.toList_ofList, String.toList_ofList]
  rfl

theorem Word.of_ok {name : String} (h : word name = .ok v) : Word name v := by
  by_cases hnumeral : ∃ n, Decimal.Numeral name.toList n
  · obtain ⟨hliteral, -⟩ := Decimal.numeral_iff.mp hnumeral.choose_spec
    simp only [word, hliteral, if_true] at h
    split at h
    next n hn =>
      cases h
      exact .int (Decimal.numeral_iff.mpr ⟨hliteral, (Decimal.toInt_of_word? hn).symm⟩)
    next => cases h
  by_cases hname : name ∈ ["true", "false", "nil"]
  · simp only [List.mem_cons, List.not_mem_nil, or_false] at hname
    rcases hname with rfl | rfl | rfl
    · cases h
      exact .true
    · cases h
      exact .false
    · cases h
      exact .nil
  by_cases hhead : name.toList.head? = some ':'
  · obtain ⟨other, rfl⟩ := eq_colon_append hhead
    rw [word_keyword] at h
    cases h
    exact .keyword other
  · rw [word_symbol (not_exists.mp hnumeral) hname hhead] at h
    cases h
    exact .symbol (not_exists.mp hnumeral) hname hhead

theorem word_eq_ok_iff {name : String} : word name = .ok v ↔ Word name v := by
  constructor
  · exact Word.of_ok
  · intro h
    cases h with
    | int hn => exact word_int hn
    | true => rfl
    | false => rfl
    | nil => rfl
    | keyword name => exact word_keyword name
    | symbol hnumeral hname hhead => exact word_symbol hnumeral hname hhead

theorem text_eq_ok_iff {raw : String} :
    text raw = .ok v ↔ ∃ body cs, raw.toList = '\x22' :: (body ++ ['\x22']) ∧
      Quoted.Spells body cs ∧ cs.head? ≠ some keywordMark ∧ v = .text (String.ofList cs) := by
  unfold text
  constructor
  · intro h
    split at h
    next => cases h
    next cs hread =>
      split at h
      next => cases h
      next hmark =>
        cases h
        obtain ⟨body, hraw, hbody⟩ := Quoted.read_eq_ok_iff.mp hread
        exact ⟨body, cs, hraw, hbody, hmark, rfl⟩
  · rintro ⟨body, cs, hraw, hbody, hmark, rfl⟩
    rw [Quoted.read_eq_ok_iff.mpr ⟨body, hraw, hbody⟩]
    exact if_neg hmark

theorem word_error {name : String} (h : word name = .error e) : ∃ cause, e = .malformed cause := by
  simp only [word] at h
  split at h
  · split at h
    · cases h
    · cases h
      exact ⟨_, rfl⟩
  · split at h
    · cases h
    · split at h
      · cases h
      · split at h
        · cases h
        · split at h
          · cases h
          · cases h

theorem text_error {raw : String} (h : text raw = .error e) : ∃ cause, e = .malformed cause := by
  unfold text at h
  split at h
  · cases h
    exact ⟨_, rfl⟩
  · split at h
    · cases h
      exact ⟨_, rfl⟩
    · cases h

/-! ### What is spelt is read -/

/-- Reading tokens one after the other, none of which but the last completes the form, leads from
one point to another or to an error. -/
inductive Leads (limit : Nat) : Progress → List Token → Except Error Progress → Prop
  | refl (p : Progress) : Leads limit p [] (.ok p)
  | fail {room : Nat} {opens : List Open} {t : Token} {us : List Token} {e : Error} :
      step limit room opens t = .error e → Leads limit (.more room opens) (t :: us) (.error e)
  | next {room : Nat} {opens : List Open} {t : Token} {us : List Token} {p : Progress}
      {x : Except Error Progress} : step limit room opens t = .ok p → Leads limit p us x →
        Leads limit (.more room opens) (t :: us) x

theorem Leads.trans (h : Leads limit p us (.ok q)) (h' : Leads limit q us' x) :
    Leads limit p (us ++ us') x := by
  generalize hq : Except.ok q = y at h
  induction h with
  | refl p =>
    cases hq
    exact h'
  | fail _ => cases hq
  | next hstep _ ih => exact .next hstep (ih hq)

theorem Leads.append (h : Leads limit p us (.error e)) (us' : List Token) :
    Leads limit p (us ++ us') (.error e) := by
  generalize hq : Except.error e = y at h
  induction h with
  | refl p => cases hq
  | fail hstep =>
    cases hq
    exact .fail hstep
  | next hstep _ ih => exact .next hstep (ih hq)

/-- How reading one form goes on from a point that is reached. -/
def resume (limit : Nat) : Progress → List Token → Except Error (Value × List Token)
  | .finished v, ts => .ok (v, ts)
  | .more room opens, ts => form limit room opens ts

theorem Leads.resume (h : Leads limit p us x) (ts : List Token) :
    resume limit p (us ++ ts) = x >>= fun q => resume limit q ts := by
  induction h with
  | refl p => rfl
  | fail hstep =>
    rw [List.cons_append, Reader.resume, form, hstep]
    rfl
  | @next room opens t us p x hstep _ ih =>
    rw [← ih, List.cons_append, Reader.resume, form, hstep]
    cases p with
    | finished v => rfl
    | more room opens => rfl

/-- How reading all forms goes on from a point that is reached. -/
def resumeAll (limit top : Nat) (done : List Value) :
    Progress → List Token → Except Error (List Value)
  | .finished v, ts => forms limit top (v :: done) top [] ts
  | .more room opens, ts => forms limit top done room opens ts

theorem Leads.resumeAll (h : Leads limit p us x) (done : List Value) (ts : List Token) :
    resumeAll limit top done p (us ++ ts) = x >>= fun q => resumeAll limit top done q ts := by
  induction h with
  | refl p => rfl
  | fail hstep =>
    rw [List.cons_append, Reader.resumeAll, forms, hstep]
    rfl
  | @next room opens t us p x hstep _ ih =>
    rw [← ih, List.cons_append, Reader.resumeAll, forms, hstep]
    cases p with
    | finished v => rfl
    | more room opens => rfl

/-- What comes of tokens that need `n` levels and find `room`. -/
def withLevels (limit n room : Nat) (p : Progress) : Except Error Progress :=
  if n ≤ room then .ok p else .error (.depthExceeded limit)

theorem Leads.seq (h : Leads limit p us (withLevels limit n room q)) {q' : Progress}
    (h' : Leads limit q us' (withLevels limit m room q')) :
    Leads limit p (us ++ us') (withLevels limit (max n m) room q') := by
  unfold withLevels at h h' ⊢
  by_cases hn : n ≤ room
  · rw [if_pos hn] at h
    simp only [Nat.max_le, hn, true_and]
    exact h.trans h'
  · rw [if_neg hn] at h
    rw [if_neg fun hmax => hn (Nat.max_le.mp hmax).1]
    exact h.append us'

theorem step_eq_enter {t : Token} (ht : ∀ c, t ≠ .closing c) :
    step limit room opens t = enter limit room opens t := by
  unfold step
  split
  next c => exact absurd rfl (ht c)
  next => rfl

/-- The first token of a form takes a level. -/
theorem leads_enter {t : Token} (ht : ∀ c, t ≠ .closing c)
    (h : ∀ r, room = r + 1 → ∃ p, start r opens t = .ok p ∧
      Leads limit p us (withLevels limit n r q)) :
    Leads limit (.more room opens) (t :: us) (withLevels limit (n + 1) room q) := by
  unfold withLevels at h ⊢
  cases room with
  | zero =>
    rw [if_neg (Nat.not_succ_le_zero n)]
    exact .fail (step_eq_enter ht)
  | succ r =>
    obtain ⟨p, hp, hlead⟩ := h r rfl
    simp only [Nat.succ_le_succ_iff]
    exact .next ((step_eq_enter ht).trans hp) hlead

/-- A bracket is read if what is inside it is. -/
theorem leads_bracketed {b : Bracket} (hv : bracketed vs b = .ok v)
    (h : ∀ r, Leads limit (.more r (.bracket b [] :: opens)) us
      (withLevels limit n r (.more r (.bracket b vs.reverse :: opens)))) :
    Leads limit (.more room opens) (.opening b :: (us ++ [.closing b]))
      (withLevels limit (n + 1) room (complete v room opens)) := by
  refine leads_enter nofun fun r hr => ⟨_, rfl, ?_⟩
  subst hr
  have hclose : step limit r (.bracket b vs.reverse :: opens) (.closing b) =
      .ok (complete v (r + 1) opens) := by
    rw [step, if_pos rfl, List.reverse_reverse, hv]
    rfl
  rw [← Nat.max_zero n]
  refine (h r).seq (.next hclose ?_)
  exact .refl _

mutual

/-- The tokens that spell a form are read as that form where `n` levels are left, and where fewer
are left reading them fails. -/
theorem Derives.leads {n : Nat} {us : List Token} {v : Value} (h : Derives n us v)
    (limit room : Nat) (opens : List Open) :
    Leads limit (.more room opens) us (withLevels limit n room (complete v room opens)) := by
  cases h with
  | word hword =>
    refine leads_enter nofun fun r hr => ⟨complete v room opens, ?_, .refl _⟩
    rw [start, word_eq_ok_iff.mpr hword, hr]
    rfl
  | text hraw hbody hmark =>
    refine leads_enter nofun fun r hr => ⟨complete _ room opens, ?_, .refl _⟩
    rw [start, text_eq_ok_iff.mpr ⟨_, _, hraw, hbody, hmark, rfl⟩, hr]
    rfl
  | @seq n us vs kind h =>
    have hv : bracketed vs kind.bracket = .ok (.seq kind vs .nil) := by
      cases kind <;> rfl
    refine leads_bracketed hv fun r => ?_
    rw [← List.append_nil vs.reverse]
    exact DerivesAll.leads h limit r kind.bracket [] opens
  | @map n us vs d h hlen hd =>
    have hv : bracketed vs .curly = .ok (.dict d) := by
      rw [bracketed, if_pos hlen, hd]
      rfl
    refine leads_bracketed hv fun r => ?_
    rw [← List.append_nil vs.reverse]
    exact DerivesAll.leads h limit r .curly [] opens
  | @sigil n us s v hs h =>
    refine leads_enter nofun fun r hr => ⟨.more r (.sigil s :: opens), ?_, ?_⟩
    · cases s with
      | withMeta => exact absurd rfl hs
      | _ => rfl
    · subst hr
      exact Derives.leads h limit r (.sigil s :: opens)
  | @withMeta n m us us' tag v htag h =>
    refine leads_enter nofun fun r hr => ⟨.more r (.tag :: opens), rfl, ?_⟩
    subst hr
    exact (Derives.leads htag limit r (.tag :: opens)).seq
      (Derives.leads h limit r (.target tag :: opens))
termination_by (us.length, 0)
decreasing_by
  all_goals
    simp only [Prod.lex_def, List.length_append, List.length_cons, List.length_nil]
    omega

/-- The same holds of the forms inside a bracket. -/
theorem DerivesAll.leads {n : Nat} {us : List Token} {vs : List Value} (h : DerivesAll n us vs)
    (limit room : Nat) (b : Bracket) (items : List Value) (opens : List Open) :
    Leads limit (.more room (.bracket b items :: opens)) us
      (withLevels limit n room (.more room (.bracket b (vs.reverse ++ items) :: opens))) := by
  cases h with
  | nil => exact .refl _
  | @cons n m us us' v vs hv h =>
    rw [List.reverse_cons, List.append_assoc, List.singleton_append]
    exact (Derives.leads hv limit room (.bracket b items :: opens)).seq
      (DerivesAll.leads h limit room b (v :: items) opens)
termination_by (us.length, vs.length + 1)
decreasing_by
  all_goals
    simp only [Prod.lex_def, List.length_append, List.length_cons]
    omega

end

/-! ### What is read is spelt -/

/-- The tokens `us`, of which the first found `top` levels, have begun the constructs in `opens` and
spelt the forms that these hold; `room` levels are left. -/
inductive Opened (top : Nat) : Nat → List Open → List Token → Prop
  | top : Opened top top [] []
  | bracket {room n : Nat} {opens : List Open} {us us' : List Token} {items : List Value}
      {b : Bracket} : Opened top (room + 1) opens us → DerivesAll n us' items.reverse → n ≤ room →
        Opened top room (.bracket b items :: opens) (us ++ .opening b :: us')
  | sigil {room : Nat} {opens : List Open} {us : List Token} {s : Sigil} : s ≠ .withMeta →
      Opened top (room + 1) opens us → Opened top room (.sigil s :: opens) (us ++ [.sigil s])
  | tag {room : Nat} {opens : List Open} {us : List Token} : Opened top (room + 1) opens us →
      Opened top room (.tag :: opens) (us ++ [.sigil .withMeta])
  | target {room n : Nat} {opens : List Open} {us us' : List Token} {tag : Value} :
      Opened top (room + 1) opens us → Derives n us' tag → n ≤ room →
        Opened top room (.target tag :: opens) (us ++ .sigil .withMeta :: us')

/-- The tokens `us`, of which the first found `top` levels, have spelt what has been read. -/
def Progress.Spelt (top : Nat) (us : List Token) : Progress → Prop
  | .finished v => ∃ n ≤ top, Derives n us v
  | .more room opens => Opened top room opens us

theorem Opened.complete (h : Opened top room opens us) (hv : Derives n us' v) (hn : n ≤ room) :
    (complete v room opens).Spelt top (us ++ us') := by
  induction h generalizing n us' v with
  | top => exact ⟨n, hn, hv⟩
  | @bracket room m opens us ws items b h hitems hm =>
    rw [List.append_assoc, List.cons_append]
    refine .bracket h ?_ (Nat.max_le.mpr ⟨hm, hn⟩)
    rw [List.reverse_cons]
    exact hitems.concat hv
  | sigil hs h ih =>
    rw [List.append_assoc]
    exact ih (.sigil hs hv) (Nat.succ_le_succ hn)
  | tag h _ =>
    rw [List.append_assoc]
    exact .target h hv hn
  | target h htag hm ih =>
    rw [List.append_assoc]
    exact ih (.withMeta htag hv) (Nat.succ_le_succ (Nat.max_le.mpr ⟨hm, hn⟩))

theorem Opened.complete_eq_ok {y : Except Error Value} (h : Opened top room opens us)
    (hv : ∀ v, y = .ok v → ∃ n ≤ room, Derives n us' v)
    (hp : (do return Reader.complete (← y) room opens) = Except.ok p) :
    p.Spelt top (us ++ us') := by
  cases y with
  | error e => cases hp
  | ok v =>
    cases hp
    obtain ⟨n, hn, hv⟩ := hv v rfl
    exact h.complete hv hn

theorem derives_of_bracketed {b : Bracket} (h : DerivesAll n us vs) (hv : bracketed vs b = .ok v) :
    Derives (n + 1) (.opening b :: (us ++ [.closing b])) v := by
  cases b with
  | round =>
    cases hv
    exact .seq .list h
  | square =>
    cases hv
    exact .seq .vector h
  | curly =>
    rw [bracketed] at hv
    split at hv
    next hlen =>
      cases hd : Dict.ofValues vs with
      | ok d =>
        rw [hd] at hv
        cases hv
        exact .map h hlen hd
      | error e =>
        rw [hd] at hv
        cases hv
    next => cases hv

/-- Every token that is read keeps that what is open has been spelt. -/
theorem Opened.step {t : Token} (h : Opened top room opens us)
    (hp : step limit room opens t = .ok p) : p.Spelt top (us ++ [t]) := by
  unfold Reader.step at hp
  split at hp
  next b items outer c =>
    split at hp
    next hc =>
      subst hc
      cases h with
      | bracket h hitems hn =>
        rw [List.append_assoc]
        refine h.complete_eq_ok (fun v hv => ?_) hp
        exact ⟨_, Nat.succ_le_succ hn, derives_of_bracketed hitems hv⟩
    next => cases hp
  next =>
    cases room with
    | zero => cases hp
    | succ room =>
      cases t with
      | opening b =>
        cases hp
        exact .bracket h .nil (Nat.zero_le room)
      | closing b => cases hp
      | sigil s =>
        cases s with
        | withMeta =>
          cases hp
          exact .tag h
        | _ =>
          cases hp
          exact .sigil nofun h
      | text raw =>
        refine h.complete_eq_ok (fun v hv => ?_) hp
        obtain ⟨body, cs, hraw, hbody, hmark, rfl⟩ := text_eq_ok_iff.mp hv
        exact ⟨1, Nat.succ_le_succ (Nat.zero_le room), .text hraw hbody hmark⟩
      | word name =>
        refine h.complete_eq_ok (fun v hv => ?_) hp
        exact ⟨1, Nat.succ_le_succ (Nat.zero_le room), .word (word_eq_ok_iff.mp hv)⟩

theorem Opened.form {rest : List Token} (h : Opened top room opens us)
    (hv : form limit room opens ts = .ok (v, rest)) :
    ∃ n us', n ≤ top ∧ ts = us' ++ rest ∧ Derives n (us ++ us') v := by
  induction ts generalizing room opens us with
  | nil => cases hv
  | cons t ts ih =>
    rw [Reader.form] at hv
    cases hp : Reader.step limit room opens t with
    | error e =>
      rw [hp] at hv
      cases hv
    | ok p =>
      rw [hp] at hv
      have hspelt := h.step hp
      cases p with
      | finished w =>
        cases hv
        obtain ⟨n, hn, hw⟩ := hspelt
        exact ⟨n, [t], hn, rfl, hw⟩
      | more room' opens' =>
        obtain ⟨n, us', hn, rfl, hw⟩ := ih hspelt hv
        rw [List.append_assoc] at hw
        exact ⟨n, t :: us', hn, rfl, hw⟩

theorem Opened.forms {done : List Value} (h : Opened top room opens us)
    (hvs : forms limit top done room opens ts = .ok vs) :
    ∃ n ws, n ≤ top ∧ vs = done.reverse ++ ws ∧ DerivesAll n (us ++ ts) ws := by
  induction ts generalizing room opens us done with
  | nil =>
    rw [Reader.forms] at hvs
    split at hvs
    next hopens =>
      cases List.isEmpty_iff.mp hopens
      cases h
      cases hvs
      exact ⟨0, [], Nat.zero_le _, (List.append_nil _).symm, .nil⟩
    next => cases hvs
  | cons t ts ih =>
    rw [Reader.forms] at hvs
    cases hp : Reader.step limit room opens t with
    | error e =>
      rw [hp] at hvs
      cases hvs
    | ok p =>
      rw [hp] at hvs
      have hspelt := h.step hp
      rw [← List.singleton_append, ← List.append_assoc]
      cases p with
      | finished w =>
        obtain ⟨n, hn, hw⟩ := hspelt
        obtain ⟨m, ws, hm, rfl, hws⟩ := ih .top hvs
        refine ⟨max n m, w :: ws, Nat.max_le.mpr ⟨hn, hm⟩, ?_, .cons hw hws⟩
        rw [List.reverse_cons, List.append_assoc, List.singleton_append]
      | more room' opens' => exact ih hspelt hvs

/-! ### Reading what is spelt -/

/-- A form is read up to its last token, if there are levels enough. -/
theorem Derives.form_eq (h : Derives n us v) (limit room : Nat) (ts : List Token) :
    form limit room [] (us ++ ts) =
      if n ≤ room then .ok (v, ts) else .error (.depthExceeded limit) := by
  refine ((h.leads limit room []).resume ts).trans ?_
  unfold withLevels
  split
  · rfl
  · rfl

/-- Forms are read up to the last token of them, if there are levels enough. -/
theorem DerivesAll.forms_append (h : DerivesAll n us vs) (limit top : Nat) (done : List Value)
    (ts : List Token) :
    forms limit top done top [] (us ++ ts) =
      if n ≤ top then forms limit top (vs.reverse ++ done) top [] ts
      else .error (.depthExceeded limit) := by
  induction vs generalizing n us done with
  | nil =>
    cases h
    rw [if_pos (Nat.zero_le top)]
    rfl
  | cons v vs ih =>
    cases h with
    | @cons n m us us' _ _ hv h =>
      rw [List.append_assoc]
      refine ((hv.leads limit top []).resumeAll done (us' ++ ts)).trans ?_
      simp only [withLevels, Nat.max_le]
      by_cases hn : n ≤ top
      · have hrest := ih h (v :: done)
        rw [List.append_cons, ← List.reverse_cons] at hrest
        simp only [hn, if_true, true_and]
        exact hrest
      · simp only [hn, if_false, false_and]
        rfl

theorem DerivesAll.forms_eq (h : DerivesAll n us vs) (limit top : Nat) (done : List Value) :
    forms limit top done top [] us =
      if n ≤ top then .ok (done.reverse ++ vs) else .error (.depthExceeded limit) := by
  have hforms := h.forms_append limit top done []
  rw [List.append_nil, forms, List.reverse_append, List.reverse_reverse] at hforms
  exact hforms

/-- What is spelt is of every lawful shape. -/
theorem Derives.fits {S : Shape} (hS : S.Lawful) (h : Derives n us v) : S.Fits v := by
  have hread := answers_form hS 0 n (List.forall_mem_nil _) (us ++ [])
  rw [h.form_eq, if_pos (Nat.le_refl n)] at hread
  exact hread

/-- No closure is spelt. -/
theorem Derives.fits_closureless (h : Derives n us v) :
    (Shape.mk (fun _ => True) fun _ => False).Fits v :=
  h.fits ⟨trivial, fun _ _ _ => trivial, fun _ _ => trivial⟩

theorem Derives.closureFree (h : Derives n us v) : v.ClosureFree := by
  intro w hw
  have hlayer := h.fits_closureless w (hw.mono False.elim)
  cases w with
  | closure => exact hlayer
  | _ => trivial

theorem DerivesAll.closureFree (h : DerivesAll n us vs) : ∀ v ∈ vs, v.ClosureFree := by
  intro v hv
  obtain ⟨m, us', hv⟩ := h.mem hv
  exact hv.closureFree

/-! ### Errors -/

theorem bracketed_error {b : Bracket} (hvs : ∀ v ∈ vs, v.ClosureFree)
    (he : bracketed vs b = .error e) : ∃ cause, e = .malformed cause := by
  cases b with
  | round => cases he
  | square => cases he
  | curly =>
    rw [bracketed] at he
    split at he
    next hlen =>
      obtain ⟨d, hd⟩ := Dict.ofValues_ok hvs hlen
      rw [hd] at he
      cases he
    next =>
      cases he
      exact ⟨_, rfl⟩

/-- A token that is not read is malformed where it stands, or it finds no level. -/
theorem Opened.step_error {t : Token} (h : Opened top room opens us)
    (he : Reader.step limit room opens t = .error e) :
    (∃ cause, e = .malformed cause) ∨ e = .depthExceeded limit := by
  unfold Reader.step at he
  split at he
  next b items outer c =>
    split at he
    next =>
      cases h with
      | bracket h hitems hn =>
        exact .inl (bracketed_error hitems.closureFree (Dict.map_eq_error he))
    next =>
      cases he
      exact .inl ⟨_, rfl⟩
  next =>
    cases room with
    | zero =>
      cases he
      exact .inr rfl
    | succ room =>
      cases t with
      | opening b => cases he
      | closing b =>
        cases he
        exact .inl ⟨_, rfl⟩
      | sigil s => cases s <;> cases he
      | text raw => exact .inl (text_error (Dict.map_eq_error he))
      | word name => exact .inl (word_error (Dict.map_eq_error he))

theorem atEnd_eq_or (limit room : Nat) (opens : List Open) :
    (∃ cause, atEnd limit room opens = .malformed cause) ∨
      atEnd limit room opens = .depthExceeded limit := by
  unfold atEnd
  split
  · exact .inl ⟨_, rfl⟩
  · split
    · exact .inr rfl
    · exact .inl ⟨_, rfl⟩

theorem Opened.form_error (h : Opened top room opens us)
    (he : Reader.form limit room opens ts = .error e) :
    (∃ cause, e = .malformed cause) ∨ e = .depthExceeded limit := by
  induction ts generalizing room opens us with
  | nil =>
    cases he
    exact atEnd_eq_or limit room opens
  | cons t ts ih =>
    rw [Reader.form] at he
    cases hp : Reader.step limit room opens t with
    | error e' =>
      rw [hp] at he
      cases he
      exact h.step_error hp
    | ok p =>
      rw [hp] at he
      cases p with
      | finished v => cases he
      | more room opens => exact ih (h.step hp) he

theorem Opened.forms_error {done : List Value} (h : Opened top room opens us)
    (he : Reader.forms limit top done room opens ts = .error e) :
    (∃ cause, e = .malformed cause) ∨ e = .depthExceeded limit := by
  induction ts generalizing room opens us done with
  | nil =>
    rw [Reader.forms] at he
    split at he
    · cases he
    · cases he
      exact atEnd_eq_or limit room opens
  | cons t ts ih =>
    rw [Reader.forms] at he
    cases hp : Reader.step limit room opens t with
    | error e' =>
      rw [hp] at he
      cases he
      exact h.step_error hp
    | ok p =>
      rw [hp] at he
      cases p with
      | finished v => exact ih .top he
      | more room opens => exact ih (h.step hp) he

/-! ### The grammar -/

/-- A computation yields what has the property, and fails only because a text is malformed. -/
def Accepts {α : Type} (x : Except Error α) (P : α → Prop) : Prop :=
  (∀ a, x = .ok a ↔ P a) ∧ ∀ e, x = .error e → ∃ cause, e = .malformed cause

/-- Where no level is refused, a form is read if it is spelt. -/
theorem accepts_form (h : ¬ Refused (form limit room [] ts)) :
    Accepts (form limit room [] ts) fun p => ∃ n us, ts = us ++ p.2 ∧ Derives n us p.1 := by
  refine ⟨fun p => ⟨fun hp => ?_, ?_⟩, fun e he => ?_⟩
  · obtain ⟨n, us, -, hts, hv⟩ := Opened.top.form hp
    exact ⟨n, us, hts, hv⟩
  · rintro ⟨n, us, hts, hv⟩
    rw [hts, hv.form_eq] at h ⊢
    split at h
    next hn => exact if_pos hn
    next => simp at h
  · rcases Opened.top.form_error he with hcause | rfl
    · exact hcause
    · exact absurd ⟨limit, he⟩ h

/-- Where no level is refused, all tokens are read if they spell forms. -/
theorem accepts_forms (h : ¬ Refused (forms limit room [] room [] ts)) :
    Accepts (forms limit room [] room [] ts) fun vs => ∃ n, DerivesAll n ts vs := by
  refine ⟨fun vs => ⟨fun hvs => ?_, ?_⟩, fun e he => ?_⟩
  · obtain ⟨n, ws, -, rfl, hws⟩ := Opened.top.forms hvs
    exact ⟨n, hws⟩
  · rintro ⟨n, hvs⟩
    rw [hvs.forms_eq] at h ⊢
    split at h
    next hn => exact if_pos hn
    next => simp at h
  · rcases Opened.top.forms_error he with hcause | rfl
    · exact hcause
    · exact absurd ⟨limit, he⟩ h

/-- Tokens spell at most one form in front of what follows it. -/
theorem Derives.unique {ts' : List Token} {w : Value} (h : Derives n us v) (h' : Derives m us' w)
    (hts : us ++ ts = us' ++ ts') : us = us' ∧ v = w := by
  have hread := h.form_eq 0 (max n m) ts
  rw [hts, h'.form_eq, if_pos (Nat.le_max_right n m), if_pos (Nat.le_max_left n m)] at hread
  cases hread
  exact ⟨List.append_cancel_right hts, rfl⟩

/-- A text whose first tokens spell a form is read as that form, if there are levels enough. -/
theorem Derives.readFirst_eq {s : String} {rest : List Token} (h : Derives n us v)
    (hs : tokenize s = us ++ rest) (limit depth : Nat) :
    readFirst limit depth s =
      if n ≤ limit - depth then .ok v else .error (.depthExceeded limit) := by
  have hne : tokenize s ≠ [] := by
    rw [hs]
    exact List.append_ne_nil_of_left_ne_nil h.ne_nil rest
  rw [readFirst_of_ne_nil hne, hs, h.form_eq]
  split
  · rfl
  · rfl

/-- The form that a text is read as is spelt by the first of its tokens. -/
theorem derives_of_readFirst {depth : Nat} {s : String} (h : readFirst limit depth s = .ok v) :
    ∃ n us rest, n ≤ limit - depth ∧ tokenize s = us ++ rest ∧ Derives n us v := by
  have hs : tokenize s ≠ [] := by
    intro hs
    rw [readFirst_of_nil hs] at h
    cases h
  rw [readFirst_of_ne_nil hs] at h
  cases hp : form limit (limit - depth) [] (tokenize s) with
  | error e =>
    rw [hp] at h
    cases h
  | ok p =>
    rw [hp] at h
    cases h
    obtain ⟨n, us, hn, hus, hv⟩ := Opened.top.form hp
    exact ⟨n, us, p.2, hn, hus, hv⟩

theorem accepts_readFirst {depth : Nat} {s : String} (hs : tokenize s ≠ [])
    (h : ¬ Refused (readFirst limit depth s)) :
    Accepts (readFirst limit depth s) fun v => ∃ n us rest, tokenize s = us ++ rest ∧
      Derives n us v := by
  rw [readFirst_of_ne_nil hs, refused_map_iff] at h
  obtain ⟨hok, herror⟩ := accepts_form h
  rw [readFirst_of_ne_nil hs]
  generalize form limit (limit - depth) [] (tokenize s) = x at hok herror
  constructor
  · intro v
    constructor
    · intro hv
      cases x with
      | ok p =>
        cases hv
        obtain ⟨n, us, hts, hv⟩ := (hok p).mp rfl
        exact ⟨n, us, p.2, hts, hv⟩
      | error e => cases hv
    · rintro ⟨n, us, rest, hts, hv⟩
      rw [(hok (v, rest)).mpr ⟨n, us, hts, hv⟩]
      rfl
  · intro e he
    cases x with
    | ok p => cases he
    | error e' =>
      cases he
      exact herror _ rfl

theorem readFirst_eq_emptyInput_iff {depth : Nat} {s : String} :
    readFirst limit depth s = .error .emptyInput ↔ tokenize s = [] := by
  constructor
  · intro h
    by_contra hs
    have hrefused : ¬ Refused (readFirst limit depth s) := by
      rw [h]
      simp
    obtain ⟨cause, hcause⟩ := (accepts_readFirst hs hrefused).2 _ h
    cases hcause
  · intro hs
    exact readFirst_of_nil hs limit depth

/-- The reader accepts exactly what the grammar spells. Where no level is refused, a form is read
from the tokens that spell it, which are the only ones in front of the rest to spell a form, and all
tokens are read if they spell forms one after the other. Whatever else is read fails because it is
malformed, and the first form of a text also if the text has no tokens; in particular a map can be
made of any forms, if their number is even. A level is not refused where there are more than
tokens. -/
theorem reads_grammar (limit : Nat) :
    (∀ room ts, ¬ Refused (form limit room [] ts) →
      Accepts (form limit room [] ts) fun p => ∃ n us, ts = us ++ p.2 ∧ Derives n us p.1) ∧
      (∀ n m us us' ts ts' v w, Derives n us v → Derives m us' w → us ++ ts = us' ++ ts' →
        us = us' ∧ v = w) ∧
      (∀ room ts, ¬ Refused (forms limit room [] room [] ts) →
        Accepts (forms limit room [] room [] ts) fun vs => ∃ n, DerivesAll n ts vs) ∧
      (∀ n us vs, DerivesAll n us vs → vs.length % 2 = 0 → ∃ d, Dict.ofValues vs = .ok d) ∧
      (∀ room ts, ts.length < room →
        ¬ Refused (form limit room [] ts) ∧ ¬ Refused (forms limit room [] room [] ts)) ∧
      ∀ depth s, (readFirst limit depth s = .error .emptyInput ↔ tokenize s = []) ∧
        (tokenize s ≠ [] → ¬ Refused (readFirst limit depth s) →
          Accepts (readFirst limit depth s) fun v => ∃ n us rest, tokenize s = us ++ rest ∧
            Derives n us v) ∧
        (¬ Refused (readAll limit depth s) →
          Accepts (readAll limit depth s) fun vs => ∃ n, DerivesAll n (tokenize s) vs) := by
  refine ⟨fun room ts h => accepts_form h, fun n m us us' ts ts' v w hv hw h => hv.unique hw h,
    fun room ts h => accepts_forms h, fun n us vs h hlen => Dict.ofValues_ok h.closureFree hlen,
    fun room ts h => ⟨not_refused_form limit [] h, not_refused_forms limit [] [] h h⟩,
    fun depth s => ⟨readFirst_eq_emptyInput_iff, accepts_readFirst, accepts_forms⟩⟩

/-- A quoted map in front of a bracket that closes nothing. -/
theorem reads_grammar_quoted :
    let ts : List Token := [.sigil .quote, .opening .curly, .word ":a", .text "\x22b\x22",
      .closing .curly, .closing .round]
    ¬ Refused (form 10 7 [] ts) ∧ ∃ n us, ts = us ++ [.closing .round] ∧
      Derives n us (.list [.symbol "quote", .dict [(.keyword "a", .text "b")]]) := by
  intro ts
  obtain ⟨haccepts, -, -, -, hroom, -⟩ := reads_grammar 10
  have h : ¬ Refused (form 10 7 [] ts) := (hroom 7 ts (by decide)).1
  exact ⟨h, ((haccepts 7 ts h).1 (_, [.closing .round])).mp rfl⟩

end Lisp.Reader
