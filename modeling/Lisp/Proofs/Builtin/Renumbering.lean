import Lisp.Builtin.Call
import Lisp.Proofs.Run.Renumbering

/-!
# Built-in functions and the numbers of frames

A built-in function never looks at the frames that its arguments captured. What it makes of other
numbers for frames is what it makes of the arguments, with these numbers; with the state at hand the
same goes as long as it does for reading and calling functions, which are all that it leaves to
others.
-/

namespace Lisp.Builtin

section Arguments

variable {ρ : FrameId → FrameId} {who : Builtin} {α β : Type} {g : α → β}

/-! ### Arguments -/

theorem wrongCount_matches (expected : Arity) (args : List Value) :
    Matches ρ g (.error (who.wrongCount expected args))
      (.error (who.wrongCount expected (args.map (Value.renumber ρ)))) := by
  rw [wrongCount, wrongCount, List.length_map]
  exact .error_self rfl

theorem mismatch_matches (expected : String) (v : Value) :
    Matches ρ g (.error (who.mismatch expected v))
      (.error (who.mismatch expected (v.renumber ρ))) := by
  rw [mismatch, mismatch, Value.kind_renumber]
  exact .error_self rfl

theorem none_matches (args : List Value) :
    Matches ρ id (who.none args) (who.none (args.map (Value.renumber ρ))) := by
  cases args with
  | nil => exact .ok ()
  | cons v vs => exact wrongCount_matches _ (v :: vs)

theorem one_matches (args : List Value) :
    Matches ρ (Value.renumber ρ) (who.one args) (who.one (args.map (Value.renumber ρ))) := by
  rcases args with _ | ⟨a, _ | ⟨b, more⟩⟩
  · exact wrongCount_matches _ []
  · exact .ok a
  · exact wrongCount_matches _ (a :: b :: more)

theorem two_matches (args : List Value) :
    Matches ρ (renumberPair ρ) (who.two args) (who.two (args.map (Value.renumber ρ))) := by
  rcases args with _ | ⟨a, _ | ⟨b, _ | ⟨c, more⟩⟩⟩
  · exact wrongCount_matches _ []
  · exact wrongCount_matches _ [a]
  · exact .ok (a, b)
  · exact wrongCount_matches _ (a :: b :: c :: more)

theorem oneOrMore_matches (args : List Value) :
    Matches ρ (Prod.map (Value.renumber ρ) (List.map (Value.renumber ρ))) (who.oneOrMore args)
      (who.oneOrMore (args.map (Value.renumber ρ))) := by
  cases args with
  | nil => exact wrongCount_matches _ []
  | cons a more => exact .ok (a, more)

theorem twoOrMore_matches (args : List Value) :
    Matches ρ (Prod.map (Value.renumber ρ)
      (Prod.map (Value.renumber ρ) (List.map (Value.renumber ρ)))) (who.twoOrMore args)
      (who.twoOrMore (args.map (Value.renumber ρ))) := by
  rcases args with _ | ⟨a, _ | ⟨b, more⟩⟩
  · exact wrongCount_matches _ []
  · exact wrongCount_matches _ [a]
  · exact .ok (a, b, more)

theorem intOf_matches (v : Value) :
    Matches ρ id (who.intOf v) (who.intOf (v.renumber ρ)) := by
  cases v with
  | int n => exact .ok n
  | _ => exact mismatch_matches "integer" _

theorem stringOf_matches (v : Value) :
    Matches ρ id (who.stringOf v) (who.stringOf (v.renumber ρ)) := by
  cases v with
  | text s =>
    rw [Value.renumber_text, stringOf]
    split
    · exact .error_self rfl
    · exact .ok s
  | _ => exact mismatch_matches "string" _

theorem cellOf_matches (v : Value) :
    Matches ρ id (who.cellOf v) (who.cellOf (v.renumber ρ)) := by
  cases v with
  | atom c => exact .ok c
  | _ => exact mismatch_matches "atom" _

theorem itemsOf_matches (v : Value) :
    Matches ρ (List.map (Value.renumber ρ)) (who.itemsOf v) (who.itemsOf (v.renumber ρ)) := by
  cases v with
  | seq kind items tag =>
    rw [Value.renumber_seq]
    exact .ok items
  | _ => exact mismatch_matches "list or vector" _

theorem itemsOrNil_matches (v : Value) :
    Matches ρ (List.map (Value.renumber ρ)) (who.itemsOrNil v)
      (who.itemsOrNil (v.renumber ρ)) := by
  cases v with
  | nil => exact .ok []
  | seq kind items tag =>
    rw [Value.renumber_seq]
    exact .ok items
  | _ => exact mismatch_matches "list or vector" _

theorem entriesOf_matches (v : Value) :
    Matches ρ (Dict.renumber ρ) (who.entriesOf v) (who.entriesOf (v.renumber ρ)) := by
  cases v with
  | map entries tag =>
    rw [Value.renumber_map]
    exact .ok entries
  | _ => exact mismatch_matches "map" _

theorem test_matches {p : Value → Bool} (hp : ∀ v, p (v.renumber ρ) = p v) (args : List Value) :
    Matches ρ (Value.renumber ρ) (who.test p args)
      (who.test p (args.map (Value.renumber ρ))) :=
  (one_matches args).bind fun v => .pure (by rw [Value.renumber_bool, hp])

end Arguments

section Pure

variable {ρ : FrameId → FrameId} (args : List Value)

/-! ### Numbers, symbols and metadata -/

theorem arithmetic_matches (who : Builtin) (op : Int → Int → Int) :
    Matches ρ (Value.renumber ρ) (who.arithmetic op args)
      (who.arithmetic op (args.map (Value.renumber ρ))) := by
  refine (two_matches args).bind fun p => (intOf_matches p.1).bind fun a => ?_
  refine (intOf_matches p.2).bind fun b => ?_
  dsimp only [id]
  split
  · exact .ok _
  · exact .error_self rfl

theorem comparison_matches (who : Builtin) (op : Int → Int → Bool) :
    Matches ρ (Value.renumber ρ) (who.comparison op args)
      (who.comparison op (args.map (Value.renumber ρ))) := by
  refine (two_matches args).bind fun p => (intOf_matches p.1).bind fun a => ?_
  exact (intOf_matches p.2).bind fun _ => .ok _

theorem division_matches :
    Matches ρ (Value.renumber ρ) (division args) (division (args.map (Value.renumber ρ))) := by
  have harithmetic : Matches ρ (Value.renumber ρ) (div.arithmetic Int.tdiv args)
      (div.arithmetic Int.tdiv (args.map (Value.renumber ρ))) :=
    arithmetic_matches args div Int.tdiv
  refine (two_matches args).bind fun ⟨a, b⟩ => ?_
  cases b with
  | int n =>
    dsimp only [renumberPair]
    rw [Value.renumber_int]
    split
    · exact .error_self rfl
    · exact harithmetic
  | _ => exact harithmetic

theorem equality_matches :
    Matches ρ (Value.renumber ρ) (equality args) (equality (args.map (Value.renumber ρ))) :=
  (two_matches args).bind fun p => (Value.equal_matches p.1 p.2).bind fun _ => .ok _

theorem named_matches :
    Matches ρ (Value.renumber ρ) (named args) (named (args.map (Value.renumber ρ))) :=
  (one_matches args).bind fun v => (stringOf_matches v).bind fun _ => .ok _

theorem keywordNamed_matches :
    Matches ρ (Value.renumber ρ) (keywordNamed args)
      (keywordNamed (args.map (Value.renumber ρ))) := by
  refine (one_matches args).bind fun v => ?_
  cases v with
  | text s => exact .pure (Value.renumber_keyword s)
  | _ => exact mismatch_matches "string" _

theorem tagOf_matches :
    Matches ρ (Value.renumber ρ) (tagOf args) (tagOf (args.map (Value.renumber ρ))) :=
  (one_matches args).bind fun v => .pure (Value.metadata_renumber v).symm

theorem tagged_matches :
    Matches ρ (Value.renumber ρ) (tagged args) (tagged (args.map (Value.renumber ρ))) := by
  refine (two_matches args).bind fun ⟨v, tag⟩ => ?_
  dsimp only
  rw [Value.withMetadata?_renumber, Value.kind_renumber]
  cases v.withMetadata? tag with
  | some w => exact .ok w
  | none => exact .error_self rfl

/-! ### Lists and vectors -/

theorem size_matches (who : Builtin) (v : Value) :
    Matches ρ id (who.size v) (who.size (v.renumber ρ)) := by
  cases v with
  | nil => exact .ok 0
  | seq kind items tag =>
    rw [Value.renumber_seq]
    exact .of_eq (List.length_map _).symm
  | map entries tag =>
    rw [Value.renumber_map]
    exact .of_eq (List.length_map _).symm
  | _ => exact mismatch_matches "list, vector or map" _

theorem emptiness_matches :
    Matches ρ (Value.renumber ρ) (emptiness args) (emptiness (args.map (Value.renumber ρ))) :=
  (one_matches args).bind fun v => (size_matches _ v).bind fun _ => .ok _

theorem length_matches :
    Matches ρ (Value.renumber ρ) (length args) (length (args.map (Value.renumber ρ))) :=
  (one_matches args).bind fun v => (size_matches _ v).bind fun _ => .ok _

theorem consed_matches :
    Matches ρ (Value.renumber ρ) (consed args) (consed (args.map (Value.renumber ρ))) :=
  (two_matches args).bind fun p => (itemsOrNil_matches p.2).bind fun items =>
    .pure (by rw [Value.renumber_list, List.map_cons])

theorem joined_matches (done : List Value) :
    Matches ρ (List.map (Value.renumber ρ)) (joined done args)
      (joined (done.map (Value.renumber ρ)) (args.map (Value.renumber ρ))) := by
  induction args generalizing done with
  | nil => exact .of_eq List.map_reverse
  | cons s more ih =>
    refine (itemsOrNil_matches s).bind fun items => ?_
    rw [← List.map_reverse, ← List.map_append]
    exact ih _

theorem concatenated_matches :
    Matches ρ (Value.renumber ρ) (concatenated args)
      (concatenated (args.map (Value.renumber ρ))) :=
  (joined_matches args []).bind fun vs => .pure (Value.renumber_list vs)

theorem asVector_matches :
    Matches ρ (Value.renumber ρ) (asVector args) (asVector (args.map (Value.renumber ρ))) :=
  (one_matches args).bind fun v => (itemsOrNil_matches v).bind fun items =>
    .pure (Value.renumber_vector items)

theorem conjoined_matches :
    Matches ρ (Value.renumber ρ) (conjoined args) (conjoined (args.map (Value.renumber ρ))) := by
  refine (oneOrMore_matches args).bind fun ⟨v, vs⟩ => ?_
  cases v with
  | seq kind items tag =>
    dsimp only [Prod.map]
    rw [Value.renumber_seq]
    cases kind with
    | list => exact .pure (by rw [Value.renumber_list, List.map_append, List.map_reverse])
    | vector => exact .pure (by rw [Value.renumber_vector, List.map_append])
  | _ => exact mismatch_matches "list or vector" _

theorem element_matches :
    Matches ρ (Value.renumber ρ) (element args) (element (args.map (Value.renumber ρ))) := by
  refine (two_matches args).bind fun p => (itemsOf_matches p.1).bind fun items => ?_
  refine (intOf_matches p.2).bind fun i => ?_
  dsimp only [id]
  rw [List.length_map, List.getElem?_map]
  split
  · exact .error_self rfl
  · cases items[i.toInt.toNat]? with
    | some v => exact .ok v
    | none => exact .error_self rfl

theorem head_matches :
    Matches ρ (Value.renumber ρ) (head args) (head (args.map (Value.renumber ρ))) := by
  refine (one_matches args).bind fun v => (itemsOrNil_matches v).bind fun items => .pure ?_
  cases items with
  | nil => exact Value.renumber_nil
  | cons v vs => rfl

theorem tail_matches :
    Matches ρ (Value.renumber ρ) (tail args) (tail (args.map (Value.renumber ρ))) := by
  refine (one_matches args).bind fun v => (itemsOrNil_matches v).bind fun items => .pure ?_
  rw [Value.renumber_list, List.map_tail]

theorem listed_matches (clusters : Segmentation) :
    Matches ρ (Value.renumber ρ) (listed clusters args)
      (listed clusters (args.map (Value.renumber ρ))) := by
  refine (one_matches args).bind fun v => ?_
  cases v with
  | nil => exact .ok Value.nil
  | seq kind items tag =>
    rw [Value.renumber_seq]
    refine .pure ?_
    cases items with
    | nil => exact Value.renumber_nil
    | cons v vs => exact Value.renumber_list (v :: vs)
  | text s =>
    rw [Value.renumber_text]
    dsimp only
    split
    · exact .error_self rfl
    · split
      · exact .pure Value.renumber_nil
      · exact .pure (by simp [Function.comp_def])
  | _ => exact mismatch_matches "list, vector, string or nil" _

/-! ### Maps -/

theorem mapping_matches :
    Matches ρ (Value.renumber ρ) (mapping args) (mapping (args.map (Value.renumber ρ))) :=
  (Dict.ofValues_matches args).bind fun d => .pure (Value.renumber_dict d)

theorem associated_matches :
    Matches ρ (Value.renumber ρ) (associated args)
      (associated (args.map (Value.renumber ρ))) := by
  refine (oneOrMore_matches args).bind fun ⟨m, pairs⟩ => ?_
  refine (entriesOf_matches m).bind fun d => ?_
  rw [List.length_map]
  split
  · refine (Dict.insertAll_matches d pairs).bind fun d => .pure ?_
    rw [Value.renumber_map, Value.metadata_renumber]
  · exact .error_self rfl

theorem dissociated_matches :
    Matches ρ (Value.renumber ρ) (dissociated args)
      (dissociated (args.map (Value.renumber ρ))) := by
  refine (oneOrMore_matches args).bind fun ⟨m, gone⟩ => ?_
  refine (entriesOf_matches m).bind fun d => (Dict.eraseAll_matches d gone).bind fun d => .pure ?_
  rw [Value.renumber_map, Value.metadata_renumber]

theorem found_matches :
    Matches ρ (Value.renumber ρ) (found args) (found (args.map (Value.renumber ρ))) := by
  refine (two_matches args).bind fun ⟨m, key⟩ => ?_
  have hget : Matches ρ (Value.renumber ρ)
      (do return (← Dict.find? key (← get.entriesOf m)).getD Value.nil)
      (do
        let v? ← Dict.find? (key.renumber ρ) (← get.entriesOf (m.renumber ρ))
        return v?.getD Value.nil) := by
    refine (entriesOf_matches m).bind fun d => (Dict.find?_matches key d).bind fun v? => .pure ?_
    cases v? with
    | none => exact Value.renumber_nil
    | some v => rfl
  cases m with
  | nil => exact .ok Value.nil
  | _ => exact hget

theorem hasKey_matches :
    Matches ρ (Value.renumber ρ) (hasKey args) (hasKey (args.map (Value.renumber ρ))) := by
  refine (two_matches args).bind fun ⟨m, key⟩ => ?_
  have hcontains : Matches ρ (Value.renumber ρ)
      (do return Value.bool (← Dict.contains key (← contains.entriesOf m)))
      (do
        return Value.bool
          (← Dict.contains (key.renumber ρ) (← contains.entriesOf (m.renumber ρ)))) := by
    refine (entriesOf_matches m).bind fun d => ?_
    exact (Dict.contains_matches key d).bind fun b => .ok (Value.bool b)
  cases m with
  | nil => exact .ok (Value.bool false)
  | _ => exact hcontains

theorem keyList_matches :
    Matches ρ (Value.renumber ρ) (keyList args) (keyList (args.map (Value.renumber ρ))) :=
  (one_matches args).bind fun v => (entriesOf_matches v).bind fun d =>
    .pure (by simp [Function.comp_def])

theorem valueList_matches :
    Matches ρ (Value.renumber ρ) (valueList args) (valueList (args.map (Value.renumber ρ))) :=
  (one_matches args).bind fun v => (entriesOf_matches v).bind fun d =>
    .pure (by simp [Function.comp_def])

end Pure

/-! ### With the state at hand -/

open Run

section State

variable {n : FrameId} (args : List Value)

theorem texts_matches (style : Style) (between : String) :
    Run.Matches n id (texts style between args)
      (texts style between (args.map (Value.renumber (skip n)))) := by
  refine .printing args fun s t hst => ?_
  have htexts : (args.map (Value.renumber (skip n))).map (t.render style) =
      args.map (s.render style) := by
    rw [List.map_map]
    exact List.map_congr_left fun v _ => hst.render style v
  rw [htexts]
  rfl

theorem print_matches (style : Style) :
    Run.Matches n (Value.renumber (skip n)) (print style args)
      (print style (args.map (Value.renumber (skip n)))) := by
  refine (texts_matches args style " ").bind fun line => ?_
  exact (Run.Matches.request fun s t hst => hst.write _).bind fun _ => .pure Value.renumber_nil

theorem fileText_matches :
    Run.Matches n (Value.renumber (skip n)) (fileText args)
      (fileText (args.map (Value.renumber (skip n)))) := by
  refine (Run.Matches.ofExcept (one_matches args)).bind fun v => ?_
  refine (Run.Matches.ofExcept (stringOf_matches v)).bind fun path => ?_
  refine (Run.Matches.request fun s t hst => hst.readFile path).bind fun text => ?_
  exact .pure (Value.renumber_text text)

theorem askLine_matches :
    Run.Matches n (Value.renumber (skip n)) (askLine args)
      (askLine (args.map (Value.renumber (skip n)))) := by
  refine (Run.Matches.ofExcept (one_matches args)).bind fun v => ?_
  refine (Run.Matches.ofExcept (stringOf_matches v)).bind fun prompt => ?_
  refine (Run.Matches.request fun s t hst => hst.write prompt).bind fun _ => ?_
  refine (Run.Matches.request fun s t hst => hst.readLine).bind fun line => ?_
  cases line with
  | nil => exact .pure Value.renumber_nil
  | cons c cs => exact .pure (Value.renumber_text _)

theorem time_matches :
    Run.Matches n (Value.renumber (skip n)) (time args)
      (time (args.map (Value.renumber (skip n)))) := by
  refine (Run.Matches.ofExcept (none_matches args)).bind fun _ => ?_
  refine (Run.Matches.request fun s t hst => hst.readClock).bind fun now => ?_
  dsimp only [id]
  cases Decimal.word? now with
  | some n => exact .pure (Value.renumber_int n)
  | none => exact .raise_self rfl

theorem newAtom_matches :
    Run.Matches n (Value.renumber (skip n)) (newAtom args)
      (newAtom (args.map (Value.renumber (skip n)))) := by
  refine (Run.Matches.ofExcept (one_matches args)).bind fun v => ?_
  refine (Run.Matches.modify (g := id) fun s t hst => hst.newAtom v).bind fun c => ?_
  exact .pure (Value.renumber_atom c)

theorem contentOf_matches :
    Run.Matches n (Value.renumber (skip n)) (contentOf args)
      (contentOf (args.map (Value.renumber (skip n)))) := by
  refine (Run.Matches.ofExcept (one_matches args)).bind fun v => ?_
  refine (Run.Matches.ofExcept (cellOf_matches v)).bind fun c => ?_
  exact .inspect fun s t hst => hst.content c

theorem replace_matches :
    Run.Matches n (Value.renumber (skip n)) (replace args)
      (replace (args.map (Value.renumber (skip n)))) := by
  refine (Run.Matches.ofExcept (two_matches args)).bind fun p => ?_
  refine (Run.Matches.ofExcept (cellOf_matches p.1)).bind fun c => ?_
  exact (Run.Matches.update fun s t hst => hst.setContent c p.2).bind fun _ => .pure rfl

section Nested

variable {read read' : String → Run Value} {ap ap' : Value → List Value → Run Value}

theorem parsed_matches
    (hread : ∀ text, Run.Matches n (Value.renumber (skip n)) (read text) (read' text)) :
    Run.Matches n (Value.renumber (skip n)) (parsed read args)
      (parsed read' (args.map (Value.renumber (skip n)))) := by
  refine (Run.Matches.ofExcept (one_matches args)).bind fun v => ?_
  exact (Run.Matches.ofExcept (stringOf_matches v)).bind hread

variable (hap : ∀ f args, Run.Matches n (Value.renumber (skip n)) (ap f args)
  (ap' (f.renumber (skip n)) (args.map (Value.renumber (skip n)))))
include hap

theorem exchange_matches :
    Run.Matches n (Value.renumber (skip n)) (exchange ap args)
      (exchange ap' (args.map (Value.renumber (skip n)))) := by
  refine (Run.Matches.ofExcept (twoOrMore_matches args)).bind fun ⟨a, f, more⟩ => ?_
  refine (Run.Matches.ofExcept (cellOf_matches a)).bind fun c => ?_
  refine (Run.Matches.inspect fun s t hst => hst.content c).bind fun old => ?_
  refine (hap f (old :: more)).bind fun new => ?_
  exact (Run.Matches.update fun s t hst => hst.setContent c new).bind fun _ => .pure rfl

theorem spread_matches :
    Run.Matches n (Value.renumber (skip n)) (spread ap args)
      (spread ap' (args.map (Value.renumber (skip n)))) := by
  refine (Run.Matches.ofExcept (twoOrMore_matches args)).bind fun ⟨f, a, more⟩ => ?_
  have hlast : ((a :: more).map (Value.renumber (skip n))).getLastD .nil =
      ((a :: more).getLastD .nil).renumber (skip n) := by
    simp only [List.getLastD_eq_getLast?, List.getLast?_map]
    cases (a :: more).getLast? <;> simp
  have hitems : Run.Matches n (List.map (Value.renumber (skip n)))
      (ofExcept (apply.itemsOf ((a :: more).getLastD .nil)))
      (ofExcept (apply.itemsOf (((a :: more).map (Value.renumber (skip n))).getLastD .nil))) := by
    rw [hlast]
    exact .ofExcept (itemsOf_matches _)
  refine hitems.bind fun last => ?_
  have hargs : ((a :: more).map (Value.renumber (skip n))).dropLast ++
      last.map (Value.renumber (skip n)) =
        ((a :: more).dropLast ++ last).map (Value.renumber (skip n)) := by
    rw [List.map_append, List.map_dropLast]
  have hcall := hap f ((a :: more).dropLast ++ last)
  rw [← hargs] at hcall
  exact hcall

theorem mapOnto_matches (f : Value) (done vs : List Value) :
    Run.Matches n (Value.renumber (skip n)) (mapOnto ap f done vs)
      (mapOnto ap' (f.renumber (skip n)) (done.map (Value.renumber (skip n)))
        (vs.map (Value.renumber (skip n)))) := by
  induction vs generalizing done with
  | nil => exact .pure (by rw [Value.renumber_list, List.map_reverse])
  | cons v vs ih => exact (hap f [v]).bind fun w => ih (w :: done)

theorem mapEach_matches :
    Run.Matches n (Value.renumber (skip n)) (mapEach ap args)
      (mapEach ap' (args.map (Value.renumber (skip n)))) := by
  refine (Run.Matches.ofExcept (two_matches args)).bind fun p => ?_
  refine (Run.Matches.ofExcept (itemsOrNil_matches p.2)).bind fun items => ?_
  exact mapOnto_matches hap p.1 [] items

/-- Calling a built-in function matches as reading and calling functions do. -/
theorem call_matches
    (hread : ∀ text, Run.Matches n (Value.renumber (skip n)) (read text) (read' text))
    (b : Builtin) :
    Run.Matches n (Value.renumber (skip n)) (b.call read ap args)
      (b.call read' ap' (args.map (Value.renumber (skip n)))) := by
  cases b with
  | add | sub | mul => exact .ofExcept (arithmetic_matches args _ _)
  | div => exact .ofExcept (division_matches args)
  | lt | le | gt | ge => exact .ofExcept (comparison_matches args _ _)
  | eq => exact .ofExcept (equality_matches args)
  | prStr | str => exact (texts_matches args _ _).bind fun text => .pure (Value.renumber_text text)
  | prn | println => exact print_matches args _
  | readString => exact parsed_matches args hread
  | slurp => exact fileText_matches args
  | readLine => exact askLine_matches args
  | timeMs => exact time_matches args
  | list => exact .pure (Value.renumber_list args)
  | vector => exact .pure (Value.renumber_vector args)
  | isEmpty => exact .ofExcept (emptiness_matches args)
  | count => exact .ofExcept (length_matches args)
  | cons => exact .ofExcept (consed_matches args)
  | concat => exact .ofExcept (concatenated_matches args)
  | vec => exact .ofExcept (asVector_matches args)
  | conj => exact .ofExcept (conjoined_matches args)
  | nth => exact .ofExcept (element_matches args)
  | first => exact .ofExcept (head_matches args)
  | rest => exact .ofExcept (tail_matches args)
  | seq =>
    refine (Run.Matches.inspect (g := id) fun s t hst => ?_).bind fun clusters =>
      .ofExcept (listed_matches args clusters)
    obtain ⟨asked, hhost⟩ := hst.host
    rw [hhost]
    rfl
  | hashMap => exact .ofExcept (mapping_matches args)
  | assoc => exact .ofExcept (associated_matches args)
  | dissoc => exact .ofExcept (dissociated_matches args)
  | get => exact .ofExcept (found_matches args)
  | contains => exact .ofExcept (hasKey_matches args)
  | keys => exact .ofExcept (keyList_matches args)
  | vals => exact .ofExcept (valueList_matches args)
  | atom => exact newAtom_matches args
  | deref => exact contentOf_matches args
  | reset => exact replace_matches args
  | swap => exact exchange_matches args hap
  | throw => exact (Run.Matches.ofExcept (one_matches args)).bind fun v => .raise (.thrown v)
  | apply => exact spread_matches args hap
  | map => exact mapEach_matches args hap
  | symbol => exact .ofExcept (named_matches args)
  | keyword => exact .ofExcept (keywordNamed_matches args)
  | metadata => exact .ofExcept (tagOf_matches args)
  | withMeta => exact .ofExcept (tagged_matches args)
  | isAtom | isFn | isMacro | isNil | isSymbol | isKeyword | isString | isNumber =>
    exact .ofExcept (test_matches (fun v => by rw [Value.kind_renumber]) args)
  | isList | isVector | isSequential | isMap | isTrue | isFalse =>
    refine .ofExcept (test_matches (fun v => ?_) args)
    cases v <;> simp

end Nested

end State

end Lisp.Builtin
