import Lisp.Proofs.Invariant.Builtin

/-!
# Disciplines of calls of built-in functions

A call of a built-in function keeps to every lawful discipline that reading and calling functions
keep to, which are all that it leaves to others. Two ways to read and to call functions that agree
make calls of built-in functions agree.
-/

namespace Lisp.Builtin

open Run Shape

variable {W : Type} [Preorder W] {D : Discipline W} {w : W} {args : List Value}

theorem texts_keeps (style : Style) (between : String) (args : List Value) :
    KeepsTo D w (fun _ _ => True) (texts style between args) :=
  .printing fun _ _ _ _ => trivial

theorem write_keeps (source : Source) (text : String) :
    KeepsTo D w (fun _ _ => True) (.request source (·.write text)) :=
  .request fun _ _ _ hs => hs.of_eq rfl rfl

theorem print_keeps (style : Style) (args : List Value) : KeepsTo D w D.Value (print style args) := by
  refine (texts_keeps style " " args).bind fun w' line _ _ => ?_
  exact (write_keeps _ _).bind fun w' _ _ _ => .pure fun _ _ => .leaf trivial

section Lawful

variable (hD : D.Lawful) (h : D.Values w args)
include hD h

theorem fileText_keeps : KeepsTo D w D.Value (fileText args) := by
  refine (Agree.ofExcept hD (answers_one h)).bind fun w' v _ _ => ?_
  refine (Agree.ofExcept hD (answers_stringOf v)).bind fun w' path _ _ => ?_
  have hread : KeepsTo D w' (fun _ _ => True) (.request (.file path) (·.readFile path)) :=
    .request fun _ _ _ hs => hs.of_eq rfl rfl
  exact hread.bind fun w' text _ _ => .pure fun _ _ => .leaf trivial

theorem askLine_keeps : KeepsTo D w D.Value (askLine args) := by
  refine (Agree.ofExcept hD (answers_one h)).bind fun w' v _ _ => ?_
  refine (Agree.ofExcept hD (answers_stringOf v)).bind fun w' prompt _ _ => ?_
  refine (write_keeps _ prompt).bind fun w' _ _ _ => ?_
  have hread : KeepsTo D w' (fun _ _ => True)
      (.request (.stream readLine.name) (·.readLine)) :=
    .request fun _ _ _ hs => hs.of_eq rfl rfl
  refine hread.bind fun w' line _ _ => ?_
  cases line with
  | nil => exact .pure fun _ _ => .leaf trivial
  | cons c cs => exact .pure fun _ _ => .leaf trivial

omit h in
theorem time_keeps (args : List Value) : KeepsTo D w D.Value (time args) := by
  refine (Agree.ofExcept hD answers_none).bind fun w' _ _ _ => ?_
  have hnow : KeepsTo D w' (fun _ _ => True) (.request .clock (·.readClock)) :=
    .request fun _ _ _ hs => hs.of_eq rfl rfl
  refine hnow.bind fun w' now _ _ => ?_
  split
  · exact .pure fun _ _ => .leaf trivial
  · exact .raise_leaf trivial

theorem newAtom_keeps : KeepsTo D w D.Value (newAtom args) := by
  refine (Agree.ofExcept hD (answers_one h)).bind fun w' v hw hv => ?_
  have hnew : KeepsTo D w' (fun _ _ => True) (.modify (·.newAtom v)) :=
    .modify fun u s hu hs =>
      ⟨u, le_refl u, hs.newAtom (hD.value_mono (le_trans hw hu) hv), trivial⟩
  exact hnew.bind fun _ _ _ _ => .pure fun _ _ => .leaf trivial

theorem contentOf_keeps : KeepsTo D w D.Value (contentOf args) := by
  refine (Agree.ofExcept hD (answers_one h)).bind fun w' v _ _ => ?_
  refine (Agree.ofExcept hD (answers_cellOf v)).bind fun w' c _ _ => ?_
  exact .inspect fun _ _ _ hs => hs.content c

omit h in
/-- Replacing what an atom holds. -/
theorem setContent_keeps (c : CellId) {v : Value} (hv : D.Value w v) :
    KeepsTo D w (fun _ _ => True) (.update (·.setContent c v)) :=
  .update fun _ _ hw hs => hs.setContent c (hD.value_mono hw hv)

theorem replace_keeps : KeepsTo D w D.Value (replace args) := by
  refine (Agree.ofExcept hD (answers_two h)).bind fun w₁ ⟨a, v⟩ hw₁ hp => ?_
  refine (Agree.ofExcept hD (answers_cellOf a)).bind fun w₂ c hw₂ _ => ?_
  have hv : D.Value w₂ v := hD.value_mono (le_trans hw₁ hw₂) hp.2
  exact (setContent_keeps hD c hv).bind fun _ _ hw _ => .pure_value hD (hD.value_mono hw hv)

section Nested

variable {read read' : String → Run Value} {ap ap' : Value → List Value → Run Value}

theorem parsed_agree (hread : ∀ w text, Agree D w D.Value (read text) (read' text)) :
    Agree D w D.Value (parsed read args) (parsed read' args) := by
  refine (Agree.ofExcept hD (answers_one h)).bind fun w' v _ _ => ?_
  exact (Agree.ofExcept hD (answers_stringOf v)).bind fun w' text _ _ => hread w' text

variable (hap : ∀ {w f args}, D.Value w f → D.Values w args →
  Agree D w D.Value (ap f args) (ap' f args))
include hap

theorem exchange_agree : Agree D w D.Value (exchange ap args) (exchange ap' args) := by
  refine (Agree.ofExcept hD (answers_twoOrMore h)).bind fun w' ⟨a, f, more⟩ hw hp => ?_
  refine (Agree.ofExcept hD (answers_cellOf a)).bind fun w₁ c hw₁ _ => ?_
  have hcontent : KeepsTo D w₁ D.Value (.inspect (·.content c)) :=
    .inspect fun _ _ _ hs => hs.content c
  refine hcontent.bind fun w₂ old hw₂ hold => ?_
  have hle : w ≤ w₂ := le_trans hw (le_trans hw₁ hw₂)
  have hmore : D.Values w₂ (old :: more) :=
    List.forall_mem_cons.mpr ⟨hold, hD.values_mono hle hp.2.2⟩
  refine (hap (hD.value_mono hle hp.2.1) hmore).bind fun w₃ new _ hnew => ?_
  exact (setContent_keeps hD c hnew).bind fun w' _ hw _ => .pure_value hD (hD.value_mono hw hnew)

theorem spread_agree : Agree D w D.Value (spread ap args) (spread ap' args) := by
  refine (Agree.ofExcept hD (answers_twoOrMore h)).bind fun w' ⟨f, a, more⟩ hw hp => ?_
  have hargs : D.Values w' (a :: more) :=
    hD.values_mono hw (List.forall_mem_cons.mpr hp.2)
  have hlast : D.Value w' ((a :: more).getLastD .nil) := by
    rw [List.getLastD_cons]
    exact hargs _ (List.getLastD_mem_cons ..)
  refine (Agree.ofExcept hD (answers_itemsOf hlast)).bind fun w₁ last hw₁ hitems => ?_
  refine hap (hD.value_mono (le_trans hw hw₁) hp.1) (hD.values_mono hw₁ ?_)
  exact List.forall_mem_append.mpr ⟨fun v hv => hargs v (List.dropLast_subset _ hv), hitems⟩

omit h in
theorem mapOnto_agree {f : Value} (hf : D.Value w f) {done vs : List Value}
    (hdone : D.Values w done) (hvs : D.Values w vs) :
    Agree D w D.Value (mapOnto ap f done vs) (mapOnto ap' f done vs) := by
  induction vs generalizing w done with
  | nil =>
    refine .pure_value hD (fits_list.mpr fun v hv => hdone v (List.mem_reverse.mp hv))
  | cons v vs ih =>
    obtain ⟨hv, hvs⟩ := List.forall_mem_cons.mp hvs
    refine (hap hf (List.forall_mem_singleton.mpr hv)).bind fun w' u hw hu => ?_
    exact ih (hD.value_mono hw hf)
      (List.forall_mem_cons.mpr ⟨hu, hD.values_mono hw hdone⟩) (hD.values_mono hw hvs)

theorem mapEach_agree : Agree D w D.Value (mapEach ap args) (mapEach ap' args) := by
  refine (Agree.ofExcept hD (answers_two h)).bind fun w' ⟨f, s⟩ hw hp => ?_
  have hs : (D.shape w').Answers (D.Values w') (map.itemsOrNil s) :=
    answers_itemsOrNil (hD.value_mono hw hp.2)
  refine (Agree.ofExcept hD hs).bind fun w₁ items hw₁ hitems => ?_
  exact mapOnto_agree hD hap (hD.value_mono (le_trans hw hw₁) hp.1) (List.forall_mem_nil _)
    (hD.values_mono hw₁ hitems)

/-- Calls of a built-in function agree if reading and calling functions do. -/
theorem call_agree (hread : ∀ w text, Agree D w D.Value (read text) (read' text)) (b : Builtin) :
    Agree D w D.Value (b.call read ap args) (b.call read' ap' args) := by
  have hS := hD.shape w
  have hleaf {x : Run String} (hx : KeepsTo D w (fun _ _ => True) x) :
      KeepsTo D w D.Value (do return .text (← x)) :=
    hx.bind fun _ _ _ _ => .pure fun _ _ => .leaf trivial
  cases b with
  | add | sub | mul => exact .ofExcept_value hD (answers_arithmetic h _ _)
  | div => exact .ofExcept_value hD (answers_division h)
  | lt | le | gt | ge => exact .ofExcept_value hD (answers_comparison h _ _)
  | eq => exact .ofExcept_value hD (answers_equality h)
  | prStr | str => exact hleaf (texts_keeps _ _ _)
  | prn | println => exact print_keeps _ _
  | readString => exact parsed_agree hD h hread
  | slurp => exact fileText_keeps hD h
  | readLine => exact askLine_keeps hD h
  | timeMs => exact time_keeps hD args
  | list => exact .pure_value hD (fits_list.mpr h)
  | vector => exact .pure_value hD (fits_vector.mpr h)
  | isEmpty => exact .ofExcept_value hD (answers_emptiness h)
  | count => exact .ofExcept_value hD (answers_length h)
  | cons => exact .ofExcept_value hD (answers_consed h)
  | concat => exact .ofExcept_value hD (answers_concatenated h)
  | vec => exact .ofExcept_value hD (answers_asVector h)
  | conj => exact .ofExcept_value hD (answers_conjoined h)
  | nth => exact .ofExcept_value hD (answers_element h)
  | first => exact .ofExcept_value hD (answers_head h)
  | rest => exact .ofExcept_value hD (answers_tail h)
  | seq =>
    have hclusters : KeepsTo D w (fun _ _ => True) (.inspect (·.host.clusters)) :=
      .inspect fun _ _ _ _ => trivial
    refine hclusters.bind fun w' clusters hw _ => ?_
    exact .ofExcept_value hD (answers_listed (hD.values_mono hw h) clusters)
  | hashMap => exact .ofExcept_value hD (answers_mapping h hS)
  | assoc => exact .ofExcept_value hD (answers_associated h hS)
  | dissoc => exact .ofExcept_value hD (answers_dissociated h hS)
  | get => exact .ofExcept_value hD (answers_found h)
  | contains => exact .ofExcept_value hD (answers_hasKey h)
  | keys => exact .ofExcept_value hD (answers_keyList h)
  | vals => exact .ofExcept_value hD (answers_valueList h)
  | atom => exact newAtom_keeps hD h
  | deref => exact contentOf_keeps hD h
  | reset => exact replace_keeps hD h
  | swap => exact exchange_agree hD h hap
  | throw =>
    refine (Agree.ofExcept hD (answers_one h)).bind fun w' v hw hv => ?_
    exact .raise fun k hk => hD.value_mono (le_trans hw hk) hv
  | apply => exact spread_agree hD h hap
  | map => exact mapEach_agree hD h hap
  | symbol => exact .ofExcept_value hD (answers_named h)
  | keyword => exact .ofExcept_value hD (answers_keywordNamed h)
  | metadata => exact .ofExcept_value hD (answers_tagOf h)
  | withMeta => exact .ofExcept_value hD (answers_tagged h)
  | isList | isVector | isSequential | isMap | isAtom | isFn | isMacro | isNil | isTrue | isFalse
  | isSymbol | isKeyword | isString | isNumber => exact .ofExcept_value hD (answers_test _ h)

end Nested

end Lawful

end Lisp.Builtin
