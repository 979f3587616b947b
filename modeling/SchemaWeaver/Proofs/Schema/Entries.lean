import SchemaWeaver.Proofs.Schema.Places

/-!
What the two changes of a schema object do to its entries. Reducing it deletes entries and may
rewrite the type in place; spelling out null rewrites one entry in place, moves one into a new
branch at the end, or fills an empty object.
-/

set_option autoImplicit false
set_option relaxedAutoImplicit false

namespace SchemaWeaver.Schema

open Keyed

variable {entries : Keyed String Json}

/-! ## Reduced entries -/

def hasComposite (entries : Keyed String Json) : Bool :=
  compositeKeywords.any (has entries)

def isByte (entries : Keyed String Json) : Bool :=
  isStringAt entries "format" "byte" && isStringAt entries "type" "string"

theorem isStringAt_eq_true_iff {key text : String} :
    isStringAt entries key text = true ↔ get? entries key = some (.str text) := by
  unfold isStringAt
  split
  · rename_i s found
    simp [found]
  · rename_i other
    simp only [Bool.false_eq_true, false_iff]
    exact other text

theorem hasComposite_eq_true_iff :
    hasComposite entries = true ↔ ∃ keyword ∈ compositeKeywords, keyword ∈ keys entries := by
  simp [hasComposite, has_eq_true_iff]

theorem get?_reduceEntries_of_stripped {key : String} (stripped : isStripped key = true) :
    get? (reduceEntries entries) key = none := by
  rw [reduceEntries, get?_filter (fun key => !isStripped key), stripped]
  rfl

theorem byteAsNumber_dropTypeOfComposite (entries : Keyed String Json) :
    byteAsNumber (dropTypeOfComposite entries) =
      if hasComposite entries then erase entries "type"
      else if isByte entries then insert (erase entries "format") "type" (.str "number")
      else entries := by
  cases composite : hasComposite entries with
  | true =>
      rw [hasComposite] at composite
      have untyped : isStringAt (erase entries "type") "type" "string" = false := by
        rw [isStringAt, get?_erase, if_pos rfl]
      rw [dropTypeOfComposite, if_pos composite, byteAsNumber, untyped, Bool.and_false]
      rfl
  | false =>
      rw [hasComposite] at composite
      rw [dropTypeOfComposite, if_neg (by simp [composite]), byteAsNumber, isByte]
      simp

private theorem get?_reduceEntries_of_kept {key : String} (kept : isStripped key = false)
    (other : key ≠ "nullable") :
    get? (reduceEntries entries) key =
      get? (byteAsNumber (dropTypeOfComposite entries)) key := by
  have reference : key ≠ "$ref" := by
    rintro rfl
    revert kept
    decide
  rw [reduceEntries, get?_filter (fun key => !isStripped key), kept, Bool.not_false, if_pos rfl,
    dropReference]
  split
  · simp [get?_erase, other, reference]
  · rfl

theorem get?_reduceEntries_type :
    get? (reduceEntries entries) "type" =
      if hasComposite entries then none
      else if isByte entries then some (.str "number")
      else get? entries "type" := by
  rw [get?_reduceEntries_of_kept (by decide) (by decide), byteAsNumber_dropTypeOfComposite]
  split_ifs <;> simp [get?_erase, get?_insert]

theorem get?_reduceEntries_format :
    get? (reduceEntries entries) "format" =
      if !hasComposite entries && isByte entries then none else get? entries "format" := by
  rw [get?_reduceEntries_of_kept (by decide) (by decide), byteAsNumber_dropTypeOfComposite]
  cases hasComposite entries <;> cases isByte entries <;> simp [get?_erase, get?_insert]

theorem get?_reduceEntries {key : String} (kept : isStripped key = false)
    (other : key ∉ ["type", "format", "nullable"]) :
    get? (reduceEntries entries) key = get? entries key := by
  simp only [List.mem_cons, List.not_mem_nil, or_false, not_or] at other
  obtain ⟨type, format, nullable⟩ := other
  rw [get?_reduceEntries_of_kept kept nullable, byteAsNumber_dropTypeOfComposite]
  split_ifs <;> simp [get?_erase, get?_insert, type, format]

theorem mem_reduceEntries {entry : String × Json} (member : entry ∈ reduceEntries entries) :
    entry ∈ entries ∨ entry = ("type", .str "number") := by
  have referenced := List.mem_of_mem_filter member
  have numbered : entry ∈ byteAsNumber (dropTypeOfComposite entries) := by
    unfold dropReference at referenced
    split at referenced
    · exact List.mem_of_mem_filter (List.mem_of_mem_filter referenced)
    · exact referenced
  rw [byteAsNumber_dropTypeOfComposite] at numbered
  split_ifs at numbered
  · exact Or.inl (List.mem_of_mem_filter numbered)
  · exact (mem_insert numbered).symm.imp_left List.mem_of_mem_filter
  · exact Or.inl numbered

theorem keys_erase_sublist (entries : Keyed String Json) (key : String) :
    (keys (erase entries key)).Sublist (keys entries) :=
  List.filter_sublist.map _

theorem keys_reduceEntries_sublist (entries : Keyed String Json) :
    (keys (reduceEntries entries)).Sublist (keys entries) := by
  have numbered : (keys (byteAsNumber (dropTypeOfComposite entries))).Sublist (keys entries) := by
    rw [byteAsNumber_dropTypeOfComposite]
    split_ifs with composite byte
    · exact keys_erase_sublist _ _
    · have found : get? (erase entries "format") "type" = some (.str "string") := by
        rw [isByte, Bool.and_eq_true, isStringAt_eq_true_iff, isStringAt_eq_true_iff] at byte
        rw [get?_erase, if_neg (by decide), byte.2]
      rw [keys_insert_of_get?_eq_some found]
      exact keys_erase_sublist _ _
    · exact List.Sublist.refl _
  have referenced : (keys (dropReference (byteAsNumber (dropTypeOfComposite entries)))).Sublist
      (keys (byteAsNumber (dropTypeOfComposite entries))) := by
    unfold dropReference
    split
    · exact (keys_erase_sublist _ _).trans (keys_erase_sublist _ _)
    · exact List.Sublist.refl _
  have kept : (keys (reduceEntries entries)).Sublist
      (keys (dropReference (byteAsNumber (dropTypeOfComposite entries)))) :=
    List.filter_sublist.map _
  exact kept.trans (referenced.trans numbered)

/-! ## Entries with null spelled out -/

/-- The ways in which a schema object can be made to admit null. -/
inductive AdmitsNull (entries : Keyed String Json) : Keyed String Json → Prop
  | unchanged : AdmitsNull entries entries
  | type {old : Json} (found : get? entries "type" = some old) (names : List Json) :
      AdmitsNull entries (insert entries "type" (.arr names))
  | branch {key : String} {branches : List Json} (several : key = "oneOf" ∨ key = "anyOf")
      (found : get? entries key = some (.arr branches)) :
      AdmitsNull entries (insert entries key (.arr (branches ++ [nullSchema])))
  | moved {all : Json} (found : get? entries "allOf" = some all)
      (free : ∀ branches, get? entries "anyOf" ≠ some (.arr branches)) :
      AdmitsNull entries (insert (erase entries "allOf") "anyOf"
        (.arr [.obj [("allOf", all)], nullSchema]))
  | filled (empty : entries = []) : AdmitsNull entries [("type", .str "null")]

theorem admitsNull_admitNull (entries : Keyed String Json) :
    AdmitsNull entries (admitNull entries) := by
  unfold admitNull
  split
  · rename_i name found
    exact .type found _
  · rename_i names found
    split
    · exact .unchanged
    · exact .type found _
  · unfold admitNullBranch
    split
    · rename_i found
      exact .branch (Or.inl rfl) found
    · rename_i found _
      exact .branch (Or.inr rfl) found
    · rename_i found _ free
      exact .moved found free
    · split
      · rename_i empty
        rw [List.isEmpty_iff] at empty
        subst empty
        exact .filled rfl
      · exact .unchanged

theorem admitsNull_spellNullEntries (entries : Keyed String Json) :
    AdmitsNull (erase entries "nullable") (spellNullEntries entries) := by
  unfold spellNullEntries
  split
  · exact admitsNull_admitNull _
  · exact .unchanged

theorem spellNullEntries_of_unflagged (unflagged : "nullable" ∉ keys entries) :
    spellNullEntries entries = entries := by
  have missing := get?_eq_none_iff.mpr unflagged
  rw [spellNullEntries, missing]
  exact erase_of_get?_eq_none missing

namespace AdmitsNull

variable {result : Keyed String Json}

theorem get?_eq (admits : AdmitsNull entries result) {key : String}
    (other : key ∉ ["type", "allOf", "anyOf", "oneOf"]) : get? result key = get? entries key := by
  simp only [List.mem_cons, List.not_mem_nil, or_false, not_or] at other
  obtain ⟨typed, all, any, one⟩ := other
  cases admits with
  | unchanged => rfl
  | type found names => rw [get?_insert, if_neg typed]
  | branch several found =>
      rw [get?_insert, if_neg]
      rcases several with rfl | rfl
      · exact one
      · exact any
  | moved found free => rw [get?_insert, if_neg any, get?_erase, if_neg all]
  | filled empty => simp [empty, get?, Ne.symm typed]

theorem keys_cases (admits : AdmitsNull entries result) :
    (keys result).Sublist (keys entries) ∨
      ("anyOf" ∉ keys entries ∧ "allOf" ∈ keys entries ∧
        keys result = keys (erase entries "allOf") ++ ["anyOf"]) ∨
      (entries = [] ∧ result = [("type", .str "null")]) := by
  cases admits with
  | unchanged => exact Or.inl (List.Sublist.refl _)
  | type found names =>
      rw [keys_insert_of_get?_eq_some found]
      exact Or.inl (List.Sublist.refl _)
  | branch several found =>
      rw [keys_insert_of_get?_eq_some found]
      exact Or.inl (List.Sublist.refl _)
  | @moved all found free =>
      have kept : get? (erase entries "allOf") "anyOf" = get? entries "anyOf" := by
        rw [get?_erase, if_neg (by decide)]
      cases there : get? entries "anyOf" with
      | some old =>
          rw [keys_insert_of_get?_eq_some (kept.trans there)]
          exact Or.inl (keys_erase_sublist _ _)
      | none =>
          have listed : "allOf" ∈ keys entries := List.mem_map_of_mem (mem_of_get? found)
          rw [insert_of_get?_eq_none (kept.trans there), keys, List.map_append]
          exact Or.inr (Or.inl ⟨get?_eq_none_iff.mp there, listed, rfl⟩)
  | filled empty => exact Or.inr (Or.inr ⟨empty, rfl⟩)

theorem get?_alternatives (admits : AdmitsNull entries result) {key : String}
    (several : key = "oneOf" ∨ key = "anyOf") {branches : List Json}
    (listed : get? entries key = some (.arr branches)) :
    ∃ null, (null = [] ∨ null = [nullSchema]) ∧
      get? result key = some (.arr (branches ++ null)) := by
  have same (same : get? result key = get? entries key) :
      ∃ null, (null = [] ∨ null = [nullSchema]) ∧
        get? result key = some (.arr (branches ++ null)) :=
    ⟨[], Or.inl rfl, by rw [same, listed, List.append_nil]⟩
  have typed : key ≠ "type" := by rcases several with rfl | rfl <;> decide
  cases admits with
  | unchanged => exact same rfl
  | type found names => exact same (by rw [get?_insert, if_neg typed])
  | @branch other branches' _ found =>
      by_cases here : key = other
      · subst here
        cases listed.symm.trans found
        exact ⟨[nullSchema], Or.inr rfl, by rw [get?_insert, if_pos rfl]⟩
      · exact same (by rw [get?_insert, if_neg here])
  | moved found free =>
      rcases several with rfl | rfl
      · exact same (by rw [get?_insert, if_neg (by decide), get?_erase, if_neg (by decide)])
      · exact absurd listed (free branches)
  | filled empty => simp [empty, get?] at listed

/-- A conjunction stays, or it is moved into a branch beside that of null. -/
theorem get?_conjunction (admits : AdmitsNull entries result) {all : Json}
    (there : get? entries "allOf" = some all) :
    get? result "allOf" = some all ∨
      get? result "allOf" = none ∧
        get? result "anyOf" = some (.arr [.obj [("allOf", all)], nullSchema]) := by
  cases admits with
  | unchanged => exact Or.inl there
  | type found names => exact Or.inl (by rw [get?_insert, if_neg (by decide), there])
  | branch several found =>
      refine Or.inl ?_
      rw [get?_insert, if_neg (by rcases several with rfl | rfl <;> decide), there]
  | @moved all' found free =>
      cases there.symm.trans found
      refine Or.inr ⟨?_, ?_⟩
      · rw [get?_insert, if_neg (by decide), get?_erase, if_pos rfl]
      · rw [get?_insert, if_pos rfl]
  | filled empty => simp [empty, get?] at there

theorem get?_unlisted (admits : AdmitsNull entries result) {key : String}
    (several : key = "oneOf" ∨ key = "anyOf") {v : Json} (unlisted : ∀ branches, v ≠ .arr branches)
    (there : get? entries key = some v) :
    get? result key = some v ∨
      key = "anyOf" ∧ ∃ all, get? entries "allOf" = some all ∧
        get? result "anyOf" = some (.arr [.obj [("allOf", all)], nullSchema]) := by
  have typed : key ≠ "type" := by rcases several with rfl | rfl <;> decide
  cases admits with
  | unchanged => exact Or.inl there
  | type found names => exact Or.inl (by rw [get?_insert, if_neg typed, there])
  | @branch other branches _ found =>
      refine Or.inl ?_
      rw [get?_insert, if_neg, there]
      rintro rfl
      cases there.symm.trans found
      exact unlisted branches rfl
  | moved found free =>
      rcases several with rfl | rfl
      · refine Or.inl ?_
        rw [get?_insert, if_neg (by decide), get?_erase, if_neg (by decide), there]
      · exact Or.inr ⟨rfl, _, found, by rw [get?_insert, if_pos rfl]⟩
  | filled empty => simp [empty, get?] at there

theorem mem_innerSchemas (admits : AdmitsNull entries result) {schema : Json}
    (member : schema ∈ innerSchemas result) :
    schema ∈ innerSchemas entries ∨ schema = nullSchema ∨
      ∃ all, schema = .obj [("allOf", all)] ∧ ("allOf", all) ∈ entries := by
  obtain ⟨⟨key, v⟩, inside, here⟩ := List.mem_flatMap.mp member
  have old {v : Json} (there : (key, v) ∈ entries) (here : schema ∈ schemasAt key v) :
      schema ∈ innerSchemas entries := List.mem_flatMap.mpr ⟨(key, v), there, here⟩
  cases admits with
  | unchanged => exact Or.inl (old inside here)
  | type found names =>
      rcases mem_insert inside with same | there
      · cases same
        cases here
      · exact Or.inl (old there here)
  | @branch composite branches several found =>
      rcases mem_insert inside with same | there
      · obtain ⟨rfl, rfl⟩ := Prod.mk.inj same
        have split : schema ∈ branches ∨ schema = nullSchema := by
          rcases several with rfl | rfl <;> simpa [schemasAt] using here
        refine split.imp (fun branch => old (mem_of_get? found) ?_) Or.inl
        rcases several with rfl | rfl <;> simpa [schemasAt] using branch
      · exact Or.inl (old there here)
  | @moved all found free =>
      rcases mem_insert inside with same | there
      · cases same
        have split : schema = .obj [("allOf", all)] ∨ schema = nullSchema := by
          simpa [schemasAt] using here
        rcases split with rfl | rfl
        · exact Or.inr (Or.inr ⟨all, rfl, mem_of_get? found⟩)
        · exact Or.inr (Or.inl rfl)
      · exact Or.inl (old (List.mem_of_mem_filter there) here)
  | filled empty =>
      cases List.mem_singleton.mp inside
      cases here

end AdmitsNull

end SchemaWeaver.Schema
