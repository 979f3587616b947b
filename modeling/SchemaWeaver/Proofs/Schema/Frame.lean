import SchemaWeaver.Proofs.Schema.Entries

/-!
What the canonical form of a schema object keeps of it. Names of fields are not keywords, data are
not schemas, and what is left stands in its old order.
-/

set_option autoImplicit false
set_option relaxedAutoImplicit false

namespace SchemaWeaver.Schema

open Keyed

/-- How the entries of a canonical schema object come from those of the schema object. -/
structure Frame (entries result : Keyed String Json) : Prop where
  /-- The fields keep their names and their order, and their schemas become canonical. -/
  properties : ∀ schemas, get? entries "properties" = some (.obj schemas) →
    get? result "properties" =
      some (.obj (schemas.map fun schema => (schema.1, canonical schema.2)))
  single : ∀ key ∈ ["items", "not"], get? result key = (get? entries key).map canonical
  /-- Alternatives keep their order, and null may be added to them. -/
  alternatives : ∀ key ∈ ["oneOf", "anyOf"], ∀ branches,
    get? entries key = some (.arr branches) →
      ∃ null, (null = [] ∨ null = [nullSchema]) ∧
        get? result key = some (.arr (branches.map canonical ++ null))
  /-- A conjunction keeps its order; to admit null it becomes a branch of alternatives. -/
  conjunction : ∀ branches, get? entries "allOf" = some (.arr branches) →
    get? result "allOf" = some (.arr (branches.map canonical)) ∨
      get? result "allOf" = none ∧ get? result "anyOf" =
        some (.arr [.obj [("allOf", .arr (branches.map canonical))], nullSchema])
  /-- Whatever else is kept is data. -/
  data : ∀ key, isStripped key = false →
    key ∉ ["type", "format", "nullable", "properties", "items", "not", "allOf", "anyOf", "oneOf"] →
      get? result key = get? entries key
  /-- Where a keyword does not hold what it should, this is data too; a conjunction that is moved
  may take its place. -/
  untabled : ∀ v, (∀ schemas, v ≠ .obj schemas) → get? entries "properties" = some v →
    get? result "properties" = some v
  unlisted : ∀ key ∈ compositeKeywords, ∀ v, (∀ branches, v ≠ .arr branches) →
    get? entries key = some v →
      get? result key = some v ∨
        key ≠ "oneOf" ∧ "allOf" ∈ keys entries ∧
          ∃ all, get? result "anyOf" = some (.arr [.obj [("allOf", all)], nullSchema])
  gone : ∀ key, isStripped key = true ∨ key = "nullable" → get? result key = none
  /-- The keys that are left stand in their order. The new ones are that of the alternatives that
  hold a conjunction, at the end, and the type of null alone. -/
  order : (keys result).Sublist (keys entries) ∨
    ("anyOf" ∉ keys entries ∧ "allOf" ∈ keys entries ∧ ∃ kept, kept.Sublist (keys entries) ∧
      "allOf" ∉ kept ∧ keys result = kept ++ ["anyOf"]) ∨
    ("type" ∉ keys entries ∧ result = [("type", .str "null")])

def reducedWithin (entries : Keyed String Json) : Keyed String Json :=
  withinEntries spellNullEntries (reduceEntries (withinEntries reduceEntries entries))

theorem canonical_obj (entries : Keyed String Json) :
    canonical (.obj entries) = .obj (spellNullEntries (reducedWithin entries)) := by
  simp only [canonical, reduce, spellNull, everywhere, reducedWithin]

variable (entries : Keyed String Json)

theorem get?_reducedWithin {key : String} (kept : isStripped key = false)
    (other : key ∉ ["type", "format", "nullable"]) :
    get? (reducedWithin entries) key = (get? entries key).map (atPlace canonical key) := by
  rw [reducedWithin, get?_withinEntries, get?_reduceEntries kept other, get?_withinEntries,
    Option.map_map]
  congr 1
  funext v
  exact atPlace_atPlace _ _ key v

theorem get?_reducedWithin_of_stripped {key : String} (stripped : isStripped key = true) :
    get? (reducedWithin entries) key = none := by
  rw [reducedWithin, get?_withinEntries, get?_reduceEntries_of_stripped stripped]
  rfl

theorem keys_reducedWithin_sublist : (keys (reducedWithin entries)).Sublist (keys entries) := by
  rw [reducedWithin, keys_withinEntries]
  have order := keys_reduceEntries_sublist (withinEntries reduceEntries entries)
  rwa [keys_withinEntries] at order

theorem keepsComposite : ∀ keyword ∈ compositeKeywords,
    isStripped keyword = false ∧ keyword ∉ ["type", "format", "nullable"] := by
  decide

/-- A type that is lost has given way to a composite keyword. -/
theorem get?_type_of_reducedWithin (lost : get? (reducedWithin entries) "type" = none)
    (single : ∀ keyword ∈ compositeKeywords, get? (reducedWithin entries) keyword = none) :
    get? entries "type" = none := by
  have simple : hasComposite (withinEntries reduceEntries entries) = false := by
    rw [Bool.eq_false_iff, ne_eq, hasComposite_eq_true_iff]
    rintro ⟨keyword, composite, listed⟩
    have missing := single keyword composite
    obtain ⟨kept, other⟩ := keepsComposite keyword composite
    rw [get?_reducedWithin entries kept other, Option.map_eq_none_iff, get?_eq_none_iff] at missing
    rw [keys_withinEntries] at listed
    exact missing listed
  rw [reducedWithin, get?_withinEntries, Option.map_eq_none_iff, get?_reduceEntries_type,
    simple, if_neg Bool.false_ne_true] at lost
  split_ifs at lost
  rwa [get?_withinEntries, Option.map_eq_none_iff] at lost

theorem order_spellNullEntries :
    (keys (spellNullEntries (reducedWithin entries))).Sublist (keys entries) ∨
      ("anyOf" ∉ keys entries ∧ "allOf" ∈ keys entries ∧ ∃ kept, kept.Sublist (keys entries) ∧
        "allOf" ∉ kept ∧ keys (spellNullEntries (reducedWithin entries)) = kept ++ ["anyOf"]) ∨
      ("type" ∉ keys entries ∧
        spellNullEntries (reducedWithin entries) = [("type", .str "null")]) := by
  have fewer : (keys (erase (reducedWithin entries) "nullable")).Sublist (keys entries) :=
    (keys_erase_sublist _ _).trans (keys_reducedWithin_sublist entries)
  rcases (admitsNull_spellNullEntries (reducedWithin entries)).keys_cases with
    order | ⟨new, there, moved⟩ | ⟨empty, null⟩
  · exact Or.inl (order.trans fewer)
  · have shorter := (keys_erase_sublist _ "allOf").trans fewer
    refine Or.inr (Or.inl ⟨?_, fewer.subset there, _, shorter, ?_, moved⟩)
    · rw [← get?_eq_none_iff, get?_erase, if_neg (by decide),
        get?_reducedWithin entries (by decide) (by decide), Option.map_eq_none_iff] at new
      exact get?_eq_none_iff.mp new
    · rw [← get?_eq_none_iff, get?_erase, if_pos rfl]
  · have missing (key : String) (other : key ≠ "nullable") :
        get? (reducedWithin entries) key = none := by
      have nothing : get? (erase (reducedWithin entries) "nullable") key = none := by
        rw [empty, get?]
      rwa [get?_erase, if_neg other] at nothing
    have untyped := get?_type_of_reducedWithin entries (missing "type" (by decide))
      fun keyword composite => missing keyword (by rintro rfl; revert composite; decide)
    exact Or.inr (Or.inr ⟨get?_eq_none_iff.mp untyped, null⟩)

theorem get?_unflagged {key : String} (kept : isStripped key = false)
    (other : key ∉ ["type", "format", "nullable"]) :
    get? (erase (reducedWithin entries) "nullable") key =
      (get? entries key).map (atPlace canonical key) := by
  have unflagged : key ≠ "nullable" := fun same => other (by simp [same])
  rw [get?_erase, if_neg unflagged, get?_reducedWithin entries kept other]

theorem get?_untouched {key : String} (kept : isStripped key = false)
    (other : key ∉ ["type", "format", "nullable", "allOf", "anyOf", "oneOf"]) :
    get? (spellNullEntries (reducedWithin entries)) key =
      (get? entries key).map (atPlace canonical key) := by
  simp only [List.mem_cons, List.not_mem_nil, or_false, not_or] at other
  obtain ⟨type, format, nullable, all, any, one⟩ := other
  rw [(admitsNull_spellNullEntries _).get?_eq (by simp [type, all, any, one]),
    get?_unflagged entries kept (by simp [type, format, nullable])]

theorem get?_data {key : String} (kept : isStripped key = false)
    (other : key ∉ ["type", "format", "nullable", "properties", "items", "not", "allOf", "anyOf",
      "oneOf"]) :
    get? (spellNullEntries (reducedWithin entries)) key = get? entries key := by
  simp only [List.mem_cons, List.not_mem_nil, or_false, not_or] at other
  obtain ⟨type, format, nullable, properties, items, negation, all, any, one⟩ := other
  have data : Place.ofKey key = .data := by
    simp [Place.ofKey, compositeKeywords, items, negation, properties, all, any, one]
  rw [get?_untouched entries kept (by simp [type, format, nullable, all, any, one]),
    funext (atPlace_of_data data canonical)]
  exact Option.map_id'

theorem get?_gone {key : String} (gone : isStripped key = true ∨ key = "nullable") :
    get? (spellNullEntries (reducedWithin entries)) key = none := by
  have kept : ∀ key ∈ ["type", "allOf", "anyOf", "oneOf"],
      isStripped key = false ∧ key ≠ "nullable" := by decide
  have other : key ∉ ["type", "allOf", "anyOf", "oneOf"] := by
    intro member
    obtain ⟨stays, unflagged⟩ := kept key member
    rcases gone with stripped | same
    · rw [stays] at stripped
      cases stripped
    · exact unflagged same
  rw [(admitsNull_spellNullEntries _).get?_eq other, get?_erase]
  rcases gone with stripped | same
  · rw [get?_reducedWithin_of_stripped entries stripped, ite_self]
  · rw [if_pos same]

/-- The canonical form of a schema object keeps what shapes a value. -/
theorem canonical_frame :
    ∃ result, canonical (.obj entries) = .obj result ∧ Frame entries result := by
  refine ⟨_, canonical_obj entries, ?_⟩
  have admits := admitsNull_spellNullEntries (reducedWithin entries)
  refine ⟨?_, ?_, ?_, ?_, fun key => get?_data entries, ?_, ?_, fun key => get?_gone entries,
    order_spellNullEntries entries⟩
  · intro schemas there
    rw [get?_untouched entries (by decide) (by decide), there]
    rfl
  · intro key member
    have plain : isStripped key = false ∧
        key ∉ ["type", "format", "nullable", "allOf", "anyOf", "oneOf"] ∧
        Place.ofKey key = .schema := by
      revert key
      decide
    obtain ⟨kept, other, place⟩ := plain
    rw [get?_untouched entries kept other]
    congr 1
    funext v
    simp only [atPlace, place]
  · intro key member branches there
    have composite : ∀ key ∈ ["oneOf", "anyOf"], key ∈ compositeKeywords := by decide
    obtain ⟨kept, other⟩ := keepsComposite key (composite key member)
    refine admits.get?_alternatives (by simpa using member) ?_
    rw [get?_unflagged entries kept other, there, Option.map_some,
      atPlace_branches (composite key member)]
  · intro branches there
    refine admits.get?_conjunction ?_
    rw [get?_unflagged entries (by decide) (by decide), there, Option.map_some,
      atPlace_branches (by decide)]
  · intro v untabled there
    rw [get?_untouched entries (by decide) (by decide), there, Option.map_some,
      atPlace_untabled untabled]
  · intro key composite v unlisted there
    obtain ⟨kept, other⟩ := keepsComposite key composite
    have same : get? (erase (reducedWithin entries) "nullable") key = some v := by
      rw [get?_unflagged entries kept other, there, Option.map_some,
        atPlace_unlisted composite unlisted]
    by_cases all : key = "allOf"
    · subst all
      refine (admits.get?_conjunction same).imp_right fun moved => ?_
      exact ⟨by decide, List.mem_map_of_mem (mem_of_get? there), v, moved.2⟩
    · have several : key = "oneOf" ∨ key = "anyOf" := by
        simp only [compositeKeywords, List.mem_cons, List.not_mem_nil, or_false] at composite
        tauto
      refine (admits.get?_unlisted several unlisted same).imp_right ?_
      rintro ⟨rfl, all, old, moved⟩
      rw [get?_unflagged entries (by decide) (by decide), Option.map_eq_some_iff] at old
      obtain ⟨old, found, -⟩ := old
      exact ⟨by decide, List.mem_map_of_mem (mem_of_get? found), all, moved⟩

end SchemaWeaver.Schema
