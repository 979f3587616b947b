import SchemaWeaver.Proofs.Schema.Entries

/-!
The normal form of schemas. Both changes leave a schema in normal form as it is, and one after the
other they bring every value into it, although each deletes entries that the rules of the other
look at and spelling out null adds schemas of its own.
-/

set_option autoImplicit false
set_option relaxedAutoImplicit false

namespace SchemaWeaver.Schema

open Keyed

/-- A schema object without the keywords that are stripped, without a type beside a composite
keyword, and not the one of a byte. -/
structure IsReduced (entries : Keyed String Json) : Prop where
  kept : ∀ key ∈ keys entries, key ∉ strippedKeywords ∧ isExtension key = false
  untyped : ∀ keyword ∈ compositeKeywords, keyword ∈ keys entries → "type" ∉ keys entries
  numeric : ¬(get? entries "type" = some (.str "string") ∧
    get? entries "format" = some (.str "byte"))

structure IsPlain (entries : Keyed String Json) : Prop extends IsReduced entries where
  unflagged : "nullable" ∉ keys entries

/-- Every schema object of a value is reduced and not flagged. -/
def IsNormal (v : Json) : Prop := AllSchemas IsPlain v

variable {entries : Keyed String Json}

theorem isStripped_eq_false_iff {key : String} :
    isStripped key = false ↔ key ∉ strippedKeywords ∧ isExtension key = false := by
  simp [isStripped]

theorem mem_keys_iff {key : String} : key ∈ keys entries ↔ get? entries key ≠ none := by
  rw [ne_eq, get?_eq_none_iff, not_not]

/-! ## Reducing -/

theorem isReduced_reduceEntries (entries : Keyed String Json) :
    IsReduced (reduceEntries entries) := by
  refine ⟨fun key listed => ?_, fun keyword composite listed typed => ?_, ?_⟩
  · rw [mem_keys_iff] at listed
    rw [← isStripped_eq_false_iff, Bool.eq_false_iff]
    exact fun stripped => listed (get?_reduceEntries_of_stripped stripped)
  · have there : hasComposite entries = true :=
      hasComposite_eq_true_iff.mpr
        ⟨keyword, composite, (keys_reduceEntries_sublist entries).subset listed⟩
    rw [mem_keys_iff, get?_reduceEntries_type, if_pos there] at typed
    exact typed rfl
  · rintro ⟨string, byte⟩
    rw [get?_reduceEntries_type] at string
    rw [get?_reduceEntries_format] at byte
    split_ifs at string with composite number
    · exact absurd string (by simp)
    · have same : isByte entries = true := by
        rw [isByte, Bool.and_eq_true, isStringAt_eq_true_iff, isStringAt_eq_true_iff]
        simp only [Bool.eq_false_iff.mpr number, Bool.and_false, Bool.false_eq_true,
          if_false] at byte
        exact ⟨byte, string⟩
      exact number same

theorem reduceEntries_eq_self (reduced : IsReduced entries) : reduceEntries entries = entries := by
  have numbered : byteAsNumber (dropTypeOfComposite entries) = entries := by
    rw [byteAsNumber_dropTypeOfComposite]
    split_ifs with composite byte
    · obtain ⟨keyword, member, listed⟩ := hasComposite_eq_true_iff.mp composite
      exact erase_of_get?_eq_none (get?_eq_none_iff.mpr (reduced.untyped keyword member listed))
    · rw [isByte, Bool.and_eq_true, isStringAt_eq_true_iff, isStringAt_eq_true_iff] at byte
      exact absurd byte.symm reduced.numeric
    · rfl
  have referenced : has entries "$ref" = false := by
    rw [Bool.eq_false_iff, ne_eq, has_eq_true_iff]
    intro listed
    exact (reduced.kept "$ref" listed).1 (by decide)
  rw [reduceEntries, numbered, dropReference, referenced, if_neg Bool.false_ne_true,
    List.filter_eq_self]
  intro entry member
  have kept := reduced.kept entry.1 (List.mem_map_of_mem member)
  rw [isStripped_eq_false_iff.mpr kept]
  rfl

private theorem innerSchemas_reduceEntries_subset (entries : Keyed String Json) :
    innerSchemas (reduceEntries entries) ⊆ innerSchemas entries := by
  intro schema member
  obtain ⟨entry, inside, here⟩ := List.mem_flatMap.mp member
  rcases mem_reduceEntries inside with old | rfl
  · exact List.mem_flatMap.mpr ⟨entry, old, here⟩
  · cases here

theorem allSchemas_reduce (v : Json) : AllSchemas IsReduced (reduce v) := by
  refine allSchemas_everywhere (fun _ => True) (fun entries _ => ?_)
    (fun entries inner schema member => ?_) fun _ _ => trivial
  · exact isReduced_reduceEntries _
  · exact inner schema (innerSchemas_reduceEntries_subset entries member)

theorem reduce_eq_self {v : Json} (reduced : AllSchemas IsReduced v) : reduce v = v :=
  everywhere_eq_self (reduced.imp fun _ => reduceEntries_eq_self)

/-! ## Spelling out null -/

theorem AdmitsNull.isReduced {result : Keyed String Json} (admits : AdmitsNull entries result)
    (reduced : IsReduced entries) : IsReduced result := by
  have composite : ∀ keyword ∈ compositeKeywords, keyword ∈ keys entries →
      get? entries "type" = none :=
    fun keyword member listed => get?_eq_none_iff.mpr (reduced.untyped keyword member listed)
  refine ⟨?_, ?_, ?_⟩
  · intro key listed
    rcases admits.keys_cases with order | ⟨-, -, moved⟩ | ⟨-, rfl⟩
    · exact reduced.kept key (order.subset listed)
    · rw [moved, List.mem_append] at listed
      rcases listed with old | new
      · exact reduced.kept key ((keys_erase_sublist _ _).subset old)
      · cases List.mem_singleton.mp new
        decide
    · cases List.mem_singleton.mp listed
      decide
  · intro keyword member listed typed
    rcases admits.keys_cases with order | ⟨-, all, moved⟩ | ⟨-, rfl⟩
    · exact reduced.untyped keyword member (order.subset listed) (order.subset typed)
    · have old : "type" ∈ keys entries := by
        rw [moved, List.mem_append] at typed
        rcases typed with old | new
        · exact (keys_erase_sublist _ _).subset old
        · exact absurd new (by decide)
      exact reduced.untyped "allOf" (by decide) all old
    · cases List.mem_singleton.mp listed
      revert member
      decide
  · rintro ⟨string, byte⟩
    cases admits with
    | unchanged => exact reduced.numeric ⟨string, byte⟩
    | type found names =>
        rw [get?_insert, if_pos rfl] at string
        cases string
    | @branch key branches several found =>
        have listed : key ∈ keys entries := List.mem_map_of_mem (mem_of_get? found)
        have missing : get? entries "type" = none := by
          rcases several with rfl | rfl
          · exact composite "oneOf" (by decide) listed
          · exact composite "anyOf" (by decide) listed
        rw [get?_insert, if_neg (by rcases several with rfl | rfl <;> decide), missing] at string
        cases string
    | moved found free =>
        have missing := composite "allOf" (by decide) (List.mem_map_of_mem (mem_of_get? found))
        rw [get?_insert, if_neg (by decide), get?_erase, if_neg (by decide), missing] at string
        cases string
    | filled empty => exact absurd string (by simp [get?])

theorem AdmitsNull.unflagged {result : Keyed String Json} (admits : AdmitsNull entries result)
    (unflagged : "nullable" ∉ keys entries) : "nullable" ∉ keys result := by
  rw [← get?_eq_none_iff] at unflagged ⊢
  rw [admits.get?_eq (by decide), unflagged]

theorem IsReduced.mono (reduced : IsReduced entries) {others : Keyed String Json}
    (fewer : keys others ⊆ keys entries) (type : get? others "type" = get? entries "type")
    (format : get? others "format" = get? entries "format") : IsReduced others := by
  refine ⟨fun key listed => reduced.kept key (fewer listed), ?_, ?_⟩
  · intro keyword composite listed typed
    exact reduced.untyped keyword composite (fewer listed) (fewer typed)
  · rw [type, format]
    exact reduced.numeric

theorem IsReduced.unflag (reduced : IsReduced entries)
    (change : Keyed String Json → Keyed String Json) :
    IsReduced (erase (withinEntries change entries) "nullable") := by
  have same (key : String) (data : Place.ofKey key = .data) (other : key ≠ "nullable") :
      get? (erase (withinEntries change entries) "nullable") key = get? entries key := by
    rw [get?_erase, if_neg other, get?_withinEntries, funext (atPlace_of_data data _)]
    exact Option.map_id'
  have fewer := (keys_erase_sublist (withinEntries change entries) "nullable").subset
  rw [keys_withinEntries] at fewer
  exact reduced.mono fewer (same "type" rfl (by decide)) (same "format" rfl (by decide))

/-- Where null is spelled out, the schemas are those that were there, or made of them in the same
way. -/
private theorem allSchemas_innerSchemas_spellNull {holds : Keyed String Json → Prop}
    (null : holds [("type", .str "null")]) (all : ∀ v, holds [("allOf", v)])
    (inner : ∀ schema ∈ innerSchemas entries, AllSchemas holds schema) :
    ∀ schema ∈ innerSchemas (spellNullEntries entries), AllSchemas holds schema := by
  have old : innerSchemas (erase entries "nullable") ⊆ innerSchemas entries := by
    intro schema member
    obtain ⟨entry, inside, here⟩ := List.mem_flatMap.mp member
    exact List.mem_flatMap.mpr ⟨entry, List.mem_of_mem_filter inside, here⟩
  intro schema member
  rcases (admitsNull_spellNullEntries entries).mem_innerSchemas member with
    there | rfl | ⟨v, rfl, moved⟩
  · exact inner schema (old there)
  · rw [nullSchema, allSchemas_obj_iff]
    exact ⟨null, by simp [innerSchemas, schemasAt]⟩
  · rw [allSchemas_obj_iff]
    refine ⟨all v, fun branch inside => inner branch (old ?_)⟩
    rw [innerSchemas, List.flatMap_singleton] at inside
    exact List.mem_flatMap.mpr ⟨_, moved, inside⟩

theorem allSchemas_spellNull_unflagged (v : Json) :
    AllSchemas (fun entries => "nullable" ∉ keys entries) (spellNull v) := by
  refine allSchemas_everywhere (fun _ => True) (fun entries _ => ?_)
    (fun entries => ?_) fun _ _ => trivial
  · have deleted :
        "nullable" ∉ keys (erase (withinEntries spellNullEntries entries) "nullable") := by
      rw [← get?_eq_none_iff, get?_erase, if_pos rfl]
    exact (admitsNull_spellNullEntries _).unflagged deleted
  · exact allSchemas_innerSchemas_spellNull (by decide) fun v => by simp [keys]

theorem spellNull_eq_self {v : Json}
    (unflagged : AllSchemas (fun entries => "nullable" ∉ keys entries) v) : spellNull v = v :=
  everywhere_eq_self (unflagged.imp fun _ => spellNullEntries_of_unflagged)

theorem allSchemas_spellNull_reduced {v : Json} (reduced : AllSchemas IsReduced v) :
    AllSchemas IsReduced (spellNull v) := by
  refine allSchemas_everywhere IsReduced (fun entries here => ?_) (fun entries => ?_) reduced
  · exact (admitsNull_spellNullEntries _).isReduced (here.unflag spellNullEntries)
  · refine allSchemas_innerSchemas_spellNull ⟨by decide, by decide, ?_⟩ fun v => ⟨?_, ?_, ?_⟩
    · rintro ⟨string, -⟩
      exact absurd string (by simp [get?])
    · simp [keys, strippedKeywords, isExtension]
    · simp [keys]
    · rintro ⟨string, -⟩
      cases string

/-! ## Both -/

theorem isNormal_canonical (v : Json) : IsNormal (canonical v) := by
  intro entries inside
  have reduced := allSchemas_spellNull_reduced (allSchemas_reduce v) entries inside
  exact ⟨reduced, allSchemas_spellNull_unflagged (reduce v) entries inside⟩

theorem IsNormal.reduce_eq_self {w : Json} (normal : IsNormal w) : reduce w = w :=
  Schema.reduce_eq_self (normal.imp fun _ plain => plain.toIsReduced)

theorem IsNormal.spellNull_eq_self {w : Json} (normal : IsNormal w) : spellNull w = w :=
  Schema.spellNull_eq_self (normal.imp fun _ plain => plain.unflagged)

/-- The canonical form of every value is normal, and what is normal is left as it is by both
changes; each of them changes nothing when it is made again. -/
theorem canonical_normalForm (v : Json) :
    IsNormal (canonical v) ∧
      (∀ w, IsNormal w → reduce w = w ∧ spellNull w = w) ∧
      canonical (canonical v) = canonical v ∧
      reduce (reduce v) = reduce v ∧ spellNull (spellNull v) = spellNull v := by
  have normal := isNormal_canonical v
  refine ⟨normal, fun w normal => ⟨normal.reduce_eq_self, normal.spellNull_eq_self⟩, ?_, ?_, ?_⟩
  · calc
      canonical (canonical v) = spellNull (canonical v) := by
        rw [canonical, normal.reduce_eq_self]
      _ = canonical v := normal.spellNull_eq_self
  · exact reduce_eq_self (allSchemas_reduce v)
  · exact spellNull_eq_self (allSchemas_spellNull_unflagged v)

/-- Where the rules meet: the type gives way to the conjunction, which gives way to null; a field
called like a keyword is none. -/
theorem canonical_normalForm_conjunction :
    let byte : Json := .obj [("type", .str "string"), ("format", .str "byte")]
    let v : Json := .obj
      [("type", .str "string"), ("allOf", .arr [byte]), ("nullable", .bool true),
        ("properties", .obj [("title", .obj [("title", .str "t"), ("nullable", .bool true)])])]
    let w : Json := .obj
      [("properties", .obj [("title", nullSchema)]),
        ("anyOf", .arr [.obj [("allOf", .arr [.obj [("type", .str "number")]])], nullSchema])]
    canonical v = w ∧ IsNormal w ∧ reduce w = w ∧ spellNull w = w := by
  intro byte v w
  have same : canonical v = w := by cbv
  obtain ⟨normal, fixed, -⟩ := canonical_normalForm v
  rw [same] at normal
  exact ⟨same, normal, fixed w normal⟩

end SchemaWeaver.Schema
