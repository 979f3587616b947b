import SchemaWeaver.Proofs.Pass.Effect

/-!
What the qualifier of a new mark refers to. An import binds a name in its document. Where the mark's
module is imported already, a new mark is written with the name that is bound to it, and nothing
else is bound to that name. Where it is not, the name of the module is supposed to be free: if
another import binds it, two imports bind it in the end.
-/

set_option autoImplicit false
set_option relaxedAutoImplicit false

namespace SchemaWeaver

open Source (AiImport Import Mark Member Tree TypeDef)

namespace Source

/-- The name that an import binds: its alias, or the last component of the module's name. The alias
`_` binds nothing. -/
def Import.binds (i : Import) : Option String :=
  match i.asName with
  | none => i.path.getLast?
  | some name => if name = "_" then none else some name

def boundNames (imports : List Import) : List String := imports.filterMap Import.binds

def importsBinding (name : String) (imports : List Import) : List Import :=
  imports.filter fun i => i.binds == some name

theorem count_boundNames (name : String) (imports : List Import) :
    (boundNames imports).count name = (importsBinding name imports).length := by
  rw [boundNames, List.count_filterMap, importsBinding, List.countP_eq_length_filter]

theorem importsBinding_eq_singleton {imports : List Import} (distinct : (boundNames imports).Nodup)
    {i : Import} (member : i ∈ imports) {name : String} (binds : i.binds = some name) :
    importsBinding name imports = [i] := by
  have found : i ∈ importsBinding name imports := by
    rw [importsBinding, List.mem_filter, beq_iff_eq]
    exact ⟨member, binds⟩
  have once := List.nodup_iff_count_le_one.mp distinct name
  rw [count_boundNames] at once
  have positive := List.length_pos_of_mem found
  have one : (importsBinding name imports).length = 1 := by omega
  obtain ⟨only, same⟩ := List.length_eq_one_iff.mp one
  rw [same, List.mem_singleton] at found
  rw [same, found]

theorem boundNames_append_declaration (imports : List Import) :
    boundNames (imports ++ [AiImport.declaration]) = boundNames imports ++ ["ai"] := by
  rw [boundNames, List.filterMap_append]
  rfl

theorem nodup_boundNames_append_declaration_iff {imports : List Import}
    (distinct : (boundNames imports).Nodup) :
    (boundNames (imports ++ [AiImport.declaration])).Nodup ↔ "ai" ∉ boundNames imports := by
  rw [boundNames_append_declaration, ← List.concat_eq_append, List.nodup_concat,
    and_iff_left distinct]

end Source

open Source

theorem importsMark_declaration : ImportsMark AiImport.declaration := by decide

theorem exists_binds_eq_markQualifier? {imports : List Import}
    (imported : ¬∀ i ∈ imports, ¬ImportsMark i) :
    ∃ i ∈ imports, ImportsMark i ∧ i.binds = markQualifier? imports := by
  cases found : imports.find? fun i => decide (ImportsMark i) with
  | none =>
      rw [List.find?_eq_none] at found
      simp only [decide_eq_true_eq] at found
      exact absurd found imported
  | some i =>
      have declares : ImportsMark i := by simpa using List.find?_some found
      refine ⟨i, List.mem_of_find?_eq_some found, declares, ?_⟩
      rw [markQualifier?, found, Option.bind_some, Import.binds]
      cases i.asName with
      | none =>
          rw [declares.2]
          rfl
      | some name => rfl

theorem markQualifier?_of_absent {imports : List Import} (absent : ∀ i ∈ imports, ¬ImportsMark i) :
    markQualifier? imports = some "ai" := by
  have none : imports.find? (fun i => decide (ImportsMark i)) = none := by
    rw [List.find?_eq_none]
    simpa using absent
  rw [markQualifier?, none]
  rfl

theorem exists_markInserted_iff_someDue {catalog : Catalog} {tree : Tree} {qualifier : String}
    (visible : markQualifier? tree.imports = some qualifier) :
    (∃ place mark, MarkInserted tree (withSchemas catalog tree) place mark) ↔
      SomeDue catalog qualifier tree := by
  simp only [markInserted_withSchemas_iff, qualifier?_ofImports, visible, Option.some.injEq]
  constructor
  · rintro ⟨place, mark, _, d, schema, rfl, here, due, -⟩
    exact ⟨d, schema, List.mem_of_getElem? here, verdict_eq_mark_iff_isDue.mp due⟩
  · rintro ⟨d, schema, member, due⟩
    obtain ⟨place, here⟩ := List.mem_iff_getElem?.mp member
    exact ⟨place, _, qualifier, d, schema, rfl, here, verdict_eq_mark_iff_isDue.mpr due, rfl⟩

theorem name_of_markInserted {catalog : Catalog} {tree : Tree} {place : Nat} {mark : Mark}
    (inserted : MarkInserted tree (withSchemas catalog tree) place mark) :
    ∃ qualifier, markQualifier? tree.imports = some qualifier ∧
      mark.name = .qualified qualifier "JsonSchema" := by
  obtain ⟨qualifier, d, schema, visible, -, -, rfl⟩ := markInserted_withSchemas_iff.mp inserted
  rw [qualifier?_ofImports] at visible
  exact ⟨qualifier, visible, rfl⟩

theorem imports_withSchemas_of_absent {catalog : Catalog} {tree : Tree}
    (absent : ∀ i ∈ tree.imports, ¬ImportsMark i)
    (inserted : ∃ place mark, MarkInserted tree (withSchemas catalog tree) place mark) :
    (withSchemas catalog tree).imports = tree.imports ++ [AiImport.declaration] := by
  have visible := markQualifier?_of_absent absent
  exact (treeChange_withSchemas catalog tree).imported "ai" visible absent
    ((exists_markInserted_iff_someDue visible).mp inserted)

theorem imports_withSchemas_of_not {catalog : Catalog} {tree : Tree}
    (unneeded : ¬((∀ i ∈ tree.imports, ¬ImportsMark i) ∧
      ∃ place mark, MarkInserted tree (withSchemas catalog tree) place mark)) :
    (withSchemas catalog tree).imports = tree.imports := by
  have change := treeChange_withSchemas catalog tree
  cases visible : markQualifier? tree.imports with
  | none => rw [(change.invisible visible).1]
  | some qualifier =>
      apply change.notImported qualifier visible
      rwa [← exists_markInserted_iff_someDue visible]

/-! ## What new marks refer to -/

/-- The imports of a document bind distinct names, and each new mark is qualified by a name that
only one of them binds, an import of the mark's module. -/
structure MarksDenote (before after : Tree) : Prop where
  distinct : (boundNames after.imports).Nodup
  only : ∀ place mark, MarkInserted before after place mark →
    ∃ qualifier i, mark.name = .qualified qualifier "JsonSchema" ∧
      importsBinding qualifier after.imports = [i] ∧ ImportsMark i

/-- A document got a mark although it does not import the mark's module and the name of that module
is taken. -/
structure Clash (before after : Tree) : Prop where
  inserted : ∃ place mark, MarkInserted before after place mark
  absent : ∀ i ∈ before.imports, ¬ImportsMark i
  taken : "ai" ∈ boundNames before.imports

/-- The names of a clash: two imports bind the name that the new marks are qualified by. -/
structure Ambiguous (before after : Tree) : Prop where
  repeated : ¬(boundNames after.imports).Nodup
  two : ∃ other ∈ before.imports, ¬ImportsMark other ∧
    importsBinding "ai" after.imports = [other, AiImport.declaration]
  named : ∀ place mark, MarkInserted before after place mark →
    mark.name = .qualified "ai" "JsonSchema"

section

variable {catalog : Catalog} {tree : Tree} (distinct : (boundNames tree.imports).Nodup)

include distinct

theorem marksDenote_withSchemas (free : ¬Clash tree (withSchemas catalog tree)) :
    MarksDenote tree (withSchemas catalog tree) := by
  by_cases needed : (∀ i ∈ tree.imports, ¬ImportsMark i) ∧
      ∃ place mark, MarkInserted tree (withSchemas catalog tree) place mark
  · obtain ⟨absent, inserted⟩ := needed
    have still : (boundNames (tree.imports ++ [AiImport.declaration])).Nodup := by
      rw [nodup_boundNames_append_declaration_iff distinct]
      exact fun taken => free ⟨inserted, absent, taken⟩
    have imports := imports_withSchemas_of_absent absent inserted
    rw [← imports] at still
    refine ⟨still, fun place mark inserted => ?_⟩
    obtain ⟨qualifier, visible, name⟩ := name_of_markInserted inserted
    rw [markQualifier?_of_absent absent, Option.some.injEq] at visible
    have member : AiImport.declaration ∈ (withSchemas catalog tree).imports := by simp [imports]
    refine ⟨qualifier, AiImport.declaration, name, ?_, importsMark_declaration⟩
    exact importsBinding_eq_singleton still member (by rw [← visible]; rfl)
  · have imports := imports_withSchemas_of_not needed
    refine ⟨by rwa [imports], fun place mark inserted => ?_⟩
    obtain ⟨qualifier, visible, name⟩ := name_of_markInserted inserted
    have imported : ¬∀ i ∈ tree.imports, ¬ImportsMark i :=
      fun absent => needed ⟨absent, place, mark, inserted⟩
    obtain ⟨i, member, declares, binds⟩ := exists_binds_eq_markQualifier? imported
    rw [visible] at binds
    rw [imports]
    exact ⟨qualifier, i, name, importsBinding_eq_singleton distinct member binds, declares⟩

theorem ambiguous_withSchemas (clash : Clash tree (withSchemas catalog tree)) :
    Ambiguous tree (withSchemas catalog tree) := by
  obtain ⟨inserted, absent, taken⟩ := clash
  have imports := imports_withSchemas_of_absent absent inserted
  constructor
  · rw [imports, nodup_boundNames_append_declaration_iff distinct, not_not]
    exact taken
  · obtain ⟨other, member, binds⟩ := List.mem_filterMap.mp taken
    refine ⟨other, member, absent other member, ?_⟩
    have alone := importsBinding_eq_singleton distinct member binds
    rw [importsBinding] at alone
    rw [imports, importsBinding, List.filter_append, alone]
    rfl
  · intro place mark inserted
    obtain ⟨qualifier, visible, name⟩ := name_of_markInserted inserted
    rw [markQualifier?_of_absent absent, Option.some.injEq] at visible
    rw [name, visible]

end

/-- In documents whose imports bind distinct names, new marks refer to the mark's module and to
nothing else, unless the module has to be imported and its name is taken; then the name is bound
twice. -/
theorem modifyDocuments_marksDenote (module : String) (catalog : Catalog)
    {entries : Keyed DocumentKey Document} (distinct : (Keyed.keys entries).Nodup) :
    List.Forall₂
      (fun entry modified => modified.key = entry.1 ∧
        ((boundNames entry.2.tree.imports).Nodup →
          (¬Clash entry.2.tree modified.tree → MarksDenote entry.2.tree modified.tree) ∧
          (Clash entry.2.tree modified.tree → Ambiguous entry.2.tree modified.tree)))
      entries (modifyDocuments module catalog [] entries).1 := by
  rw [modifyDocuments_eq_map distinct (by simp), List.forall₂_map_right_iff, List.forall₂_same]
  intro entry _
  exact ⟨rfl, fun names => ⟨marksDenote_withSchemas names, ambiguous_withSchemas names⟩⟩

def lookalike : Document :=
  ⟨0, "lookalike", [⟨some "ballerinax", ["ai"], none⟩], [.typeDef ⟨none, false, "Id", "string"⟩]⟩

def lookalikes : Keyed DocumentKey Document :=
  [(⟨.source, 0⟩, lookalike), (⟨.test, 1⟩, Specimen.definer)]

theorem modifyDocuments_marksDenote_lookalikes :
    (Keyed.keys lookalikes).Nodup ∧
      (∀ entry ∈ lookalikes, (boundNames entry.2.tree.imports).Nodup) ∧
      List.Forall₂
        (fun entry modified => modified.key = entry.1 ∧
          ((boundNames entry.2.tree.imports).Nodup →
            (¬Clash entry.2.tree modified.tree → MarksDenote entry.2.tree modified.tree) ∧
            (Clash entry.2.tree modified.tree → Ambiguous entry.2.tree modified.tree)))
        lookalikes (modifyDocuments "app" Specimen.catalog [] lookalikes).1 := by
  have distinct : (Keyed.keys lookalikes).Nodup := by decide
  exact ⟨distinct, by decide, modifyDocuments_marksDenote "app" Specimen.catalog distinct⟩

/-- The new mark of such a document refers to either module. -/
theorem not_marksDenote_lookalike :
    (Keyed.keys lookalikes).Nodup ∧
      (∀ entry ∈ lookalikes, (boundNames entry.2.tree.imports).Nodup) ∧
      ¬List.Forall₂ (fun entry modified => MarksDenote entry.2.tree modified.tree)
        lookalikes (modifyDocuments "app" Specimen.catalog [] lookalikes).1 := by
  have imports : (withSchemas Specimen.catalog lookalike.tree).imports =
      [⟨some "ballerinax", ["ai"], none⟩, AiImport.declaration] := by
    decide +kernel
  have distinct : (Keyed.keys lookalikes).Nodup := by decide
  refine ⟨distinct, by decide, fun all => ?_⟩
  rw [modifyDocuments_eq_map distinct (by simp), List.forall₂_map_right_iff,
    List.forall₂_same] at all
  have names := (all _ List.mem_cons_self).distinct
  rw [modifiedWith, imports] at names
  exact absurd names (by decide)

end SchemaWeaver
