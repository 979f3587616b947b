import SchemaWeaver.Proofs.Pass.Modules

/-!
A second pass over a package finds nothing to do. The documents that the first pass wrote contain
the same calls, so the analysis of every module comes to the same result, and the schemas that it
would add are there already.
-/

set_option autoImplicit false
set_option relaxedAutoImplicit false

namespace SchemaWeaver

namespace Pass

variable (pass : Pass) (compilation : Compilation)

theorem changed_modifiedBy_rewrittenBy (m : Module) (analysis : Analysis) {d : ModifiedDocument}
    (member : d ∈ (m.rewrittenBy analysis).modifiedBy analysis) : d.changed = false := by
  cases analysis with
  | error _ => cases member
  | ok catalog =>
      obtain ⟨entry, document, rfl⟩ := List.mem_map.mp member
      rw [Module.rewrittenBy, Module.keyedDocuments_mapTrees] at document
      obtain ⟨original, -, rfl⟩ := List.mem_map.mp document
      simp [modifiedWith, withSchemas_withSchemas]

/-- After a pass was applied to a package, a second pass changes no document, leaves the package as
it is, and reports the same on every module. -/
theorem run_apply_run {p : Package} (keyed : p.IsKeyed) :
    let first := (pass.run p compilation).modification
    let applied := p.apply first
    let second := (pass.run applied compilation).modification
    (∀ d ∈ second.documents, d.changed = false) ∧ applied.apply second = applied ∧
      second.modules = first.modules ∧ second.skipped = first.skipped := by
  intro first applied second
  rcases Nat.eq_zero_or_pos compilation.errors with clean | errors
  · have appliedKeyed : applied.IsKeyed := pass.isKeyed_apply_run compilation keyed clean
    have modules : applied.modules =
        p.modules.map fun m => m.rewrittenBy (pass.analysis compilation m) := by
      simp only [applied, first, pass.apply_run compilation keyed clean]
    have secondIs : second = ⟨none,
        applied.modules.map fun m => (pass.analysis compilation m).report m.name,
        applied.modules.flatMap fun m => m.modifiedBy (pass.analysis compilation m)⟩ :=
      pass.run_modification compilation appliedKeyed clean
    have firstIs := pass.run_modification compilation keyed clean
    refine ⟨?_, ?_, ?_, ?_⟩
    · intro d member
      rw [secondIs, modules, List.flatMap_map] at member
      obtain ⟨m, -, modified⟩ := List.mem_flatMap.mp member
      rw [pass.analysis_rewrittenBy] at modified
      exact changed_modifiedBy_rewrittenBy m _ modified
    · have again := pass.apply_run compilation appliedKeyed clean
      rw [modules, List.map_map] at again
      simp only [Function.comp_def, pass.analysis_rewrittenBy, Module.rewrittenBy_rewrittenBy]
        at again
      rw [again, ← modules]
    · rw [secondIs, modules]
      simp only [first, firstIs, List.map_map, Function.comp_def, pass.analysis_rewrittenBy,
        Module.rewrittenBy_name]
    · rw [secondIs]
      simp only [first, firstIs]
  · have secondIs : second = ⟨some (.compilationErrors compilation.errors), [], []⟩ :=
      pass.run_modification_of_errors compilation applied errors
    have firstIs : first = ⟨some (.compilationErrors compilation.errors), [], []⟩ :=
      pass.run_modification_of_errors compilation p errors
    rw [secondIs, firstIs]
    exact ⟨fun d member => absurd member List.not_mem_nil, rfl, rfl, rfl⟩

/-- The first pass over the specimen finds a schema, and the second one changes nothing. -/
theorem run_apply_run_specimen :
    Specimen.package.IsKeyed ∧
      (Specimen.pass.run Specimen.package Specimen.compilation).modification.report? "app" =
        some ⟨"app", Specimen.catalog, none⟩ ∧
      let first := (Specimen.pass.run Specimen.package Specimen.compilation).modification
      let applied := Specimen.package.apply first
      let second := (Specimen.pass.run applied Specimen.compilation).modification
      (∀ d ∈ second.documents, d.changed = false) ∧ applied.apply second = applied ∧
        second.modules = first.modules ∧ second.skipped = first.skipped := by
  exact ⟨Specimen.isKeyed_package, Specimen.report?_app,
    Specimen.pass.run_apply_run Specimen.compilation Specimen.isKeyed_package⟩

end Pass

end SchemaWeaver
