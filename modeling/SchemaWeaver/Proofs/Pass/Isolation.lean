import SchemaWeaver.Proofs.Pass.Modules

/-!
Modules that a pass cannot analyse. Whatever the reason is and however far the analysis got, nothing
is reported of what it found, none of the documents is modified, and the other modules fare as if
they were alone in the package.
-/

set_option autoImplicit false
set_option relaxedAutoImplicit false

namespace SchemaWeaver

theorem flatMap_filter_of_nil {α β : Type} {keep : α → Bool} {f : α → List β} {items : List α}
    (silent : ∀ a ∈ items, keep a = false → f a = []) :
    (items.filter keep).flatMap f = items.flatMap f := by
  induction items with
  | nil => rfl
  | cons a items ih =>
      have later := ih fun b member => silent b (List.mem_cons_of_mem _ member)
      cases kept : keep a with
      | true => rw [List.filter_cons_of_pos kept, List.flatMap_cons, List.flatMap_cons, later]
      | false =>
          have nothing := silent a List.mem_cons_self kept
          rw [List.filter_cons_of_neg (by simp [kept]), List.flatMap_cons, nothing, later,
            List.nil_append]

theorem Package.IsKeyed.filter {p : Package} (keyed : p.IsKeyed) (keep : Module → Bool) :
    Package.IsKeyed ⟨p.modules.filter keep⟩ where
  modules := (List.filter_sublist.map Module.name).nodup keyed.modules
  documents m member := keyed.documents m (List.mem_of_mem_filter member)

/-- Whether a modification reports that a module is left as it is. -/
def Modification.skips (modification : Modification) (module : String) : Bool :=
  (modification.report? module).any fun report => report.skipped.isSome

namespace Pass

variable (pass : Pass) (compilation : Compilation)

theorem skips_run {p : Package} (keyed : p.IsKeyed) (clean : compilation.errors = 0) {m : Module}
    (member : m ∈ p.modules) :
    (pass.run p compilation).modification.skips m.name =
      ((pass.analysis compilation m).report m.name).skipped.isSome := by
  rw [Modification.skips, pass.report?_run compilation keyed clean member, Option.any_some]

theorem leavesAlone_of_error {p : Package} (keyed : p.IsKeyed) (clean : compilation.errors = 0)
    {m : Module} (member : m ∈ p.modules) {reason : SkipReason}
    (skipped : pass.analysis compilation m = .error reason) :
    let modification := (pass.run p compilation).modification
    modification.report? m.name = some ⟨m.name, [], some reason⟩ ∧
      (∀ d ∈ modification.documents, d.module ≠ m.name) ∧
      (p.apply modification).module? m.name = some m := by
  intro modification
  refine ⟨?_, ?_, ?_⟩
  · have report := pass.report?_run compilation keyed clean member
    rw [skipped] at report
    exact report
  · intro d modified same
    simp only [modification, pass.run_modification compilation keyed clean] at modified
    obtain ⟨other, there, modified⟩ := List.mem_flatMap.mp modified
    have names : other.name = m.name := (Module.mem_modifiedBy modified).1.symm.trans same
    obtain rfl := List.inj_on_of_nodup_map keyed.modules there member names
    rw [skipped] at modified
    cases modified
  · have applied := pass.module?_apply_run compilation keyed clean member
    rw [skipped] at applied
    exact applied

/-- Without the modules that it skips, a pass does the same to the others. -/
theorem run_filter_skips {p : Package} (keyed : p.IsKeyed) (clean : compilation.errors = 0) :
    let modification := (pass.run p compilation).modification
    let kept : Package := ⟨p.modules.filter fun m => !modification.skips m.name⟩
    (pass.run kept compilation).modification =
      ⟨none, modification.modules.filter fun report => report.skipped.isNone,
        modification.documents⟩ := by
  intro modification kept
  have whole : modification = _ := pass.run_modification compilation keyed clean
  have keptModules : kept.modules = p.modules.filter fun m =>
      ((pass.analysis compilation m).report m.name).skipped.isNone := by
    refine List.filter_congr fun m member => ?_
    rw [pass.skips_run compilation keyed clean member, Option.not_isSome]
  rw [pass.run_modification compilation (keyed.filter _) clean, keptModules, whole]
  congr 1
  · rw [List.filter_map]
    rfl
  · refine flatMap_filter_of_nil fun m _ skipped => ?_
    cases found : pass.analysis compilation m with
    | ok catalog =>
        rw [found] at skipped
        cases skipped
    | error reason => rfl

/-- A package with errors is not touched. In any other package, the modules that are left as they
are are those that cannot be analysed; each of them has an empty report and no modified document and
stays as it is when the modification is applied, and the reports and documents of the other modules
are those of a pass over the package without them. -/
theorem run_isolates {p : Package} (keyed : p.IsKeyed) :
    let modification := (pass.run p compilation).modification
    let applied := p.apply modification
    (0 < compilation.errors →
      modification.modules = [] ∧ modification.documents = [] ∧ applied = p) ∧
    (compilation.errors = 0 →
      (∀ m ∈ p.modules, ∀ reason,
        ((∃ report, modification.report? m.name = some report ∧ report.skipped = some reason) ↔
          pass.CannotAnalyse compilation m reason) ∧
        (pass.CannotAnalyse compilation m reason →
          modification.report? m.name = some ⟨m.name, [], some reason⟩ ∧
            (∀ d ∈ modification.documents, d.module ≠ m.name) ∧
            applied.module? m.name = some m)) ∧
      (pass.run ⟨p.modules.filter fun m => !modification.skips m.name⟩ compilation).modification =
        ⟨none, modification.modules.filter fun report => report.skipped.isNone,
          modification.documents⟩) := by
  intro modification applied
  refine ⟨fun errors => ?_, fun clean => ⟨fun m member reason => ⟨?_, ?_⟩, ?_⟩⟩
  · have untouched : modification = ⟨some (.compilationErrors compilation.errors), [], []⟩ :=
      pass.run_modification_of_errors compilation p errors
    simp only [applied, untouched]
    exact ⟨trivial, trivial, rfl⟩
  · have report := pass.report?_run compilation keyed clean member
    rw [← pass.analysis_eq_error_iff, ← report_skipped_iff]
    constructor
    · rintro ⟨found, there, skipped⟩
      obtain rfl : _ = found := Option.some.inj (report.symm.trans there)
      exact skipped
    · intro skipped
      exact ⟨_, report, skipped⟩
  · intro cannot
    exact pass.leavesAlone_of_error compilation keyed clean member
      ((pass.analysis_eq_error_iff compilation).mpr cannot)
  · exact pass.run_filter_skips compilation keyed clean

end Pass

/-! The specimen with one module more, of which the walk ends too deep after an identifier was
recorded. -/

namespace Specimen

def deepModel : Model :=
  { model with results := [(7, .tuple [.ref "Id", .array (.array (.array (.ref "Id")))])] }

def deep : Module := ⟨"deep", [caller], [definer]⟩

def mixed : Package := ⟨[app, ⟨"unknown", [definer], []⟩, deep]⟩

def mixedCompilation : Compilation := ⟨0, [("app", model), ("deep", deepModel)]⟩

def shallowPass : Pass := ⟨Schema.ofModel, ⟨.skipEntry, true, 2⟩⟩

theorem isKeyed_mixed : mixed.IsKeyed := by decide

theorem analysis_app : shallowPass.analysis mixedCompilation app = .ok catalog := by cbv

theorem gatherModule_deep :
    shallowPass.gatherModule deepModel provider deep =
      .failed (.depthExceeded "")
        ⟨catalog, #["Id"], #[.callFound "llm->generate()", .schemaAdded "Id"]⟩ := by
  cbv

end Specimen

/-- The module that nothing is known about and the one whose walk fails, with an identifier in the
catalog already, are left alone; the third is treated as if it stood alone. -/
theorem Pass.run_isolates_specimen :
    let modification :=
      (Specimen.shallowPass.run Specimen.mixed Specimen.mixedCompilation).modification
    let applied := Specimen.mixed.apply modification
    Specimen.mixed.IsKeyed ∧
      modification.report? "app" = some ⟨"app", Specimen.catalog, none⟩ ∧
      (modification.report? "unknown" = some ⟨"unknown", [], some .noModel⟩ ∧
        (∀ d ∈ modification.documents, d.module ≠ "unknown") ∧
        applied.module? "unknown" = some ⟨"unknown", [Specimen.definer], []⟩) ∧
      (∃ g, Specimen.shallowPass.gatherModule Specimen.deepModel Specimen.provider Specimen.deep =
        .failed (.depthExceeded "") g ∧ g.catalog = Specimen.catalog) ∧
      (modification.report? "deep" =
          some ⟨"deep", [], some (.analysisFailed (.depthExceeded ""))⟩ ∧
        (∀ d ∈ modification.documents, d.module ≠ "deep") ∧
        applied.module? "deep" = some Specimen.deep) ∧
      (Specimen.shallowPass.run
          ⟨Specimen.mixed.modules.filter fun m => !modification.skips m.name⟩
          Specimen.mixedCompilation).modification =
        ⟨none, modification.modules.filter fun report => report.skipped.isNone,
          modification.documents⟩ := by
  intro modification applied
  obtain ⟨-, modules⟩ :=
    Specimen.shallowPass.run_isolates Specimen.mixedCompilation Specimen.isKeyed_mixed
  obtain ⟨alone, others⟩ := modules rfl
  have app : Specimen.app ∈ Specimen.mixed.modules := List.mem_cons_self
  have unknown : ⟨"unknown", [Specimen.definer], []⟩ ∈ Specimen.mixed.modules :=
    List.mem_cons_of_mem _ List.mem_cons_self
  have deep : Specimen.deep ∈ Specimen.mixed.modules :=
    List.mem_cons_of_mem _ (List.mem_cons_of_mem _ List.mem_cons_self)
  have report := Specimen.shallowPass.report?_run Specimen.mixedCompilation Specimen.isKeyed_mixed
    rfl app
  rw [Specimen.analysis_app] at report
  refine ⟨Specimen.isKeyed_mixed, report, (alone _ unknown .noModel).2 (.noModel (by decide)),
    ⟨_, Specimen.gatherModule_deep, rfl⟩, ?_, others⟩
  exact (alone _ deep (.analysisFailed (.depthExceeded ""))).2
    (.walkFails (by rfl) (by rfl) Specimen.gatherModule_deep)

end SchemaWeaver
