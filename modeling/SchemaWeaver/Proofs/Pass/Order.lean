import SchemaWeaver.Proofs.Gather.Alike
import SchemaWeaver.Proofs.Gather.Coverage
import SchemaWeaver.Proofs.Pass.Modules

/-!
The order of the documents of a module. One catalog is filled from all documents, and what ends up
in it is what the types of all their calls reach, whichever comes first; whether some walk fails
does not depend on the walks before it either. A document is marked from the catalog as a map, so it
comes out the same.
-/

set_option autoImplicit false
set_option relaxedAutoImplicit false

namespace SchemaWeaver

open Source (AiImport Tree)

theorem Marker.verdict_congr {catalog catalog' : Catalog}
    (same : ∀ name, Keyed.get? catalog name = Keyed.get? catalog' name) (qualifier : String) :
    Marker.verdict ⟨catalog, qualifier⟩ = Marker.verdict ⟨catalog', qualifier⟩ := by
  funext d
  rw [verdict, verdict, same]
  rfl

/-- Marking looks at a catalog as a map only. -/
theorem withSchemas_congr {catalog catalog' : Catalog}
    (same : ∀ name, Keyed.get? catalog name = Keyed.get? catalog' name) (tree : Tree) :
    withSchemas catalog tree = withSchemas catalog' tree := by
  unfold withSchemas
  cases (AiImport.ofImports tree.imports).qualifier? with
  | none => rfl
  | some qualifier =>
      have verdicts := Marker.verdict_congr same qualifier
      have members : Marker.markMember ⟨catalog, qualifier⟩ =
          Marker.markMember ⟨catalog', qualifier⟩ := by
        funext member
        cases member <;> simp only [Marker.markMember, Marker.markTypeDef, verdicts]
      have markings : Marker.isMarking ⟨catalog, qualifier⟩ =
          Marker.isMarking ⟨catalog', qualifier⟩ := by
        funext d
        simp only [Marker.isMarking, verdicts]
      have marked : Marker.markTree ⟨catalog, qualifier⟩ tree =
          Marker.markTree ⟨catalog', qualifier⟩ tree := by
        rw [Marker.markTree, Marker.markTree, members]
      have counted : Marker.insertions ⟨catalog, qualifier⟩ tree =
          Marker.insertions ⟨catalog', qualifier⟩ tree := by
        rw [Marker.insertions, Marker.insertions, markings]
      simp only [marked, counted]

theorem modifiedWith_congr {catalog catalog' : Catalog}
    (same : ∀ name, Keyed.get? catalog name = Keyed.get? catalog' name) (module : String) :
    modifiedWith module catalog = modifiedWith module catalog' := by
  funext entry
  simp only [modifiedWith, withSchemas_congr same]

namespace Pass

variable (pass : Pass) (model : Model) (provider : ObjectType)

abbrev walker : Walker := ⟨model, pass.source, pass.settings⟩

/-- A name that the type of a call of a module reaches. -/
def CallReaches (m : Module) (name : String) : Prop :=
  ∃ entry ∈ m.keyedDocuments, ∃ t ∈ model.resultTypes provider entry.2.tree, model.Reaches t name

theorem isDone_gatherDocument (d : Document) (g g' : Gathering) :
    (pass.gatherDocument model provider d g).isDone =
      (pass.gatherDocument model provider d g').isDone := by
  have same := (pass.walker model).isDone_gather
  unfold gatherDocument
  rw [isDone_walkAll same, isDone_walkAll same]
  exact List.all_congr rfl fun t => same t _ _

theorem isDone_gatherModule_perm {m m' : Module}
    (documents : m.keyedDocuments.Perm m'.keyedDocuments) :
    (pass.gatherModule model provider m).isDone = (pass.gatherModule model provider m').isDone := by
  have same (entry : DocumentKey × Document) :=
    pass.isDone_gatherDocument model provider entry.2
  unfold gatherModule
  rw [isDone_walkAll same, isDone_walkAll same]
  exact documents.all_eq

variable {model provider}

theorem extends_gatherDocument {reached : String → Prop} {d : Document}
    (reach : ∀ t ∈ model.resultTypes provider d.tree, ∀ name, model.Reaches t name → reached name)
    (g : Gathering) : (pass.walker model).Extends reached g
      (pass.gatherDocument model provider d g).gathering := by
  let w := pass.walker model
  have walked (g : Gathering) : w.Extends reached g
      (walkAll w.gather (model.resultTypes provider d.tree) g).gathering :=
    w.extends_walkAll (fun t member g => w.extends_walk _ [] t (reach t member) g) g
  have reported : w.Extends reached g
      { g with events := g.events ++ model.callEvents provider d.tree } := .of_catalog_eq rfl
  exact reported.trans (walked _)

theorem mem_catalog_iff {m : Module} {g : Gathering}
    (done : pass.gatherModule model provider m = .done g) {name text : String} :
    (name, text) ∈ g.catalog ↔
      (pass.walker model).Records name text ∧ CallReaches model provider m name := by
  let w := pass.walker model
  have extended (entry : DocumentKey × Document) (member : entry ∈ m.keyedDocuments)
      (g : Gathering) : w.Extends (CallReaches model provider m) g
        (pass.gatherDocument model provider entry.2 g).gathering :=
    pass.extends_gatherDocument (fun t called name way => ⟨entry, member, t, called, way⟩) g
  have whole := w.extends_walkAll extended (Gathering.ofCatalog [])
  have nothing : w.Sound (CallReaches model provider m) (Gathering.ofCatalog []).catalog :=
    fun _ _ member => absurd member List.not_mem_nil
  have sound : w.Sound (CallReaches model provider m) g.catalog := by
    have final := (whole nothing).1
    change w.Sound _ (pass.gatherModule model provider m).gathering.catalog at final
    rw [done] at final
    exact final
  constructor
  · exact sound name text
  · rintro ⟨records, entry, document, t, called, way⟩
    -- The walk from the type covers the name, and the later walks keep what it wrote.
    obtain ⟨before, after, begun, gathered, ended⟩ := w.walkAll_done_mem extended done document
    have reach (u : Descriptor) (called : u ∈ model.resultTypes provider entry.2.tree)
        (name : String) (way : model.Reaches u name) : CallReaches model provider m name :=
      ⟨entry, document, u, called, way⟩
    obtain ⟨first, last, entered, walked, left⟩ := w.walkAll_done_mem
      (fun u called => w.extends_walk (w.settings.walkDepth + 1) [] u (reach u called))
      gathered called
    have soundFirst : w.Sound (CallReaches model provider m) first.catalog :=
      (entered (begun nothing).1).1
    have consistent : w.Consistent first.catalog :=
      fun name text member => ⟨(soundFirst name text member).1, trivial⟩
    have covered := w.covers_of_walk_eq_done consistent walked
      (Model.reachesOutside_nil_iff.mpr way) List.not_mem_nil records.data
    obtain ⟨raw, mapped, -⟩ := records.mapped
    obtain ⟨other, written⟩ := covered.listed ⟨raw, mapped⟩
    have step : w.Extends (CallReaches model provider m) first last := by
      have walk := w.extends_walk (w.settings.walkDepth + 1) [] t (reach t called) first
      rw [walked] at walk
      exact walk
    have kept : last.catalog <+: g.catalog := ((left.trans ended) (step soundFirst).1).2
    have listed : (name, other) ∈ g.catalog := kept.subset written
    rw [records.unique (sound name other listed).1]
    exact listed

theorem get?_catalog_perm {m m' : Module} (documents : m.keyedDocuments.Perm m'.keyedDocuments)
    {g g' : Gathering} (done : pass.gatherModule model provider m = .done g)
    (done' : pass.gatherModule model provider m' = .done g') (name : String) :
    Keyed.get? g.catalog name = Keyed.get? g'.catalog name := by
  refine Keyed.get?_eq_of_mem_iff (fun name text => ?_) (fun name text other here there => ?_) name
  · rw [pass.mem_catalog_iff done, pass.mem_catalog_iff done', CallReaches, CallReaches]
    simp only [documents.mem_iff]
  · have records := ((pass.mem_catalog_iff done).mp here).1
    exact records.unique ((pass.mem_catalog_iff done).mp there).1

theorem find?_modifiedWith {entries : Keyed DocumentKey Document}
    (distinct : (Keyed.keys entries).Nodup) (module : String) (catalog : Catalog)
    {entry : DocumentKey × Document} (member : entry ∈ entries) :
    (entries.map (modifiedWith module catalog)).find? (fun d => d.key = entry.1) =
      some (modifiedWith module catalog entry) := by
  have keys : ((entries.map (modifiedWith module catalog)).map ModifiedDocument.key).Nodup := by
    simpa only [List.map_map, Function.comp_def, modifiedWith, Keyed.keys] using distinct
  refine find?_eq_some_of_nodup ModifiedDocument.key keys (List.mem_map.mpr ⟨entry, member, rfl⟩)
    (decide_eq_true rfl) fun other passes => ?_
  exact of_decide_eq_true passes

theorem skipped_runModule_eq_none_iff {m : Module} :
    (pass.runModule model m).report.skipped = none ↔ ∃ provider,
      model.provider? = some provider ∧ (pass.gatherModule model provider m).isDone = true := by
  unfold runModule
  cases model.provider? with
  | none => simp [skip]
  | some provider =>
      cases walked : pass.gatherModule model provider m with
      | failed fault g => simp [walked, skip, Walked.isDone]
      | done g => simp [walked, Walked.isDone]

theorem runModule_of_done {m : Module} (distinct : (Keyed.keys m.keyedDocuments).Nodup)
    (visible : model.provider? = some provider) {g : Gathering}
    (done : pass.gatherModule model provider m = .done g) :
    (pass.runModule model m).report = ⟨m.name, g.catalog, none⟩ ∧
      (pass.runModule model m).documents =
        m.keyedDocuments.map (modifiedWith m.name g.catalog) := by
  simp only [runModule, visible, done, true_and]
  exact modifyDocuments_eq_map distinct fun _ _ => List.not_mem_nil

variable (model)

/-- Reordering the documents of a module, and those of its tests, makes no difference to whether the
module is left as it is. If it is not, its catalog is the same as a map, and so is what becomes of
the document with each key. -/
theorem runModule_perm {m : Module} (distinct : (Keyed.keys m.keyedDocuments).Nodup)
    {documents tests : List Document} (sources : m.documents.Perm documents)
    (others : m.tests.Perm tests) :
    let first := pass.runModule model m
    let second := pass.runModule model { m with documents, tests }
    (first.report.skipped.isSome = true ∧ second.report.skipped.isSome = true) ∨
      (first.report.skipped = none ∧ second.report.skipped = none ∧
        (∀ name, Keyed.get? first.report.schemas name = Keyed.get? second.report.schemas name) ∧
        first.documents.Perm second.documents ∧
        ∀ key ∈ Keyed.keys m.keyedDocuments, ∃ modified,
          first.documents.find? (fun d => d.key = key) = some modified ∧
            second.documents.find? (fun d => d.key = key) = some modified) := by
  let m' : Module := { m with documents, tests }
  have reordered : m.keyedDocuments.Perm m'.keyedDocuments :=
    (sources.map _).append (others.map _)
  have distinct' : (Keyed.keys m'.keyedDocuments).Nodup := (reordered.map Prod.fst).nodup distinct
  intro first second
  have together (provider : ObjectType) := pass.isDone_gatherModule_perm model provider reordered
  have neither : first.report.skipped = none ↔ second.report.skipped = none := by
    simp only [first, second, skipped_runModule_eq_none_iff, together, m']
  by_cases kept : first.report.skipped = none
  · obtain ⟨provider, visible, walked⟩ := pass.skipped_runModule_eq_none_iff.mp kept
    have walked' := (together provider).symm.trans walked
    obtain ⟨g, done⟩ := Walked.isDone_eq_true_iff.mp walked
    obtain ⟨g', done'⟩ := Walked.isDone_eq_true_iff.mp walked'
    have same := pass.get?_catalog_perm reordered done done'
    obtain ⟨report, modified⟩ := pass.runModule_of_done distinct visible done
    obtain ⟨report', modified'⟩ := pass.runModule_of_done distinct' visible done'
    have renamed : m'.name = m.name := rfl
    rw [renamed, ← modifiedWith_congr same] at modified'
    refine Or.inr ⟨kept, neither.mp kept, ?_, ?_, ?_⟩
    · rw [report, report']
      exact same
    · rw [modified, modified']
      exact reordered.map _
    · intro key member
      obtain ⟨entry, document, rfl⟩ := List.mem_map.mp member
      have document' : entry ∈ m'.keyedDocuments := reordered.mem_iff.mp document
      refine ⟨modifiedWith m.name g.catalog entry, ?_, ?_⟩
      · rw [modified]
        exact find?_modifiedWith distinct m.name g.catalog document
      · rw [modified']
        exact find?_modifiedWith distinct' m.name g.catalog document'
  · have skipped' : ¬second.report.skipped = none := fun none => kept (neither.mpr none)
    exact Or.inl ⟨Option.isSome_iff_ne_none.mpr kept, Option.isSome_iff_ne_none.mpr skipped'⟩

/-- The caller and the definer of the specimen as two source documents, in either order. -/
theorem runModule_perm_specimen :
    let definer := { Specimen.definer with id := 2 }
    let m : Module := ⟨"app", [Specimen.caller, definer], []⟩
    let swapped : Module := ⟨"app", [definer, Specimen.caller], []⟩
    let first := Specimen.pass.runModule Specimen.model m
    let second := Specimen.pass.runModule Specimen.model swapped
    (Keyed.keys m.keyedDocuments).Nodup ∧ first.report.skipped = none ∧
      (∀ name, Keyed.get? first.report.schemas name = Keyed.get? second.report.schemas name) ∧
      first.documents.Perm second.documents := by
  intro definer m swapped first second
  have distinct : (Keyed.keys m.keyedDocuments).Nodup := by decide
  have done : first.report.skipped = none := by
    simp only [first, m, definer]
    cbv
  rcases Specimen.pass.runModule_perm Specimen.model distinct (.swap definer Specimen.caller [])
    .nil with ⟨skipped, -⟩ | ⟨-, -, schemas, documents, -⟩
  · have both : first.report.skipped.isSome = true := skipped
    rw [done] at both
    cases both
  · exact ⟨distinct, done, schemas, documents⟩

end Pass

end SchemaWeaver
