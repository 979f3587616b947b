import SchemaWeaver.Proofs.Package.Replacement
import SchemaWeaver.Proofs.Pass.Documents
import Mathlib.Data.List.Permutation

/-!
A pass over a package, module by module. Each module is analysed for itself, and the analysis
depends on its name and on the calls in its documents only. From the analysis follow the report on
the module, its modified documents, and what becomes of it when the modification is applied.
-/

set_option autoImplicit false
set_option relaxedAutoImplicit false

namespace SchemaWeaver

open Source (Expr RemoteCall Tree)

/-- The result of an analysis: a catalog, or the reason to leave the module as it is. -/
abbrev Analysis := Except SkipReason Catalog

def Analysis.report (name : String) : Analysis → ModuleReport
  | .ok catalog => ⟨name, catalog, none⟩
  | .error reason => ⟨name, [], some reason⟩

namespace Module

def modifiedBy (m : Module) : Analysis → List ModifiedDocument
  | .ok catalog => m.keyedDocuments.map (modifiedWith m.name catalog)
  | .error _ => []

def rewrittenBy (m : Module) : Analysis → Module
  | .ok catalog => m.mapTrees fun _ => withSchemas catalog
  | .error _ => m

/-- The module's documents as the analysis sees them. -/
def calls (m : Module) : List (List (RemoteCall Expr)) :=
  m.keyedDocuments.map fun entry => entry.2.tree.calls

@[simp]
theorem rewrittenBy_name (m : Module) (analysis : Analysis) :
    (m.rewrittenBy analysis).name = m.name := by
  cases analysis <;> rfl

@[simp]
theorem calls_rewrittenBy (m : Module) (analysis : Analysis) :
    (m.rewrittenBy analysis).calls = m.calls := by
  cases analysis with
  | error _ => rfl
  | ok catalog =>
      simp only [calls, rewrittenBy, keyedDocuments_mapTrees, List.map_map, Function.comp_def,
        calls_withSchemas]

@[simp]
theorem keys_rewrittenBy (m : Module) (analysis : Analysis) :
    Keyed.keys (m.rewrittenBy analysis).keyedDocuments = Keyed.keys m.keyedDocuments := by
  cases analysis with
  | error _ => rfl
  | ok catalog => exact m.keys_mapTrees _

theorem rewrittenBy_rewrittenBy (m : Module) (analysis : Analysis) :
    (m.rewrittenBy analysis).rewrittenBy analysis = m.rewrittenBy analysis := by
  cases analysis with
  | error _ => rfl
  | ok catalog => simp only [rewrittenBy, mapTrees_mapTrees, withSchemas_withSchemas]

theorem mem_modifiedBy {m : Module} {analysis : Analysis} {d : ModifiedDocument}
    (member : d ∈ m.modifiedBy analysis) :
    d.module = m.name ∧ d.key ∈ Keyed.keys m.keyedDocuments := by
  cases analysis with
  | error _ => cases member
  | ok catalog =>
      obtain ⟨entry, found, rfl⟩ := List.mem_map.mp member
      exact ⟨rfl, List.mem_map.mpr ⟨entry, found, rfl⟩⟩

private theorem nodup_modifiedBy {m : Module} (distinct : (Keyed.keys m.keyedDocuments).Nodup)
    (analysis : Analysis) :
    ((m.modifiedBy analysis).map fun d => (d.module, d.key)).Nodup := by
  cases analysis with
  | error _ => exact List.nodup_nil
  | ok catalog =>
      refine List.Nodup.of_map Prod.snd ?_
      simpa only [modifiedBy, modifiedWith, List.map_map, Function.comp_def, Keyed.keys]
        using distinct

theorem nodup_flatMap_modifiedBy {p : Package} (keyed : p.IsKeyed) (analysis : Module → Analysis) :
    ((p.modules.flatMap fun m => m.modifiedBy (analysis m)).map
      fun d => (d.module, d.key)).Nodup := by
  obtain ⟨modules⟩ := p
  obtain ⟨distinct, documents⟩ := keyed
  induction modules with
  | nil => exact List.nodup_nil
  | cons m modules ih =>
      obtain ⟨fresh, distinct⟩ := List.nodup_cons.mp distinct
      rw [List.flatMap_cons, List.map_append]
      refine List.nodup_append.mpr ⟨nodup_modifiedBy (documents m List.mem_cons_self) _,
        ih distinct fun m member => documents m (List.mem_cons_of_mem _ member), ?_⟩
      intro a here b there same
      obtain ⟨d, found, rfl⟩ := List.mem_map.mp here
      obtain ⟨e, later, rfl⟩ := List.mem_map.mp there
      obtain ⟨other, member, later⟩ := List.mem_flatMap.mp later
      have names : m.name = other.name := by
        rw [← (mem_modifiedBy found).1, ← (mem_modifiedBy later).1]
        exact congrArg Prod.fst same
      exact fresh (List.mem_map.mpr ⟨other, member, names.symm⟩)

end Module

theorem walkAll_map {α β : Type} (change : α → β) (walk : β → Gathering → Walked) (items : List α) :
    walkAll walk (items.map change) = walkAll (fun a => walk (change a)) items := by
  induction items with
  | nil => rfl
  | cons a items ih =>
      funext g
      simp only [List.map_cons, walkAll, ih]

namespace Pass

def analysis (pass : Pass) (compilation : Compilation) (m : Module) : Analysis :=
  match Keyed.get? compilation.models m.name with
  | none => .error .noModel
  | some model =>
      match model.provider? with
      | none => .error .providerUnresolved
      | some provider =>
          match pass.gatherModule model provider m with
          | .failed fault _ => .error (.analysisFailed fault)
          | .done g => .ok g.catalog

variable (pass : Pass) (compilation : Compilation)

theorem gatherModule_congr {model : Model} {provider : ObjectType} {m m' : Module}
    (calls : m.calls = m'.calls) :
    pass.gatherModule model provider m = pass.gatherModule model provider m' := by
  -- The walk over the documents is a walk over the lists of their calls.
  let gatherCalls : List (RemoteCall Expr) → Gathering → Walked := fun calls g =>
    walkAll (Walker.gather ⟨model, pass.source, pass.settings⟩)
      ((calls.filter (model.isCallSite provider)).filterMap model.resultOf?)
      { g with
        events := g.events ++ (calls.filter (model.isCallSite provider)).map model.callEvent }
  have overCalls (m : Module) : pass.gatherModule model provider m =
      walkAll gatherCalls m.calls (Gathering.ofCatalog []) := by
    rw [Module.calls, walkAll_map]
    rfl
  rw [overCalls, overCalls, calls]

theorem analysis_congr {m m' : Module} (name : m.name = m'.name) (calls : m.calls = m'.calls) :
    pass.analysis compilation m = pass.analysis compilation m' := by
  have gathered (model : Model) (provider : ObjectType) :
      pass.gatherModule model provider m = pass.gatherModule model provider m' :=
    pass.gatherModule_congr calls
  simp only [analysis, name, gathered]

theorem analysis_rewrittenBy (m : Module) (analysis : Analysis) :
    pass.analysis compilation (m.rewrittenBy analysis) = pass.analysis compilation m :=
  pass.analysis_congr compilation (m.rewrittenBy_name analysis) (m.calls_rewrittenBy analysis)

/-- Why a module cannot be analysed: nothing is known about it, it does not see the provider as a
class, or one of the walks from its calls fails. -/
inductive CannotAnalyse (m : Module) : SkipReason → Prop
  | noModel (unknown : Keyed.get? compilation.models m.name = none) : CannotAnalyse m .noModel
  | noProvider {model : Model} (known : Keyed.get? compilation.models m.name = some model)
      (invisible : ∀ type, model.symbol? providerName ≠ some (.classType type)) :
      CannotAnalyse m .providerUnresolved
  | walkFails {model : Model} {provider : ObjectType} {fault : Fault} {g : Gathering}
      (known : Keyed.get? compilation.models m.name = some model)
      (visible : model.symbol? providerName = some (.classType provider))
      (failed : pass.gatherModule model provider m = .failed fault g) :
      CannotAnalyse m (.analysisFailed fault)

theorem provider?_eq_some_iff {model : Model} {provider : ObjectType} :
    model.provider? = some provider ↔ model.symbol? providerName = some (.classType provider) := by
  unfold Model.provider?
  split
  · rename_i type found
    simp [found]
  · rename_i other
    simp only [reduceCtorEq, false_iff]
    exact other provider

/-- The analysis of a module ends with a reason exactly if that is why it cannot be analysed. -/
theorem analysis_eq_error_iff {m : Module} {reason : SkipReason} :
    pass.analysis compilation m = .error reason ↔ pass.CannotAnalyse compilation m reason := by
  constructor
  · intro skipped
    unfold analysis at skipped
    split at skipped
    · rename_i unknown
      cases skipped
      exact .noModel unknown
    · rename_i model known
      split at skipped
      · rename_i invisible
        cases skipped
        refine .noProvider known fun type visible => ?_
        rw [provider?_eq_some_iff.mpr visible] at invisible
        cases invisible
      · rename_i provider visible
        split at skipped
        · rename_i fault g failed
          cases skipped
          exact .walkFails known (provider?_eq_some_iff.mp visible) failed
        · cases skipped
  · intro cannot
    unfold analysis
    cases cannot with
    | noModel unknown => simp only [unknown]
    | @noProvider model known invisible =>
        have missing : model.provider? = none := by
          cases found : model.provider? with
          | none => rfl
          | some type => exact absurd (provider?_eq_some_iff.mp found) (invisible type)
        simp only [known, missing]
    | walkFails known visible failed =>
        simp only [known, provider?_eq_some_iff.mpr visible, failed]

theorem report_skipped_iff {analysis : Analysis} {name : String} {reason : SkipReason} :
    (analysis.report name).skipped = some reason ↔ analysis = .error reason := by
  cases analysis with
  | ok catalog => simp [Analysis.report]
  | error cause => simp [Analysis.report]

theorem moduleOutcome_eq (m : Module) :
    (pass.moduleOutcome compilation m).report =
        (pass.analysis compilation m).report m.name ∧
      ((Keyed.keys m.keyedDocuments).Nodup →
        (pass.moduleOutcome compilation m).documents =
          m.modifiedBy (pass.analysis compilation m)) := by
  unfold moduleOutcome runModule analysis
  cases known : Keyed.get? compilation.models m.name with
  | none => exact ⟨rfl, fun _ => rfl⟩
  | some model =>
      cases visible : model.provider? with
      | none =>
          simp only [visible]
          exact ⟨rfl, fun _ => rfl⟩
      | some provider =>
          cases walked : pass.gatherModule model provider m with
          | failed fault g =>
              simp only [visible, walked]
              exact ⟨rfl, fun _ => rfl⟩
          | done g =>
              simp only [visible, walked]
              refine ⟨rfl, fun distinct => ?_⟩
              exact modifyDocuments_eq_map distinct fun _ _ => List.not_mem_nil

theorem run_modification {p : Package} (keyed : p.IsKeyed) (clean : compilation.errors = 0) :
    (pass.run p compilation).modification =
      ⟨none, p.modules.map fun m => (pass.analysis compilation m).report m.name,
        p.modules.flatMap fun m => m.modifiedBy (pass.analysis compilation m)⟩ := by
  have outcome := pass.moduleOutcome_eq compilation
  simp only [run, clean, gt_iff_lt, Nat.lt_irrefl, if_false, List.map_map, List.flatMap_map]
  congr 1
  · exact List.map_congr_left fun m _ => (outcome m).1
  · exact List.flatMap_congr fun m member => (outcome m).2 (keyed.documents m member)

theorem run_modification_of_errors (p : Package) (errors : 0 < compilation.errors) :
    (pass.run p compilation).modification =
      ⟨some (.compilationErrors compilation.errors), [], []⟩ := by
  simp only [run, gt_iff_lt, errors, if_true]

theorem document?_run {p : Package} (keyed : p.IsKeyed) (clean : compilation.errors = 0)
    {m : Module} (member : m ∈ p.modules) {entry : DocumentKey × Document}
    (document : entry ∈ m.keyedDocuments) :
    (pass.run p compilation).modification.document? m.name entry.1 =
      match pass.analysis compilation m with
      | .ok catalog => some (modifiedWith m.name catalog entry)
      | .error _ => none := by
  rw [pass.run_modification compilation keyed clean]
  cases found : pass.analysis compilation m with
  | ok catalog =>
      refine Modification.document?_eq_some (d := modifiedWith m.name catalog entry)
        (Module.nodup_flatMap_modifiedBy keyed _) ?_
      refine List.mem_flatMap.mpr ⟨m, member, ?_⟩
      rw [found]
      exact List.mem_map.mpr ⟨entry, document, rfl⟩
  | error reason =>
      refine List.find?_eq_none.mpr fun d modified => ?_
      obtain ⟨other, there, modified⟩ := List.mem_flatMap.mp modified
      -- The document would come from a module with the same name, hence from this one.
      by_contra same
      have names : other.name = m.name := by
        rw [← (Module.mem_modifiedBy modified).1]
        simpa using (Bool.and_eq_true_iff.mp same).1
      obtain rfl := List.inj_on_of_nodup_map keyed.modules there member names
      rw [found] at modified
      cases modified

theorem report?_run {p : Package} (keyed : p.IsKeyed) (clean : compilation.errors = 0)
    {m : Module} (member : m ∈ p.modules) :
    (pass.run p compilation).modification.report? m.name =
      some ((pass.analysis compilation m).report m.name) := by
  have names (m : Module) (analysis : Analysis) : (analysis.report m.name).module = m.name := by
    cases analysis <;> rfl
  rw [pass.run_modification compilation keyed clean]
  refine find?_eq_some_of_nodup ModuleReport.module ?_
    (List.mem_map.mpr ⟨m, member, rfl⟩) (by simp [names]) fun other passes => ?_
  · simpa only [List.map_map, Function.comp_def, names] using keyed.modules
  · rw [names]
    exact of_decide_eq_true passes

theorem apply_run {p : Package} (keyed : p.IsKeyed) (clean : compilation.errors = 0) :
    p.apply (pass.run p compilation).modification =
      ⟨p.modules.map fun m => m.rewrittenBy (pass.analysis compilation m)⟩ := by
  have distinct : ((pass.run p compilation).modification.documents.map
      fun d => (d.module, d.key)).Nodup := by
    rw [pass.run_modification compilation keyed clean]
    exact Module.nodup_flatMap_modifiedBy keyed _
  rw [Package.apply_eq_mapTrees keyed distinct]
  congr 1
  refine List.map_congr_left fun m member => ?_
  cases found : pass.analysis compilation m with
  | ok catalog =>
      rw [Module.rewrittenBy]
      refine Module.mapTrees_congr fun entry document => ?_
      rw [pass.document?_run compilation keyed clean member document, found]
      rfl
  | error reason =>
      refine Module.mapTrees_eq_self fun entry document => ?_
      rw [pass.document?_run compilation keyed clean member document, found]
      rfl

theorem isKeyed_apply_run {p : Package} (keyed : p.IsKeyed) (clean : compilation.errors = 0) :
    (p.apply (pass.run p compilation).modification).IsKeyed := by
  rw [pass.apply_run compilation keyed clean]
  refine ⟨?_, ?_⟩
  · simpa only [List.map_map, Function.comp_def, Module.rewrittenBy_name] using keyed.modules
  · intro m member
    obtain ⟨original, found, rfl⟩ := List.mem_map.mp member
    rw [Module.keys_rewrittenBy]
    exact keyed.documents original found

theorem module?_apply_run {p : Package} (keyed : p.IsKeyed) (clean : compilation.errors = 0)
    {m : Module} (member : m ∈ p.modules) :
    (p.apply (pass.run p compilation).modification).module? m.name =
      some (m.rewrittenBy (pass.analysis compilation m)) := by
  have keyedAfter := pass.isKeyed_apply_run compilation keyed clean
  have rewritten : m.rewrittenBy (pass.analysis compilation m) ∈
      (p.apply (pass.run p compilation).modification).modules := by
    rw [pass.apply_run compilation keyed clean]
    exact List.mem_map.mpr ⟨m, member, rfl⟩
  rw [← Package.module?_eq_some keyedAfter rewritten, Module.rewrittenBy_name]

end Pass

/-! A small package on which the general statements can be tried: a document that asks a provider
for a value, a document that defines the type of that value, and a module about which nothing is
known. -/

namespace Specimen

def provider : ObjectType := ⟨providerName.home, providerName.name, []⟩

def model : Model :=
  ⟨Definitions.ofList [("Id", .scalar .string)], [(providerName, .classType provider)],
    [("llm", .object provider)], [(7, .union [.ref "Id", .error])]⟩

/-- The call `check llm->generate()`. -/
def caller : Document :=
  ⟨1, "caller", [], [.functionDef ⟨none, false, "run", [], none,
    [.expr (.check (.remote ⟨7, .name (.simple "llm"), generateMethod, []⟩))]⟩]⟩

/-- The definition `type Id string;` with a line of documentation. -/
def definer : Document :=
  ⟨1, "definer", [], [.typeDef ⟨some ⟨["An identifier."], []⟩, true, "Id", "string"⟩]⟩

def app : Module := ⟨"app", [caller], [definer]⟩

def package : Package := ⟨[app, ⟨"unknown", [definer], []⟩]⟩

def compilation : Compilation := ⟨0, [("app", model)]⟩

def pass : Pass := ⟨Schema.ofModel, Settings.standard⟩

def catalog : Catalog := [("Id", "\x7b\"type\":\"string\"\x7d")]

theorem isKeyed_package : package.IsKeyed := by decide

theorem report?_app :
    (pass.run package compilation).modification.report? "app" = some ⟨"app", catalog, none⟩ := by
  have found : pass.analysis compilation app = .ok catalog := by cbv
  have reported := pass.report?_run compilation isKeyed_package rfl
    (show app ∈ package.modules from List.mem_cons_self)
  rw [found] at reported
  exact reported

end Specimen

end SchemaWeaver
