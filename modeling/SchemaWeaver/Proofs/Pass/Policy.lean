import SchemaWeaver.Proofs.Gather.Alike
import SchemaWeaver.Proofs.Pass.Modules
import SchemaWeaver.Proofs.Schema.Availability

/-!
The pass with the raw schemas of the models. A name gets a schema exactly if it is walked as the
name of a data type, so it never comes to the policy for types without one, and the analysis of a
module can only fail because types are nested too deeply.
-/

set_option autoImplicit false
set_option relaxedAutoImplicit false

namespace SchemaWeaver

theorem Walker.isServed_ofModel (model : Model) (settings : Settings) :
    Walker.IsServed ⟨model, Schema.ofModel, settings⟩ := by
  intro name data
  have available := Schema.isOk_ofName model.definitions name
  change _ = Walker.isEligible ⟨model, Schema.ofModel, settings⟩ name at available
  rw [data] at available
  change ∃ raw, Schema.ofName model.definitions name = .ok raw
  cases mapped : Schema.ofName model.definitions name with
  | ok raw => exact ⟨raw, rfl⟩
  | error fault =>
      rw [mapped] at available
      cases available

namespace Pass

def withPolicy (pass : Pass) (policy : MappingPolicy) : Pass :=
  { pass with settings := { pass.settings with policy } }

variable (pass : Pass)

theorem run_congr {pass pass' : Pass}
    (gathered : ∀ model provider m,
      pass.gatherModule model provider m = pass'.gatherModule model provider m)
    (p : Package) (compilation : Compilation) :
    pass.run p compilation = pass'.run p compilation := by
  have outcome : pass.moduleOutcome compilation = pass'.moduleOutcome compilation := by
    funext m
    simp only [moduleOutcome, runModule, gathered]
  rw [run, run, outcome]

theorem run_withPolicy (served : ∀ model, Walker.IsServed ⟨model, pass.source, pass.settings⟩)
    (policy : MappingPolicy) (p : Package) (compilation : Compilation) :
    (pass.withPolicy policy).run p compilation = pass.run p compilation := by
  refine run_congr (fun model provider m => ?_) p compilation
  have gathered : Walker.gather ⟨model, pass.source, (pass.withPolicy policy).settings⟩ =
      Walker.gather ⟨model, pass.source, pass.settings⟩ := by
    funext t g
    exact Walker.gather_withPolicy (served model) policy t g
  have document : (pass.withPolicy policy).gatherDocument model provider =
      pass.gatherDocument model provider := by
    funext d g
    change walkAll (Walker.gather _) _ _ = walkAll (Walker.gather _) _ _
    rw [← gathered]
    rfl
  rw [gatherModule, gatherModule, document]

/-- If every data type has a schema, an analysis can only fail because types are too deep. -/
theorem failsWith_gatherModule
    (served : ∀ model, Walker.IsServed ⟨model, pass.source, pass.settings⟩)
    (model : Model) (provider : ObjectType) (m : Module) :
    (pass.gatherModule model provider m).FailsWith fun fault =>
      ∃ root, fault = .depthExceeded root := by
  refine failsWith_walkAll (fun entry _ g => ?_) _
  exact failsWith_walkAll (fun t _ g => Walker.failsWith_gather (served model) t g) _

theorem gatherModule_of_analysisFailed {compilation : Compilation} {m : Module} {fault : Fault}
    (skipped : (pass.moduleOutcome compilation m).report.skipped = some (.analysisFailed fault)) :
    ∃ model provider g, pass.gatherModule model provider m = .failed fault g := by
  rw [(pass.moduleOutcome_eq compilation m).1, report_skipped_iff, analysis_eq_error_iff] at skipped
  cases skipped with
  | walkFails _ _ failed => exact ⟨_, _, _, failed⟩

/-- Names have raw schemas exactly if they name plain data. Hence the pass with the raw schemas of
the models does the same under either policy, and no module is left as it is because of an analysis
that failed for another reason than depth. -/
theorem run_ofModel_policy :
    (∀ (defs : Definitions) (name : String),
      (∃ schema, Schema.ofName defs name = .ok schema) ↔
        defs.isSubtypeOf (.ref name) (.scalar .anydata) = true) ∧
    (∀ (guard : Bool) (depth : Nat) (p : Package) (compilation : Compilation),
      Pass.run ⟨Schema.ofModel, ⟨.skipEntry, guard, depth⟩⟩ p compilation =
        Pass.run ⟨Schema.ofModel, ⟨.abortModule, guard, depth⟩⟩ p compilation) ∧
    (∀ (settings : Settings) (model : Model) (provider : ObjectType) (m : Module) (fault : Fault)
        (g : Gathering),
      Pass.gatherModule ⟨Schema.ofModel, settings⟩ model provider m = .failed fault g →
        ∃ root, fault = .depthExceeded root) ∧
    ∀ (settings : Settings) (p : Package) (compilation : Compilation),
      ∀ report ∈ (Pass.run ⟨Schema.ofModel, settings⟩ p compilation).modification.modules,
        ∀ fault, report.skipped = some (.analysisFailed fault) →
          ∃ root, fault = .depthExceeded root := by
  have served (settings : Settings) (model : Model) :
      Walker.IsServed ⟨model, Schema.ofModel, settings⟩ := Walker.isServed_ofModel model settings
  have deep (settings : Settings) :=
    failsWith_gatherModule ⟨Schema.ofModel, settings⟩ (served settings)
  refine ⟨?_, ?_, ?_, ?_⟩
  · intro defs name
    rw [← Schema.isOk_ofName]
    cases Schema.ofName defs name with
    | ok schema => simp [Except.isOk, Except.toBool]
    | error fault => simp [Except.isOk, Except.toBool]
  · intro guard depth p compilation
    exact run_withPolicy ⟨Schema.ofModel, ⟨.abortModule, guard, depth⟩⟩
      (served ⟨.abortModule, guard, depth⟩) .skipEntry p compilation
  · intro settings model provider m fault g failed
    exact deep settings model provider m fault g failed
  · intro settings p compilation report member fault skipped
    unfold run at member
    split at member
    · cases member
    · obtain ⟨outcome, found, rfl⟩ := List.mem_map.mp member
      obtain ⟨m, -, rfl⟩ := List.mem_map.mp found
      obtain ⟨model, provider, g, failed⟩ := gatherModule_of_analysisFailed _ skipped
      exact deep settings model provider m fault g failed

end Pass

end SchemaWeaver
