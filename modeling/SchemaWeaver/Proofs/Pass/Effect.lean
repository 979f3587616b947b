import SchemaWeaver.Proofs.Pass.Modules
import Mathlib.Data.List.Forall2

/-!
The exact effect of a pass on a document, described member by member and without the functions that
bring it about. A type definition is due for a mark if the catalog has a schema for its name that
can be read as a mapping and it bears no mark of that name yet. The definitions that are due get one
mark each, behind their other marks; the mark's module is imported if there is a new mark and it is
not imported yet; nothing else changes, in no other document either.
-/

set_option autoImplicit false
set_option relaxedAutoImplicit false

namespace SchemaWeaver

open Source (AiImport Expr Import Mark Member Metadata Name Tree TypeDef)

/-- Whether an import is one of the module that declares the mark. -/
def ImportsMark (i : Import) : Prop := i.org = some "ballerina" ∧ i.path = ["ai"]

instance (i : Import) : Decidable (ImportsMark i) := inferInstanceAs (Decidable (_ ∧ _))

/-- The name that marks are written with: the alias of the first import of their module, or the name
of the module if there is no alias or no import. The alias `_` makes the module invisible. -/
def markQualifier? (imports : List Import) : Option String :=
  match (imports.find? fun i => decide (ImportsMark i)).bind Import.asName with
  | none => some "ai"
  | some name => if name = "_" then none else some name

def documentationOf (d : TypeDef) : List String :=
  (d.metadata.map Metadata.documentation).getD []

structure IsDue (catalog : Catalog) (qualifier : String) (d : TypeDef) (schema : Expr) : Prop where
  unmarked : ∀ mark ∈ d.marks, mark.name ≠ .qualified qualifier "JsonSchema"
  listed : ∃ text, Keyed.get? catalog d.name = some text ∧
    Source.readMapping text.toList = .ok schema

def SomeDue (catalog : Catalog) (qualifier : String) (tree : Tree) : Prop :=
  ∃ d schema, Member.typeDef d ∈ tree.members ∧ IsDue catalog qualifier d schema

/-- What may become of a member: a definition that is due gets its mark and keeps everything else,
and any other member stays as it is. -/
inductive MemberChange (catalog : Catalog) (qualifier : String) : Member → Member → Prop
  | marked {d : TypeDef} {schema : Expr} (due : IsDue catalog qualifier d schema) :
      MemberChange catalog qualifier (.typeDef d)
        (.typeDef ⟨some ⟨documentationOf d,
            d.marks ++ [⟨.qualified qualifier "JsonSchema", some schema⟩]⟩,
          d.isPublic, d.name, d.descriptor⟩)
  | kept {member : Member}
      (notDue : ∀ d schema, member = .typeDef d → ¬IsDue catalog qualifier d schema) :
      MemberChange catalog qualifier member member

/-- What becomes of a document, and whether it counts as changed. -/
structure TreeChange (catalog : Catalog) (before after : Tree) (changed : Bool) : Prop where
  invisible : markQualifier? before.imports = none → after = before ∧ changed = false
  members : ∀ qualifier, markQualifier? before.imports = some qualifier →
    List.Forall₂ (MemberChange catalog qualifier) before.members after.members
  imported : ∀ qualifier, markQualifier? before.imports = some qualifier →
    (∀ i ∈ before.imports, ¬ImportsMark i) → SomeDue catalog qualifier before →
      after.imports = before.imports ++ [⟨some "ballerina", ["ai"], none⟩]
  notImported : ∀ qualifier, markQualifier? before.imports = some qualifier →
    ¬((∀ i ∈ before.imports, ¬ImportsMark i) ∧ SomeDue catalog qualifier before) →
      after.imports = before.imports
  changed_iff : ∀ qualifier, markQualifier? before.imports = some qualifier →
    (changed = true ↔ SomeDue catalog qualifier before)

theorem isDeclaredBy_iff (i : Import) : AiImport.isDeclaredBy i = true ↔ ImportsMark i := by
  rw [AiImport.isDeclaredBy, Bool.and_eq_true, decide_eq_true_eq, decide_eq_true_eq]
  exact Iff.rfl

theorem qualifier?_ofImports (imports : List Import) :
    (AiImport.ofImports imports).qualifier? = markQualifier? imports := by
  have tests : (fun i => decide (ImportsMark i)) = AiImport.isDeclaredBy := by
    funext i
    rw [Bool.eq_iff_iff, decide_eq_true_eq]
    exact (isDeclaredBy_iff i).symm
  unfold AiImport.ofImports markQualifier?
  rw [tests]
  cases imports.find? AiImport.isDeclaredBy with
  | none => rfl
  | some i =>
      cases name : i.asName with
      | none => simp [name, AiImport.qualifier?, AiImport.module]
      | some given =>
          by_cases hidden : given = "_" <;> simp [name, hidden, AiImport.qualifier?]

theorem ofImports_eq_absent_iff (imports : List Import) :
    AiImport.ofImports imports = .absent ↔ ∀ i ∈ imports, ¬ImportsMark i := by
  have missing : AiImport.ofImports imports = .absent ↔
      imports.find? AiImport.isDeclaredBy = none := by
    unfold AiImport.ofImports
    cases imports.find? AiImport.isDeclaredBy with
    | none => simp
    | some i =>
        cases name : i.asName with
        | none => simp [name]
        | some given => by_cases hidden : given = "_" <;> simp [name, hidden]
  rw [missing, List.find?_eq_none]
  simp only [isDeclaredBy_iff]

theorem verdict_eq_mark_iff_isDue {catalog : Catalog} {qualifier : String} {d : TypeDef}
    {schema : Expr} :
    Marker.verdict ⟨catalog, qualifier⟩ d = .mark schema ↔ IsDue catalog qualifier d schema := by
  rw [Marker.verdict_eq_mark_iff]
  have unmarked : Marker.isMarked ⟨catalog, qualifier⟩ d = false ↔
      ∀ mark ∈ d.marks, mark.name ≠ .qualified qualifier "JsonSchema" := by
    simp only [Marker.isMarked, Mark.isNamed, List.any_eq_false, decide_eq_true_eq]
    exact Iff.rfl
  constructor
  · rintro ⟨text, found, free, read⟩
    exact ⟨unmarked.mp free, text, found, read⟩
  · rintro ⟨free, text, found, read⟩
    exact ⟨text, found, unmarked.mpr free, read⟩

theorem insertions_pos_iff_someDue {catalog : Catalog} {qualifier : String} {tree : Tree} :
    0 < Marker.insertions ⟨catalog, qualifier⟩ tree ↔ SomeDue catalog qualifier tree := by
  rw [Marker.insertions_pos_iff]
  constructor
  · rintro ⟨d, member, marking⟩
    obtain ⟨schema, due⟩ := (Marker.isMarking_eq_true_iff _).mp marking
    exact ⟨d, schema, member, verdict_eq_mark_iff_isDue.mp due⟩
  · rintro ⟨d, schema, member, due⟩
    exact ⟨d, member,
      (Marker.isMarking_eq_true_iff _).mpr ⟨schema, verdict_eq_mark_iff_isDue.mpr due⟩⟩

theorem memberChange_markMember (catalog : Catalog) (qualifier : String) (member : Member) :
    MemberChange catalog qualifier member (Marker.markMember ⟨catalog, qualifier⟩ member) := by
  cases member with
  | typeDef d =>
      cases marking : Marker.isMarking ⟨catalog, qualifier⟩ d with
      | true =>
          obtain ⟨schema, due⟩ := (Marker.isMarking_eq_true_iff _).mp marking
          rw [Marker.markMember, Marker.markTypeDef_of_mark _ due]
          have marked := MemberChange.marked (verdict_eq_mark_iff_isDue.mp due)
          have appended : Marker.append (schemaMark qualifier schema) d =
              ⟨some ⟨documentationOf d,
                d.marks ++ [⟨.qualified qualifier "JsonSchema", some schema⟩]⟩,
                d.isPublic, d.name, d.descriptor⟩ := by
            cases metadata : d.metadata <;>
              simp [Marker.append, documentationOf, TypeDef.marks, schemaMark, schemaMarkName,
                metadata]
          rw [appended]
          exact marked
      | false =>
          rw [Marker.markMember, Marker.markTypeDef_of_not_marking _ marking]
          refine MemberChange.kept fun other schema same due => ?_
          obtain rfl : d = other := by simpa using same
          have positive := (Marker.isMarking_eq_true_iff _).mpr
            ⟨schema, verdict_eq_mark_iff_isDue.mpr due⟩
          rw [marking] at positive
          cases positive
  | functionDef _ => exact .kept fun _ _ same => by cases same
  | variableDef _ => exact .kept fun _ _ same => by cases same
  | verbatim _ => exact .kept fun _ _ same => by cases same

theorem withSchemas_ne_iff {catalog : Catalog} {tree : Tree} {qualifier : String}
    (visible : (AiImport.ofImports tree.imports).qualifier? = some qualifier) :
    withSchemas catalog tree ≠ tree ↔ SomeDue catalog qualifier tree := by
  rw [← insertions_pos_iff_someDue, Nat.pos_iff_ne_zero, not_iff_not,
    ← Marker.markTree_eq_self_iff]
  -- An import is added along with a mark only, so it is enough to compare the members.
  constructor
  · intro same
    have members := members_withSchemas catalog visible
    rw [same] at members
    calc Marker.markTree ⟨catalog, qualifier⟩ tree
        = ⟨tree.imports, (Marker.markTree ⟨catalog, qualifier⟩ tree).members⟩ := rfl
      _ = ⟨tree.imports, tree.members⟩ := by rw [← members]
      _ = tree := rfl
  · intro same
    have none := (Marker.markTree_eq_self_iff _).mp same
    simp only [withSchemas, visible, none, same, gt_iff_lt, Nat.lt_irrefl, decide_false,
      ensureAiImport_false]

theorem treeChange_withSchemas (catalog : Catalog) (tree : Tree) :
    TreeChange catalog tree (withSchemas catalog tree)
      (decide (withSchemas catalog tree ≠ tree)) where
  invisible hidden := by
    rw [← qualifier?_ofImports] at hidden
    have same : withSchemas catalog tree = tree := by rw [withSchemas, hidden]
    exact ⟨same, by simp [same]⟩
  members qualifier visible := by
    rw [← qualifier?_ofImports] at visible
    rw [members_withSchemas catalog visible, Marker.markTree, List.forall₂_map_right_iff,
      List.forall₂_same]
    exact fun member _ => memberChange_markMember catalog qualifier member
  imported qualifier visible missing due := by
    rw [← qualifier?_ofImports] at visible
    have absent := (ofImports_eq_absent_iff tree.imports).mpr missing
    rw [imports_withSchemas catalog visible,
      if_pos ⟨insertions_pos_iff_someDue.mpr due, absent⟩]
    rfl
  notImported qualifier visible unneeded := by
    rw [← qualifier?_ofImports] at visible
    rw [imports_withSchemas catalog visible, if_neg]
    rintro ⟨positive, absent⟩
    exact unneeded ⟨(ofImports_eq_absent_iff tree.imports).mp absent,
      insertions_pos_iff_someDue.mp positive⟩
  changed_iff qualifier visible := by
    rw [← qualifier?_ofImports] at visible
    rw [decide_eq_true_eq, withSchemas_ne_iff visible]

theorem typeDef_withSchemas (catalog : Catalog) {tree : Tree} {qualifier : String}
    (visible : (AiImport.ofImports tree.imports).qualifier? = some qualifier) {place : Nat}
    {d : TypeDef} (here : tree.members[place]? = some (.typeDef d)) :
    (withSchemas catalog tree).members[place]? =
      some (.typeDef (Marker.markTypeDef ⟨catalog, qualifier⟩ d)) := by
  rw [members_withSchemas catalog visible, Marker.markTree, List.getElem?_map, here]
  rfl

/-- The type definition at a place has got a mark behind its other marks. -/
def MarkInserted (before after : Tree) (place : Nat) (mark : Mark) : Prop :=
  ∃ d d', before.members[place]? = some (.typeDef d) ∧
    after.members[place]? = some (.typeDef d') ∧ d'.marks = d.marks ++ [mark]

theorem markInserted_withSchemas_iff {catalog : Catalog} {tree : Tree} {place : Nat} {mark : Mark} :
    MarkInserted tree (withSchemas catalog tree) place mark ↔
      ∃ qualifier d schema, (AiImport.ofImports tree.imports).qualifier? = some qualifier ∧
        tree.members[place]? = some (.typeDef d) ∧
        Marker.verdict ⟨catalog, qualifier⟩ d = .mark schema ∧
        mark = schemaMark qualifier schema := by
  cases visible : (AiImport.ofImports tree.imports).qualifier? with
  | none =>
      have same : withSchemas catalog tree = tree := by rw [withSchemas, visible]
      constructor
      · rintro ⟨d, d', here, there, longer⟩
        rw [same, here, Option.some.injEq, Member.typeDef.injEq] at there
        rw [there] at longer
        simp at longer
      · rintro ⟨qualifier, d, schema, other, -⟩
        cases other
  | some qualifier =>
      constructor
      · rintro ⟨d, d', here, there, longer⟩
        rw [typeDef_withSchemas catalog visible here, Option.some.injEq,
          Member.typeDef.injEq] at there
        rw [← there] at longer
        cases marking : Marker.isMarking ⟨catalog, qualifier⟩ d with
        | false =>
            rw [Marker.markTypeDef_of_not_marking _ marking] at longer
            simp at longer
        | true =>
            obtain ⟨schema, due⟩ := (Marker.isMarking_eq_true_iff _).mp marking
            rw [Marker.markTypeDef_of_mark _ due, Marker.marks_append,
              List.append_cancel_left_eq, List.singleton_inj] at longer
            exact ⟨qualifier, d, schema, rfl, here, due, longer.symm⟩
      · rintro ⟨other, d, schema, same, here, due, rfl⟩
        cases same
        refine ⟨d, _, here, typeDef_withSchemas catalog visible here, ?_⟩
        rw [Marker.markTypeDef_of_mark _ due, Marker.marks_append]

namespace Pass

variable (pass : Pass) (compilation : Compilation)

/-- In a package without errors, every document of a module that is not skipped is changed exactly
as described, by the catalog that is reported for the module, and the changed tree takes its place
when the modification is applied. -/
theorem run_treeChange {p : Package} (keyed : p.IsKeyed) (clean : compilation.errors = 0)
    {m : Module} (member : m ∈ p.modules) {report : ModuleReport}
    (reported : (pass.run p compilation).modification.report? m.name = some report)
    (unskipped : report.skipped = none) {key : DocumentKey} {d : Document}
    (document : (key, d) ∈ m.keyedDocuments) :
    ∃ modified, (pass.run p compilation).modification.document? m.name key = some modified ∧
      TreeChange report.schemas d.tree modified.tree modified.changed ∧
      ∃ applied, (p.apply (pass.run p compilation).modification).module? m.name = some applied ∧
        Keyed.keys applied.keyedDocuments = Keyed.keys m.keyedDocuments ∧
        applied.document? key = some { d with tree := modified.tree } := by
  rw [pass.report?_run compilation keyed clean member] at reported
  have found := pass.document?_run compilation keyed clean member document
  have applied := pass.module?_apply_run compilation keyed clean member
  cases analysis : pass.analysis compilation m with
  | error reason =>
      rw [analysis] at reported
      cases reported
      cases unskipped
  | ok catalog =>
      rw [analysis] at reported found applied
      cases reported
      refine ⟨modifiedWith m.name catalog (key, d), found, treeChange_withSchemas catalog d.tree,
        m.rewrittenBy (.ok catalog), applied, m.keys_rewrittenBy _, ?_⟩
      have distinct : (Keyed.keys (m.rewrittenBy (.ok catalog)).keyedDocuments).Nodup := by
        rw [Module.keys_rewrittenBy]
        exact keyed.documents m member
      have rewritten : (key, { d with tree := withSchemas catalog d.tree }) ∈
          (m.rewrittenBy (.ok catalog)).keyedDocuments := by
        rw [Module.rewrittenBy, Module.keyedDocuments_mapTrees]
        exact List.mem_map.mpr ⟨(key, d), document, rfl⟩
      exact Module.document?_eq_some distinct rewritten

/-- The type definition of the specimen, which is not in the document of the call, is changed as
described. -/
theorem run_treeChange_specimen :
    let modification := (Specimen.pass.run Specimen.package Specimen.compilation).modification
    Specimen.package.IsKeyed ∧ Specimen.compilation.errors = 0 ∧
      Specimen.app ∈ Specimen.package.modules ∧
      modification.report? "app" = some ⟨"app", Specimen.catalog, none⟩ ∧
      (⟨.test, 1⟩, Specimen.definer) ∈ Specimen.app.keyedDocuments ∧
      ∃ modified, modification.document? "app" ⟨.test, 1⟩ = some modified ∧
        TreeChange Specimen.catalog Specimen.definer.tree modified.tree modified.changed ∧
        ∃ applied, (Specimen.package.apply modification).module? "app" = some applied ∧
          Keyed.keys applied.keyedDocuments = Keyed.keys Specimen.app.keyedDocuments ∧
          applied.document? ⟨.test, 1⟩ = some { Specimen.definer with tree := modified.tree } := by
  intro modification
  have member : Specimen.app ∈ Specimen.package.modules := List.mem_cons_self
  have document : (⟨.test, 1⟩, Specimen.definer) ∈ Specimen.app.keyedDocuments := by decide
  exact ⟨Specimen.isKeyed_package, rfl, member, Specimen.report?_app, document,
    Specimen.pass.run_treeChange Specimen.compilation Specimen.isKeyed_package rfl member
      Specimen.report?_app rfl document⟩

end Pass

end SchemaWeaver
