import SchemaWeaver.Proofs.Json.OneLine
import SchemaWeaver.Proofs.Json.Reading
import SchemaWeaver.Proofs.Schema.Canonical
import SchemaWeaver.Proofs.Schema.Raw
import SchemaWeaver.Source.Text

/-!
Canonical schemas as mapping literals. The canonical form of a raw schema is an object without
numbers, because the only numbers are the lengths of tuples, of which nothing is kept. So its text
can be read unless its containers nest too deep.
-/

set_option autoImplicit false
set_option relaxedAutoImplicit false

namespace SchemaWeaver.Schema

open Source (literalRoom readMapping)

/-- The canonical form of a schema has no fractions, with the flag and without it. -/
def HasWholeForm (schema : Json) : Prop :=
  ∀ nullable, ∀ part ∈ (canonical (flag nullable schema)).parts, part.isWhole = true

private theorem forall_isWhole_typeOrNull (nullable : Bool) (name : String) :
    ∀ part ∈ (typeOrNull nullable name).parts, part.isWhole = true := by
  cases nullable with
  | false => exact Json.forall_isWhole_str name
  | true =>
      rw [typeOrNull, if_pos rfl, Json.forall_isWhole_arr, List.forall_mem_cons,
        List.forall_mem_singleton]
      exact ⟨Json.forall_isWhole_str name, Json.forall_isWhole_str "null"⟩

theorem hasWholeForm_nil : HasWholeForm nil := by
  intro nullable
  rw [canonical_flag_nil]
  decide

theorem hasWholeForm_unconstrained : HasWholeForm unconstrained := by
  intro nullable
  cases nullable with
  | false =>
      rw [flag, if_neg Bool.false_ne_true, canonical_unconstrained]
      decide
  | true => exact hasWholeForm_nil false

theorem hasWholeForm_reference (name : String) : HasWholeForm (reference name) := by
  intro nullable
  rw [canonical_flag_reference]
  decide

theorem hasWholeForm_typed (name : String) : HasWholeForm (typed name) := by
  intro nullable
  rw [canonical_flag_typed, Json.forall_isWhole_obj, List.forall_mem_singleton]
  exact forall_isWhole_typeOrNull nullable name

theorem hasWholeForm_formatted (name : String) {format : String} (other : format ≠ "byte") :
    HasWholeForm (formatted name format) := by
  intro nullable
  rw [canonical_flag_formatted nullable name other, Json.forall_isWhole_obj, List.forall_mem_cons,
    List.forall_mem_singleton]
  exact ⟨forall_isWhole_typeOrNull nullable name, Json.forall_isWhole_str format⟩

theorem hasWholeForm_ofScalar {kind : Scalar} {schema : Json}
    (mapped : ofScalar kind = .ok schema) : HasWholeForm schema := by
  cases kind with
  | nil =>
      cases mapped
      exact hasWholeForm_nil
  | byte =>
      cases mapped
      intro nullable
      rw [canonical_flag_byte, Json.forall_isWhole_obj, List.forall_mem_singleton]
      exact forall_isWhole_typeOrNull nullable "number"
  | int =>
      cases mapped
      exact hasWholeForm_formatted _ (by decide)
  | float =>
      cases mapped
      exact hasWholeForm_formatted _ (by decide)
  | decimal =>
      cases mapped
      exact hasWholeForm_formatted _ (by decide)
  | boolean =>
      cases mapped
      exact hasWholeForm_typed _
  | string =>
      cases mapped
      exact hasWholeForm_typed _
  | json =>
      cases mapped
      exact hasWholeForm_unconstrained
  | anydata =>
      cases mapped
      exact hasWholeForm_unconstrained
  | any => cases mapped
  | handle => cases mapped

theorem hasWholeForm_ofArray {items : Json} (whole : HasWholeForm items) :
    HasWholeForm (ofArray items) := by
  intro nullable
  rw [canonical_flag_ofArray, Json.forall_isWhole_obj, List.forall_mem_cons,
    List.forall_mem_singleton]
  exact ⟨forall_isWhole_typeOrNull nullable "array", whole false⟩

private theorem forall_isWhole_branches {branches : List Json}
    (each : ∀ branch ∈ branches, HasWholeForm branch) :
    ∀ v ∈ branches.map canonical, ∀ part ∈ v.parts, part.isWhole = true := by
  rw [List.forall_mem_map]
  exact fun branch member => each branch member false

theorem hasWholeForm_oneOf {branches : List Json}
    (each : ∀ branch ∈ branches, HasWholeForm branch) :
    HasWholeForm (.obj [("oneOf", .arr branches)]) := by
  intro nullable
  rw [canonical_flag_oneOf, Json.forall_isWhole_obj, List.forall_mem_singleton,
    Json.forall_isWhole_arr, List.forall_mem_append]
  refine ⟨forall_isWhole_branches each, ?_⟩
  cases nullable <;> decide

theorem hasWholeForm_ofTuple {members : List Json}
    (each : ∀ member ∈ members, HasWholeForm member) : HasWholeForm (ofTuple members) := by
  intro nullable
  rw [canonical_flag_ofTuple, Json.forall_isWhole_obj, List.forall_mem_cons]
  refine ⟨forall_isWhole_typeOrNull nullable "array", ?_⟩
  match members with
  | [] => simp
  | [member] =>
      rw [List.forall_mem_singleton]
      exact each member List.mem_cons_self false
  | first :: second :: members =>
      rw [List.forall_mem_singleton, Json.forall_isWhole_obj, List.forall_mem_singleton,
        Json.forall_isWhole_arr]
      exact forall_isWhole_branches each

theorem hasWholeForm_ofRecord {fields : Keyed String Json}
    (each : ∀ field ∈ fields, HasWholeForm field.2) (rest : Option Json) :
    HasWholeForm (ofRecord fields rest) := by
  intro nullable
  rw [canonical_flag_ofRecord, Json.forall_isWhole_obj, List.forall_mem_cons]
  refine ⟨forall_isWhole_typeOrNull nullable "object", ?_⟩
  split
  · simp
  · rw [List.forall_mem_singleton, Json.forall_isWhole_obj, List.forall_mem_map]
    exact fun field member => each field member false

theorem HasWholeForm.flag {schema : Json} (whole : HasWholeForm schema) (nullable : Bool) :
    HasWholeForm (flag nullable schema) := by
  intro again
  rw [flag_flag]
  exact whole (again || nullable)

theorem hasWholeForm_ofUnion (nullable : Bool) {members : List Json}
    (each : ∀ member ∈ members, HasWholeForm member) : HasWholeForm (ofUnion nullable members) := by
  unfold ofUnion
  split
  · exact hasWholeForm_unconstrained
  · split
    · exact hasWholeForm_nil
    · exact (each _ List.mem_cons_self).flag nullable
    · exact (hasWholeForm_oneOf each).flag nullable

theorem IsRaw.hasWholeForm {schema : Json} (raw : IsRaw schema) : HasWholeForm schema := by
  induction raw with
  | scalar mapped => exact hasWholeForm_ofScalar mapped
  | reference name => exact hasWholeForm_reference name
  | array _ ih => exact hasWholeForm_ofArray ih
  | tuple _ ih => exact hasWholeForm_ofTuple ih
  | record _ rest ih => exact hasWholeForm_ofRecord ih rest
  | union nullable _ ih => exact hasWholeForm_ofUnion nullable ih

theorem IsRaw.exists_entries {schema : Json} (raw : IsRaw schema) :
    ∃ entries, schema = .obj entries := by
  induction raw with
  | @scalar kind schema mapped => cases kind <;> cases mapped <;> exact ⟨_, rfl⟩
  | union nullable _ ih =>
      unfold ofUnion
      split
      · exact ⟨_, rfl⟩
      · split
        · exact ⟨_, rfl⟩
        · obtain ⟨entries, rfl⟩ := ih _ List.mem_cons_self
          cases nullable <;> exact ⟨_, rfl⟩
        · cases nullable <;> exact ⟨_, rfl⟩
  | _ => exact ⟨_, rfl⟩

/-- The text of the canonical form of a raw schema is a mapping literal if its containers nest no
deeper than a literal may, and otherwise it is refused for its depth. -/
theorem IsRaw.readMapping_canonicalText {schema : Json} (raw : IsRaw schema) :
    ((canonical schema).nesting ≤ literalRoom →
      ∃ literal, readMapping (canonicalText schema).toList = .ok literal) ∧
    (literalRoom < (canonical schema).nesting →
      ∃ failure, readMapping (canonicalText schema).toList =
          .error (.unreadable (canonicalText schema).toList failure) ∧
        failure.fault = .tooDeep) := by
  have text : (canonicalText schema).toList =
      ((canonical schema).mapTexts Json.squeeze).compact := by
    rw [canonicalText, String.toList_ofList, Json.oneLine_pretty]
  have whole : ∀ part ∈ ((canonical schema).mapTexts Json.squeeze).parts, part.isWhole = true := by
    rw [Json.parts_mapTexts, List.forall_mem_map]
    intro part member
    rw [Json.isWhole_mapTexts]
    exact raw.hasWholeForm false part member
  have depth := Json.nesting_mapTexts Json.squeeze (canonical schema)
  rw [text]
  constructor
  · intro shallow
    obtain ⟨entries, rfl⟩ := raw.exists_entries
    rw [readMapping, Json.read_compact whole (by omega)]
    exact ⟨_, rfl⟩
  · intro deep
    obtain ⟨failure, same, fault⟩ := Json.read_compact_of_lt whole (depth ▸ deep)
    exact ⟨failure, by rw [readMapping, same], fault⟩

end SchemaWeaver.Schema
