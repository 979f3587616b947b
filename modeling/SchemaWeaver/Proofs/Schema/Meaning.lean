import SchemaWeaver.Proofs.Descriptor.Leads
import SchemaWeaver.Proofs.Schema.Canonical
import SchemaWeaver.Proofs.Schema.Choice
import SchemaWeaver.Proofs.Schema.Raw
import Mathlib.Data.List.Forall2
import Mathlib.Data.List.Permutation

/-!
What canonical schemas mean: in either reading of alternatives, a value meets the canonical form of
the raw schema of a type exactly if the type takes it. Since a flag may still be put on a raw
schema, each is read with and without one; the one that admits everything is never flagged.
-/

set_option autoImplicit false
set_option relaxedAutoImplicit false

namespace SchemaWeaver.Schema

open Definitions (Fresh)
open List (Forall₂)

/-- A raw schema stands for the values that are taken, and for those that are taken if it is
flagged. -/
structure Means (reading : Reading) (schema : Json) (free : Bool) (taken : Bool → Json → Bool) :
    Prop where
  isUnconstrained : isUnconstrained schema = free
  reads : ∀ nullable v, (nullable && free) = false →
    meets reading (canonical (flag nullable schema)) v = taken nullable v

variable {reading : Reading}

namespace Means

variable {schema : Json} {free : Bool} {taken other : Bool → Json → Bool}

theorem meets_canonical (means : Means reading schema free taken) (v : Json) :
    meets reading (canonical schema) v = taken false v :=
  means.reads false v rfl

theorem congr (means : Means reading schema free taken)
    (same : ∀ nullable v, taken nullable v = other nullable v) :
    Means reading schema free other :=
  ⟨means.isUnconstrained, fun nullable v proper => (means.reads nullable v proper).trans (same _ _)⟩

end Means

theorem means_unconstrained {taken : Bool → Json → Bool} (all : ∀ v, taken false v = true) :
    Means reading unconstrained true taken := by
  refine ⟨rfl, fun nullable v proper => ?_⟩
  obtain rfl : nullable = false := by simpa using proper
  exact (all v).symm

theorem hasType_typeOrNull (nullable : Bool) (name : String) (v : Json) :
    hasType v (typeOrNull nullable name) =
      (decide (name ∈ v.typeNames) || nullable && v.isNull) := by
  cases nullable with
  | false => simp [typeOrNull, hasType, hasTypeName]
  | true => simp [typeOrNull, hasType, hasTypeName, Json.null_mem_typeNames]

theorem means_of_type {schema : Json} {name : String} {others : List (String × Json)}
    {admitted : Json → Bool} (proper : isUnconstrained schema = false)
    (form : ∀ nullable,
      canonical (flag nullable schema) = .obj (("type", typeOrNull nullable name) :: others))
    (null : meetsAll reading others .null = true)
    (reads : ∀ v, admitted v = (decide (name ∈ v.typeNames) && meetsAll reading others v)) :
    Means reading schema false fun nullable v => admitted v || nullable && v.isNull := by
  refine ⟨proper, fun nullable v _ => ?_⟩
  rw [form, meets_type, hasType_typeOrNull, reads]
  -- The flag matters for null only, and null is not refused by the other entries.
  cases v with
  | null => simp [null]
  | _ => simp [Json.isNull]

theorem meets_nullSchema (reading : Reading) (v : Json) :
    meets reading nullSchema v = v.isNull := by
  have typed : meets reading nullSchema v = (decide ("null" ∈ v.typeNames) && true) := rfl
  rw [typed, Bool.and_true, Json.null_mem_typeNames]

theorem means_nil : Means reading nil false fun _ => Json.isNull := by
  refine ⟨rfl, fun nullable v _ => ?_⟩
  rw [canonical_flag_nil, meets_nullSchema]

theorem means_reference (name : String) : Means reading (reference name) false fun _ _ => true := by
  refine ⟨rfl, fun nullable v _ => ?_⟩
  rw [canonical_flag_reference]
  rfl

theorem means_of_scalar {kind : Scalar} {schema : Json} {name : String}
    {others : List (String × Json)} (named : kind.typeName? = some name)
    (proper : isUnconstrained schema = false)
    (form : ∀ nullable,
      canonical (flag nullable schema) = .obj (("type", typeOrNull nullable name) :: others))
    (free : ∀ v, meetsAll reading others v = true) :
    Means reading schema false fun nullable v => kind.admits v || nullable && v.isNull := by
  refine means_of_type proper form (free .null) fun v => ?_
  rw [Scalar.admits_eq_decide named, free, Bool.and_true]

theorem means_ofScalar {kind : Scalar} {schema : Json} (mapped : ofScalar kind = .ok schema) :
    Means reading schema (kind = .json || kind = .anydata) fun nullable v =>
      kind.admits v || nullable && v.isNull := by
  cases kind with
  | nil =>
      cases mapped
      exact means_nil.congr fun nullable v => by cases nullable <;> cases v <;> rfl
  | boolean =>
      cases mapped
      exact means_of_scalar rfl rfl (canonical_flag_typed · _) fun _ => rfl
  | int =>
      cases mapped
      exact means_of_scalar rfl rfl (canonical_flag_formatted · _ (by decide)) fun _ => rfl
  | byte =>
      cases mapped
      exact means_of_scalar rfl rfl canonical_flag_byte fun _ => rfl
  | float =>
      cases mapped
      exact means_of_scalar rfl rfl (canonical_flag_formatted · _ (by decide)) fun _ => rfl
  | decimal =>
      cases mapped
      exact means_of_scalar rfl rfl (canonical_flag_formatted · _ (by decide)) fun _ => rfl
  | string =>
      cases mapped
      exact means_of_scalar rfl rfl (canonical_flag_typed · _) fun _ => rfl
  | json =>
      cases mapped
      exact means_unconstrained fun _ => rfl
  | anydata =>
      cases mapped
      exact means_unconstrained fun _ => rfl
  | any => cases mapped
  | handle => cases mapped

theorem means_of_items {schema items : Json} {admitted : Json → Bool}
    (proper : isUnconstrained schema = false)
    (form : ∀ nullable, canonical (flag nullable schema) =
      .obj [("type", typeOrNull nullable "array"), ("items", items)])
    (reads : ∀ item, meets reading items item = admitted item) :
    Means reading schema false fun nullable v =>
      v.isArrayOf admitted || nullable && v.isNull := by
  refine means_of_type proper form rfl fun v => ?_
  have read : meetsAll reading [("items", items)] v =
      (v.elements.all (meets reading items) && true) := rfl
  rw [read, Bool.and_true, funext reads, Json.array_mem_typeNames]

section Several

variable {α : Type} {free : α → Bool} {taken : α → Bool → Json → Bool}

theorem map_meets_canonical {members : List α} {schemas : List Json}
    (means : Forall₂ (fun member schema => Means reading schema (free member) (taken member))
      members schemas) (v : Json) :
    ((schemas.map canonical).map fun schema => meets reading schema v) =
      members.map fun member => taken member false v := by
  induction means with
  | nil => rfl
  | cons first _ ih => simp only [List.map_cons, ih, first.meets_canonical]

theorem any_isUnconstrained {members : List α} {schemas : List Json}
    (means : Forall₂ (fun member schema => Means reading schema (free member) (taken member))
      members schemas) : schemas.any isUnconstrained = members.any free := by
  induction means with
  | nil => rfl
  | cons first _ ih => rw [List.any_cons, List.any_cons, ih, first.isUnconstrained]

theorem means_ofTuple {members : List α} {schemas : List Json}
    (means : Forall₂ (fun member schema => Means reading schema (free member) (taken member))
      members schemas) :
    Means reading (ofTuple schemas) false fun nullable v =>
      v.isArrayOf (fun item => members.isEmpty ||
        reading.chooses (members.map fun member => taken member false item)) ||
        nullable && v.isNull := by
  cases means with
  | nil =>
      refine means_of_type rfl (canonical_flag_ofTuple · []) rfl fun v => ?_
      have read := v.array_mem_typeNames fun _ => true
      rw [List.all_eq_true.mpr fun _ _ => rfl] at read
      exact read.symm
  | cons first rest =>
      cases rest with
      | nil =>
          have single := means_of_items rfl (canonical_flag_ofTuple · [_]) first.meets_canonical
          simpa using single
      | cons second others =>
          have several := map_meets_canonical (.cons first (.cons second others))
          refine means_of_items rfl (canonical_flag_ofTuple · (_ :: _ :: _)) fun item => ?_
          rw [meets_oneOf, several]
          rfl

theorem meetsFields_canonical {fields : Keyed String α} {properties : Keyed String Json}
    (means : Forall₂ (fun field property => property.1 = field.1 ∧
      Means reading property.2 (free field.2) (taken field.2)) fields properties) (v : Json) :
    meetsFields reading (properties.map fun property => (property.1, canonical property.2)) v =
      fields.all fun field => (v.field? field.1).all (taken field.2 false) := by
  induction means with
  | nil => rfl
  | cons first _ ih =>
      obtain ⟨same, first⟩ := first
      rw [List.map_cons, meetsFields, ih, List.all_cons, same, funext first.meets_canonical]

variable (free taken) in
theorem means_ofRecord {fields : Keyed String α} {properties : Keyed String Json}
    (means : Forall₂ (fun field property => property.1 = field.1 ∧
      Means reading property.2 (free field.2) (taken field.2)) fields properties)
    (rest : Option Json) :
    Means reading (ofRecord properties rest) false fun nullable v =>
      v.isObjectWith (fun entries => fields.all fun field =>
        (Keyed.get? entries field.1).all (taken field.2 false)) || nullable && v.isNull := by
  have read (v : Json) :
      meetsAll reading (if properties.isEmpty then []
        else [("properties", .obj (properties.map fun property =>
          (property.1, canonical property.2)))]) v =
      fields.all fun field => (v.field? field.1).all (taken field.2 false) := by
    rw [← meetsFields_canonical means v]
    cases properties with
    | nil => rfl
    | cons property properties => exact Bool.and_true _
  refine means_of_type rfl (canonical_flag_ofRecord · properties rest) ?_ fun v => ?_
  · rw [read]
    simp [Json.field?]
  · rw [read, v.object_mem_typeNames fun get? =>
      fields.all fun field => (get? field.1).all (taken field.2 false)]

end Several

/-! ## Unions -/

theorem exists_eq_singleton {related : Descriptor → Json → Prop} {members : List Descriptor}
    {schema : Json} (each : Forall₂ related members [schema]) :
    ∃ member, members = [member] ∧ related member schema := by
  obtain ⟨member, others, built, none, rfl⟩ := List.forall₂_cons_right_iff.mp each
  cases none
  exact ⟨member, rfl, built⟩

theorem ofUnion_of_any {schemas : List Json} (free : schemas.any isUnconstrained = true)
    (nullable : Bool) : ofUnion nullable schemas = unconstrained := by
  unfold ofUnion
  exact if_pos free

theorem ofUnion_singleton {schema : Json} (proper : isUnconstrained schema = false)
    (nullable : Bool) : ofUnion nullable [schema] = flag nullable schema := by
  simp [ofUnion, flag, proper]

theorem ofUnion_several {schemas : List Json} (proper : schemas.any isUnconstrained = false)
    (several : 2 ≤ schemas.length) (nullable : Bool) :
    ofUnion nullable schemas = flag nullable (.obj [("oneOf", .arr schemas)]) := by
  match schemas with
  | _ :: _ :: _ =>
      unfold ofUnion
      rw [if_neg (by simp [proper])]
      rfl

theorem isUnconstrained_ofUnion (nullable : Bool) (schemas : List Json) :
    isUnconstrained (ofUnion nullable schemas) = schemas.any isUnconstrained := by
  cases free : schemas.any isUnconstrained with
  | true =>
      rw [ofUnion_of_any free]
      rfl
  | false =>
      match schemas with
      | [] => rfl
      | [schema] =>
          have proper : isUnconstrained schema = false := by simpa using free
          rw [ofUnion_singleton proper, isUnconstrained_flag proper]
      | _ :: _ :: _ =>
          rw [ofUnion_several free (by simp)]
          exact isUnconstrained_flag rfl nullable

theorem means_ofUnion {defs : Definitions} {opened : List String} {members : List Descriptor}
    {schemas : List Json}
    (means : Forall₂ (fun member schema => Means reading schema (defs.isFree opened member)
      fun nullable v => defs.takes reading opened nullable member v)
      (Definitions.properMembers members) schemas) :
    Means reading (ofUnion (members.any isNil) schemas) (defs.isFree opened (.union members))
      fun nullable v => defs.takes reading opened nullable (.union members) v := by
  have free : defs.isFree opened (.union members) = schemas.any isUnconstrained := by
    rw [any_isUnconstrained means, Definitions.isFree_union_properMembers]
  refine ⟨(isUnconstrained_ofUnion _ schemas).trans free.symm, fun nullable v unflagged => ?_⟩
  cases among : schemas.any isUnconstrained with
  | true =>
      rw [free, among, Bool.and_true] at unflagged
      rw [unflagged, Definitions.takes_union_of_isFree reading false v (free.trans among),
        ofUnion_of_any among]
      rfl
  | false =>
      have constrained := free.trans among
      match schemas with
      | [] =>
          rw [show ofUnion (members.any isNil) [] = nil from rfl, canonical_flag_nil,
            meets_nullSchema,
            Definitions.takes_union_nil reading nullable v (List.forall₂_nil_right_iff.mp means)]
      | [schema] =>
          -- The union may get a flag in turn, as a member of another union.
          obtain ⟨member, single, means⟩ := exists_eq_singleton means
          have proper : isUnconstrained schema = false := by simpa using among
          rw [ofUnion_singleton proper, flag_flag,
            Definitions.takes_union_single reading nullable v constrained single]
          refine means.reads _ v ?_
          rw [← means.isUnconstrained, proper, Bool.and_false]
      | first :: second :: others =>
          have several : 2 ≤ (Definitions.properMembers members).length := by
            simp [means.length_eq]
          have null : ((if nullable || members.any isNil then [nullSchema] else []).map
              fun schema => meets reading schema v) =
              if nullable || members.any isNil then [v.isNull] else [] := by
            split
            · rw [List.map_singleton, meets_nullSchema]
            · rfl
          rw [ofUnion_several among (by simp), flag_flag, canonical_flag_oneOf, meets_oneOf,
            List.map_append, null, map_meets_canonical means,
            Definitions.takes_union_several reading nullable v constrained several]

/-- The raw schema of a type stands for the values that the type takes, if that is so for its parts
and for the definition that is opened. -/
theorem means_ofType_of_parts {defs fresh : Definitions} {opened : List String} {t : Descriptor}
    (without : Fresh defs fresh opened)
    (parts : ∀ part ∈ t.components, ∀ schema, ofType defs fresh part = .ok schema →
      Means reading schema (defs.isFree opened part) fun nullable v =>
        defs.takes reading opened nullable part v)
    (definition : ∀ name target, fresh[name]? = some target → ∀ schema,
      ofType defs (fresh.erase name) target = .ok schema →
        Means reading schema (defs.isFree (name :: opened) target) fun nullable v =>
          defs.takes reading (name :: opened) nullable target v)
    {schema : Json} (mapped : ofType defs fresh t = .ok schema) :
    Means reading schema (defs.isFree opened t) fun nullable v =>
      defs.takes reading opened nullable t v := by
  cases t with
  | scalar kind =>
      rw [ofType] at mapped
      rw [Definitions.isFree]
      exact (means_ofScalar mapped).congr fun nullable v => by rw [Definitions.takes]
  | array element =>
      rw [ofType, map_eq_ok_iff] at mapped
      obtain ⟨items, inner, rfl⟩ := mapped
      have means := parts element List.mem_cons_self items inner
      have array := means_of_items rfl (canonical_flag_ofArray · items) means.meets_canonical
      rw [Definitions.isFree_array]
      exact array.congr fun nullable v => by rw [Definitions.takes]
  | tuple members =>
      rw [ofType, map_eq_ok_iff] at mapped
      obtain ⟨schemas, inner, rfl⟩ := mapped
      have each := forall₂_of_ofMembers_eq_ok (show ∀ member ∈ members, _ from parts) inner
      rw [List.filter_true] at each
      rw [Definitions.isFree_tuple]
      exact (means_ofTuple each).congr fun nullable v => by rw [Definitions.takes_tuple]
  | record fields rest =>
      obtain ⟨properties, further, each, rfl⟩ := ofType_record_eq_ok
        (fun field schema => Means reading schema (defs.isFree opened field.type)
          fun nullable v => defs.takes reading opened nullable field.type v)
        (fun field inside => parts field.2.type (Descriptor.field_mem_components inside rest))
        mapped
      rw [Definitions.isFree_record]
      have record := means_ofRecord (fun field : Field Descriptor => defs.isFree opened field.type)
        (fun field nullable v => defs.takes reading opened nullable field.type v) each further
      exact record.congr fun nullable v => by rw [Definitions.takes_record]
  | union members =>
      rw [ofType, map_eq_ok_iff] at mapped
      obtain ⟨schemas, inner, rfl⟩ := mapped
      exact means_ofUnion
        (forall₂_of_ofMembers_eq_ok (show ∀ member ∈ members, _ from parts) inner)
  | ref name =>
      rcases ofType_ref_eq_ok mapped with ⟨target, found, built⟩ | ⟨missing, defined, rfl⟩
      · obtain ⟨outside, known⟩ := without.of_found found
        rw [Definitions.isFree_ref_of_not_mem outside known]
        refine (definition name target found schema built).congr fun nullable v => ?_
        rw [Definitions.takes_ref_of_not_mem reading nullable v outside known]
      · have inside := without.of_missing missing defined
        rw [Definitions.isFree, dif_pos inside]
        refine (means_reference name).congr fun nullable v => ?_
        rw [Definitions.takes_ref_of_mem reading nullable v inside]
  | object type =>
      rw [ofType] at mapped
      cases mapped
  | error =>
      rw [ofType] at mapped
      cases mapped

theorem means_ofType {defs fresh : Definitions} {opened : List String} (reading : Reading)
    (without : Fresh defs fresh opened) (t : Descriptor) {schema : Json}
    (mapped : ofType defs fresh t = .ok schema) :
    Means reading schema (defs.isFree opened t) fun nullable v =>
      defs.takes reading opened nullable t v :=
  means_ofType_of_parts without
    (fun part _member _ mapped => means_ofType reading without part mapped)
    (fun name target _found _ mapped => means_ofType reading (without.erase name) target mapped)
    mapped
termination_by (fresh.size, sizeOf t)
decreasing_by
  · exact Prod.Lex.right _ (Descriptor.sizeOf_lt_of_mem_components _member)
  · exact Prod.Lex.left _ _ (Definitions.size_erase_lt _found)

theorem meets_canonical_ofName {defs : Definitions} {name : String} {schema : Json}
    (mapped : ofName defs name = .ok schema) (reading : Reading) (v : Json) :
    meets reading (canonical schema) v = defs.takes reading [] false (.ref name) v := by
  have without : Fresh defs defs [] := fun other => by simp
  exact (means_ofType reading without (.ref name) mapped).meets_canonical v

/-- If a name has a raw schema, the canonical form of it accepts exactly the values that the name
admits. -/
theorem accepts_canonical_ofName {defs : Definitions} {name : String} {schema : Json}
    (mapped : ofName defs name = .ok schema) (v : Json) :
    accepts (canonical schema) v = defs.admits [] (.ref name) v := by
  rw [accepts, meets_canonical_ofName mapped, Definitions.takes_any, Bool.false_and, Bool.or_false]

/-- A recursive record of bytes: the schema of a cell accepts what a cell admits. -/
theorem accepts_canonical_ofName_cell :
    let defs := Definitions.ofList [("Cell", .record
      [("byte", ⟨(Descriptor.scalar .byte).orNil, false⟩),
        ("next", ⟨(Descriptor.ref "Cell").orNil, true⟩)] none)]
    let schema := ofRecord
      [("byte", orNil (formatted "string" "byte")), ("next", orNil (reference "Cell"))] none
    ofName defs "Cell" = .ok schema ∧
      ∀ v, accepts (canonical schema) v = defs.admits [] (.ref "Cell") v := by
  intro defs schema
  have mapped : ofName defs "Cell" = .ok schema := by cbv
  exact ⟨mapped, accepts_canonical_ofName mapped⟩

end SchemaWeaver.Schema
