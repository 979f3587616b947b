import SchemaWeaver.Proofs.Descriptor.Leads
import SchemaWeaver.Schema.Raw
import Mathlib.Data.List.Forall2

/-!
What the raw schemas of types are built from. The schemas of several types are found one for each,
and what is built from raw schemas at every kind of type holds of all of them.
-/

set_option autoImplicit false
set_option relaxedAutoImplicit false

namespace SchemaWeaver.Schema

open List (Forall₂)

/-! ## Schemas of several types -/

theorem map_eq_ok_iff {α β : Type} {f : α → β} {outcome : Except Fault α} {b : β} :
    outcome.map f = .ok b ↔ ∃ a, outcome = .ok a ∧ f a = b := by
  cases outcome with
  | error fault => simp [Except.map]
  | ok a => simp [Except.map]

theorem ofMembers_eq_mapM (defs fresh : Definitions) (keep : Descriptor → Bool)
    (members : List Descriptor) :
    ofMembers defs fresh keep members = (members.filter keep).mapM (ofType defs fresh) := by
  induction members with
  | nil => rw [ofMembers]; rfl
  | cons member others ih =>
      rw [ofMembers, ih]
      split
      · rename_i kept
        rw [List.filter_cons_of_pos kept, List.mapM_cons]
        cases ofType defs fresh member <;> rfl
      · rename_i dropped
        rw [List.filter_cons_of_neg dropped]

theorem ofFields_eq_mapM (defs fresh : Definitions) (fields : List (String × Field Descriptor)) :
    ofFields defs fresh fields =
      fields.mapM fun field => (ofType defs fresh field.2.type).map fun schema =>
        (field.1, schema) := by
  induction fields with
  | nil => rw [ofFields]; rfl
  | cons field others ih =>
      rw [ofFields, ih, List.mapM_cons]
      cases ofType defs fresh field.2.type <;> rfl

theorem forall₂_of_ofMembers_eq_ok {defs fresh : Definitions} {keep : Descriptor → Bool}
    {related : Descriptor → Json → Prop} {members : List Descriptor} {schemas : List Json}
    (each : ∀ member ∈ members, ∀ schema, ofType defs fresh member = .ok schema →
      related member schema)
    (mapped : ofMembers defs fresh keep members = .ok schemas) :
    Forall₂ related (members.filter keep) schemas := by
  induction members generalizing schemas with
  | nil =>
      rw [ofMembers] at mapped
      cases mapped
      exact .nil
  | cons member others ih =>
      have later : ∀ other ∈ others, ∀ schema, ofType defs fresh other = .ok schema →
          related other schema := fun other inside => each other (List.mem_cons_of_mem _ inside)
      rw [ofMembers] at mapped
      split at mapped
      · rename_i kept
        rw [List.filter_cons_of_pos kept]
        cases first : ofType defs fresh member with
        | error fault => simp [first] at mapped
        | ok schema =>
            simp only [first, map_eq_ok_iff] at mapped
            obtain ⟨further, rest, rfl⟩ := mapped
            exact .cons (each member List.mem_cons_self schema first) (ih later rest)
      · rename_i dropped
        rw [List.filter_cons_of_neg dropped]
        exact ih later mapped

theorem forall₂_of_ofFields_eq_ok {defs fresh : Definitions}
    (related : Field Descriptor → Json → Prop) {fields : List (String × Field Descriptor)}
    {properties : List (String × Json)}
    (each : ∀ field ∈ fields, ∀ schema, ofType defs fresh field.2.type = .ok schema →
      related field.2 schema)
    (mapped : ofFields defs fresh fields = .ok properties) :
    Forall₂ (fun field property => property.1 = field.1 ∧ related field.2 property.2) fields
      properties := by
  induction fields generalizing properties with
  | nil =>
      rw [ofFields] at mapped
      cases mapped
      exact .nil
  | cons field others ih =>
      obtain ⟨name, field⟩ := field
      rw [ofFields] at mapped
      cases first : ofType defs fresh field.type with
      | error fault => simp [first] at mapped
      | ok schema =>
          simp only [first, map_eq_ok_iff] at mapped
          obtain ⟨further, rest, rfl⟩ := mapped
          refine .cons ⟨rfl, each _ List.mem_cons_self schema first⟩ (ih ?_ rest)
          exact fun other inside => each other (List.mem_cons_of_mem _ inside)

theorem ofType_record_eq_ok {defs fresh : Definitions} (related : Field Descriptor → Json → Prop)
    {fields : List (String × Field Descriptor)} {rest : Option Descriptor} {schema : Json}
    (each : ∀ field ∈ fields, ∀ schema, ofType defs fresh field.2.type = .ok schema →
      related field.2 schema)
    (mapped : ofType defs fresh (.record fields rest) = .ok schema) :
    ∃ properties further, Forall₂ (fun field property => property.1 = field.1 ∧
      related field.2 property.2) fields properties ∧ schema = ofRecord properties further := by
  rw [ofType] at mapped
  cases inner : ofFields defs fresh fields with
  | error fault => simp [inner] at mapped
  | ok properties =>
      have each := forall₂_of_ofFields_eq_ok related each inner
      simp only [inner] at mapped
      cases rest with
      | none => exact ⟨properties, none, each, (Except.ok.inj mapped).symm⟩
      | some type =>
          obtain ⟨further, -, same⟩ := map_eq_ok_iff.mp mapped
          exact ⟨properties, some further, each, same.symm⟩

/-! ## Names -/

theorem ofType_of_found {defs fresh : Definitions} {name : String} {target : Descriptor}
    (found : fresh[name]? = some target) :
    ofType defs fresh (.ref name) = ofType defs (fresh.erase name) target := by
  rw [ofType]
  exact Definitions.match_of_found found

theorem ofType_of_missing {defs fresh : Definitions} {name : String}
    (missing : fresh[name]? = none) :
    ofType defs fresh (.ref name) =
      if defs.contains name then .ok (reference name) else .error (.unknownType name) := by
  rw [ofType]
  exact Definitions.match_of_missing missing

/-- A name stands for its definition, or for a reference inside of it. -/
theorem ofType_ref_eq_ok {defs fresh : Definitions} {name : String} {schema : Json}
    (mapped : ofType defs fresh (.ref name) = .ok schema) :
    (∃ target, fresh[name]? = some target ∧ ofType defs (fresh.erase name) target = .ok schema) ∨
      fresh[name]? = none ∧ defs.contains name = true ∧ schema = reference name := by
  cases found : fresh[name]? with
  | some target =>
      rw [ofType_of_found found] at mapped
      exact Or.inl ⟨target, rfl, mapped⟩
  | none =>
      rw [ofType_of_missing found] at mapped
      split at mapped
      · rename_i defined
        exact Or.inr ⟨rfl, defined, (Except.ok.inj mapped).symm⟩
      · cases mapped

/-! ## Shapes -/

/-- The schemas that are built from those of scalar types and from references. -/
inductive IsRaw : Json → Prop
  | scalar {kind : Scalar} {schema : Json} (mapped : ofScalar kind = .ok schema) : IsRaw schema
  | reference (name : String) : IsRaw (reference name)
  | array {items : Json} (raw : IsRaw items) : IsRaw (ofArray items)
  | tuple {members : List Json} (each : ∀ member ∈ members, IsRaw member) : IsRaw (ofTuple members)
  | record {fields : Keyed String Json} (each : ∀ field ∈ fields, IsRaw field.2)
      (rest : Option Json) : IsRaw (ofRecord fields rest)
  | union (nullable : Bool) {members : List Json} (each : ∀ member ∈ members, IsRaw member) :
      IsRaw (ofUnion nullable members)

private theorem forall_mem_of_forall₂ {α β : Type} {xs : List α} {ys : List β} {holds : β → Prop}
    (each : Forall₂ (fun _ y => holds y) xs ys) : ∀ y ∈ ys, holds y := by
  intro y member
  obtain ⟨i, rfl⟩ := List.get_of_mem member
  refine each.get ?_ i.2
  rw [each.length_eq]
  exact i.2

theorem isRaw_ofType_of_parts {defs fresh : Definitions} {t : Descriptor}
    (parts : ∀ part ∈ t.components, ∀ schema, ofType defs fresh part = .ok schema → IsRaw schema)
    (definition : ∀ name target, fresh[name]? = some target → ∀ schema,
      ofType defs (fresh.erase name) target = .ok schema → IsRaw schema)
    {schema : Json} (mapped : ofType defs fresh t = .ok schema) : IsRaw schema := by
  cases t with
  | scalar kind =>
      rw [ofType] at mapped
      exact .scalar mapped
  | array element =>
      rw [ofType, map_eq_ok_iff] at mapped
      obtain ⟨items, inner, rfl⟩ := mapped
      exact .array (parts element List.mem_cons_self items inner)
  | tuple members =>
      rw [ofType, map_eq_ok_iff] at mapped
      obtain ⟨schemas, inner, rfl⟩ := mapped
      have each := forall₂_of_ofMembers_eq_ok (show ∀ member ∈ members, _ from parts) inner
      exact .tuple (forall_mem_of_forall₂ each)
  | record fields rest =>
      obtain ⟨properties, further, each, rfl⟩ := ofType_record_eq_ok (fun _ schema => IsRaw schema)
        (fun field inside => parts field.2.type (Descriptor.field_mem_components inside rest))
        mapped
      exact .record (forall_mem_of_forall₂ (each.imp fun _ _ both => both.2)) further
  | union members =>
      rw [ofType, map_eq_ok_iff] at mapped
      obtain ⟨schemas, inner, rfl⟩ := mapped
      have each := forall₂_of_ofMembers_eq_ok (show ∀ member ∈ members, _ from parts) inner
      exact .union _ (forall_mem_of_forall₂ each)
  | ref name =>
      rcases ofType_ref_eq_ok mapped with ⟨target, found, built⟩ | ⟨-, -, rfl⟩
      · exact definition name target found schema built
      · exact .reference name
  | object type =>
      rw [ofType] at mapped
      cases mapped
  | error =>
      rw [ofType] at mapped
      cases mapped

theorem isRaw_ofType {defs fresh : Definitions} (t : Descriptor) {schema : Json}
    (mapped : ofType defs fresh t = .ok schema) : IsRaw schema :=
  isRaw_ofType_of_parts
    (fun part _member _ mapped => isRaw_ofType part mapped)
    (fun name target _found _ mapped => isRaw_ofType target mapped) mapped
termination_by (fresh.size, sizeOf t)
decreasing_by
  · exact Prod.Lex.right _ (Descriptor.sizeOf_lt_of_mem_components _member)
  · exact Prod.Lex.left _ _ (Definitions.size_erase_lt _found)

end SchemaWeaver.Schema
