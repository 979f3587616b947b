import SchemaWeaver.Proofs.Descriptor.Data
import SchemaWeaver.Schema.Raw

/-!
Which names have a raw schema: exactly those of plain data. A schema is refused where a foreign type
turns up; a name inside its own definition is not opened, and a member of a union is looked at even
if the schema of the union does not show it.
-/

set_option autoImplicit false
set_option relaxedAutoImplicit false

namespace SchemaWeaver.Schema

variable (defs fresh : Definitions)

private theorem isOk_map {α β : Type} (f : α → β) (outcome : Except Fault α) :
    (outcome.map f).isOk = outcome.isOk := by
  cases outcome <;> rfl

private theorem isOk_ofScalar (kind : Scalar) : (ofScalar kind).isOk = kind.isData := by
  cases kind <;> rfl

private theorem isOk_ofMembers (keep : Descriptor → Bool) (members : List Descriptor) :
    (ofMembers defs fresh keep members).isOk =
      (members.filter keep).all fun member => (ofType defs fresh member).isOk := by
  induction members with
  | nil =>
      rw [ofMembers]
      rfl
  | cons member others ih =>
      rw [ofMembers]
      by_cases kept : keep member = true
      · rw [if_pos kept, List.filter_cons_of_pos kept, List.all_cons, ← ih]
        cases ofType defs fresh member with
        | error fault => rfl
        | ok schema => exact isOk_map _ _
      · rw [if_neg kept, List.filter_cons_of_neg kept, ih]

private theorem isOk_ofFields (fields : List (String × Field Descriptor)) :
    (ofFields defs fresh fields).isOk =
      fields.all fun field => (ofType defs fresh field.2.type).isOk := by
  induction fields with
  | nil =>
      rw [ofFields]
      rfl
  | cons field others ih =>
      rw [ofFields, List.all_cons, ← ih]
      cases ofType defs fresh field.2.type with
      | error fault => rfl
      | ok schema => exact isOk_map _ _

private theorem all_isOk_filter_isNil (members : List Descriptor) :
    ((members.filter fun member => !isNil member).all fun member =>
      (ofType defs fresh member).isOk) =
      members.all fun member => (ofType defs fresh member).isOk := by
  rw [List.all_filter]
  congr 1
  funext member
  cases nil : isNil member with
  | false => rfl
  | true =>
      unfold isNil at nil
      split at nil
      · rw [ofType]
        rfl
      · cases nil

theorem isOk_ofType_of_unnamed {t : Descriptor} (unnamed : ∀ name, t ≠ .ref name) :
    (ofType defs fresh t).isOk =
      (!defs.isForeign Scalar.isData t &&
        t.components.all fun part => (ofType defs fresh part).isOk) := by
  cases t with
  | scalar kind =>
      rw [ofType, isOk_ofScalar]
      simp [Definitions.isForeign, Descriptor.components]
  | array element =>
      rw [ofType, isOk_map]
      simp [Definitions.isForeign, Descriptor.components]
  | tuple members =>
      rw [ofType, isOk_map, isOk_ofMembers, List.filter_true]
      simp [Definitions.isForeign, Descriptor.components]
  | record fields rest =>
      have properties := isOk_ofFields defs fresh fields
      have whole : (ofType defs fresh (.record fields rest)).isOk =
          ((ofFields defs fresh fields).isOk &&
            rest.toList.all fun type => (ofType defs fresh type).isOk) := by
        rw [ofType]
        cases ofFields defs fresh fields with
        | error fault => rfl
        | ok found =>
            cases rest with
            | none => rfl
            | some type =>
                rw [isOk_map, Option.toList_some, List.all_cons, List.all_nil, Bool.and_true]
                rfl
      rw [whole, properties]
      simp [Definitions.isForeign, Descriptor.components, Function.comp_def]
  | union members =>
      rw [ofType, isOk_map, isOk_ofMembers, all_isOk_filter_isNil]
      simp [Definitions.isForeign, Descriptor.components]
  | ref name => exact absurd rfl (unnamed name)
  | object type =>
      rw [ofType]
      rfl
  | error =>
      rw [ofType]
      rfl

variable {defs fresh}

theorem isOk_ofType_iff (known : ∀ name target, fresh[name]? = some target → defs.contains name)
    (t : Descriptor) :
    (ofType defs fresh t).isOk = true ↔
      ¬fresh.Finds (fun _ => true) (defs.isForeign Scalar.isData) t := by
  refine Definitions.check_iff_not_finds
    (fun s fresh => s = fresh ∧
      ∀ name target, fresh[name]? = some target → defs.contains name)
    (fun fresh name => fresh.erase name) (fun fresh t => (ofType defs fresh t).isOk = true)
    ?_ ?_ ?_ ⟨rfl, known⟩ t
  · rintro s fresh ⟨rfl, known⟩ name
    refine ⟨rfl, fun other target found => ?_⟩
    exact known other target (Definitions.getElem?_of_erase found).2
  · rintro s fresh ⟨rfl, known⟩ name
    rw [ofType]
    split
    · rename_i target found
      simp [Definitions.isForeign, known name target found, found]
    · rename_i missing
      cases defined : defs.contains name with
      | true => simp [Definitions.isForeign, missing, defined, Except.isOk, Except.toBool]
      | false => simp [Definitions.isForeign, missing, defined, Except.isOk, Except.toBool]
  · rintro s fresh ⟨rfl, known⟩ t unnamed
    rw [isOk_ofType_of_unnamed defs s unnamed]
    simp

theorem isOk_ofName (defs : Definitions) (name : String) :
    (ofName defs name).isOk = defs.isSubtypeOf (.ref name) (.scalar .anydata) := by
  have known : ∀ name target, defs[name]? = some target → defs.contains name := by
    intro name target found
    rw [Std.TreeMap.contains_eq_isSome_getElem?, found]
    rfl
  rw [Bool.eq_iff_iff, ofName, isOk_ofType_iff known, Definitions.isSubtypeOf_anydata,
    Definitions.isData, Definitions.builtFrom_eq_true_iff, Definitions.FindsForeign]

end SchemaWeaver.Schema
