import SchemaWeaver.Proofs.Descriptor.Layer
import SchemaWeaver.Proofs.Descriptor.Leads
import Mathlib.Data.List.Forall2

/-!
What the answers of the subtype check say, one statement for each kind of left side. Names and
unions on the right are gone through until an alternative fits.
-/

set_option autoImplicit false
set_option relaxedAutoImplicit false

namespace SchemaWeaver.Definitions

variable {defs : Definitions} {sides : List Descriptor} {assumed : Assumptions}

theorem subtypeUnder_ref {name : String} {sup : Descriptor}
    (answer : subtypeUnder defs sides assumed (.ref name) sup = true) :
    sup = .ref name ∨ ∃ target, defs[name]? = some target ∧
      (assumed.holds name sup = true ∨
        subtypeUnder defs sides (assumed.assume name sup) target sup = true) := by
  rw [subtypeUnder] at answer
  split at answer
  · rename_i same
    exact Or.inl same
  · refine Or.inr ?_
    split at answer
    · cases answer
    · rename_i target found
      refine ⟨target, found, ?_⟩
      split at answer
      · rename_i settled
        exact Or.inl settled
      · split at answer
        · exact Or.inr answer
        · cases answer

theorem subtypeUnder_ref_of_found {name : String} {target sup : Descriptor}
    (found : defs[name]? = some target) (side : defs.isSide sides sup = true)
    (fits : assumed.holds name sup = true ∨
      subtypeUnder defs sides (assumed.assume name sup) target sup = true) :
    subtypeUnder defs sides assumed (.ref name) sup = true := by
  rw [subtypeUnder]
  split
  · rfl
  · split
    · rename_i missing
      cases found.symm.trans missing
    · rename_i same
      cases found.symm.trans same
      split
      · rfl
      · rename_i unsettled
        exact fits.resolve_left unsettled

theorem subtypeUnder_ref_eq {name : String} {sup : Descriptor}
    (side : defs.isSide sides sup = true) :
    subtypeUnder defs sides assumed (.ref name) sup =
      (decide (sup = .ref name) || defs[name]?.any fun target => assumed.holds name sup ||
        subtypeUnder defs sides (assumed.assume name sup) target sup) := by
  rw [Bool.eq_iff_iff, Bool.or_eq_true, decide_eq_true_eq, Option.any_eq_true]
  simp only [Bool.or_eq_true]
  constructor
  · exact subtypeUnder_ref
  · rintro (rfl | ⟨target, found, fits⟩)
    · rw [subtypeUnder, if_pos rfl]
    · exact subtypeUnder_ref_of_found found side fits

theorem subtypeUnder_union {members : List Descriptor} {sup : Descriptor} :
    subtypeUnder defs sides assumed (.union members) sup = true ↔
      ∀ member ∈ members, subtypeUnder defs sides assumed member sup = true := by
  rw [subtypeUnder, List.all_eq_true]
  simp

section Single

variable {sub : Descriptor} (unnamed : ∀ name, sub ≠ .ref name) (single : isUnion sub = false)
include unnamed single

theorem subtypeUnder_single_iff {sup : Descriptor} :
    subtypeUnder defs sides assumed sub sup = true ↔
      defs.Finds isUnion (defs.layer (subtypeUnder defs sides assumed) sub) sup := by
  have searched : subtypeUnder defs sides assumed sub sup =
      defs.search isUnion (fitsUnder defs sides assumed sub) [sup] := by
    cases sub with
    | ref name => exact absurd rfl (unnamed name)
    | union members => cases single
    | _ =>
        rw [subtypeUnder]
        all_goals simp
  have layered : fitsUnder defs sides assumed sub =
      defs.layer (subtypeUnder defs sides assumed) sub := funext (fitsUnder_eq_layer sub)
  rw [searched, search_eq_true_iff, layered]
  simp

theorem subtypeUnder_single {sup : Descriptor}
    (answer : subtypeUnder defs sides assumed sub sup = true) :
    ∃ alternative, defs.Reaches isUnion sup alternative ∧
      fitsUnder defs sides assumed sub alternative = true := by
  obtain ⟨alternative, way, fits⟩ := (subtypeUnder_single_iff unnamed single).mp answer
  rw [← fitsUnder_eq_layer] at fits
  exact ⟨alternative, way, fits⟩

theorem subtypeUnder_single_ref {name : String} :
    subtypeUnder defs sides assumed sub (.ref name) =
      defs[name]?.any (subtypeUnder defs sides assumed sub) := by
  rw [Bool.eq_iff_iff, subtypeUnder_single_iff unnamed single, finds_iff_leads, layer_ref,
    Option.any_eq_true]
  simp only [Bool.false_eq_true, false_or, subtypeUnder_single_iff unnamed single]
  constructor
  · rintro ⟨u, step, finds⟩
    cases step with
    | definition found => exact ⟨u, found, finds⟩
    | part entered _ => cases entered
  · rintro ⟨target, found, finds⟩
    exact ⟨target, .definition found, finds⟩

theorem subtypeUnder_single_union {members : List Descriptor} :
    subtypeUnder defs sides assumed sub (.union members) =
      members.any (subtypeUnder defs sides assumed sub) := by
  rw [Bool.eq_iff_iff, subtypeUnder_single_iff unnamed single, finds_iff_leads, layer_union,
    List.any_eq_true]
  simp only [Bool.false_eq_true, false_or, subtypeUnder_single_iff unnamed single]
  constructor
  · rintro ⟨u, ⟨⟩ | ⟨-, member⟩, finds⟩
    exact ⟨u, member, finds⟩
  · rintro ⟨u, member, finds⟩
    exact ⟨u, .part rfl member, finds⟩

theorem subtypeUnder_single_single {sup : Descriptor} (unnamed' : ∀ name, sup ≠ .ref name)
    (single' : isUnion sup = false) :
    subtypeUnder defs sides assumed sub sup =
      defs.layer (subtypeUnder defs sides assumed) sub sup := by
  rw [Bool.eq_iff_iff, subtypeUnder_single_iff unnamed single, finds_unnamed_iff unnamed', single']
  simp

end Single

theorem fitsUnder_tuple {members others : List Descriptor}
    (answer : fitsUnder defs sides assumed (.tuple members) (.tuple others) = true) :
    List.Forall₂ (fun member other => subtypeUnder defs sides assumed member other = true)
      members others := by
  rw [fitsUnder_eq_layer, layer, Bool.and_eq_true, decide_eq_true_eq, List.all_eq_true] at answer
  obtain ⟨length, each⟩ := answer
  exact List.forall₂_iff_zip.mpr ⟨length, fun {member other} inside => each (member, other) inside⟩

theorem fitsUnder_record {fields others : List (String × Field Descriptor)}
    {rest otherRest : Option Descriptor}
    (answer :
      fitsUnder defs sides assumed (.record fields rest) (.record others otherRest) = true) :
    RecordFits (subtypeUnder defs sides assumed) fields rest others otherRest := by
  rw [fitsUnder_eq_layer] at answer
  exact layer_record_eq_true_iff.mp answer

/-! ## Right sides -/

theorem mem_parts_iff {t u : Descriptor} :
    u ∈ t.parts ↔ u = t ∨ ∃ part ∈ t.components, u ∈ part.parts := by
  rw [Descriptor.parts]
  simp

theorem mem_parts_self (t : Descriptor) : t ∈ t.parts :=
  mem_parts_iff.mpr (Or.inl rfl)

theorem mem_parts_of_mem_components {t u v : Descriptor} (inside : u ∈ t.parts)
    (member : v ∈ u.components) : v ∈ t.parts := by
  rcases mem_parts_iff.mp inside with rfl | ⟨part, below, deeper⟩
  · exact mem_parts_iff.mpr (Or.inr ⟨v, member, mem_parts_self v⟩)
  · have smaller := Descriptor.sizeOf_lt_of_mem_components below
    have ih := mem_parts_of_mem_components deeper member
    exact mem_parts_iff.mpr (Or.inr ⟨part, below, ih⟩)
termination_by sizeOf t

theorem mem_values_of_found {name : String} {target : Descriptor}
    (found : defs[name]? = some target) : target ∈ Std.TreeMap.values defs := by
  have listed : (name, target) ∈ defs.toList :=
    Std.TreeMap.mem_toList_iff_getElem?_eq_some.mpr found
  have values : Std.TreeMap.values defs = defs.toList.map Prod.snd := by
    change defs.inner.inner.values =
      (Std.DTreeMap.Internal.Impl.Const.toList defs.inner.inner).map Prod.snd
    rw [Std.DTreeMap.Internal.Impl.values_eq_map_snd,
      Std.DTreeMap.Internal.Impl.Const.toList_eq_toListModel_map, List.map_map]
    rfl
  rw [values]
  exact List.mem_map_of_mem listed

/-- Every type that a right side leads to is listed among the right sides that can come up. -/
theorem mem_rightSides_of_reaches {sup u : Descriptor} (way : defs.Reaches (fun _ => true) sup u) :
    u ∈ defs.rightSides sup := by
  induction way with
  | refl => exact List.mem_append_left _ (mem_parts_self sup)
  | tail _ step ih =>
      cases step with
      | definition found =>
          have value := mem_values_of_found found
          exact List.mem_append_right _ (List.mem_flatMap.mpr ⟨_, value, mem_parts_self _⟩)
      | part _ member =>
          rcases List.mem_append.mp ih with own | defined
          · exact List.mem_append_left _ (mem_parts_of_mem_components own member)
          · obtain ⟨target, value, inside⟩ := List.mem_flatMap.mp defined
            have deeper := mem_parts_of_mem_components inside member
            exact List.mem_append_right _ (List.mem_flatMap.mpr ⟨target, value, deeper⟩)

theorem isSide_rightSides {sup u : Descriptor} (way : defs.Reaches (fun _ => true) sup u) :
    defs.isSide (defs.rightSides sup) u = true := by
  have listed := mem_rightSides_of_reaches way
  cases u <;> simp [isSide, listed]

end SchemaWeaver.Definitions
