import SchemaWeaver.Proofs.Json.Parts
import SchemaWeaver.Proofs.Keyed
import SchemaWeaver.Proofs.Schema.Canonical

/-!
The schemas that stand inside a schema, and what a change of all of them does to each. A change that
leaves every schema object as it is leaves the value as it is; what every changed schema object
satisfies holds at all schemas of the changed value.
-/

set_option autoImplicit false
set_option relaxedAutoImplicit false

namespace SchemaWeaver.Schema

def schemasAt (key : String) (v : Json) : List Json :=
  if key = "items" ∨ key = "not" then [v]
  else if key = "properties" then
    match v with
    | .obj schemas => schemas.map Prod.snd
    | _ => []
  else if key = "allOf" ∨ key = "anyOf" ∨ key = "oneOf" then
    match v with
    | .arr branches => branches
    | _ => []
  else []

/-- The schemas that stand directly in a schema object. -/
def innerSchemas (entries : Keyed String Json) : List Json :=
  entries.flatMap fun entry => schemasAt entry.1 entry.2

/-- The schemas of a value: the value itself, and those of the schemas that stand in it. -/
inductive IsSchemaOf : Json → Json → Prop
  | self (v : Json) : IsSchemaOf v v
  | inner {entries : Keyed String Json} {schema part : Json}
      (member : schema ∈ innerSchemas entries) (inside : IsSchemaOf schema part) :
      IsSchemaOf (.obj entries) part

def AllSchemas (holds : Keyed String Json → Prop) (v : Json) : Prop :=
  ∀ entries, IsSchemaOf v (.obj entries) → holds entries

theorem allSchemas_obj_iff {holds : Keyed String Json → Prop} {entries : Keyed String Json} :
    AllSchemas holds (.obj entries) ↔
      holds entries ∧ ∀ schema ∈ innerSchemas entries, AllSchemas holds schema := by
  constructor
  · intro all
    refine ⟨all entries (.self _), fun schema member others inside => ?_⟩
    exact all others (.inner member inside)
  · rintro ⟨here, inner⟩ others inside
    cases inside with
    | self => exact here
    | inner member inside => exact inner _ member others inside

theorem AllSchemas.imp {holds further : Keyed String Json → Prop}
    (implies : ∀ entries, holds entries → further entries) {v : Json} (all : AllSchemas holds v) :
    AllSchemas further v :=
  fun entries inside => implies entries (all entries inside)

/-! ## One place -/

/-- A value with the schemas that stand in it under a key changed. -/
def atPlace (change : Json → Json) (key : String) (v : Json) : Json :=
  match Place.ofKey key with
  | .schema => change v
  | .properties =>
      match v with
      | .obj schemas => .obj (schemas.map fun schema => (schema.1, change schema.2))
      | v => v
  | .branches =>
      match v with
      | .arr branches => .arr (branches.map change)
      | v => v
  | .data => v

theorem atPlace_of_data {key : String} (data : Place.ofKey key = .data) (change : Json → Json)
    (v : Json) : atPlace change key v = v := by
  simp only [atPlace, data]

theorem atPlace_untabled {v : Json} (untabled : ∀ schemas, v ≠ .obj schemas)
    (change : Json → Json) : atPlace change "properties" v = v := by
  cases v with
  | obj schemas => exact absurd rfl (untabled schemas)
  | _ => rfl

private theorem ofKey_of_composite :
    ∀ keyword ∈ compositeKeywords, Place.ofKey keyword = .branches := by
  decide

theorem atPlace_branches {key : String} (composite : key ∈ compositeKeywords)
    (change : Json → Json) (branches : List Json) :
    atPlace change key (.arr branches) = .arr (branches.map change) := by
  simp only [atPlace, ofKey_of_composite key composite]

theorem atPlace_unlisted {key : String} (composite : key ∈ compositeKeywords) {v : Json}
    (unlisted : ∀ branches, v ≠ .arr branches) (change : Json → Json) :
    atPlace change key v = v := by
  simp only [atPlace, ofKey_of_composite key composite]

theorem atPlace_atPlace (f g : Json → Json) (key : String) (v : Json) :
    atPlace g key (atPlace f key v) = atPlace (fun v => g (f v)) key v := by
  unfold atPlace
  cases Place.ofKey key with
  | schema => rfl
  | data => rfl
  | properties => cases v <;> simp
  | branches => cases v <;> simp

theorem schemasAt_eq_place (key : String) (v : Json) :
    schemasAt key v = match Place.ofKey key with
      | .schema => [v]
      | .properties =>
          match v with
          | .obj schemas => schemas.map Prod.snd
          | _ => []
      | .branches =>
          match v with
          | .arr branches => branches
          | _ => []
      | .data => [] := by
  unfold schemasAt Place.ofKey
  simp only [compositeKeywords, List.mem_cons, List.not_mem_nil, or_false, Bool.or_eq_true,
    decide_eq_true_eq]
  split_ifs <;> rfl

theorem schemasAt_atPlace (change : Json → Json) (key : String) (v : Json) :
    schemasAt key (atPlace change key v) = (schemasAt key v).map change := by
  simp only [schemasAt_eq_place, atPlace]
  cases Place.ofKey key with
  | schema => rfl
  | data => rfl
  | properties => cases v <;> simp
  | branches => cases v <;> simp

theorem atPlace_eq_self {change : Json → Json} {key : String} {v : Json}
    (fixed : ∀ schema ∈ schemasAt key v, change schema = schema) : atPlace change key v = v := by
  simp only [schemasAt_eq_place] at fixed
  unfold atPlace
  cases place : Place.ofKey key with
  | schema =>
      simp only [place] at fixed
      exact fixed v (List.mem_singleton_self v)
  | data => rfl
  | properties =>
      cases v with
      | obj schemas =>
          simp only [place, List.forall_mem_map] at fixed
          have same : (schemas.map fun schema => (schema.1, change schema.2)) = schemas.map id :=
            List.map_congr_left fun schema member => by simp [fixed schema member]
          simp only [same, List.map_id]
      | _ => rfl
  | branches =>
      cases v with
      | arr branches =>
          simp only [place] at fixed
          have same : branches.map change = branches.map id := List.map_congr_left fixed
          simp only [same, List.map_id]
      | _ => rfl

/-! ## All places of a schema object -/

section Within

variable (change : Keyed String Json → Keyed String Json)

theorem withinEntries_eq_map (entries : Keyed String Json) :
    withinEntries change entries =
      entries.map fun entry => (entry.1, atPlace (everywhere change) entry.1 entry.2) := by
  induction entries with
  | nil => rfl
  | cons entry rest ih =>
      obtain ⟨key, v⟩ := entry
      rw [withinEntries, ih, List.map_cons]
      congr 2
      unfold atPlace
      cases Place.ofKey key with
      | schema => rfl
      | data => rfl
      | properties => cases v <;> simp [withinProperties, everyValue_eq_map]
      | branches => cases v <;> simp [withinBranches, everyItem_eq_map]

theorem keys_withinEntries (entries : Keyed String Json) :
    Keyed.keys (withinEntries change entries) = Keyed.keys entries := by
  rw [withinEntries_eq_map, Keyed.keys, List.map_map]
  rfl

theorem get?_withinEntries (entries : Keyed String Json) (key : String) :
    Keyed.get? (withinEntries change entries) key =
      (Keyed.get? entries key).map (atPlace (everywhere change) key) := by
  rw [withinEntries_eq_map]
  induction entries with
  | nil => rfl
  | cons entry rest ih =>
      by_cases same : entry.1 = key
      · simp [Keyed.get?, same]
      · simpa [Keyed.get?, same] using ih

theorem innerSchemas_withinEntries (entries : Keyed String Json) :
    innerSchemas (withinEntries change entries) =
      (innerSchemas entries).map (everywhere change) := by
  rw [withinEntries_eq_map, innerSchemas, innerSchemas, List.flatMap_map, List.map_flatMap]
  simp only [schemasAt_atPlace]

theorem withinEntries_eq_self {change : Keyed String Json → Keyed String Json}
    {entries : Keyed String Json}
    (fixed : ∀ schema ∈ innerSchemas entries, everywhere change schema = schema) :
    withinEntries change entries = entries := by
  rw [withinEntries_eq_map]
  conv_rhs => rw [← List.map_id entries]
  refine List.map_congr_left fun entry member => ?_
  have same : atPlace (everywhere change) entry.1 entry.2 = entry.2 :=
    atPlace_eq_self fun schema inside => fixed schema (List.mem_flatMap.mpr ⟨entry, member, inside⟩)
  rw [same, id]

end Within

/-! ## All schemas of a value -/

private theorem mem_parts_of_mem_schemasAt {key : String} {v schema : Json}
    (member : schema ∈ schemasAt key v) : schema ∈ v.parts := by
  rw [schemasAt_eq_place] at member
  split at member
  · cases List.mem_singleton.mp member
    exact v.self_mem_parts
  · split at member
    · obtain ⟨entry, listed, rfl⟩ := List.mem_map.mp member
      exact Json.parts_entry listed entry.2.self_mem_parts
    · cases member
  · split at member
    · exact Json.parts_item member schema.self_mem_parts
    · cases member
  · cases member

theorem inductionOnSchemas {holds : Json → Prop}
    (flat : ∀ v, (∀ entries, v ≠ .obj entries) → holds v)
    (object : ∀ entries, (∀ schema ∈ innerSchemas entries, holds schema) → holds (.obj entries))
    (v : Json) : holds v := by
  -- A schema may stand two levels down, so the induction is over all parts of a value.
  suffices all : ∀ part ∈ v.parts, holds part from all v v.self_mem_parts
  induction v using Json.inductionOn with
  | arr items ih =>
      rw [Json.parts_arr, List.forall_mem_cons]
      refine ⟨flat _ (by simp), fun part member => ?_⟩
      obtain ⟨item, inside, here⟩ := List.mem_flatMap.mp member
      exact ih item inside part here
  | obj entries ih =>
      rw [Json.parts_obj, List.forall_mem_cons]
      refine ⟨object entries fun schema member => ?_, fun part member => ?_⟩
      · obtain ⟨entry, inside, here⟩ := List.mem_flatMap.mp member
        exact ih entry inside schema (mem_parts_of_mem_schemasAt here)
      · obtain ⟨entry, inside, here⟩ := List.mem_flatMap.mp member
        exact ih entry inside part here
  | _ => simpa [Json.parts] using flat _ (by simp)

theorem everywhere_eq_self {change : Keyed String Json → Keyed String Json} {v : Json}
    (fixed : AllSchemas (fun entries => change entries = entries) v) : everywhere change v = v := by
  induction v using inductionOnSchemas with
  | flat v other =>
      cases v with
      | obj entries => exact absurd rfl (other entries)
      | _ => rfl
  | object entries ih =>
      obtain ⟨here, inner⟩ := allSchemas_obj_iff.mp fixed
      have same : withinEntries change entries = entries :=
        withinEntries_eq_self fun schema member => ih schema member (inner schema member)
      rw [everywhere, same, here]

/-- What a change makes true of a schema object, and keeps true of the schemas that stand in it, is
true of all schemas of a changed value. -/
theorem allSchemas_everywhere (before : Keyed String Json → Prop) {after : Keyed String Json → Prop}
    {change : Keyed String Json → Keyed String Json}
    (here : ∀ entries, before entries → after (change (withinEntries change entries)))
    (inner : ∀ entries, (∀ schema ∈ innerSchemas entries, AllSchemas after schema) →
      ∀ schema ∈ innerSchemas (change entries), AllSchemas after schema)
    {v : Json} (all : AllSchemas before v) : AllSchemas after (everywhere change v) := by
  induction v using inductionOnSchemas with
  | flat v other =>
      have same : everywhere change v = v := by
        cases v with
        | obj entries => exact absurd rfl (other entries)
        | _ => rfl
      intro entries inside
      rw [same] at inside
      cases inside with
      | self => exact absurd rfl (other entries)
      | inner => exact absurd rfl (other _)
  | object entries ih =>
      obtain ⟨first, later⟩ := allSchemas_obj_iff.mp all
      rw [everywhere, allSchemas_obj_iff]
      refine ⟨here entries first, inner _ ?_⟩
      rw [innerSchemas_withinEntries, List.forall_mem_map]
      exact fun schema member => ih schema member (later schema member)

end SchemaWeaver.Schema
