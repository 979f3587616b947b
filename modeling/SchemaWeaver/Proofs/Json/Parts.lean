import SchemaWeaver.Json.Printer
import Mathlib.Data.List.Basic

/-!
The parts of a JSON value: the value itself and, in order, the parts of its elements or entries.
What is said of all values is proved by going from the elements and entries of a container to the
container.
-/

set_option autoImplicit false
set_option relaxedAutoImplicit false

namespace SchemaWeaver.Json

open Text (join)

@[elab_as_elim]
theorem inductionOn {motive : Json → Prop} (v : Json) (null : motive .null)
    (bool : ∀ b, motive (.bool b)) (num : ∀ n, motive (.num n)) (str : ∀ s, motive (.str s))
    (arr : ∀ items, (∀ v ∈ items, motive v) → motive (.arr items))
    (obj : ∀ entries, (∀ entry ∈ entries, motive entry.2) → motive (.obj entries)) : motive v :=
  match v with
  | .null => null
  | .bool b => bool b
  | .num n => num n
  | .str s => str s
  | .arr items => arr items fun v _ => inductionOn v null bool num str arr obj
  | .obj entries => obj entries fun entry _ => inductionOn entry.2 null bool num str arr obj
termination_by sizeOf v
decreasing_by
  · have smaller := List.sizeOf_lt_of_mem ‹v ∈ items›
    simp only [Json.arr.sizeOf_spec]
    omega
  · have smaller := List.sizeOf_lt_of_mem ‹entry ∈ entries›
    obtain ⟨key, v⟩ := entry
    simp only [Prod.mk.sizeOf_spec, Json.obj.sizeOf_spec] at smaller ⊢
    omega

mutual

/-- A value and the values inside it. -/
def parts : Json → List Json
  | .arr items => .arr items :: partsOfItems items
  | .obj entries => .obj entries :: partsOfEntries entries
  | v => [v]

def partsOfItems : List Json → List Json
  | [] => []
  | v :: rest => parts v ++ partsOfItems rest

def partsOfEntries : List (String × Json) → List Json
  | [] => []
  | (_, v) :: rest => parts v ++ partsOfEntries rest

end

mutual

/-- How many containers of a value are open at once, at most. -/
def nesting : Json → Nat
  | .arr items => nestingOfItems items + 1
  | .obj entries => nestingOfEntries entries + 1
  | _ => 0

def nestingOfItems : List Json → Nat
  | [] => 0
  | v :: rest => max (nesting v) (nestingOfItems rest)

def nestingOfEntries : List (String × Json) → Nat
  | [] => 0
  | (_, v) :: rest => max (nesting v) (nestingOfEntries rest)

end

mutual

def mapTexts (change : String → String) : Json → Json
  | .str s => .str (change s)
  | .arr items => .arr (mapItemTexts change items)
  | .obj entries => .obj (mapEntryTexts change entries)
  | v => v

def mapItemTexts (change : String → String) : List Json → List Json
  | [] => []
  | v :: rest => mapTexts change v :: mapItemTexts change rest

def mapEntryTexts (change : String → String) : List (String × Json) → List (String × Json)
  | [] => []
  | (key, v) :: rest => (change key, mapTexts change v) :: mapEntryTexts change rest

end

/-- The string that a value is, or the keys that it has. -/
def ownTexts : Json → List String
  | .str s => [s]
  | .obj entries => Keyed.keys entries
  | _ => []

def texts (v : Json) : List String := v.parts.flatMap ownTexts

theorem partsOfItems_eq (items : List Json) : partsOfItems items = items.flatMap parts := by
  induction items with
  | nil => rfl
  | cons v rest ih => rw [partsOfItems, ih, List.flatMap_cons]

theorem partsOfEntries_eq (entries : List (String × Json)) :
    partsOfEntries entries = entries.flatMap fun entry => entry.2.parts := by
  induction entries with
  | nil => rfl
  | cons entry rest ih => rw [partsOfEntries, ih, List.flatMap_cons]

theorem parts_arr (items : List Json) :
    (Json.arr items).parts = .arr items :: items.flatMap parts := by
  rw [parts, partsOfItems_eq]

theorem parts_obj (entries : List (String × Json)) :
    (Json.obj entries).parts = .obj entries :: entries.flatMap fun entry => entry.2.parts := by
  rw [parts, partsOfEntries_eq]

theorem self_mem_parts (v : Json) : v ∈ v.parts := by
  cases v <;> simp [parts]

theorem parts_item {v : Json} {items : List Json} (member : v ∈ items) :
    v.parts ⊆ (Json.arr items).parts := by
  intro part inside
  rw [parts_arr]
  exact List.mem_cons_of_mem _ (List.mem_flatMap.mpr ⟨v, member, inside⟩)

theorem parts_entry {entry : String × Json} {entries : List (String × Json)}
    (member : entry ∈ entries) : entry.2.parts ⊆ (Json.obj entries).parts := by
  intro part inside
  rw [parts_obj]
  exact List.mem_cons_of_mem _ (List.mem_flatMap.mpr ⟨entry, member, inside⟩)

theorem nesting_arr_le_iff {items : List Json} {room : Nat} :
    (Json.arr items).nesting ≤ room + 1 ↔ ∀ v ∈ items, v.nesting ≤ room := by
  rw [nesting, Nat.add_le_add_iff_right]
  induction items with
  | nil => simp [nestingOfItems]
  | cons v rest ih => rw [nestingOfItems, Nat.max_le, ih, List.forall_mem_cons]

theorem nesting_obj_le_iff {entries : List (String × Json)} {room : Nat} :
    (Json.obj entries).nesting ≤ room + 1 ↔ ∀ entry ∈ entries, entry.2.nesting ≤ room := by
  rw [nesting, Nat.add_le_add_iff_right]
  induction entries with
  | nil => simp [nestingOfEntries]
  | cons entry rest ih => rw [nestingOfEntries, Nat.max_le, ih, List.forall_mem_cons]

theorem texts_arr (items : List Json) : (Json.arr items).texts = items.flatMap texts := by
  rw [texts, parts_arr, List.flatMap_cons, List.flatMap_assoc]
  rfl

theorem texts_obj (entries : List (String × Json)) :
    (Json.obj entries).texts =
      Keyed.keys entries ++ entries.flatMap fun entry => entry.2.texts := by
  rw [texts, parts_obj, List.flatMap_cons, List.flatMap_assoc]
  rfl

theorem mapItemTexts_eq (change : String → String) (items : List Json) :
    mapItemTexts change items = items.map (mapTexts change) := by
  induction items with
  | nil => rfl
  | cons v rest ih => rw [mapItemTexts, ih, List.map_cons]

theorem mapEntryTexts_eq (change : String → String) (entries : List (String × Json)) :
    mapEntryTexts change entries =
      entries.map fun entry => (change entry.1, entry.2.mapTexts change) := by
  induction entries with
  | nil => rfl
  | cons entry rest ih => rw [mapEntryTexts, ih, List.map_cons]

theorem parts_mapTexts (change : String → String) (v : Json) :
    (v.mapTexts change).parts = v.parts.map (mapTexts change) := by
  induction v using inductionOn with
  | arr items ih =>
      rw [mapTexts, mapItemTexts_eq, parts_arr, parts_arr, List.map_cons, List.flatMap_map,
        List.map_flatMap, List.flatMap_congr ih, mapTexts, mapItemTexts_eq]
  | obj entries ih =>
      rw [mapTexts, mapEntryTexts_eq, parts_obj, parts_obj, List.map_cons, List.flatMap_map,
        List.map_flatMap, List.flatMap_congr ih, mapTexts, mapEntryTexts_eq]
  | _ => rfl

theorem nesting_mapTexts (change : String → String) (v : Json) :
    (v.mapTexts change).nesting = v.nesting := by
  induction v using inductionOn with
  | arr items ih =>
      rw [mapTexts, nesting, nesting, mapItemTexts_eq]
      congr 1
      induction items with
      | nil => rfl
      | cons v rest later =>
          rw [List.forall_mem_cons] at ih
          rw [List.map_cons, nestingOfItems, nestingOfItems, ih.1, later ih.2]
  | obj entries ih =>
      rw [mapTexts, nesting, nesting, mapEntryTexts_eq]
      congr 1
      induction entries with
      | nil => rfl
      | cons entry rest later =>
          rw [List.forall_mem_cons] at ih
          rw [List.map_cons, nestingOfEntries, nestingOfEntries, ih.1, later ih.2]
  | _ => rfl

theorem compactItems_eq (items : List Json) : compactItems items = items.map compact := by
  induction items with
  | nil => rfl
  | cons v rest ih => rw [compactItems, ih, List.map_cons]

def compactEntry (entry : String × Json) : List Char :=
  quoted entry.1 ++ ':' :: entry.2.compact

theorem compactEntries_eq (entries : List (String × Json)) :
    compactEntries entries = entries.map compactEntry := by
  induction entries with
  | nil => rfl
  | cons entry rest ih => rw [compactEntries, ih, List.map_cons, compactEntry]

end SchemaWeaver.Json
