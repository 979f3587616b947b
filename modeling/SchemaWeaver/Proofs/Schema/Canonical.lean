import SchemaWeaver.Proofs.Keyed
import SchemaWeaver.Schema.Canonical
import SchemaWeaver.Schema.Raw

/-!
The canonical forms of raw schemas, each with and without the flag that lets it also admit nil. The
flag ends up in the type of a schema, as a further branch, or nowhere if null is admitted already.
-/

set_option autoImplicit false
set_option relaxedAutoImplicit false

namespace SchemaWeaver.Schema

theorem everyItem_eq_map (change : Keyed String Json → Keyed String Json) (items : List Json) :
    everyItem change items = items.map (everywhere change) := by
  induction items with
  | nil => rfl
  | cons item items ih => rw [everyItem, ih, List.map_cons]

theorem everyValue_eq_map (change : Keyed String Json → Keyed String Json)
    (entries : List (String × Json)) :
    everyValue change entries = entries.map fun entry => (entry.1, everywhere change entry.2) := by
  induction entries with
  | nil => rfl
  | cons entry entries ih => rw [everyValue, ih, List.map_cons]

theorem isStripped_eq_false :
    ∀ key ∈ ["type", "format", "items", "properties", "oneOf", "nullable"],
      isStripped key = false := by
  decide

theorem isStripped_eq_true :
    ∀ key ∈ ["minItems", "maxItems", "additionalProperties"], isStripped key = true := by
  decide

def flag (nullable : Bool) (schema : Json) : Json :=
  if nullable then orNil schema else schema

theorem flag_flag (first second : Bool) (schema : Json) :
    flag second (flag first schema) = flag (second || first) schema := by
  cases first with
  | false => simp [flag]
  | true =>
      cases second with
      | false => simp [flag]
      | true =>
          cases schema with
          | obj entries =>
              have found := Keyed.get?_insert_self entries "nullable" (Json.bool true)
              simp only [flag, orNil, if_true, Bool.or_self, Keyed.insert_of_get?_eq_some found]
          | _ => rfl

theorem isUnconstrained_flag {schema : Json} (proper : isUnconstrained schema = false)
    (nullable : Bool) : isUnconstrained (flag nullable schema) = false := by
  cases nullable with
  | false => exact proper
  | true =>
      cases schema with
      | obj entries =>
          cases entries with
          | nil => cases proper
          | cons entry entries =>
              simp only [flag, if_true, orNil, Keyed.insert]
              split <;> rfl
      | _ => rfl

def typeOrNull (nullable : Bool) (name : String) : Json :=
  if nullable then .arr [.str name, .str "null"] else .str name

section Forms

attribute [local simp] canonical reduce spellNull everywhere withinEntries withinProperties
  withinBranches everyItem_eq_map everyValue_eq_map Place.ofKey compositeKeywords reduceEntries
  dropTypeOfComposite byteAsNumber dropReference isStringAt isStripped_eq_false isStripped_eq_true
  spellNullEntries admitNull admitNullBranch flag orNil typeOrNull Keyed.get? Keyed.has
  Keyed.insert Keyed.erase

variable (nullable : Bool)

theorem canonical_unconstrained : canonical unconstrained = .obj [] := by
  simp [unconstrained]

theorem canonical_flag_nil : canonical (flag nullable nil) = nullSchema := by
  cases nullable <;> simp [nil, nullSchema]

theorem canonical_flag_reference (name : String) :
    canonical (flag nullable (reference name)) = .obj [] := by
  cases nullable <;> simp [reference]

theorem canonical_flag_typed (name : String) :
    canonical (flag nullable (typed name)) = .obj [("type", typeOrNull nullable name)] := by
  cases nullable <;> simp [typed]

theorem canonical_flag_formatted (name : String) {format : String} (other : format ≠ "byte") :
    canonical (flag nullable (formatted name format)) =
      .obj [("type", typeOrNull nullable name), ("format", .str format)] := by
  cases nullable <;> simp [formatted, other]

theorem canonical_flag_byte :
    canonical (flag nullable (formatted "string" "byte")) =
      .obj [("type", typeOrNull nullable "number")] := by
  cases nullable <;> simp [formatted]

theorem canonical_flag_ofArray (items : Json) :
    canonical (flag nullable (ofArray items)) =
      .obj [("type", typeOrNull nullable "array"), ("items", canonical items)] := by
  cases nullable <;> simp [ofArray]

theorem canonical_flag_oneOf (branches : List Json) :
    canonical (flag nullable (.obj [("oneOf", .arr branches)])) =
      .obj [("oneOf", .arr (branches.map canonical ++ if nullable then [nullSchema] else []))] := by
  cases nullable <;> simp [nullSchema, Function.comp_def]

theorem canonical_flag_ofTuple (members : List Json) :
    canonical (flag nullable (ofTuple members)) =
      .obj (("type", typeOrNull nullable "array") ::
        match members with
        | [] => []
        | [member] => [("items", canonical member)]
        | members => [("items", .obj [("oneOf", .arr (members.map canonical))])]) := by
  match members with
  | [] => cases nullable <;> simp [ofTuple]
  | [member] => cases nullable <;> simp [ofTuple]
  | _ :: _ :: _ => cases nullable <;> simp [ofTuple, Function.comp_def]

theorem canonical_flag_ofRecord (fields : Keyed String Json) (rest : Option Json) :
    canonical (flag nullable (ofRecord fields rest)) =
      .obj (("type", typeOrNull nullable "object") ::
        if fields.isEmpty then []
        else [("properties", .obj (fields.map fun field => (field.1, canonical field.2)))]) := by
  cases none : fields.isEmpty with
  | true => cases rest <;> cases nullable <;> simp [ofRecord, none]
  | false => cases rest <;> cases nullable <;> simp [ofRecord, none, Function.comp_def]

end Forms

end SchemaWeaver.Schema
