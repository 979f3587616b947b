import SchemaWeaver.Json.Basic

/-!
What a schema says about a value. The keywords `type`, `items`, `properties` and `oneOf` are read;
whatever else stands in a schema does not constrain a value. Of the branches of `oneOf` a value has
to meet one: in one reading it may meet others too, in the other it must not.
-/

set_option autoImplicit false
set_option relaxedAutoImplicit false

namespace SchemaWeaver

namespace Json

def Number.isIntegral : Number → Bool
  | .int _ => true
  | .float value =>
      let (numerator, denominator) :=
        Numeric.Magnitude.quotient value.magnitude.significand value.magnitude.exponent
      numerator % denominator = 0

def typeNames : Json → List String
  | .null => ["null"]
  | .bool _ => ["boolean"]
  | .num value => if value.isIntegral then ["integer", "number"] else ["number"]
  | .str _ => ["string"]
  | .arr _ => ["array"]
  | .obj _ => ["object"]

def isNull : Json → Bool
  | .null => true
  | _ => false

theorem mem_typeNames_num {name : String} {value : Number} :
    name ∈ (num value).typeNames ↔
      name = "number" ∨ name = "integer" ∧ value.isIntegral = true := by
  cases integral : value.isIntegral with
  | true => simp [typeNames, integral, or_comm]
  | false => simp [typeNames, integral]

theorem null_mem_typeNames (v : Json) : decide ("null" ∈ v.typeNames) = v.isNull := by
  cases v with
  | num value => simp [mem_typeNames_num, isNull]
  | _ => simp [typeNames, isNull]

def isArrayOf (element : Json → Bool) : Json → Bool
  | .arr items => items.all element
  | _ => false

def isObjectWith (fields : Keyed String Json → Bool) : Json → Bool
  | .obj entries => fields entries
  | _ => false

def elements : Json → List Json
  | .arr items => items
  | _ => []

def field? : Json → String → Option Json
  | .obj entries, name => Keyed.get? entries name
  | _, _ => none

theorem array_mem_typeNames (v : Json) (element : Json → Bool) :
    (decide ("array" ∈ v.typeNames) && v.elements.all element) = v.isArrayOf element := by
  cases v with
  | num value => simp [mem_typeNames_num, isArrayOf]
  | _ => simp [typeNames, elements, isArrayOf]

theorem object_mem_typeNames (v : Json) (fields : (String → Option Json) → Bool) :
    (decide ("object" ∈ v.typeNames) && fields v.field?) =
      v.isObjectWith fun entries => fields (Keyed.get? entries) := by
  cases v with
  | num value => simp [mem_typeNames_num, isObjectWith]
  | obj entries =>
      have read : (obj entries).field? = Keyed.get? entries := rfl
      simp [typeNames, isObjectWith, read]
  | _ => simp [typeNames, isObjectWith]

end Json

namespace Schema

/-- How many of several alternatives have to hold. -/
inductive Reading where
  | any
  | one

def Reading.chooses : Reading → List Bool → Bool
  | .any, alternatives => alternatives.any id
  | .one, alternatives => alternatives.count true = 1

@[simp]
theorem Reading.chooses_singleton (reading : Reading) (b : Bool) : reading.chooses [b] = b := by
  cases reading <;> cases b <;> rfl

inductive Keyword where
  | type
  | items
  | properties
  | oneOf

def Keyword.ofKey? (key : String) : Option Keyword :=
  if key = "type" then some .type
  else if key = "items" then some .items
  else if key = "properties" then some .properties
  else if key = "oneOf" then some .oneOf
  else none

def hasTypeName (v : Json) : Json → Bool
  | .str name => name ∈ v.typeNames
  | _ => false

def hasType (v : Json) : Json → Bool
  | .arr names => names.any (hasTypeName v)
  | name => hasTypeName v name

mutual

/-- Whether a value meets a schema. -/
def meets (reading : Reading) : Json → Json → Bool
  | .obj entries, v => meetsAll reading entries v
  | _, _ => true
termination_by structural schema => schema

def meetsAll (reading : Reading) : List (String × Json) → Json → Bool
  | [], _ => true
  | (key, argument) :: others, v =>
      (match Keyword.ofKey? key with
        | some .type => hasType v argument
        | some .items => v.elements.all fun item => meets reading argument item
        | some .properties => meetsProperties reading argument v
        | some .oneOf => meetsOneOf reading argument v
        | none => true) && meetsAll reading others v
termination_by structural entries => entries

def meetsProperties (reading : Reading) : Json → Json → Bool
  | .obj properties, v => meetsFields reading properties v
  | _, _ => true
termination_by structural schemas => schemas

def meetsOneOf (reading : Reading) : Json → Json → Bool
  | .arr branches, v => reading.chooses (meetsEach reading branches v)
  | _, _ => true
termination_by structural schemas => schemas

/-- Whether each field that is there meets the schema under its name. -/
def meetsFields (reading : Reading) : List (String × Json) → Json → Bool
  | [], _ => true
  | (name, schema) :: others, v =>
      ((v.field? name).all fun field => meets reading schema field) && meetsFields reading others v
termination_by structural properties => properties

def meetsEach (reading : Reading) : List Json → Json → List Bool
  | [], _ => []
  | schema :: others, v => meets reading schema v :: meetsEach reading others v
termination_by structural schemas => schemas

end

/-- Whether a schema accepts a value, if a value may meet several branches of `oneOf`. -/
def accepts (schema v : Json) : Bool := meets .any schema v

/-- Whether a value is valid against a schema: it meets exactly one branch of each `oneOf`. -/
def validates (schema v : Json) : Bool := meets .one schema v

def branches : Json → List Json
  | .obj entries =>
      match Keyed.get? entries "oneOf" with
      | some (.arr branches) => branches
      | _ => []
  | _ => []

variable (reading : Reading)

theorem meetsEach_eq_map (schemas : List Json) (v : Json) :
    meetsEach reading schemas v = schemas.map fun schema => meets reading schema v := by
  induction schemas with
  | nil => rfl
  | cons schema schemas ih => rw [meetsEach, ih, List.map_cons]

theorem meets_oneOf (branches : List Json) (v : Json) :
    meets reading (.obj [("oneOf", .arr branches)]) v =
      reading.chooses (branches.map fun branch => meets reading branch v) := by
  have read : meets reading (.obj [("oneOf", .arr branches)]) v =
      (reading.chooses (meetsEach reading branches v) && true) := rfl
  rw [read, Bool.and_true, meetsEach_eq_map]

theorem meets_type (type v : Json) (others : List (String × Json)) :
    meets reading (.obj (("type", type) :: others)) v =
      (hasType v type && meetsAll reading others v) :=
  rfl

end Schema

end SchemaWeaver
