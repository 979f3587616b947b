import SchemaWeaver.Json.Basic
import SchemaWeaver.Json.Printer
import SchemaWeaver.Text

/-!
Canonical schemas: only the keywords that shape a value are kept, a byte string is a number, and a
nullable schema says so with the type `null`. The result is written on one line. Further schemas
stand under `items` and `not`, as the values of an object under `properties`, and as the elements of
a list under a composite keyword; what stands elsewhere is data, whatever its keys are called.
-/

set_option autoImplicit false
set_option relaxedAutoImplicit false

namespace SchemaWeaver.Schema

/-- What an entry of a schema holds: one schema, an object of schemas, a list of schemas, or data.
-/
inductive Place where
  | schema
  | properties
  | branches
  | data
  deriving DecidableEq, Repr

def compositeKeywords : List String := ["allOf", "anyOf", "oneOf"]

def Place.ofKey (key : String) : Place :=
  if key = "items" || key = "not" then .schema
  else if key = "properties" then .properties
  else if key ∈ compositeKeywords then .branches
  else .data

mutual

/-- Change the entries of every schema object of a value, from the innermost ones outwards. -/
def everywhere (change : Keyed String Json → Keyed String Json) : Json → Json
  | .obj entries => .obj (change (withinEntries change entries))
  | v => v

def withinEntries (change : Keyed String Json → Keyed String Json) :
    List (String × Json) → List (String × Json)
  | [] => []
  | (key, v) :: rest =>
      (key, match Place.ofKey key with
        | .schema => everywhere change v
        | .properties => withinProperties change v
        | .branches => withinBranches change v
        | .data => v) :: withinEntries change rest

def withinProperties (change : Keyed String Json → Keyed String Json) : Json → Json
  | .obj entries => .obj (everyValue change entries)
  | v => v

def withinBranches (change : Keyed String Json → Keyed String Json) : Json → Json
  | .arr items => .arr (everyItem change items)
  | v => v

def everyValue (change : Keyed String Json → Keyed String Json) :
    List (String × Json) → List (String × Json)
  | [] => []
  | (key, v) :: rest => (key, everywhere change v) :: everyValue change rest

def everyItem (change : Keyed String Json → Keyed String Json) : List Json → List Json
  | [] => []
  | v :: rest => everywhere change v :: everyItem change rest

end

def strippedKeywords : List String :=
  ["$id", "$schema", "$anchor", "$comment", "$ref",
    "title", "example", "examples", "deprecated", "externalDocs",
    "minimum", "maximum", "exclusiveMinimum", "exclusiveMaximum", "minLength", "maxLength",
    "minItems", "maxItems", "minProperties", "maxProperties", "pattern",
    "if", "then", "else", "dependentSchemas", "contains", "minContains", "maxContains",
    "prefixItems", "unevaluatedItems", "unevaluatedProperties", "propertyNames", "const",
    "additionalItems", "additionalProperties",
    "contentEncoding", "contentMediaType", "contentSchema", "readOnly", "writeOnly",
    "discriminator"]

def isExtension (key : String) : Bool :=
  match key.toList with
  | 'x' :: '-' :: _ => true
  | _ => false

def isStripped (key : String) : Bool :=
  key ∈ strippedKeywords || isExtension key

/-- A composite keyword already fixes the types of its branches. -/
def dropTypeOfComposite (entries : Keyed String Json) : Keyed String Json :=
  if compositeKeywords.any (Keyed.has entries) then Keyed.erase entries "type" else entries

def isStringAt (entries : Keyed String Json) (key text : String) : Bool :=
  match Keyed.get? entries key with
  | some (.str s) => s = text
  | _ => false

/-- A byte is a number. -/
def byteAsNumber (entries : Keyed String Json) : Keyed String Json :=
  if isStringAt entries "format" "byte" && isStringAt entries "type" "string" then
    Keyed.insert (Keyed.erase entries "format") "type" (.str "number")
  else entries

/-- Without its reference a schema admits everything, null included. -/
def dropReference (entries : Keyed String Json) : Keyed String Json :=
  if Keyed.has entries "$ref" then Keyed.erase (Keyed.erase entries "$ref") "nullable"
  else entries

def reduceEntries (entries : Keyed String Json) : Keyed String Json :=
  (dropReference (byteAsNumber (dropTypeOfComposite entries))).filter
    fun entry => !isStripped entry.1

def reduce : Json → Json := everywhere reduceEntries

def nullSchema : Json := .obj [("type", .str "null")]

def isNullName : Json → Bool
  | .str s => s = "null"
  | _ => false

/-- Let a schema without a type of its own also admit null. -/
def admitNullBranch (entries : Keyed String Json) : Keyed String Json :=
  match Keyed.get? entries "oneOf", Keyed.get? entries "anyOf", Keyed.get? entries "allOf" with
  | some (.arr branches), _, _ =>
      Keyed.insert entries "oneOf" (.arr (branches ++ [nullSchema]))
  | _, some (.arr branches), _ =>
      Keyed.insert entries "anyOf" (.arr (branches ++ [nullSchema]))
  | _, _, some all =>
      Keyed.insert (Keyed.erase entries "allOf") "anyOf"
        (.arr [.obj [("allOf", all)], nullSchema])
  | _, _, none =>
      if entries.isEmpty then Keyed.insert entries "type" (.str "null") else entries

def admitNull (entries : Keyed String Json) : Keyed String Json :=
  match Keyed.get? entries "type" with
  | some (.str name) => Keyed.insert entries "type" (.arr [.str name, .str "null"])
  | some (.arr names) =>
      if names.any isNullName then entries
      else Keyed.insert entries "type" (.arr (names ++ [.str "null"]))
  | _ => admitNullBranch entries

/-- Replace the flag `nullable` by what it means. -/
def spellNullEntries (entries : Keyed String Json) : Keyed String Json :=
  match Keyed.get? entries "nullable" with
  | some (.bool true) => admitNull (Keyed.erase entries "nullable")
  | _ => Keyed.erase entries "nullable"

def spellNull : Json → Json := everywhere spellNullEntries

def canonical (schema : Json) : Json := spellNull (reduce schema)

def canonicalText (schema : Json) : String :=
  String.ofList (Text.oneLine (canonical schema).pretty)

end SchemaWeaver.Schema
