import SchemaWeaver.Descriptor.Definitions
import SchemaWeaver.Json.Basic

/-!
The raw schema of a named type, in the dialect of component schemas: `nullable` flags, a `byte`
format, bounds on the lengths of tuples. Names are replaced by the schemas of their definitions; a
name met again inside its own definition becomes a reference.
-/

set_option autoImplicit false
set_option relaxedAutoImplicit false

namespace SchemaWeaver.Schema

inductive Fault where
  | unknownType (name : String)
  | unsupported (what : String)
  | other (text : String)
  deriving DecidableEq, Repr

def Fault.message : Fault → String
  | .unknownType name => "no definition found for '" ++ name ++ "'"
  | .unsupported what => "unsupported type: " ++ what
  | .other text => text

def reference (name : String) : Json :=
  .obj [("$ref", .str ("#/components/schemas/" ++ name))]

def unconstrained : Json := .obj []

def nil : Json := .obj [("nullable", .bool true)]

def typed (name : String) : Json := .obj [("type", .str name)]

def formatted (name format : String) : Json :=
  .obj [("type", .str name), ("format", .str format)]

def ofScalar : Scalar → Except Fault Json
  | .nil => .ok nil
  | .boolean => .ok (typed "boolean")
  | .int => .ok (formatted "integer" "int64")
  | .byte => .ok (formatted "string" "byte")
  | .float => .ok (formatted "number" "float")
  | .decimal => .ok (formatted "number" "double")
  | .string => .ok (typed "string")
  | .json => .ok unconstrained
  | .anydata => .ok unconstrained
  | .any => .error (.unsupported Scalar.any.name)
  | .handle => .error (.unsupported Scalar.handle.name)

def ofArray (items : Json) : Json :=
  .obj [("type", .str "array"), ("items", items)]

/-- The schema of a tuple from the schemas of its members: each element satisfies one of them. -/
def ofTuple (members : List Json) : Json :=
  let items := match members with
    | [] => []
    | [member] => [("items", member)]
    | members => [("items", Json.obj [("oneOf", .arr members)])]
  let count := Json.ofInt members.length
  .obj ([("type", Json.str "array")] ++ items ++ [("minItems", count), ("maxItems", count)])

def ofRecord (fields : Keyed String Json) (rest : Option Json) : Json :=
  let properties := if fields.isEmpty then [] else [("properties", Json.obj fields)]
  let further := match rest with
    | none => []
    | some schema => [("additionalProperties", schema)]
  .obj ([("type", Json.str "object")] ++ properties ++ further)

def isUnconstrained : Json → Bool
  | .obj entries => entries.isEmpty
  | _ => false

def orNil : Json → Json
  | .obj entries => .obj (Keyed.insert entries "nullable" (.bool true))
  | schema => schema

/-- The schema of a union from the schemas of its members other than nil. -/
def ofUnion (nullable : Bool) (members : List Json) : Json :=
  if members.any isUnconstrained then unconstrained
  else
    match members with
    | [] => nil
    | [member] => if nullable then orNil member else member
    | members =>
        let schema := .obj [("oneOf", .arr members)]
        if nullable then orNil schema else schema

def isNil : Descriptor → Bool
  | .scalar .nil => true
  | _ => false

mutual

/-- The schema of a type, where only the definitions in `fresh` are opened. -/
def ofType (defs fresh : Definitions) (t : Descriptor) : Except Fault Json :=
  match t with
  | .scalar kind => ofScalar kind
  | .array element => (ofType defs fresh element).map ofArray
  | .tuple members => (ofMembers defs fresh (fun _ => true) members).map ofTuple
  | .record fields rest =>
      match ofFields defs fresh fields with
      | .error fault => .error fault
      | .ok properties =>
          match rest with
          | none => .ok (ofRecord properties none)
          | some type =>
              (ofType defs fresh type).map fun schema => ofRecord properties (some schema)
  | .union members =>
      (ofMembers defs fresh (fun member => !isNil member) members).map
        (ofUnion (members.any isNil))
  | .ref name =>
      match _found : fresh[name]? with
      | some target => ofType defs (fresh.erase name) target
      | none => if defs.contains name then .ok (reference name) else .error (.unknownType name)
  | .object type =>
      .error (.unsupported ("object type " ++ type.home.text ++ ":" ++ type.name))
  | .error => .error (.unsupported "error")
termination_by (fresh.size, sizeOf t)
decreasing_by
  · exact Prod.Lex.right _ (by simp +arith)
  · exact Prod.Lex.right _ (by simp +arith)
  · exact Prod.Lex.right _ (by simp +arith)
  · exact Prod.Lex.right _ (by simp +arith)
  · exact Prod.Lex.right _ (by simp +arith)
  · exact Prod.Lex.left _ _ (Definitions.size_erase_lt _found)

def ofMembers (defs fresh : Definitions) (keep : Descriptor → Bool) (members : List Descriptor) :
    Except Fault (List Json) :=
  match members with
  | [] => .ok []
  | member :: others =>
      if keep member then
        match ofType defs fresh member with
        | .error fault => .error fault
        | .ok schema => (ofMembers defs fresh keep others).map (schema :: ·)
      else ofMembers defs fresh keep others
termination_by (fresh.size, sizeOf members)
decreasing_by
  · exact Prod.Lex.right _ (by simp +arith)
  · exact Prod.Lex.right _ (by simp +arith)
  · exact Prod.Lex.right _ (by simp +arith)

def ofFields (defs fresh : Definitions) (fields : List (String × Field Descriptor)) :
    Except Fault (List (String × Json)) :=
  match fields with
  | [] => .ok []
  | (name, field) :: others =>
      match ofType defs fresh field.type with
      | .error fault => .error fault
      | .ok schema => (ofFields defs fresh others).map ((name, schema) :: ·)
termination_by (fresh.size, sizeOf fields)
decreasing_by
  · cases field
    exact Prod.Lex.right _ (by simp +arith)
  · exact Prod.Lex.right _ (by simp +arith)

end

def ofName (defs : Definitions) (name : String) : Except Fault Json :=
  ofType defs defs (.ref name)

end SchemaWeaver.Schema
