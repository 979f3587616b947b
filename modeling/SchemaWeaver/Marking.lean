import SchemaWeaver.Event
import SchemaWeaver.Gather
import SchemaWeaver.Source.Text

/-!
Marking type definitions with their schemas. A definition whose name is in the catalog and that
bears no such mark yet gets one, after its other marks.
-/

set_option autoImplicit false
set_option relaxedAutoImplicit false

namespace SchemaWeaver

open Source (Expr LiteralFault Mark Member Metadata Tree TypeDef)

def schemaMarkName : String := "JsonSchema"

def schemaMark (qualifier : String) (schema : Expr) : Mark :=
  ⟨.qualified qualifier schemaMarkName, some schema⟩

inductive Verdict where
  | keep
  | keepInvalid (cause : LiteralFault)
  | mark (schema : Expr)

/-- A catalog of schemas and the name that marks are written with. -/
structure Marker where
  catalog : Catalog
  qualifier : String

namespace Marker

def isMarked (m : Marker) (d : TypeDef) : Bool :=
  d.marks.any fun mark => mark.isNamed m.qualifier schemaMarkName

def verdict (m : Marker) (d : TypeDef) : Verdict :=
  match Keyed.get? m.catalog d.name with
  | none => .keep
  | some text =>
      if m.isMarked d then .keep
      else
        match Source.readMapping text.toList with
        | .ok schema => .mark schema
        | .error cause => .keepInvalid cause

def append (mark : Mark) (d : TypeDef) : TypeDef :=
  let metadata := d.metadata.getD ⟨[], []⟩
  { d with metadata := some { metadata with marks := metadata.marks ++ [mark] } }

def markTypeDef (m : Marker) (d : TypeDef) : TypeDef :=
  match m.verdict d with
  | .mark schema => append (schemaMark m.qualifier schema) d
  | _ => d

def markMember (m : Marker) : Member → Member
  | .typeDef d => .typeDef (m.markTypeDef d)
  | member => member

def markTree (m : Marker) (tree : Tree) : Tree :=
  { tree with members := tree.members.map m.markMember }

def isMarking (m : Marker) (d : TypeDef) : Bool :=
  match m.verdict d with
  | .mark _ => true
  | _ => false

def insertions (m : Marker) (tree : Tree) : Nat :=
  tree.typeDefs.countP m.isMarking

def event? (m : Marker) (d : TypeDef) : Option Event :=
  match m.verdict d with
  | .keep => none
  | .keepInvalid cause => some (.literalInvalid d.name (.invalidLiteral cause))
  | .mark _ => some (.markAdded d.name)

def events (m : Marker) (tree : Tree) : List Event :=
  tree.typeDefs.filterMap m.event?

end Marker

end SchemaWeaver
