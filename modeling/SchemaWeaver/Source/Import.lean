import SchemaWeaver.Source.Tree
import SchemaWeaver.Text

/-!
Reading an import: the word `import`, a path, an optional `as` with a name, and a semicolon. The
path is a module, or an organisation and a module with a slash between them. The imports of a
document decide how the module `ballerina/ai`, which declares the mark for schemas, is visible in
it.
-/

set_option autoImplicit false
set_option relaxedAutoImplicit false

namespace SchemaWeaver.Source

open Text (trim words splitAt cutAt afterOpening beforeFinal isBlank)

def modulePath (module : List Char) : List String :=
  (splitAt (· = '.') module).map String.ofList

def Import.ofModule (org module : String) : Import :=
  ⟨some org, modulePath module.toList, none⟩

/-- What stands between the word `import` and the semicolon. It starts with a blank. -/
def importBody? (text : List Char) : Option (List Char) :=
  match afterOpening "import".toList (trim text) with
  | none => none
  | some rest =>
      match beforeFinal ';' rest with
      | none => none
      | some body => if body.head?.any isBlank then some body else none

def importOf? (path : List Char) (asName : Option (List Char)) : Option Import :=
  let (org, module) := match cutAt '/' path with
    | some (org, module) => (some (String.ofList org), module)
    | none => (none, path)
  let components := modulePath module
  if org = some "" || components.any String.isEmpty then none
  else some ⟨org, components, asName.map String.ofList⟩

def Import.read? (text : List Char) : Option Import :=
  match importBody? text with
  | none => none
  | some body =>
      match words body with
      | [path] => importOf? path none
      | [path, connective, name] =>
          if connective = "as".toList then importOf? path (some name) else none
      | _ => none

/-! ## The module of the mark -/

/-- The visibility of the module: under a name, imported without a name, or not imported. -/
inductive AiImport where
  | imported (name : String)
  | suppressed
  | absent
  deriving DecidableEq, Repr

namespace AiImport

def org : String := "ballerina"

def module : String := "ai"

def declaration : Import := ⟨some org, [module], none⟩

/-- The import can be read from its text, so that it can be added to any document. -/
theorem read?_declaration :
    Import.read? ("import " ++ org ++ "/" ++ module ++ ";").toList = some declaration := by
  decide

def isDeclaredBy (i : Import) : Bool :=
  i.org = some org && i.path = [module]

/-- The visibility that imports give to the module. The first import of it decides. -/
def ofImports (imports : List Import) : AiImport :=
  match imports.find? isDeclaredBy with
  | none => .absent
  | some i =>
      match i.asName with
      | none => .imported module
      | some name => if name = "_" then .suppressed else .imported name

/-- The name that marks of the module are written with. A module that is not imported yet is going
to be imported under its own name. -/
def qualifier? : AiImport → Option String
  | .imported name => some name
  | .suppressed => none
  | .absent => some module

end AiImport

/-- Import the module into a document that requires it and does not import it. -/
def Tree.ensureAiImport (tree : Tree) (required : Bool) : Tree :=
  if required && AiImport.ofImports tree.imports = .absent then
    { tree with imports := tree.imports ++ [AiImport.declaration] }
  else tree

end SchemaWeaver.Source
