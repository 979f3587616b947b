import SchemaWeaver.Json.Printer
import SchemaWeaver.Json.Reader
import SchemaWeaver.Source.Tree
import SchemaWeaver.Text

/-!
The text of source trees, and mapping literals from JSON text. Mappings and lists are written
without blanks, so that a schema on one line stays as it is when it becomes a literal. Every JSON
value is also an expression; a literal for a mapping has to be an object.
-/

set_option autoImplicit false
set_option relaxedAutoImplicit false

namespace SchemaWeaver.Source

open Text (join isControl)

def Import.moduleText (i : Import) : List Char :=
  join ['.'] (i.path.map String.toList)

def Import.text (i : Import) : List Char :=
  let org := match i.org with
    | none => []
    | some org => org.toList ++ ['/']
  let asName := match i.asName with
    | none => []
    | some name => " as ".toList ++ name.toList
  "import ".toList ++ org ++ i.moduleText ++ asName ++ [';']

def Name.text : Name → List Char
  | .simple name => name.toList
  | .qualified module name => module.toList ++ ':' :: name.toList

def upperHexDigit (n : Nat) : Char := (Nat.digitChar n).toUpper

/-- A character inside a string literal. Control characters without an escape of their own are
written by number; no control character is above U+009F. -/
def escaped (c : Char) : List Char :=
  if c = '"' then ['\\', '"']
  else if c = '\\' then ['\\', '\\']
  else if c = '\n' then ['\\', 'n']
  else if c = '\r' then ['\\', 'r']
  else if c = '\t' then ['\\', 't']
  else if isControl c then
    ['\\', 'u', '{', '0', '0', upperHexDigit (c.toNat / 16), upperHexDigit (c.toNat % 16), '}']
  else [c]

def quoted (s : String) : List Char :=
  '"' :: s.toList.flatMap escaped ++ ['"']

def Literal.text : Literal → List Char
  | .string s => quoted s
  | .number text => text.toList
  | .boolean true => "true".toList
  | .boolean false => "false".toList
  | .nil => "()".toList
  | .null => "null".toList

namespace Expr

mutual

def text : Expr → List Char
  | .name n => n.text
  | .literal l => l.text
  | .mapping fields => '{' :: join [','] (fieldTexts fields) ++ ['}']
  | .list items => '[' :: join [','] (itemTexts items) ++ [']']
  | .remote ⟨_, receiver, method, arguments⟩ =>
      text receiver ++ "->".toList ++ method.toList ++
        '(' :: join [',', ' '] (itemTexts arguments) ++ [')']
  | .call callee arguments => callee.text ++ '(' :: join [',', ' '] (itemTexts arguments) ++ [')']
  | .check inner => "check ".toList ++ text inner
  | .verbatim s => s.toList

def itemTexts : List Expr → List (List Char)
  | [] => []
  | e :: rest => text e :: itemTexts rest

def fieldTexts : List (String × Expr) → List (List Char)
  | [] => []
  | (key, e) :: rest => (quoted key ++ ':' :: text e) :: fieldTexts rest

end

theorem text_literal (l : Literal) : (Expr.literal l).text = l.text := rfl

theorem text_mapping (fields : List (String × Expr)) :
    (Expr.mapping fields).text = '{' :: join [','] (fieldTexts fields) ++ ['}'] := rfl

theorem text_list (items : List Expr) :
    (Expr.list items).text = '[' :: join [','] (itemTexts items) ++ [']'] := rfl

end Expr

def RemoteCall.text (call : RemoteCall Expr) : List Char := (Expr.remote call).text

def initText : Option Expr → List Char
  | none => [';']
  | some e => " = ".toList ++ e.text ++ [';']

def Mark.text (mark : Mark) : List Char :=
  '@' :: mark.name.text ++
    match mark.value with
    | none => []
    | some e => ' ' :: e.text

def documentationLine (line : String) : List Char :=
  if line.isEmpty then ['#'] else '#' :: ' ' :: line.toList

def Metadata.text (metadata : Metadata) : List Char :=
  (metadata.documentation.flatMap fun line => documentationLine line ++ ['\n']) ++
    metadata.marks.flatMap fun mark => mark.text ++ ['\n']

def openingText (metadata : Option Metadata) (isPublic : Bool) : List Char :=
  (match metadata with
    | none => []
    | some metadata => metadata.text) ++
    if isPublic then "public ".toList else []

def TypeDef.text (d : TypeDef) : List Char :=
  openingText d.metadata d.isPublic ++ "type ".toList ++ d.name.toList ++ ' ' ::
    d.descriptor.toList ++ [';']

def Statement.text : Statement → List Char
  | .declare type name init => type.toList ++ ' ' :: name.toList ++ initText init
  | .expr e => e.text ++ [';']
  | .giveBack none => "return;".toList
  | .giveBack (some e) => "return ".toList ++ e.text ++ [';']
  | .verbatim s => s.toList

def Parameter.text (p : Parameter) : List Char :=
  p.type.toList ++ ' ' :: p.name.toList

def FunctionDef.text (d : FunctionDef) : List Char :=
  let returnType := match d.returnType with
    | none => []
    | some type => " returns ".toList ++ type.toList
  openingText d.metadata d.isPublic ++ "function ".toList ++ d.name.toList ++
    '(' :: join [',', ' '] (d.parameters.map Parameter.text) ++ [')'] ++ returnType ++
    [' ', '{', '\n'] ++ (d.body.flatMap fun s => "    ".toList ++ s.text ++ ['\n']) ++ ['}']

def VariableDef.text (d : VariableDef) : List Char :=
  openingText d.metadata d.isPublic ++ (if d.isFinal then "final ".toList else []) ++
    d.type.toList ++ ' ' :: d.name.toList ++ initText d.init

def Member.text : Member → List Char
  | .typeDef d => d.text
  | .functionDef d => d.text
  | .variableDef d => d.text
  | .verbatim s => s.toList

/-- The texts of members, with an empty line before each one that is not the first of the document.
-/
def memberLines (first : Bool) : List Member → List Char
  | [] => []
  | m :: rest => (if first then [] else ['\n']) ++ m.text ++ '\n' :: memberLines false rest

def Tree.text (tree : Tree) : List Char :=
  (tree.imports.flatMap fun i => i.text ++ ['\n']) ++
    memberLines tree.imports.isEmpty tree.members

/-! ## Mapping literals -/

mutual

def Expr.ofJson : Json → Expr
  | .null => .literal .null
  | .bool b => .literal (.boolean b)
  | .num n => .literal (.number (String.ofList n.text))
  | .str s => .literal (.string s)
  | .arr items => .list (itemsOfJson items)
  | .obj entries => .mapping (fieldsOfJson entries)

def itemsOfJson : List Json → List Expr
  | [] => []
  | v :: rest => Expr.ofJson v :: itemsOfJson rest

def fieldsOfJson : List (String × Json) → List (String × Expr)
  | [] => []
  | (key, v) :: rest => (key, Expr.ofJson v) :: fieldsOfJson rest

end

inductive LiteralFault where
  | unreadable (text : List Char) (failure : Json.Failure)
  | notMapping (value : Json)

def LiteralFault.message : LiteralFault → String
  | .unreadable text failure => failure.message text
  | .notMapping value => "expected a mapping, found `" ++ String.ofList value.compact ++ "`"

def literalRoom : Nat := 127

def readMapping (text : List Char) : Except LiteralFault Expr :=
  match Json.read literalRoom text with
  | .error failure => .error (.unreadable text failure)
  | .ok (.obj entries) => .ok (Expr.ofJson (.obj entries))
  | .ok value => .error (.notMapping value)

end SchemaWeaver.Source
