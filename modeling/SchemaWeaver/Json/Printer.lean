import SchemaWeaver.Json.Basic
import SchemaWeaver.Numeric.Shortest
import SchemaWeaver.Text

/-!
JSON text in two layouts: `compact` without any blank between tokens, and `pretty` with one entry on
a line and two spaces of indentation.
-/

set_option autoImplicit false
set_option relaxedAutoImplicit false

namespace SchemaWeaver.Json

open Text (join decimal)

def hexDigit (n : Nat) : Char := Nat.digitChar n

/-- A character inside quotes. Quotes, backslashes and the characters below U+0020 are escaped. -/
def escaped (c : Char) : List Char :=
  if c = '"' then ['\\', '"']
  else if c = '\\' then ['\\', '\\']
  else if c = '\x08' then ['\\', 'b']
  else if c = '\x0c' then ['\\', 'f']
  else if c = '\n' then ['\\', 'n']
  else if c = '\r' then ['\\', 'r']
  else if c = '\t' then ['\\', 't']
  else if c.toNat < 0x20 then
    ['\\', 'u', '0', '0', hexDigit (c.toNat / 16), hexDigit (c.toNat % 16)]
  else [c]

def quoted (s : String) : List Char :=
  '"' :: s.toList.flatMap escaped ++ ['"']

def Number.text : Number → List Char
  | .int n => if n < 0 then '-' :: decimal n.natAbs else decimal n.natAbs
  | .float x => x.text

mutual

/-- The text of a value without blanks between tokens. -/
def compact : Json → List Char
  | .null => "null".toList
  | .bool true => "true".toList
  | .bool false => "false".toList
  | .num n => n.text
  | .str s => quoted s
  | .arr items => '[' :: join [','] (compactItems items) ++ [']']
  | .obj entries => '{' :: join [','] (compactEntries entries) ++ ['}']

def compactItems : List Json → List (List Char)
  | [] => []
  | v :: rest => compact v :: compactItems rest

def compactEntries : List (String × Json) → List (List Char)
  | [] => []
  | (key, v) :: rest => (quoted key ++ ':' :: compact v) :: compactEntries rest

end

def newline (level : Nat) : List Char :=
  '\n' :: List.replicate (2 * level) ' '

/-- The comma that stands before the parts still to come, if there are any. -/
def commaBefore {α : Type} : List α → List Char
  | [] => []
  | _ :: _ => [',']

mutual

/-- The indented text of a value that starts at a given level, in front of the text `rest`. -/
def prettyOnto (level : Nat) (v : Json) (rest : List Char) : List Char :=
  match v with
  | .null => "null".toList ++ rest
  | .bool true => "true".toList ++ rest
  | .bool false => "false".toList ++ rest
  | .num n => n.text ++ rest
  | .str s => quoted s ++ rest
  | .arr [] => '[' :: ']' :: rest
  | .arr (item :: items) =>
      '[' :: prettyItems (level + 1) (item :: items) (newline level ++ ']' :: rest)
  | .obj [] => '{' :: '}' :: rest
  | .obj (entry :: entries) =>
      '{' :: prettyEntries (level + 1) (entry :: entries) (newline level ++ '}' :: rest)

def prettyItems (level : Nat) (items : List Json) (rest : List Char) : List Char :=
  match items with
  | [] => rest
  | v :: items =>
      newline level ++ prettyOnto level v (commaBefore items ++ prettyItems level items rest)

def prettyEntries (level : Nat) (entries : List (String × Json)) (rest : List Char) : List Char :=
  match entries with
  | [] => rest
  | (key, v) :: entries =>
      newline level ++ (quoted key ++ ':' :: ' ' ::
        prettyOnto level v (commaBefore entries ++ prettyEntries level entries rest))

end

def pretty (v : Json) : List Char := prettyOnto 0 v []

end SchemaWeaver.Json
