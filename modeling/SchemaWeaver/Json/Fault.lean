import SchemaWeaver.Text

/-!
What can be wrong with a JSON text, and where. A place is given by the text that is left, so that no
reader has to count; line and column are worked out once, at the end.
-/

set_option autoImplicit false
set_option relaxedAutoImplicit false

namespace SchemaWeaver.Json

open Text (byteLength)

inductive Fault where
  | endInValue
  | endInObject
  | endInList
  | endInString
  | expectedValue
  | expectedWord
  | keyNotString
  | expectedColon
  | expectedObjectEnd
  | expectedListEnd
  | trailingComma
  | trailingCharacters
  | invalidNumber
  | numberOutOfRange
  | invalidEscape
  | unfinishedPair
  | loneSurrogate
  | controlCharacter
  | tooDeep
  deriving DecidableEq, Repr

def Fault.message : Fault → String
  | .endInValue => "EOF while parsing a value"
  | .endInObject => "EOF while parsing an object"
  | .endInList => "EOF while parsing a list"
  | .endInString => "EOF while parsing a string"
  | .expectedValue => "expected value"
  | .expectedWord => "expected ident"
  | .keyNotString => "key must be a string"
  | .expectedColon => "expected `:`"
  | .expectedObjectEnd => "expected `,` or `\x7d`"
  | .expectedListEnd => "expected `,` or `]`"
  | .trailingComma => "trailing comma"
  | .trailingCharacters => "trailing characters"
  | .invalidNumber => "invalid number"
  | .numberOutOfRange => "number out of range"
  | .invalidEscape => "invalid escape"
  | .unfinishedPair => "unexpected end of hex escape"
  | .loneSurrogate => "lone leading surrogate in hex escape"
  | .controlCharacter => "control character (\\u0000-\\u001F) found while parsing a string"
  | .tooDeep => "recursion limit exceeded"

/-- A fault, the text that was left when it was noticed, and how many bytes of that text it covers.
-/
structure Failure where
  fault : Fault
  rest : List Char
  covered : Nat
  deriving DecidableEq, Repr

namespace Failure

/-- A fault noticed at the first byte of what is left, or at the end of the text. -/
def next (fault : Fault) (rest : List Char) : Failure :=
  ⟨fault, rest, if rest.isEmpty then 0 else 1⟩

/-- A fault noticed after everything up to what is left. -/
def past (fault : Fault) (rest : List Char) : Failure :=
  ⟨fault, rest, 0⟩

def atEnd (fault : Fault) : Failure :=
  ⟨fault, [], 0⟩

def offset (text : List Char) (failure : Failure) : Nat :=
  byteLength text - byteLength failure.rest + failure.covered

end Failure

/-- The line, counted from one, and the byte in it, after a number of bytes of a text. -/
def lineColumn (line column : Nat) : List Char → Nat → Nat × Nat
  | [], _ => (line, column)
  | c :: cs, bytes =>
      if bytes = 0 then (line, column)
      else if c = '\n' then lineColumn (line + 1) 0 cs (bytes - 1)
      else if bytes ≤ c.utf8Size then (line, column + bytes)
      else lineColumn line (column + c.utf8Size) cs (bytes - c.utf8Size)

def Failure.message (text : List Char) (failure : Failure) : String :=
  let (line, column) := lineColumn 1 0 text (failure.offset text)
  failure.fault.message ++ " at line " ++ toString line ++ " column " ++ toString column

end SchemaWeaver.Json
