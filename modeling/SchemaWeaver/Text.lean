/-!
Character classes and cuts of the texts that are read and written: blanks, line breaks, control
characters, trimming, and division at separators. In the one-line form of a text no line break is
left, and no blank stands next to one of the marks that structure a mapping; the text is treated as
plain characters there, so what is quoted is no exception.
-/

set_option autoImplicit false
set_option relaxedAutoImplicit false

namespace SchemaWeaver.Text

/-- The Unicode property White_Space. -/
def isBlank (c : Char) : Bool :=
  let n := c.toNat
  (0x09 ≤ n && n ≤ 0x0D) || n == 0x20 || n == 0x85 || n == 0xA0 || n == 0x1680 ||
    (0x2000 ≤ n && n ≤ 0x200A) || n == 0x2028 || n == 0x2029 || n == 0x202F ||
    n == 0x205F || n == 0x3000

/-- The characters that end a line: line feed, vertical tab, form feed, carriage return, next line,
line separator and paragraph separator. -/
def isLineBreak (c : Char) : Bool :=
  let n := c.toNat
  (0x0A ≤ n && n ≤ 0x0D) || n == 0x85 || n == 0x2028 || n == 0x2029

/-- The two blocks of control characters, U+0000 to U+001F and U+007F to U+009F. -/
def isControl (c : Char) : Bool :=
  let n := c.toNat
  n ≤ 0x1F || (0x7F ≤ n && n ≤ 0x9F)

def isDigit (c : Char) : Bool :=
  '0' ≤ c && c ≤ '9'

def digitValue (c : Char) : Nat :=
  c.toNat - '0'.toNat

def trim (cs : List Char) : List Char :=
  ((cs.dropWhile isBlank).reverse.dropWhile isBlank).reverse

/-- The pieces of a text between the characters that satisfy `p`; there is one piece more than there
are such characters. -/
def splitAt (p : Char → Bool) : List Char → List (List Char)
  | [] => [[]]
  | c :: cs =>
      if p c then [] :: splitAt p cs
      else match splitAt p cs with
        | [] => [[c]]
        | piece :: pieces => (c :: piece) :: pieces

def words (cs : List Char) : List (List Char) :=
  (splitAt isBlank cs).filter fun piece => !piece.isEmpty

def cutAt (separator : Char) : List Char → Option (List Char × List Char)
  | [] => none
  | c :: cs =>
      if c = separator then some ([], cs)
      else (cutAt separator cs).map fun (before, after) => (c :: before, after)

def afterOpening : List Char → List Char → Option (List Char)
  | [], cs => some cs
  | _ :: _, [] => none
  | o :: opening, c :: cs => if o = c then afterOpening opening cs else none

def beforeFinal (final : Char) (cs : List Char) : Option (List Char) :=
  if cs.getLast? = some final then some cs.dropLast else none

def join (separator : List Char) : List (List Char) → List Char
  | [] => []
  | [piece] => piece
  | piece :: next :: pieces => piece ++ (separator ++ join separator (next :: pieces))

def byteLength (cs : List Char) : Nat :=
  cs.foldr (fun c bytes => c.utf8Size + bytes) 0

def decimal (n : Nat) : List Char :=
  Nat.toDigits 10 n

/-! ## One line -/

/-- The characters that structure mappings and lists. -/
def isMark (c : Char) : Bool :=
  c = '{' || c = '}' || c = '[' || c = ']' || c = ':' || c = ','

def dropBlanksBefore (cs : List Char) : List Char :=
  cs.foldr (fun c rest => if isBlank c && rest.head?.any isMark then rest else c :: rest) []

/-- Delete the blanks that stand directly after a mark. The flag tells whether the last character
kept was one. -/
def dropBlanksAfter : Bool → List Char → List Char
  | _, [] => []
  | afterMark, c :: cs =>
      if afterMark && isBlank c then dropBlanksAfter true cs
      else c :: dropBlanksAfter (isMark c) cs

def oneLine (cs : List Char) : List Char :=
  dropBlanksAfter false (dropBlanksBefore (cs.filter fun c => !isLineBreak c))

end SchemaWeaver.Text
