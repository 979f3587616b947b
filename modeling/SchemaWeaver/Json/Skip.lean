import SchemaWeaver.Json.Token

/-!
Passing over a value of a JSON text. Only its grammar is checked: numbers may be out of range,
surrogates may stand alone, and containers may nest to any depth.
-/

set_option autoImplicit false
set_option relaxedAutoImplicit false

namespace SchemaWeaver.Json

open Text (isDigit)

def skipString : List Char → Option (List Char)
  | [] => none
  | '"' :: cs => some cs
  | '\\' :: [] => none
  | '\\' :: 'u' :: a :: b :: c :: d :: cs =>
      if (hexUnit? a b c d).isSome then skipString cs else none
  | '\\' :: c :: cs => if (escapeChar? c).isSome then skipString cs else none
  | c :: cs => if c.toNat < 0x20 then none else skipString cs

/-- Pass over digits, of which there is at least one. -/
def skipDigits (cs : List Char) : Option (List Char) :=
  if cs.head?.any isDigit then some (cs.dropWhile isDigit) else none

def skipExponent : List Char → Option (List Char)
  | 'e' :: cs | 'E' :: cs => skipDigits (readSign cs).2
  | cs => some cs

def skipFraction : List Char → Option (List Char)
  | '.' :: cs => skipDigits cs >>= skipExponent
  | cs => skipExponent cs

/-- Pass over a number after its sign. -/
def skipNumber : List Char → Option (List Char)
  | '0' :: cs => if cs.head?.any isDigit then none else skipFraction cs
  | cs => skipDigits cs >>= skipFraction

mutual

def skipValue (fuel : Nat) (cs : List Char) : Option (List Char) :=
  match fuel with
  | 0 => none
  | fuel + 1 =>
      match skipSpace cs with
      | [] => none
      | c :: cs =>
          if c = 'n' then (readWord "ull".toList cs).toOption
          else if c = 't' then (readWord "rue".toList cs).toOption
          else if c = 'f' then (readWord "alse".toList cs).toOption
          else if c = '-' then skipNumber cs
          else if isDigit c then skipNumber (c :: cs)
          else if c = '"' then skipString cs
          else if c = '[' then
            match skipSpace cs with
            | ']' :: cs => some cs
            | cs => skipItems fuel cs
          else if c = '{' then
            match skipSpace cs with
            | '}' :: cs => some cs
            | cs => skipEntries fuel cs
          else none

def skipItems (fuel : Nat) (cs : List Char) : Option (List Char) :=
  match fuel with
  | 0 => none
  | fuel + 1 =>
      match skipValue fuel cs with
      | none => none
      | some cs =>
          match skipSpace cs with
          | ']' :: cs => some cs
          | ',' :: cs => skipItems fuel cs
          | _ => none

/-- Pass over the entries of an object, of which there is at least one. -/
def skipEntries (fuel : Nat) (cs : List Char) : Option (List Char) :=
  match fuel with
  | 0 => none
  | fuel + 1 =>
      match skipSpace cs with
      | '"' :: cs =>
          match skipString cs with
          | none => none
          | some cs =>
              match skipSpace cs with
              | ':' :: cs =>
                  match skipValue fuel cs with
                  | none => none
                  | some cs =>
                      match skipSpace cs with
                      | '}' :: cs => some cs
                      | ',' :: cs => skipEntries fuel cs
                      | _ => none
              | _ => none
      | _ => none

end

def skip (cs : List Char) : Option (List Char) :=
  skipValue (3 * cs.length + 3) cs

end SchemaWeaver.Json
