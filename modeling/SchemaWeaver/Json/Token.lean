import SchemaWeaver.Json.Basic
import SchemaWeaver.Json.Fault

/-!
The tokens of a JSON text: words, quoted strings and numbers. Each reader returns its value and the
text that is left.
-/

set_option autoImplicit false
set_option relaxedAutoImplicit false

namespace SchemaWeaver.Json

open Numeric (Binary64 Magnitude)
open Text (isDigit digitValue byteLength)

/-- Read one part of a text: a value and what is left, or a failure. -/
abbrev Reading (α : Type) := Except Failure (α × List Char)

def isSpace (c : Char) : Bool :=
  c = ' ' || c = '\t' || c = '\n' || c = '\r'

def skipSpace (cs : List Char) : List Char := cs.dropWhile isSpace

def readWord : List Char → List Char → Except Failure (List Char)
  | [], cs => .ok cs
  | _ :: _, [] => .error (.atEnd .endInValue)
  | w :: word, c :: cs =>
      if c = w then readWord word cs else .error (.next .expectedWord (c :: cs))

/-! ## Strings -/

def hexValue? (c : Char) : Option Nat :=
  if isDigit c then some (digitValue c)
  else if 'a' ≤ c && c ≤ 'f' then some (c.toNat - 'a'.toNat + 10)
  else if 'A' ≤ c && c ≤ 'F' then some (c.toNat - 'A'.toNat + 10)
  else none

def hexUnit? (a b c d : Char) : Option Nat := do
  let a ← hexValue? a
  let b ← hexValue? b
  let c ← hexValue? c
  let d ← hexValue? d
  return ((a * 16 + b) * 16 + c) * 16 + d

/-- The failure where four hexadecimal digits were due: four bytes are taken before they are looked
at, and fewer than four left is the end of the text. -/
def hexFailure (cs : List Char) : Failure :=
  if byteLength cs < 4 then .atEnd .endInString else ⟨.invalidEscape, cs, 4⟩

/-- The first half of a pair that stands for one character above U+FFFF. -/
def isLeading (unit : Nat) : Bool := 0xD800 ≤ unit && unit ≤ 0xDBFF

/-- The second half of such a pair. -/
def isTrailing (unit : Nat) : Bool := 0xDC00 ≤ unit && unit ≤ 0xDFFF

def pairChar (leading trailing : Nat) : Char :=
  Char.ofNat (0x10000 + (leading - 0xD800) * 0x400 + (trailing - 0xDC00))

def escapeChar? (c : Char) : Option Char :=
  if c = '"' then some '"'
  else if c = '\\' then some '\\'
  else if c = '/' then some '/'
  else if c = 'b' then some '\x08'
  else if c = 'f' then some '\x0c'
  else if c = 'n' then some '\n'
  else if c = 'r' then some '\r'
  else if c = 't' then some '\t'
  else none

/-- The failure where a second half was due, as an escape of its own. -/
def pairFailure : List Char → Failure
  | [] => .atEnd .endInString
  | '\\' :: [] => .atEnd .endInString
  | '\\' :: 'u' :: rest => hexFailure rest
  | '\\' :: rest => .next .unfinishedPair rest
  | rest => .next .unfinishedPair rest

def push (c : Char) : Reading (List Char) → Reading (List Char)
  | .ok (read, rest) => .ok (c :: read, rest)
  | .error failure => .error failure

def readString : List Char → Reading (List Char)
  | [] => .error (.atEnd .endInString)
  | '"' :: cs => .ok ([], cs)
  | '\\' :: [] => .error (.atEnd .endInString)
  | '\\' :: 'u' :: a :: b :: c :: d :: cs =>
      match hexUnit? a b c d with
      | none => .error (hexFailure (a :: b :: c :: d :: cs))
      | some unit =>
          if isTrailing unit then .error (.past .loneSurrogate cs)
          else if isLeading unit then
            match cs with
            | '\\' :: 'u' :: e :: f :: g :: h :: rest =>
                match hexUnit? e f g h with
                | none => .error (hexFailure (e :: f :: g :: h :: rest))
                | some second =>
                    if isTrailing second then push (pairChar unit second) (readString rest)
                    else .error (.past .loneSurrogate rest)
            | other => .error (pairFailure other)
          else push (Char.ofNat unit) (readString cs)
  | '\\' :: 'u' :: cs => .error (hexFailure cs)
  | '\\' :: c :: cs =>
      match escapeChar? c with
      | some e => push e (readString cs)
      | none => .error (.next .invalidEscape (c :: cs))
  | c :: cs =>
      if c.toNat < 0x20 then .error (.past .controlCharacter cs) else push c (readString cs)

/-! ## Numbers -/

/-- Significands stay below this, so that 64 bits hold them. -/
def significandBound : Nat := 0x10000000000000000

/-- The greatest exponent that is worked with, in 31 bits. -/
def exponentBound : Nat := 0x7fffffff

def negativeBound : Nat := 0x8000000000000000

/-- Append digits to a significand as long as it stays below the bound. The digits from the first
one that does not fit are returned. -/
def absorb (significand : Nat) : List Char → Nat × List Char
  | [] => (significand, [])
  | d :: digits =>
      let next := significand * 10 + digitValue d
      if next < significandBound then absorb next digits else (significand, d :: digits)

def readFloat (negative : Bool) (significand : Nat) (exponent : Int) (cs : List Char) :
    Reading Number :=
  match Magnitude.ofDecimal significand exponent with
  | some magnitude => .ok (.float ⟨negative, magnitude⟩, cs)
  | none => .error (.past .numberOutOfRange cs)

/-- A number without fraction and exponent. It is an integer if it fits in 64 bits; minus zero is
not one. -/
def wholeNumber (negative : Bool) (significand : Nat) : Number :=
  if !negative then .int significand
  else if significand = 0 || significand > negativeBound then
    .float ⟨true, (Magnitude.nearest significand 1).getD .zero⟩
  else .int (-significand)

/-- Read the digits of an exponent up to the first one that goes beyond the bound, for which there
is no value. -/
def readExponentDigits (value : Nat) : List Char → Option Nat × List Char
  | [] => (some value, [])
  | c :: cs =>
      if isDigit c then
        let next := value * 10 + digitValue c
        if next ≤ exponentBound then readExponentDigits next cs else (none, cs)
      else (some value, c :: cs)

def readSign : List Char → Bool × List Char
  | '+' :: cs => (false, cs)
  | '-' :: cs => (true, cs)
  | cs => (false, cs)

def readExponent (negative : Bool) (significand : Nat) (exponent : Int) (cs : List Char) :
    Reading Number :=
  let (down, cs) := readSign cs
  match cs with
  | [] => .error (.atEnd .endInValue)
  | c :: cs =>
      if !isDigit c then .error (.next .invalidNumber (c :: cs))
      else
        match readExponentDigits (digitValue c) cs with
        | (some value, cs) =>
            readFloat negative significand (if down then exponent - value else exponent + value) cs
        | (none, cs) =>
            if significand ≠ 0 && !down then .error (.past .numberOutOfRange cs)
            else .ok (.float ⟨negative, .zero⟩, cs.dropWhile isDigit)

def readFraction (negative : Bool) (significand : Nat) (exponent : Int) (cs : List Char) :
    Reading Number :=
  let digits := cs.takeWhile isDigit
  let rest := cs.dropWhile isDigit
  if digits.isEmpty then
    .error (.next (if rest.isEmpty then .endInValue else .invalidNumber) rest)
  else
    let (significand, dropped) := absorb significand digits
    let exponent := exponent - (digits.length - dropped.length : Nat)
    match rest with
    | 'e' :: cs | 'E' :: cs => readExponent negative significand exponent cs
    | _ => readFloat negative significand exponent rest

/-- Read what follows the integer digits, `dropped` of which did not fit in the significand. -/
def readNumberTail (negative : Bool) (significand dropped : Nat) (cs : List Char) :
    Reading Number :=
  match cs with
  | '.' :: rest => readFraction negative significand dropped rest
  | 'e' :: rest | 'E' :: rest => readExponent negative significand dropped rest
  | _ =>
      if dropped = 0 then .ok (wholeNumber negative significand, cs)
      else readFloat negative significand dropped cs

def readNumber (negative : Bool) : List Char → Reading Number
  | [] => .error (.atEnd .endInValue)
  | c :: cs =>
      if c = '0' then
        if cs.head?.any isDigit then .error (.next .invalidNumber cs)
        else readNumberTail negative 0 0 cs
      else if isDigit c then
        let (significand, dropped) := absorb (digitValue c) (cs.takeWhile isDigit)
        readNumberTail negative significand dropped.length (cs.dropWhile isDigit)
      else .error (.next .invalidNumber (c :: cs))

end SchemaWeaver.Json
