import SchemaWeaver.Json.Token

/-!
Reading JSON text. The readers of values, lists and objects call each other; `fuel` bounds the calls
and is chosen from the length of the text so that it never runs out. `room` is how many containers
may be opened.
-/

set_option autoImplicit false
set_option relaxedAutoImplicit false

namespace SchemaWeaver.Json

mutual

def readValue (fuel room : Nat) (cs : List Char) : Reading Json :=
  match fuel with
  | 0 => .error (.next .tooDeep cs)
  | fuel + 1 =>
      match skipSpace cs with
      | [] => .error (.atEnd .endInValue)
      | c :: cs =>
          if c = 'n' then (readWord "ull".toList cs).map fun cs => (.null, cs)
          else if c = 't' then (readWord "rue".toList cs).map fun cs => (.bool true, cs)
          else if c = 'f' then (readWord "alse".toList cs).map fun cs => (.bool false, cs)
          else if c = '-' then (readNumber true cs).map fun (n, cs) => (.num n, cs)
          else if Text.isDigit c then
            (readNumber false (c :: cs)).map fun (n, cs) => (.num n, cs)
          else if c = '"' then
            (readString cs).map fun (s, cs) => (.str (String.ofList s), cs)
          else if c = '[' then
            match room with
            | 0 => .error (.next .tooDeep (c :: cs))
            | room + 1 => (readList fuel room cs).map fun (items, cs) => (.arr items, cs)
          else if c = '{' then
            match room with
            | 0 => .error (.next .tooDeep (c :: cs))
            | room + 1 =>
                (readObject fuel room cs).map fun (entries, cs) => (.obj (Keyed.ofList entries), cs)
          else .error (.next .expectedValue (c :: cs))

def readList (fuel room : Nat) (cs : List Char) : Reading (List Json) :=
  match fuel with
  | 0 => .error (.next .tooDeep cs)
  | fuel + 1 =>
      match skipSpace cs with
      | [] => .error (.atEnd .endInList)
      | ']' :: cs => .ok ([], cs)
      | cs => readItems fuel room cs

def readItems (fuel room : Nat) (cs : List Char) : Reading (List Json) :=
  match fuel with
  | 0 => .error (.next .tooDeep cs)
  | fuel + 1 =>
      match readValue fuel room cs with
      | .error failure => .error failure
      | .ok (item, cs) =>
          match skipSpace cs with
          | [] => .error (.atEnd .endInList)
          | ']' :: cs => .ok ([item], cs)
          | ',' :: cs =>
              match skipSpace cs with
              | [] => .error (.atEnd .endInValue)
              | ']' :: cs => .error (.next .trailingComma (']' :: cs))
              | cs => (readItems fuel room cs).map fun (items, cs) => (item :: items, cs)
          | cs => .error (.next .expectedListEnd cs)

def readObject (fuel room : Nat) (cs : List Char) : Reading (List (String × Json)) :=
  match fuel with
  | 0 => .error (.next .tooDeep cs)
  | fuel + 1 =>
      match skipSpace cs with
      | [] => .error (.atEnd .endInObject)
      | '}' :: cs => .ok ([], cs)
      | '"' :: cs => readEntries fuel room cs
      | cs => .error (.next .keyNotString cs)

/-- Read the entries of an object, of which there is at least one, after the first opening quote. -/
def readEntries (fuel room : Nat) (cs : List Char) : Reading (List (String × Json)) :=
  match fuel with
  | 0 => .error (.next .tooDeep cs)
  | fuel + 1 =>
      match readString cs with
      | .error failure => .error failure
      | .ok (key, cs) =>
          match skipSpace cs with
          | [] => .error (.atEnd .endInObject)
          | ':' :: cs =>
              match readValue fuel room cs with
              | .error failure => .error failure
              | .ok (value, cs) =>
                  let entry := (String.ofList key, value)
                  match skipSpace cs with
                  | [] => .error (.atEnd .endInObject)
                  | '}' :: cs => .ok ([entry], cs)
                  | ',' :: cs =>
                      match skipSpace cs with
                      | [] => .error (.atEnd .endInValue)
                      | '"' :: cs =>
                          (readEntries fuel room cs).map fun (entries, cs) => (entry :: entries, cs)
                      | '}' :: cs => .error (.next .trailingComma ('}' :: cs))
                      | cs => .error (.next .keyNotString cs)
                  | cs => .error (.next .expectedObjectEnd cs)
          | cs => .error (.next .expectedColon cs)

end

/-- Read a whole text as one value in which at most `room` containers are open at once. -/
def read (room : Nat) (cs : List Char) : Except Failure Json :=
  match readValue (3 * cs.length + 3) room cs with
  | .error failure => .error failure
  | .ok (value, rest) =>
      match skipSpace rest with
      | [] => .ok value
      | rest => .error (.next .trailingCharacters rest)

def readAny (cs : List Char) : Except Failure Json :=
  read cs.length cs

end SchemaWeaver.Json
