import SchemaWeaver.Text

/-!
How the pass reacts to types without a schema and to deep or recursive types, and how that is read
from named variables.
-/

set_option autoImplicit false
set_option relaxedAutoImplicit false

namespace SchemaWeaver

open Text (trim isDigit digitValue)

/-- What happens when a type has no schema: it is left out, or its module is. -/
inductive MappingPolicy where
  | skipEntry
  | abortModule
  deriving DecidableEq, Repr

structure Settings where
  policy : MappingPolicy
  cycleGuard : Bool
  maxDepth : Nat
  deriving DecidableEq, Repr

inductive SettingsFault where
  | unknownPolicy (text : String)
  | unknownGuard (text : String)
  | depthNotNumber (text : String)
  | depthTooGreat (depth : Nat)
  deriving DecidableEq, Repr

namespace Settings

/-- Entries are skipped, recursion is guarded, and types may be walked 128 steps deep. -/
def standard : Settings := ⟨.skipEntry, true, 128⟩

def depthLimit : Nat := 1024

/-- The greatest number that a depth is written with, in 64 bits. -/
def depthBound : Nat := 0xffffffffffffffff

def policyVariable : String := "SCHEMA_ANNOTATOR_MAPPER_ERRORS"

def guardVariable : String := "SCHEMA_ANNOTATOR_CYCLE_GUARD"

def depthVariable : String := "SCHEMA_ANNOTATOR_MAX_DEPTH"

end Settings

def SettingsFault.message : SettingsFault → String
  | .unknownPolicy text =>
      Settings.policyVariable ++ ": expected 'skip-entry' or 'abort-module', got '" ++ text ++ "'"
  | .unknownGuard text => Settings.guardVariable ++ ": expected 0 or 1, got '" ++ text ++ "'"
  | .depthNotNumber text => Settings.depthVariable ++ ": not a number: '" ++ text ++ "'"
  | .depthTooGreat depth =>
      Settings.depthVariable ++ ": " ++ toString depth ++ " exceeds the limit of " ++
        toString Settings.depthLimit

def MappingPolicy.read (text : String) : Except SettingsFault MappingPolicy :=
  if text = "skip-entry" || text = "skip" then .ok .skipEntry
  else if text = "abort-module" || text = "abort" then .ok .abortModule
  else .error (.unknownPolicy text)

namespace Settings

/-- Read a natural number: digits with an optional plus sign, within the bound. -/
def readNatural? (text : List Char) : Option Nat :=
  let digits := match text with
    | '+' :: rest => rest
    | _ => text
  if digits.isEmpty || !digits.all isDigit then none
  else
    let n := digits.foldl (fun n d => n * 10 + digitValue d) 0
    if n ≤ depthBound then some n else none

def trimmed (text : String) : String := String.ofList (trim text.toList)

def readPolicy (text : Option String) : Except SettingsFault MappingPolicy :=
  match text with
  | none => .ok standard.policy
  | some text => MappingPolicy.read (trimmed text)

def readGuard (text : Option String) : Except SettingsFault Bool :=
  match text with
  | none => .ok standard.cycleGuard
  | some text =>
      let text := trimmed text
      if text = "1" || text = "true" then .ok true
      else if text = "0" || text = "false" then .ok false
      else .error (.unknownGuard text)

def readDepth (text : Option String) : Except SettingsFault Nat :=
  match text with
  | none => .ok standard.maxDepth
  | some text =>
      match readNatural? (trim text.toList) with
      | none => .error (.depthNotNumber text)
      | some depth => if depth > depthLimit then .error (.depthTooGreat depth) else .ok depth

/-- Read the settings from variables. Those that are not set keep their standard. -/
def ofVariables (value? : String → Option String) : Except SettingsFault Settings := do
  let policy ← readPolicy (value? policyVariable)
  let guard ← readGuard (value? guardVariable)
  let depth ← readDepth (value? depthVariable)
  return ⟨policy, guard, depth⟩

def walkDepth (s : Settings) : Nat := min s.maxDepth depthLimit

end Settings

end SchemaWeaver
