import SchemaWeaver.Json.Basic
import SchemaWeaver.Json.Skip
import SchemaWeaver.Settings

/-!
Settings as a JSON text: an object with an entry for each setting that is not standard, or a list of
the settings in their order. Entries under other keys are passed over.
-/

set_option autoImplicit false
set_option relaxedAutoImplicit false

namespace SchemaWeaver.Settings

open Json (readWord readString readNumber skipSpace skip)

def policyNamed? (name : List Char) : Option MappingPolicy :=
  if name = "skip-entry".toList then some .skipEntry
  else if name = "abort-module".toList then some .abortModule
  else none

def policyName? (cs : List Char) : Option (MappingPolicy × List Char) :=
  match readString cs with
  | .error _ => none
  | .ok (name, cs) => (policyNamed? name).map fun policy => (policy, cs)

/-- Read a policy: its name, or an object in which its name has the value null. -/
def policyPart? (cs : List Char) : Option (MappingPolicy × List Char) :=
  match skipSpace cs with
  | '"' :: cs => policyName? cs
  | '{' :: cs =>
      match skipSpace cs with
      | '"' :: cs => do
          let (policy, cs) ← policyName? cs
          match skipSpace cs with
          | ':' :: cs =>
              match skipSpace cs with
              | 'n' :: cs =>
                  let cs ← (readWord "ull".toList cs).toOption
                  match skipSpace cs with
                  | '}' :: cs => some (policy, cs)
                  | _ => none
              | _ => none
          | _ => none
      | _ => none
  | _ => none

def guardPart? (cs : List Char) : Option (Bool × List Char) :=
  match skipSpace cs with
  | 't' :: cs => (readWord "rue".toList cs).toOption.map fun cs => (true, cs)
  | 'f' :: cs => (readWord "alse".toList cs).toOption.map fun cs => (false, cs)
  | _ => none

def depthPart? (cs : List Char) : Option (Nat × List Char) :=
  match skipSpace cs with
  | '-' :: _ => none
  | cs =>
      match readNumber false cs with
      | .ok (.int depth, cs) => some (depth.toNat, cs)
      | _ => none

/-- The readers of the settings, under their keys and in their order. -/
def parts : Keyed String (Settings → List Char → Option (Settings × List Char)) :=
  [("mapper-errors", fun s cs => (policyPart? cs).map fun (a, cs) => ({ s with policy := a }, cs)),
    ("cycle-guard",
      fun s cs => (guardPart? cs).map fun (a, cs) => ({ s with cycleGuard := a }, cs)),
    ("max-depth", fun s cs => (depthPart? cs).map fun (a, cs) => ({ s with maxDepth := a }, cs))]

def items? (first : Bool) : List (Settings → List Char → Option (Settings × List Char)) →
    Settings → List Char → Option (Settings × List Char)
  | [], s, cs =>
      match skipSpace cs with
      | ']' :: cs => some (s, cs)
      | _ => none
  | part? :: parts, s, cs =>
      match first, skipSpace cs with
      | _, ']' :: cs => some (s, cs)
      | false, ',' :: cs => part? s cs >>= fun (s, cs) => items? false parts s cs
      | true, cs => part? s cs >>= fun (s, cs) => items? false parts s cs
      | false, _ => none

/-- Read entries of an object of settings, after an opening quote. No setting is written twice. -/
def entries? (fuel : Nat) (written : List String) (s : Settings) (cs : List Char) :
    Option (Settings × List Char) :=
  match fuel with
  | 0 => none
  | fuel + 1 => do
      let (key, cs) ← (readString cs).toOption
      let key := String.ofList key
      match skipSpace cs with
      | ':' :: cs =>
          let (s, cs) ← match Keyed.get? parts key with
            | some part? => if key ∈ written then none else part? s cs
            | none => (skip cs).map fun cs => (s, cs)
          match skipSpace cs with
          | '}' :: cs => some (s, cs)
          | ',' :: cs =>
              match skipSpace cs with
              | '"' :: cs => entries? fuel (key :: written) s cs
              | _ => none
          | _ => none
      | _ => none

def body? (cs : List Char) : Option (Settings × List Char) :=
  match skipSpace cs with
  | '[' :: cs => items? true (parts.map Prod.snd) standard cs
  | '{' :: cs =>
      match skipSpace cs with
      | '}' :: cs => some (standard, cs)
      | '"' :: cs => entries? (cs.length + 1) [] standard cs
      | _ => none
  | _ => none

def ofJsonText? (cs : List Char) : Option Settings :=
  match body? cs with
  | none => none
  | some (s, rest) => if (skipSpace rest).isEmpty then some s else none

end SchemaWeaver.Settings
