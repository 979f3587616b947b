import SchemaWeaver.Numeric.Binary64

/-!
JSON values. Objects keep their entries in the order in which the keys were first written, and a
later entry under the same key takes the place of the earlier one. Integers and floating-point
numbers are told apart, because they are written differently.
-/

set_option autoImplicit false
set_option relaxedAutoImplicit false

namespace SchemaWeaver

open Numeric (Binary64)

abbrev Keyed (κ α : Type) := List (κ × α)

namespace Keyed

variable {κ α : Type} [DecidableEq κ]

def get? : Keyed κ α → κ → Option α
  | [], _ => none
  | (k, a) :: rest, key => if k = key then some a else get? rest key

def has (entries : Keyed κ α) (key : κ) : Bool :=
  (get? entries key).isSome

def keys (entries : Keyed κ α) : List κ :=
  entries.map Prod.fst

/-- Write an entry: in place if the key is there, at the end if it is not. -/
def insert : Keyed κ α → κ → α → Keyed κ α
  | [], key, a => [(key, a)]
  | (k, b) :: rest, key, a =>
      if k = key then (k, a) :: rest else (k, b) :: insert rest key a

/-- Delete the entries under a key and keep the order of the others. -/
def erase (entries : Keyed κ α) (key : κ) : Keyed κ α :=
  entries.filter fun entry => entry.1 ≠ key

def ofList (entries : List (κ × α)) : Keyed κ α :=
  entries.foldl (fun written entry => insert written entry.1 entry.2) []

theorem mem_of_get? {entries : Keyed κ α} {key : κ} {a : α}
    (found : get? entries key = some a) : (key, a) ∈ entries := by
  induction entries with
  | nil => simp [get?] at found
  | cons entry rest ih =>
      obtain ⟨k, b⟩ := entry
      by_cases same : k = key
      · simp_all [get?]
      · simp only [get?, same, if_false] at found
        exact List.mem_cons_of_mem _ (ih found)

end Keyed

inductive Json.Number where
  | int (value : Int)
  | float (value : Binary64)
  deriving DecidableEq, Repr

inductive Json where
  | null
  | bool (value : Bool)
  | num (value : Json.Number)
  | str (value : String)
  | arr (items : List Json)
  | obj (entries : List (String × Json))
  deriving Repr, Inhabited

namespace Json

def ofInt (n : Int) : Json := .num (.int n)

def entries? : Json → Option (Keyed String Json)
  | .obj entries => some entries
  | _ => none

end Json

end SchemaWeaver
