import SchemaWeaver.Descriptor.Definitions
import SchemaWeaver.Json.Basic
import SchemaWeaver.Numeric.Binary64
import Mathlib.Data.List.Forall2
import Mathlib.Data.Set.Basic

/-!
The finite values of types. One layer of a type is read when the values of the types in it are
known; the values of a type are those that some number of layers shows. What they are is then given
by the layers themselves: reading one layer more shows no further values.
-/

set_option autoImplicit false
set_option relaxedAutoImplicit false

namespace SchemaWeaver

open Numeric (Binary64)
open List (Forall₂)

/-- A finite value of plain data. There are others, such as tables, that belong to no type but that
of all data. -/
inductive Value where
  | nil
  | boolean (value : Bool)
  | int (value : Int)
  | float (value : Binary64)
  | decimal (coefficient exponent : Int)
  | string (value : String)
  | list (items : List Value)
  | mapping (entries : List (String × Value))
  | other (id : Nat)

namespace Value

mutual

def isJson : Value → Bool
  | .list items => areJson items
  | .mapping entries => entriesAreJson entries
  | .other _ => false
  | _ => true

def areJson : List Value → Bool
  | [] => true
  | v :: rest => isJson v && areJson rest

def entriesAreJson : List (String × Value) → Bool
  | [] => true
  | (_, v) :: rest => isJson v && entriesAreJson rest

end

theorem areJson_of_forall {items : List Value} (each : ∀ v ∈ items, v.isJson = true) :
    areJson items = true := by
  induction items with
  | nil => rfl
  | cons v rest ih =>
      have first := each v List.mem_cons_self
      have later := ih fun u member => each u (List.mem_cons_of_mem _ member)
      simp [areJson, first, later]

theorem entriesAreJson_of_forall {entries : List (String × Value)}
    (each : ∀ name v, (name, v) ∈ entries → v.isJson = true) : entriesAreJson entries = true := by
  induction entries with
  | nil => rfl
  | cons entry rest ih =>
      obtain ⟨name, v⟩ := entry
      have first := each name v List.mem_cons_self
      have later := ih fun other u member => each other u (List.mem_cons_of_mem _ member)
      simp [entriesAreJson, first, later]

end Value

def Scalar.holds : Scalar → Value → Bool
  | .nil, .nil => true
  | .boolean, .boolean _ => true
  | .int, .int _ => true
  | .byte, .int n => 0 ≤ n && n ≤ 255
  | .float, .float _ => true
  | .decimal, .decimal _ _ => true
  | .string, .string _ => true
  | .json, v => v.isJson
  | .anydata, _ => true
  | .any, _ => true
  | _, _ => false

/-- The entries of a record: every required field is there, a declared field has a value of its
type, and there are further fields only if they have values of the rest type. -/
structure RecordEntries (has : Descriptor → Value → Prop)
    (fields : List (String × Field Descriptor)) (rest : Option Descriptor)
    (entries : List (String × Value)) : Prop where
  distinct : (Keyed.keys entries).Nodup
  required : ∀ name field, (name, field) ∈ fields → field.optional = false →
    name ∈ Keyed.keys entries
  declared : ∀ name field v, (name, field) ∈ fields → (name, v) ∈ entries → has field.type v
  further : ∀ name v, (name, v) ∈ entries → name ∉ Keyed.keys fields →
    ∃ type, rest = some type ∧ has type v

namespace Definitions

variable (defs : Definitions)

/-- Whether a value belongs to a type, read off one layer of the type. -/
def Reads (has : Descriptor → Value → Prop) : Descriptor → Value → Prop
  | .scalar kind, v => kind.holds v = true
  | .array element, .list items => ∀ item ∈ items, has element item
  | .tuple members, .list items => Forall₂ has members items
  | .record fields rest, .mapping entries => RecordEntries has fields rest entries
  | .union members, v => ∃ member ∈ members, has member v
  | .ref name, v => ∃ target, defs[name]? = some target ∧ has target v
  | _, _ => False

/-- Whether so many layers show that a value belongs to a type. -/
def Within : Nat → Descriptor → Value → Prop
  | 0 => fun _ _ => False
  | n + 1 => defs.Reads (Within n)

def values (t : Descriptor) : Set Value := {v | ∃ n, defs.Within n t v}

variable {defs}

theorem Reads.mono {has more : Descriptor → Value → Prop} (grows : ∀ t v, has t v → more t v)
    {t : Descriptor} {v : Value} (reads : defs.Reads has t v) : defs.Reads more t v := by
  unfold Reads at reads ⊢
  split at reads
  · exact reads
  · exact fun item member => grows _ _ (reads item member)
  · exact reads.imp grows
  · refine ⟨reads.distinct, reads.required, ?_, ?_⟩
    · intro name field v declared member
      exact grows _ _ (reads.declared name field v declared member)
    · intro name v member undeclared
      obtain ⟨type, open_, inside⟩ := reads.further name v member undeclared
      exact ⟨type, open_, grows _ _ inside⟩
  · obtain ⟨member, inside, holds⟩ := reads
    exact ⟨member, inside, grows _ _ holds⟩
  · obtain ⟨target, found, holds⟩ := reads
    exact ⟨target, found, grows _ _ holds⟩
  · exact reads

theorem Within.succ {n : Nat} {t : Descriptor} {v : Value} (within : defs.Within n t v) :
    defs.Within (n + 1) t v := by
  induction n generalizing t v with
  | zero => exact within.elim
  | succ n ih => exact Reads.mono (fun _ _ => ih) within

theorem Within.mono {n m : Nat} (le : n ≤ m) {t : Descriptor} {v : Value}
    (within : defs.Within n t v) : defs.Within m t v := by
  induction le with
  | refl => exact within
  | step _ ih => exact ih.succ

private theorem exists_common {α : Type} {shown : Nat → α → Prop}
    (mono : ∀ {n m : Nat}, n ≤ m → ∀ {a}, shown n a → shown m a) {items : List α}
    (each : ∀ a ∈ items, ∃ n, shown n a) : ∃ n, ∀ a ∈ items, shown n a := by
  induction items with
  | nil => exact ⟨0, fun a member => absurd member List.not_mem_nil⟩
  | cons a rest ih =>
      obtain ⟨n, first⟩ := each a List.mem_cons_self
      obtain ⟨m, later⟩ := ih fun b member => each b (List.mem_cons_of_mem _ member)
      refine ⟨max n m, fun b member => ?_⟩
      rcases List.mem_cons.mp member with rfl | member
      · exact mono (Nat.le_max_left n m) first
      · exact mono (Nat.le_max_right n m) (later b member)

private theorem exists_common_forall₂ {members : List Descriptor} {items : List Value}
    (each : Forall₂ (fun t v => v ∈ defs.values t) members items) :
    ∃ n, Forall₂ (defs.Within n) members items := by
  induction each with
  | nil => exact ⟨0, .nil⟩
  | cons first _ ih =>
      obtain ⟨n, first⟩ := first
      obtain ⟨m, later⟩ := ih
      refine ⟨max n m, .cons (first.mono (Nat.le_max_left n m)) ?_⟩
      exact later.imp fun _ _ => Within.mono (Nat.le_max_right n m)

private theorem exists_common_record {fields : List (String × Field Descriptor)}
    {rest : Option Descriptor} {entries : List (String × Value)}
    (record : RecordEntries (fun t v => v ∈ defs.values t) fields rest entries) :
    ∃ n, RecordEntries (defs.Within n) fields rest entries := by
  have declared : ∃ n, ∀ entry ∈ entries, ∀ field ∈ fields, field.1 = entry.1 →
      defs.Within n field.2.type entry.2 := by
    refine exists_common (fun le entry shown field member same => ?_) fun entry member => ?_
    · exact (shown field member same).mono le
    · refine exists_common (fun le field shown same => (shown same).mono le) fun field inside => ?_
      by_cases same : field.1 = entry.1
      · obtain ⟨name, v⟩ := entry
        obtain ⟨other, type⟩ := field
        cases same
        obtain ⟨n, within⟩ := record.declared _ type v inside member
        exact ⟨n, fun _ => within⟩
      · exact ⟨0, fun equal => absurd equal same⟩
  have further : ∃ n, ∀ entry ∈ entries, entry.1 ∉ Keyed.keys fields →
      ∃ type, rest = some type ∧ defs.Within n type entry.2 := by
    refine exists_common (fun le entry shown undeclared => ?_) fun entry member => ?_
    · obtain ⟨type, open_, within⟩ := shown undeclared
      exact ⟨type, open_, within.mono le⟩
    · by_cases undeclared : entry.1 ∉ Keyed.keys fields
      · obtain ⟨type, open_, n, within⟩ := record.further entry.1 entry.2 member undeclared
        exact ⟨n, fun _ => ⟨type, open_, within⟩⟩
      · exact ⟨0, fun missing => absurd missing undeclared⟩
  obtain ⟨n, declared⟩ := declared
  obtain ⟨m, further⟩ := further
  refine ⟨max n m, record.distinct, record.required, ?_, ?_⟩
  · intro name field v inside member
    exact (declared (name, v) member (name, field) inside rfl).mono (Nat.le_max_left n m)
  · intro name v member undeclared
    obtain ⟨type, open_, within⟩ := further (name, v) member undeclared
    exact ⟨type, open_, within.mono (Nat.le_max_right n m)⟩

/-- The values of a type are given by one layer of it and the values of the types in it. -/
theorem mem_values_iff {t : Descriptor} {v : Value} :
    v ∈ defs.values t ↔ defs.Reads (fun t v => v ∈ defs.values t) t v := by
  constructor
  · rintro ⟨n, within⟩
    cases n with
    | zero => exact within.elim
    | succ n => exact Reads.mono (fun t v inside => ⟨n, inside⟩) within
  · intro reads
    suffices shown : ∃ n, defs.Reads (defs.Within n) t v by
      obtain ⟨n, shown⟩ := shown
      exact ⟨n + 1, shown⟩
    unfold Reads at reads ⊢
    split at reads
    · exact ⟨0, reads⟩
    · rename_i element items
      have each : ∀ item ∈ items, ∃ n, defs.Within n element item := reads
      exact exists_common (fun le _ within => within.mono le) each
    · exact exists_common_forall₂ reads
    · exact exists_common_record reads
    · obtain ⟨member, inside, n, within⟩ := reads
      exact ⟨n, member, inside, within⟩
    · obtain ⟨target, found, n, within⟩ := reads
      exact ⟨n, target, found, within⟩
    · exact reads.elim

end Definitions

end SchemaWeaver
