import SchemaWeaver.Model
import SchemaWeaver.Proofs.Descriptor.Data
import SchemaWeaver.Proofs.Source.Places

/-!
Which call sites are found: the calls at all places of a document whose method is `generate` and
whose receiver is a provider, in the order of the source. A type is one of providers if all that its
names and unions expand to are objects that are the provider class or include it.
-/

set_option autoImplicit false
set_option relaxedAutoImplicit false

namespace SchemaWeaver

open Relation (ReflTransGen)
open Source (Expr InOrder Node RemoteCall Tree Visitor)

namespace ObjectType

def Includes (type other : ObjectType) : Prop := other ∈ type.includes

/-- An object type is a given one, which is told by its module and its name, or includes it at any
depth. -/
def Extends (type target : ObjectType) : Prop :=
  ∃ parent, ReflTransGen Includes type parent ∧
    parent.home = target.home ∧ parent.name = target.name

theorem someIncludes_eq_any (types : List ObjectType) (target : ObjectType) :
    someIncludes types target = types.any fun type => type.isOrIncludes target := by
  induction types with
  | nil => rfl
  | cons type rest ih => rw [someIncludes, ih, List.any_cons]

theorem isOrIncludes_iff (type target : ObjectType) :
    type.isOrIncludes target = true ↔ type.Extends target := by
  obtain ⟨home, name, includes⟩ := type
  have inner : ∀ parent ∈ includes, parent.isOrIncludes target = true ↔ parent.Extends target :=
    fun parent _member => isOrIncludes_iff parent target
  rw [isOrIncludes, someIncludes_eq_any, Bool.or_eq_true, Bool.and_eq_true, decide_eq_true_eq,
    decide_eq_true_eq, List.any_eq_true]
  constructor
  · rintro (⟨sameHome, sameName⟩ | ⟨parent, member, found⟩)
    · exact ⟨_, ReflTransGen.refl, sameHome, sameName⟩
    · obtain ⟨last, way, same⟩ := (inner parent member).mp found
      exact ⟨last, ReflTransGen.head member way, same⟩
  · rintro ⟨last, way, same⟩
    rcases ReflTransGen.cases_head way with rfl | ⟨parent, member, rest⟩
    · exact Or.inl same
    · exact Or.inr ⟨parent, member, (inner parent member).mpr ⟨last, rest, same⟩⟩
termination_by sizeOf type
decreasing_by
  have outer := List.sizeOf_lt_of_mem _member
  simp only [ObjectType.mk.sizeOf_spec]
  omega

end ObjectType

namespace Definitions

/-- All names that a type expands to through names and unions are defined, and all else that it
expands to are objects that are a given one or include it. -/
structure Qualifies (defs : Definitions) (provider : ObjectType) (t : Descriptor) : Prop where
  defined : ∀ name, defs.Reaches isUnion t (.ref name) → ∃ target, defs[name]? = some target
  objects : ∀ u, defs.Reaches isUnion t u → (∀ name, u ≠ .ref name) →
    (∀ members, u ≠ .union members) → ∃ type, u = .object type ∧ type.Extends provider

def isObjectOf (provider : ObjectType) : Descriptor → Bool
  | .object type => type.isOrIncludes provider
  | _ => false

theorem fitsUnder_object {defs : Definitions} (provider : ObjectType) (sides : List Descriptor)
    (assumed : Assumptions) (sub : Descriptor) :
    fitsUnder defs sides assumed sub (.object provider) = isObjectOf provider sub := by
  cases sub <;> simp [fitsUnder, isObjectOf]

theorem isSubtypeOf_object_iff (defs : Definitions) (provider : ObjectType) (t : Descriptor) :
    defs.isSubtypeOf t (.object provider) = true ↔ defs.Qualifies provider t := by
  rw [isSubtypeOf_side_iff (by simp) rfl fun sides assumed sub =>
    fitsUnder_object provider sides assumed sub]
  constructor
  · intro free
    constructor
    · intro name way
      cases found : defs[name]? with
      | some target => exact ⟨target, rfl⟩
      | none =>
          refine absurd ⟨_, way, ?_⟩ free
          rw [isBarred, Std.TreeMap.contains_eq_isSome_getElem?, found]
          rfl
    · intro u way unnamed single
      have admitted : isObjectOf provider u = true := by
        by_contra refused
        refine free ⟨u, way, ?_⟩
        have plain : isUnion u = false := by
          cases u with
          | union members => exact absurd rfl (single members)
          | _ => rfl
        rw [defs.isBarred_of_single _ unnamed plain, Bool.not_eq_true']
        exact Bool.eq_false_iff.mpr refused
      cases u with
      | object type => exact ⟨type, rfl, (type.isOrIncludes_iff provider).mp admitted⟩
      | _ => cases admitted
  · rintro ⟨defined, objects⟩ ⟨u, way, barred⟩
    cases u with
    | ref name =>
        obtain ⟨target, found⟩ := defined name way
        rw [isBarred, Std.TreeMap.contains_eq_isSome_getElem?, found] at barred
        cases barred
    | union members => cases barred
    | object type =>
        obtain ⟨_, same, extending⟩ := objects _ way (by simp) (by simp)
        cases same
        rw [defs.isBarred_of_single _ (by simp) rfl, isObjectOf,
          (type.isOrIncludes_iff provider).mpr extending] at barred
        cases barred
    | _ =>
        obtain ⟨_, different, -⟩ := objects _ way (by simp) (by simp)
        cases different

end Definitions

namespace Model

variable (m : Model) (provider : ObjectType)

/-- What an inspection of a call yields: the static type of the call, if it is a call site and has
one. -/
def siteTypes (call : RemoteCall Expr) : List Descriptor :=
  if m.isCallSite provider call then (m.typeOf? (.remote call)).toList else []

/-- The type of a call site: its method is `generate`, its receiver has a type of providers, and the
type of its result is recorded. -/
structure IsSiteOf (call : RemoteCall Expr) (type : Descriptor) : Prop where
  method : call.method = "generate"
  recorded : m.resultOf? call = some type
  receiver : ∃ t, m.typeOf? call.receiver = some t ∧ m.definitions.Qualifies provider t

theorem isCallSite_iff (call : RemoteCall Expr) :
    m.isCallSite provider call = true ↔ call.method = "generate" ∧
      ∃ t, m.typeOf? call.receiver = some t ∧ m.definitions.Qualifies provider t := by
  rw [isCallSite, Bool.and_eq_true, decide_eq_true_eq, generateMethod]
  refine and_congr_right fun _ => ?_
  rw [Option.any_eq_true]
  refine exists_congr fun t => and_congr_right fun _ => ?_
  exact m.definitions.isSubtypeOf_object_iff provider t

theorem resultTypes_eq_flatMap (tree : Tree) :
    m.resultTypes provider tree = tree.calls.flatMap (m.siteTypes provider) := by
  rw [resultTypes, callSites, List.filterMap_filter, List.filterMap_eq_flatMap_toList]
  refine List.flatMap_congr fun call _ => ?_
  unfold siteTypes
  split
  · rfl
  · rfl

/-- The types of the call sites of a document are recorded for the calls that qualify at all places,
in order. A visitor that looks at expressions finds them, and the calls it looks at are those that a
visitor of calls meets. -/
theorem resultTypes_inOrder (tree : Tree) :
    InOrder (fun place type => ∃ call, tree.at? place = some (.remote call) ∧
      m.IsSiteOf provider call type) (m.resultTypes provider tree) ∧
    (Visitor.scanning (m.siteTypes provider)).tree tree [] = m.resultTypes provider tree ∧
    InOrder (fun place call => tree.at? place = some (.remote call))
      (Visitor.collecting.tree tree []) ∧
    ∀ (α : Type) (inspect : RemoteCall Expr → List α),
      (Visitor.scanning inspect).tree tree [] =
        (Visitor.collecting.tree tree []).flatMap inspect := by
  refine ⟨?_, ?_, ?_, ?_⟩
  · rw [resultTypes, callSites, List.filterMap_filter]
    refine (tree.inOrder_calls.filterMap _).congr fun place type => ?_
    refine exists_congr fun call => and_congr_right fun _ => ?_
    constructor
    · intro yields
      split at yields
      · rename_i site
        obtain ⟨method, receiver⟩ := (m.isCallSite_iff provider call).mp site
        exact ⟨method, yields, receiver⟩
      · cases yields
    · rintro ⟨method, recorded, receiver⟩
      rw [if_pos ((m.isCallSite_iff provider call).mpr ⟨method, receiver⟩), recorded]
  · rw [Visitor.tree_scanning, resultTypes_eq_flatMap]
  · rw [Visitor.tree_collecting]
    exact tree.inOrder_calls
  · intro α inspect
    rw [Visitor.tree_scanning, Visitor.tree_collecting]

end Model

end SchemaWeaver
