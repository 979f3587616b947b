import SchemaWeaver.Descriptor.Definitions
import SchemaWeaver.Proofs.Descriptor.Leads

/-!
Plain data is what leads to nothing foreign, and to be a subtype of the type of all data is the same
thing. The subtype check opens names and unions itself, under assumptions, and hands every other
type over to a search of its own.
-/

set_option autoImplicit false
set_option relaxedAutoImplicit false

namespace SchemaWeaver.Definitions

open Relation (ReflTransGen)

variable (defs : Definitions) (admitted : Scalar → Bool)

def FindsForeign (t : Descriptor) : Prop :=
  defs.Finds (fun _ => true) (defs.isForeign admitted) t

theorem builtFrom_eq_true_iff (t : Descriptor) :
    defs.builtFrom admitted t = true ↔ ¬defs.FindsForeign admitted t := by
  have found := defs.search_eq_true_iff (fun _ => true) (defs.isForeign admitted) [t]
  rw [List.exists_mem_cons_iff] at found
  simp only [List.not_mem_nil, false_and, exists_false, or_false] at found
  rw [builtFrom, Bool.not_eq_true', ← Bool.not_eq_true, found, FindsForeign]

/-- Whether the subtype check refuses a type by itself, where it admits some types: names and unions
are gone through. -/
def isBarred (admits : Descriptor → Bool) : Descriptor → Bool
  | .ref name => !defs.contains name
  | .union _ => false
  | t => !admits t

theorem isBarred_of_single (admits : Descriptor → Bool) {t : Descriptor}
    (unnamed : ∀ name, t ≠ .ref name) (single : isUnion t = false) :
    defs.isBarred admits t = !admits t := by
  cases t with
  | ref name => exact absurd rfl (unnamed name)
  | union members => cases single
  | _ => rfl

theorem isBarred_eq_true_iff {t : Descriptor} (unnamed : ∀ name, t ≠ .ref name)
    (single : isUnion t = false) :
    defs.isBarred (defs.builtFrom admitted) t = true ↔ defs.FindsForeign admitted t := by
  rw [defs.isBarred_of_single _ unnamed single, Bool.not_eq_true', ← Bool.not_eq_true,
    builtFrom_eq_true_iff, not_not]

/-- Going through names and unions first and searching the rest finds the same. -/
theorem finds_isBarred_iff (t : Descriptor) :
    defs.Finds isUnion (defs.isBarred (defs.builtFrom admitted)) t ↔
      defs.FindsForeign admitted t := by
  constructor
  · rintro ⟨u, way, barred⟩
    have whole := way.everywhere
    cases u with
    | ref name => exact ⟨_, whole, barred⟩
    | union members => cases barred
    | _ =>
        obtain ⟨v, rest, foreign⟩ := (defs.isBarred_eq_true_iff admitted (by simp) rfl).mp barred
        exact ⟨v, ReflTransGen.trans whole rest, foreign⟩
  · rintro ⟨u, way, foreign⟩
    refine ReflTransGen.head_induction_on way ?_ ?_
    · refine ⟨u, ReflTransGen.refl, ?_⟩
      cases u with
      | ref name => exact foreign
      | union members => cases foreign
      | _ =>
          refine (defs.isBarred_eq_true_iff admitted (by simp) rfl).mpr ?_
          exact ⟨_, ReflTransGen.refl, foreign⟩
    · intro t v step rest ih
      obtain ⟨w, further, barred⟩ := ih
      cases step with
      | definition found => exact ⟨w, ReflTransGen.head (.definition found) further, barred⟩
      | part _ member =>
          by_cases union : isUnion t = true
          · exact ⟨w, ReflTransGen.head (.part union member) further, barred⟩
          · -- The type is searched as a whole, so the way on from here does not matter.
            have unnamed : ∀ name, t ≠ .ref name := by
              rintro name rfl
              cases member
            refine ⟨t, ReflTransGen.refl, ?_⟩
            refine (defs.isBarred_eq_true_iff admitted unnamed (by simpa using union)).mpr ?_
            exact ⟨u, ReflTransGen.head (.part rfl member) rest, foreign⟩

theorem search_single {side : Descriptor} (unnamed : ∀ name, side ≠ .ref name)
    (single : isUnion side = false) (test : Descriptor → Bool) :
    defs.search isUnion test [side] = test side := by
  rw [search]
  · simp [single, search]
  · exact unnamed

section Side

variable {side : Descriptor} {sides : List Descriptor}

/-- The definitions that are not assumed to fit a right side. -/
def Unassumed (side : Descriptor) (assumed : Assumptions) (fresh : Definitions) : Prop :=
  ∀ name, fresh[name]? = if assumed.holds name side then none else defs[name]?

theorem Unassumed.assume {defs : Definitions} {assumed : Assumptions} {fresh : Definitions}
    (unassumed : defs.Unassumed side assumed fresh) (name : String) :
    defs.Unassumed side (assumed.assume name side) (fresh.erase name) := by
  intro other
  rw [Std.TreeMap.getElem?_erase, unassumed, Assumptions.holds_assume]
  by_cases same : other = name
  · simp [same]
  · simp [same, Ne.symm same]

variable {defs} {admitted} {admits : Descriptor → Bool}

theorem isSide_of_mem {side : Descriptor} (listed : side ∈ sides) :
    defs.isSide sides side = true := by
  cases side <;> simp [isSide, listed]

theorem subtypeUnder_side_iff (unnamed : ∀ name, side ≠ .ref name) (single : isUnion side = false)
    (listed : side ∈ sides)
    (fits : ∀ assumed sub, fitsUnder defs sides assumed sub side = admits sub)
    {assumed : Assumptions} {fresh : Definitions} (unassumed : defs.Unassumed side assumed fresh)
    (t : Descriptor) :
    subtypeUnder defs sides assumed t side = true ↔
      ¬fresh.Finds isUnion (defs.isBarred admits) t := by
  refine check_iff_not_finds (defs.Unassumed side) (fun assumed name => assumed.assume name side)
    (fun assumed t => subtypeUnder defs sides assumed t side = true)
    Unassumed.assume ?_ ?_ unassumed t
  · intro assumed fresh unassumed name
    rw [subtypeUnder, if_neg (unnamed name), unassumed name, isBarred,
      Std.TreeMap.contains_eq_isSome_getElem?]
    split
    · rename_i missing
      simp [missing]
    · rename_i target found
      by_cases settled : assumed.holds name side = true
      · simp [settled, found]
      · simp [settled, found, isSide_of_mem listed]
  · intro assumed fresh _ t other
    cases t with
    | ref name => exact absurd rfl (other name)
    | union members =>
        rw [subtypeUnder]
        simp [isBarred, isUnion, Descriptor.components]
    | _ =>
        rw [subtypeUnder, defs.search_single unnamed single, fits]
        all_goals simp [isBarred, isUnion]

theorem mem_rightSides_self (defs : Definitions) (side : Descriptor) :
    side ∈ defs.rightSides side := by
  rw [rightSides, Descriptor.parts]
  exact List.mem_append_left _ List.mem_cons_self

theorem isSubtypeOf_side_iff (unnamed : ∀ name, side ≠ .ref name) (single : isUnion side = false)
    (fits : ∀ sides assumed sub, fitsUnder defs sides assumed sub side = admits sub)
    (t : Descriptor) :
    defs.isSubtypeOf t side = true ↔ ¬defs.Finds isUnion (defs.isBarred admits) t := by
  have unassumed : defs.Unassumed side ∅ defs := fun name => by simp [Assumptions.holds]
  exact subtypeUnder_side_iff unnamed single (defs.mem_rightSides_self side) (fits _) unassumed t

/-- To be a subtype of a scalar of all data is to be built from what the scalar admits. -/
theorem isSubtypeOf_top {top : Scalar}
    (fits : ∀ sides assumed sub,
      fitsUnder defs sides assumed sub (.scalar top) = defs.builtFrom admitted sub)
    (t : Descriptor) : defs.isSubtypeOf t (.scalar top) = defs.builtFrom admitted t := by
  rw [Bool.eq_iff_iff, isSubtypeOf_side_iff (by simp) rfl fits, finds_isBarred_iff,
    builtFrom_eq_true_iff]

end Side

theorem isSubtypeOf_anydata (t : Descriptor) :
    defs.isSubtypeOf t (.scalar .anydata) = defs.isData t := by
  refine isSubtypeOf_top (fun sides assumed sub => ?_) t
  rw [fitsUnder, isData]

end SchemaWeaver.Definitions
