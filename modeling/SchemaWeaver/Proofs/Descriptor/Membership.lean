import SchemaWeaver.Proofs.Descriptor.Data

/-!
Data membership, decided in three ways: by a search that opens each name once, by a check that goes
down every way and remembers only the names that it is inside of, and by the subtype check against
the type of all data. All of them find the types that lead to no bad leaf.
-/

set_option autoImplicit false
set_option relaxedAutoImplicit false

namespace SchemaWeaver.Definitions

/-- A type that is no data by itself: a barred scalar, an object, an error, or a name without a
definition. -/
inductive BadLeaf (defs : Definitions) (barred : List Scalar) : Descriptor → Prop
  | scalar {kind : Scalar} (member : kind ∈ barred) : BadLeaf defs barred (.scalar kind)
  | object (type : ObjectType) : BadLeaf defs barred (.object type)
  | error : BadLeaf defs barred .error
  | undefined {name : String} (missing : defs[name]? = none) : BadLeaf defs barred (.ref name)

/-- Whether a type is built from admitted scalars, where only the definitions in `fresh` are opened.
The others are those that the type is inside of, and they add nothing. -/
def conforms (defs fresh : Definitions) (admitted : Scalar → Bool) (t : Descriptor) : Bool :=
  match t with
  | .scalar kind => admitted kind
  | .object _ => false
  | .error => false
  | .ref name =>
      match _found : fresh[name]? with
      | some target => conforms defs (fresh.erase name) admitted target
      | none => defs.contains name
  | t => t.components.attach.all fun ⟨part, _⟩ => conforms defs fresh admitted part
termination_by (fresh.size, sizeOf t)
decreasing_by
  · exact Prod.Lex.left _ _ (size_erase_lt _found)
  · exact Prod.Lex.right _ (Descriptor.sizeOf_lt_of_mem_components (by assumption))

variable {defs : Definitions} {admitted : Scalar → Bool}

private theorem isForeign_iff_badLeaf {barred : List Scalar}
    (bars : ∀ kind, admitted kind = false ↔ kind ∈ barred) (t : Descriptor) :
    defs.isForeign admitted t = true ↔ defs.BadLeaf barred t := by
  constructor
  · intro foreign
    cases t with
    | scalar kind =>
        have refused : admitted kind = false := by simpa [isForeign] using foreign
        exact .scalar ((bars kind).mp refused)
    | ref name =>
        rw [isForeign, Std.TreeMap.contains_eq_isSome_getElem?] at foreign
        cases found : defs[name]? with
        | none => exact .undefined found
        | some target => simp [found] at foreign
    | object type => exact .object type
    | error => exact .error
    | _ => cases foreign
  · intro bad
    cases bad with
    | @scalar kind member =>
        have refused : admitted kind = false := (bars kind).mpr member
        simp [isForeign, refused]
    | object type => rfl
    | error => rfl
    | undefined missing =>
        rw [isForeign, Std.TreeMap.contains_eq_isSome_getElem?, missing]
        rfl

private theorem builtFrom_iff_no_badLeaf {barred : List Scalar}
    (bars : ∀ kind, admitted kind = false ↔ kind ∈ barred) (t : Descriptor) :
    defs.builtFrom admitted t = true ↔
      ¬∃ u, defs.Reaches (fun _ => true) t u ∧ defs.BadLeaf barred u := by
  rw [builtFrom_eq_true_iff, FindsForeign, Finds]
  simp only [isForeign_iff_badLeaf bars]

private theorem conforms_of_unnamed (fresh : Definitions) {t : Descriptor}
    (unnamed : ∀ name, t ≠ .ref name) :
    conforms defs fresh admitted t =
      (!defs.isForeign admitted t && t.components.all (conforms defs fresh admitted)) := by
  have each (parts : List Descriptor) :
      (parts.attach.all fun part => conforms defs fresh admitted part.1) =
        parts.all (conforms defs fresh admitted) := by simp
  cases t with
  | ref name => exact absurd rfl (unnamed name)
  | scalar kind => simp [conforms, isForeign, Descriptor.components]
  | object type => simp [conforms, isForeign]
  | error => simp [conforms, isForeign]
  | _ =>
      rw [conforms, each]
      · rfl
      all_goals simp

theorem conforms_of_found {fresh : Definitions} {name : String} {target : Descriptor}
    (found : fresh[name]? = some target) :
    conforms defs fresh admitted (.ref name) =
      conforms defs (fresh.erase name) admitted target := by
  rw [conforms]
  exact match_of_found found

theorem conforms_of_missing {fresh : Definitions} {name : String} (missing : fresh[name]? = none) :
    conforms defs fresh admitted (.ref name) = defs.contains name := by
  rw [conforms]
  exact match_of_missing missing

theorem conforms_eq_builtFrom (t : Descriptor) :
    conforms defs defs admitted t = defs.builtFrom admitted t := by
  have known : ∀ name target, defs[name]? = some target → defs.contains name := by
    intro name target found
    rw [Std.TreeMap.contains_eq_isSome_getElem?, found]
    rfl
  have checked : conforms defs defs admitted t = true ↔
      ¬defs.Finds (fun _ => true) (defs.isForeign admitted) t := by
    -- The state of the check is the definitions that it may still open.
    refine check_iff_not_finds
      (fun s fresh => s = fresh ∧ ∀ name target, fresh[name]? = some target → defs.contains name)
      (fun fresh name => fresh.erase name) (fun fresh t => conforms defs fresh admitted t = true)
      ?_ ?_ ?_ ⟨rfl, known⟩ t
    · rintro s fresh ⟨rfl, known⟩ name
      refine ⟨rfl, fun other target found => ?_⟩
      exact known other target (getElem?_of_erase found).2
    · rintro s fresh ⟨rfl, known⟩ name
      cases found : s[name]? with
      | some target => simp [conforms_of_found found, isForeign, known name target found]
      | none => simp [conforms_of_missing found, isForeign]
    · rintro s fresh ⟨rfl, known⟩ t unnamed
      rw [conforms_of_unnamed s unnamed]
      simp
  rw [Bool.eq_iff_iff, checked, builtFrom_eq_true_iff, FindsForeign]

theorem isSubtypeOf_json (t : Descriptor) :
    defs.isSubtypeOf t (.scalar .json) = defs.isJson t := by
  refine isSubtypeOf_top (fun sides assumed sub => ?_) t
  rw [fitsUnder, isJson]

/-- To be plain data is to be a subtype of the type of all data, and to lead to no bad leaf; so it
is for JSON data, where the scalar of all data is one more bad leaf. -/
theorem membership_iff_no_badLeaf (defs : Definitions) (t : Descriptor) :
    (defs.isData t = defs.isSubtypeOf t (.scalar .anydata) ∧
      defs.isData t = conforms defs defs Scalar.isData t ∧
      (defs.isData t = true ↔
        ¬∃ u, defs.Reaches (fun _ => true) t u ∧ defs.BadLeaf [.any, .handle] u)) ∧
    (defs.isJson t = defs.isSubtypeOf t (.scalar .json) ∧
      defs.isJson t = conforms defs defs Scalar.isJson t ∧
      (defs.isJson t = true ↔
        ¬∃ u, defs.Reaches (fun _ => true) t u ∧ defs.BadLeaf [.any, .handle, .anydata] u)) := by
  have barsData : ∀ kind, Scalar.isData kind = false ↔ kind ∈ [Scalar.any, .handle] := by
    intro kind
    cases kind <;> decide
  have barsJson : ∀ kind, Scalar.isJson kind = false ↔ kind ∈ [Scalar.any, .handle, .anydata] := by
    intro kind
    cases kind <;> decide
  refine ⟨⟨(defs.isSubtypeOf_anydata t).symm, ?_, ?_⟩, ⟨(isSubtypeOf_json t).symm, ?_, ?_⟩⟩
  · exact (conforms_eq_builtFrom t).symm
  · exact builtFrom_iff_no_badLeaf barsData t
  · exact (conforms_eq_builtFrom t).symm
  · exact builtFrom_iff_no_badLeaf barsJson t

end SchemaWeaver.Definitions
