import SchemaWeaver.Proofs.Descriptor.Leads
import SchemaWeaver.Proofs.Schema.Acceptance
import SchemaWeaver.Schema.Raw

/-!
The JSON values that a type admits, read off its constructors. A name admits what its definition
admits, and everything inside its own definition. Fields that are missing and those that are not
declared are not constrained, and neither is the length of a tuple.
-/

set_option autoImplicit false
set_option relaxedAutoImplicit false

namespace SchemaWeaver

def Scalar.admits : Scalar → Json → Bool
  | .nil, .null => true
  | .boolean, .bool _ => true
  | .int, .num value => value.isIntegral
  | .byte, .num _ => true
  | .float, .num _ => true
  | .decimal, .num _ => true
  | .string, .str _ => true
  | .json, _ => true
  | .anydata, _ => true
  | _, _ => false

/-- The name of the type of the values of a scalar type, if they have one type other than null. -/
def Scalar.typeName? : Scalar → Option String
  | .boolean => some "boolean"
  | .int => some "integer"
  | .byte => some "number"
  | .float => some "number"
  | .decimal => some "number"
  | .string => some "string"
  | _ => none

theorem Scalar.admits_eq_decide {kind : Scalar} {name : String}
    (named : kind.typeName? = some name) (v : Json) :
    kind.admits v = decide (name ∈ v.typeNames) := by
  cases kind <;> cases named <;>
    cases v with
    | num value => simp [admits, Json.mem_typeNames_num]
    | _ => simp [admits, Json.typeNames]

theorem Schema.eq_nil_of_isNil {t : Descriptor} (nil : isNil t = true) : t = .scalar .nil := by
  unfold isNil at nil
  split at nil
  · rfl
  · cases nil

namespace Definitions

/-- The names that have a definition that is not opened. -/
def unopened (defs : Definitions) (opened : List String) : List String :=
  defs.keys.filter fun name => name ∉ opened

theorem length_unopened_cons_lt {defs : Definitions} {opened : List String} {name : String}
    {target : Descriptor} (found : defs[name]? = some target) (closed : name ∉ opened) :
    (defs.unopened (name :: opened)).length < (defs.unopened opened).length := by
  have present : name ∈ defs.unopened opened := by
    rw [unopened, List.mem_filter, Std.TreeMap.mem_keys, ← Std.TreeMap.contains_iff_mem,
      Std.TreeMap.contains_eq_isSome_getElem?, found]
    simp [closed]
  have narrowed : defs.unopened (name :: opened) = (defs.unopened opened).filter (· ≠ name) := by
    rw [unopened, unopened, List.filter_filter]
    congr 1
    funext other
    simp
  rw [narrowed]
  exact List.length_filter_lt_length_iff_exists.mpr ⟨name, present, by simp⟩

mutual

/-- Whether a type admits a value, where the definitions of the names in `opened` are being read. -/
def admits (defs : Definitions) (opened : List String) (t : Descriptor) (v : Json) : Bool :=
  match t with
  | .scalar kind => kind.admits v
  | .array element => v.isArrayOf fun item => admits defs opened element item
  | .tuple members =>
      v.isArrayOf fun item => members.isEmpty || admitsAny defs opened members item
  | .record fields _ => v.isObjectWith fun entries => admitsFields defs opened fields entries
  | .union members => members.isEmpty && v.isNull || admitsAny defs opened members v
  | .ref name =>
      if _opened : name ∈ opened then true
      else
        match _found : defs[name]? with
        | some target => admits defs (name :: opened) target v
        | none => false
  | .object _ => false
  | .error => false
termination_by ((defs.unopened opened).length, sizeOf t)
decreasing_by
  · exact Prod.Lex.right _ (by simp +arith)
  · exact Prod.Lex.right _ (by simp +arith)
  · exact Prod.Lex.right _ (by simp +arith)
  · exact Prod.Lex.right _ (by simp +arith)
  · exact Prod.Lex.left _ _ (length_unopened_cons_lt _found _opened)

def admitsAny (defs : Definitions) (opened : List String) (members : List Descriptor) (v : Json) :
    Bool :=
  match members with
  | [] => false
  | member :: others => admits defs opened member v || admitsAny defs opened others v
termination_by ((defs.unopened opened).length, sizeOf members)
decreasing_by
  · exact Prod.Lex.right _ (by simp +arith)
  · exact Prod.Lex.right _ (by simp +arith)

/-- Whether each field that is declared and there is admitted by its type. -/
def admitsFields (defs : Definitions) (opened : List String)
    (fields : List (String × Field Descriptor)) (entries : Keyed String Json) : Bool :=
  match fields with
  | [] => true
  | (name, field) :: others =>
      ((Keyed.get? entries name).all fun v => admits defs opened field.type v) &&
        admitsFields defs opened others entries
termination_by ((defs.unopened opened).length, sizeOf fields)
decreasing_by
  · cases field
    exact Prod.Lex.right _ (by simp +arith)
  · exact Prod.Lex.right _ (by simp +arith)

end

theorem admits_ref_of_mem {opened : List String} {name : String} (inside : name ∈ opened)
    (defs : Definitions) (v : Json) : defs.admits opened (.ref name) v = true := by
  rw [admits, dif_pos inside]

theorem admits_ref_of_not_mem {defs : Definitions} {opened : List String} {name : String}
    {target : Descriptor} (outside : name ∉ opened) (found : defs[name]? = some target)
    (v : Json) : defs.admits opened (.ref name) v = defs.admits (name :: opened) target v := by
  rw [admits, dif_neg outside]
  exact match_of_found found

theorem admits_ref_of_missing {defs : Definitions} {opened : List String} {name : String}
    (outside : name ∉ opened) (missing : defs[name]? = none) (v : Json) :
    defs.admits opened (.ref name) v = false := by
  rw [admits, dif_neg outside]
  exact match_of_missing missing

theorem admitsAny_eq_any (defs : Definitions) (opened : List String) (members : List Descriptor)
    (v : Json) :
    defs.admitsAny opened members v = members.any fun member => defs.admits opened member v := by
  induction members with
  | nil => rw [admitsAny, List.any_nil]
  | cons member others ih => rw [admitsAny, ih, List.any_cons]

theorem admitsFields_eq_all (defs : Definitions) (opened : List String)
    (fields : List (String × Field Descriptor)) (entries : Keyed String Json) :
    defs.admitsFields opened fields entries = fields.all fun field =>
      (Keyed.get? entries field.1).all (defs.admits opened field.2.type) := by
  induction fields with
  | nil => rw [admitsFields, List.all_nil]
  | cons field others ih => rw [admitsFields, ih, List.all_cons]

def properMembers (members : List Descriptor) : List Descriptor :=
  members.filter fun member => !Schema.isNil member

theorem mem_of_mem_properMembers {members : List Descriptor} {member : Descriptor}
    (proper : member ∈ properMembers members) : member ∈ members :=
  (List.mem_filter.mp proper).1

theorem properMembers_cons_of_isNil {member : Descriptor} (nil : Schema.isNil member = true)
    (others : List Descriptor) : properMembers (member :: others) = properMembers others :=
  List.filter_cons_of_neg (by simp [nil])

theorem properMembers_cons_of_not_isNil {member : Descriptor}
    (proper : Schema.isNil member = false) (others : List Descriptor) :
    properMembers (member :: others) = member :: properMembers others :=
  List.filter_cons_of_pos (by simp [proper])

theorem any_admits_eq_properMembers (defs : Definitions) (opened : List String)
    (members : List Descriptor) (v : Json) :
    (members.any fun member => defs.admits opened member v) =
      (((properMembers members).any fun member => defs.admits opened member v) ||
        members.any Schema.isNil && v.isNull) := by
  induction members with
  | nil => rfl
  | cons member others ih =>
      cases nil : Schema.isNil member with
      | false =>
          rw [List.any_cons, ih, properMembers_cons_of_not_isNil nil, List.any_cons,
            List.any_cons, nil, Bool.false_or, Bool.or_assoc]
      | true =>
          obtain rfl := Schema.eq_nil_of_isNil nil
          have null : defs.admits opened (.scalar .nil) v = v.isNull := by
            rw [admits]
            cases v <;> rfl
          rw [List.any_cons, ih, properMembers_cons_of_isNil nil, List.any_cons, nil, null]
          cases v.isNull <;> simp

theorem admits_union (defs : Definitions) (opened : List String) (members : List Descriptor)
    (v : Json) :
    defs.admits opened (.union members) v =
      (((properMembers members).any fun member => defs.admits opened member v) ||
        (members.any Schema.isNil || (properMembers members).isEmpty) && v.isNull) := by
  rw [admits, admitsAny_eq_any, any_admits_eq_properMembers]
  cases nils : members.any Schema.isNil with
  | true => cases v.isNull <;> simp
  | false =>
      -- Without nil no member is set apart.
      have same : properMembers members = members := by
        refine List.filter_eq_self.mpr fun member inside => ?_
        have proper := List.any_eq_false.mp nils member inside
        simpa using proper
      rw [same, Bool.false_or, Bool.false_and, Bool.or_false, Bool.or_comm]

end Definitions

end SchemaWeaver
