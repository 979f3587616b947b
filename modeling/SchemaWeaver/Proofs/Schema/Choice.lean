import SchemaWeaver.Proofs.Keyed
import SchemaWeaver.Proofs.Schema.Admission

/-!
The values that a type takes if of several alternatives a value has to be taken by one at least, or
by exactly one. In the first reading a type takes just what it admits.
-/

set_option autoImplicit false
set_option relaxedAutoImplicit false

namespace SchemaWeaver

namespace Definitions

/-- Whether the schema of a type admits everything, because the type does so by itself. -/
def isFree (defs : Definitions) (opened : List String) (t : Descriptor) : Bool :=
  match t with
  | .scalar kind => kind = .json || kind = .anydata
  | .union members => members.attach.any fun member => isFree defs opened member.1
  | .ref name =>
      if _opened : name ∈ opened then false
      else
        match _found : defs[name]? with
        | some target => isFree defs (name :: opened) target
        | none => false
  | _ => false
termination_by ((defs.unopened opened).length, sizeOf t)
decreasing_by
  · exact Prod.Lex.right _ (Descriptor.sizeOf_lt_of_mem_components (t := .union members) member.2)
  · exact Prod.Lex.left _ _ (length_unopened_cons_lt _found _opened)

/-- Whether a type takes a value, or null if it is `nullable`. What a type admits is read again with
another reading of unions and of the elements of tuples (`takes_any`); nil is set apart from the
members of a union, since it makes the schema of a single other one admit null. -/
def takes (reading : Schema.Reading) (defs : Definitions) (opened : List String) (nullable : Bool)
    (t : Descriptor) (v : Json) : Bool :=
  match t with
  | .scalar kind => kind.admits v || nullable && v.isNull
  | .array element =>
      v.isArrayOf (fun item => takes reading defs opened false element item) ||
        nullable && v.isNull
  | .tuple members =>
      v.isArrayOf (fun item => members.isEmpty || reading.chooses
        (members.attach.map fun member => takes reading defs opened false member.1 item)) ||
        nullable && v.isNull
  | .record fields _ =>
      v.isObjectWith (fun entries => fields.attach.all fun field =>
        (Keyed.get? entries field.1.1).all fun value =>
          takes reading defs opened false field.1.2.type value) ||
        nullable && v.isNull
  | .union members =>
      if defs.isFree opened (.union members) then true
      else
        match _proper : properMembers members with
        | [] => v.isNull
        | [member] =>
            takes reading defs opened (nullable || members.any Schema.isNil) member v
        | others =>
            reading.chooses
              (others.attach.map (fun member => takes reading defs opened false member.1 v) ++
                if nullable || members.any Schema.isNil then [v.isNull] else [])
  | .ref name =>
      if _opened : name ∈ opened then true
      else
        match _found : defs[name]? with
        | some target => takes reading defs (name :: opened) nullable target v
        | none => nullable && v.isNull
  | .object _ => nullable && v.isNull
  | .error => nullable && v.isNull
termination_by ((defs.unopened opened).length, sizeOf t)
decreasing_by
  · exact Prod.Lex.right _ (Descriptor.sizeOf_lt_of_mem_components List.mem_cons_self)
  · exact Prod.Lex.right _ (Descriptor.sizeOf_lt_of_mem_components (t := .tuple members) member.2)
  · exact Prod.Lex.right _ (Descriptor.sizeOf_lt_of_mem_components
      (Descriptor.field_mem_components field.2 _))
  · have proper : member ∈ properMembers members := by simp [_proper]
    exact Prod.Lex.right _ (Descriptor.sizeOf_lt_of_mem_components (t := .union members)
      (mem_of_mem_properMembers proper))
  · have proper : member.1 ∈ properMembers members := by rw [_proper]; exact member.2
    exact Prod.Lex.right _ (Descriptor.sizeOf_lt_of_mem_components (t := .union members)
      (mem_of_mem_properMembers proper))
  · exact Prod.Lex.left _ _ (length_unopened_cons_lt _found _opened)

variable {defs : Definitions} {opened : List String}

@[simp]
theorem isFree_array (element : Descriptor) : defs.isFree opened (.array element) = false := by
  simp [isFree]

@[simp]
theorem isFree_tuple (members : List Descriptor) :
    defs.isFree opened (.tuple members) = false := by
  simp [isFree]

@[simp]
theorem isFree_record (fields : List (String × Field Descriptor)) (rest : Option Descriptor) :
    defs.isFree opened (.record fields rest) = false := by
  simp [isFree]

theorem isFree_union (members : List Descriptor) :
    defs.isFree opened (.union members) = members.any (defs.isFree opened) := by
  rw [isFree]
  simp

theorem isFree_ref_of_not_mem {name : String} {target : Descriptor} (closed : name ∉ opened)
    (found : defs[name]? = some target) :
    defs.isFree opened (.ref name) = defs.isFree (name :: opened) target := by
  rw [isFree, dif_neg closed]
  exact match_of_found found

theorem isFree_union_properMembers (members : List Descriptor) :
    defs.isFree opened (.union members) = (properMembers members).any (defs.isFree opened) := by
  rw [isFree_union]
  induction members with
  | nil => rfl
  | cons member others ih =>
      cases nil : Schema.isNil member with
      | false => rw [properMembers_cons_of_not_isNil nil, List.any_cons, List.any_cons, ih]
      | true =>
          obtain rfl := Schema.eq_nil_of_isNil nil
          rw [properMembers_cons_of_isNil nil, List.any_cons, ih, isFree]
          rfl

section Readings

variable (reading : Schema.Reading) (nullable : Bool) (v : Json)

theorem takes_tuple (members : List Descriptor) :
    defs.takes reading opened nullable (.tuple members) v =
      (v.isArrayOf (fun item => members.isEmpty || reading.chooses
        (members.map fun member => defs.takes reading opened false member item)) ||
        nullable && v.isNull) := by
  rw [takes]
  simp

theorem takes_record (fields : List (String × Field Descriptor)) (rest : Option Descriptor) :
    defs.takes reading opened nullable (.record fields rest) v =
      (v.isObjectWith (fun entries => fields.all fun field =>
        (Keyed.get? entries field.1).all (defs.takes reading opened false field.2.type)) ||
        nullable && v.isNull) := by
  rw [takes]
  congr 2
  funext entries
  exact all_attach fields fun field =>
    (Keyed.get? entries field.1).all (defs.takes reading opened false field.2.type)

theorem takes_union_of_isFree {members : List Descriptor}
    (free : defs.isFree opened (.union members) = true) :
    defs.takes reading opened nullable (.union members) v = true := by
  rw [takes, if_pos free]

theorem takes_union_nil {members : List Descriptor} (none : properMembers members = []) :
    defs.takes reading opened nullable (.union members) v = v.isNull := by
  have proper : ¬defs.isFree opened (.union members) = true := by
    simp [isFree_union_properMembers, none]
  rw [takes, if_neg proper]
  split
  · rfl
  · rename_i single
    cases none.symm.trans single
  · rename_i several _
    exact absurd none several

theorem takes_union_single {members : List Descriptor} {member : Descriptor}
    (proper : defs.isFree opened (.union members) = false)
    (single : properMembers members = [member]) :
    defs.takes reading opened nullable (.union members) v =
      defs.takes reading opened (nullable || members.any Schema.isNil) member v := by
  rw [takes, if_neg (by simp [proper])]
  split
  · rename_i none
    cases single.symm.trans none
  · rename_i other same
    cases single.symm.trans same
    rfl
  · rename_i several
    exact absurd single (several member)

theorem takes_union_several {members : List Descriptor}
    (proper : defs.isFree opened (.union members) = false)
    (several : 2 ≤ (properMembers members).length) :
    defs.takes reading opened nullable (.union members) v =
      reading.chooses
        ((properMembers members).map (fun member => defs.takes reading opened false member v) ++
          if nullable || members.any Schema.isNil then [v.isNull] else []) := by
  rw [takes, if_neg (by simp [proper])]
  split
  · rename_i none
    simp [none] at several
  · rename_i single
    simp [single] at several
  · simp

theorem takes_ref_of_mem {name : String} (inside : name ∈ opened) :
    defs.takes reading opened nullable (.ref name) v = true := by
  rw [takes, dif_pos inside]

theorem takes_ref_of_not_mem {name : String} {target : Descriptor} (closed : name ∉ opened)
    (found : defs[name]? = some target) :
    defs.takes reading opened nullable (.ref name) v =
      defs.takes reading (name :: opened) nullable target v := by
  rw [takes, dif_neg closed]
  exact match_of_found found

theorem takes_ref_of_missing {name : String} (closed : name ∉ opened)
    (missing : defs[name]? = none) :
    defs.takes reading opened nullable (.ref name) v = (nullable && v.isNull) := by
  rw [takes, dif_neg closed]
  exact match_of_missing missing

end Readings

theorem admits_of_isFree (defs : Definitions) (opened : List String) (t : Descriptor)
    (free : defs.isFree opened t = true) (v : Json) : defs.admits opened t v = true := by
  fun_induction isFree defs opened t with
  | case1 opened kind =>
      rw [admits]
      cases kind <;> first | rfl | cases free
  | case2 opened members ih =>
      obtain ⟨member, -, free⟩ := List.any_eq_true.mp free
      have among : (members.any fun member => defs.admits opened member v) = true :=
        List.any_eq_true.mpr ⟨member.1, member.2, ih member free⟩
      rw [admits, admitsAny_eq_any, among, Bool.or_true]
  | case3 => cases free
  | case4 opened name closed target found ih =>
      rw [admits_ref_of_not_mem closed found, ih free]
  | case5 => cases free
  | case6 => cases free

/-- If a value may be taken by several alternatives, a type takes what it admits. -/
theorem takes_any (defs : Definitions) (opened : List String) (nullable : Bool) (t : Descriptor)
    (v : Json) :
    defs.takes .any opened nullable t v = (defs.admits opened t v || nullable && v.isNull) := by
  fun_induction takes .any defs opened nullable t v with
  | case1 => rw [admits]
  | case2 opened nullable v element ih =>
      simp only [Bool.false_and, Bool.or_false] at ih
      rw [admits, funext ih]
  | case3 opened nullable v members ih =>
      rw [admits]
      simp [ih, admitsAny_eq_any, Schema.Reading.chooses]
  | case4 opened nullable v fields rest ih =>
      simp only [Bool.false_and, Bool.or_false] at ih
      rw [admits]
      congr 2
      funext entries
      rw [admitsFields_eq_all, ← all_attach fields]
      refine congrArg fields.attach.all (funext fun field => ?_)
      rw [funext (ih field)]
  | case5 opened nullable v members free =>
      rw [admits_of_isFree defs opened _ free, Bool.true_or]
  | case6 opened nullable v members proper none =>
      rw [admits_union, none]
      cases nullable <;> cases v.isNull <;> simp
  | case7 opened nullable v members proper member single ih =>
      rw [ih, admits_union, single]
      cases nullable <;> cases v.isNull <;> simp
  | case8 opened nullable v members proper some several ih =>
      have each : (properMembers members).attach.map (fun member =>
          takes .any defs opened false member.1 v) =
          (properMembers members).map fun member => defs.admits opened member v := by
        simp [ih]
      have present : (properMembers members).isEmpty = false := by simpa using some
      rw [each, admits_union, present]
      cases nullable <;> cases members.any Schema.isNil <;>
        simp [Schema.Reading.chooses]
  | case9 opened nullable v name inside => rw [admits_ref_of_mem inside, Bool.true_or]
  | case10 opened nullable v name closed target found ih =>
      rw [ih, admits_ref_of_not_mem closed found]
  | case11 opened nullable v name closed missing =>
      rw [admits_ref_of_missing closed missing, Bool.false_or]
  | case12 => rw [admits, Bool.false_or]
  | case13 => rw [admits, Bool.false_or]

/-! ## Alternatives -/

/-- What a union offers: null, or a type in the definitions of some names. -/
inductive Alternative where
  | null
  | type (opened : List String) (t : Descriptor)

def Alternative.takes (reading : Schema.Reading) (defs : Definitions) : Alternative → Json → Bool
  | .null, v => v.isNull
  | .type opened t, v => defs.takes reading opened false t v

/-- The alternatives of a union that is not free: its members, and null if nil is one of them or if
null is to be admitted anyway. A union with one member other than nil offers what this one offers,
and a name what its definition offers. -/
def alternatives (defs : Definitions) (opened : List String) (nullable : Bool) (t : Descriptor) :
    List Alternative :=
  match t with
  | .union members =>
      if defs.isFree opened (.union members) then []
      else
        match _proper : properMembers members with
        | [] => []
        | [member] => alternatives defs opened (nullable || members.any Schema.isNil) member
        | others =>
            others.map (.type opened) ++
              if nullable || members.any Schema.isNil then [.null] else []
  | .ref name =>
      if _opened : name ∈ opened then []
      else
        match _found : defs[name]? with
        | some target => alternatives defs (name :: opened) nullable target
        | none => []
  | _ => []
termination_by ((defs.unopened opened).length, sizeOf t)
decreasing_by
  · have proper : member ∈ properMembers members := by simp [_proper]
    exact Prod.Lex.right _ (Descriptor.sizeOf_lt_of_mem_components (t := .union members)
      (mem_of_mem_properMembers proper))
  · exact Prod.Lex.left _ _ (length_unopened_cons_lt _found _opened)

theorem alternatives_union_single {members : List Descriptor} {member : Descriptor}
    (proper : defs.isFree opened (.union members) = false)
    (single : properMembers members = [member]) (nullable : Bool) :
    defs.alternatives opened nullable (.union members) =
      defs.alternatives opened (nullable || members.any Schema.isNil) member := by
  rw [alternatives, if_neg (by simp [proper])]
  split
  · rename_i none
    cases single.symm.trans none
  · rename_i other same
    cases single.symm.trans same
    rfl
  · rename_i several
    exact absurd single (several member)

theorem alternatives_union_several {members : List Descriptor}
    (proper : defs.isFree opened (.union members) = false)
    (several : 2 ≤ (properMembers members).length) (nullable : Bool) :
    defs.alternatives opened nullable (.union members) =
      (properMembers members).map (.type opened) ++
        if nullable || members.any Schema.isNil then [.null] else [] := by
  rw [alternatives, if_neg (by simp [proper])]
  split
  · rename_i none
    simp [none] at several
  · rename_i single
    simp [single] at several
  · rfl

theorem alternatives_ref_of_not_mem {name : String} {target : Descriptor} (closed : name ∉ opened)
    (found : defs[name]? = some target) (nullable : Bool) :
    defs.alternatives opened nullable (.ref name) =
      defs.alternatives (name :: opened) nullable target := by
  rw [alternatives, dif_neg closed]
  exact match_of_found found

theorem takes_eq_chooses {members : List Descriptor}
    (proper : defs.isFree opened (.union members) = false)
    (several : 2 ≤ (properMembers members).length) (reading : Schema.Reading) (nullable : Bool)
    (v : Json) :
    defs.takes reading opened nullable (.union members) v =
      reading.chooses ((defs.alternatives opened nullable (.union members)).map
        fun alternative => alternative.takes reading defs v) := by
  rw [takes_union_several reading nullable v proper several,
    alternatives_union_several proper several, List.map_append, List.map_map]
  split <;> rfl

end Definitions

end SchemaWeaver
