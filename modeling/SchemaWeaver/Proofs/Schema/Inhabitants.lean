import SchemaWeaver.Proofs.Schema.Choice

/-!
The JSON values of types, the types that stand inside a name, and the types that the parts of a
value of the name stand at. A record has its required fields and, if it is closed, no others than
the declared ones; a tuple has one element for each member. A type takes those of its values of
which no part has two alternatives to choose from.
-/

set_option autoImplicit false
set_option relaxedAutoImplicit false

namespace SchemaWeaver

def Json.Number.isByte : Number → Bool
  | .int n => 0 ≤ n && n ≤ 255
  | .float value =>
      let (numerator, denominator) :=
        Numeric.Magnitude.quotient value.magnitude.significand value.magnitude.exponent
      numerator % denominator = 0 && numerator ≤ 255 * denominator &&
        (!value.negative || numerator = 0)

def Scalar.inhabited : Scalar → Json → Bool
  | .byte, .num value => value.isByte
  | kind, v => kind.admits v

theorem Scalar.admits_of_inhabited {kind : Scalar} {v : Json} (inside : kind.inhabited v = true) :
    kind.admits v = true := by
  unfold inhabited at inside
  split at inside
  · rfl
  · exact inside

namespace Definitions

inductive Inhabits (defs : Definitions) : Descriptor → Json → Prop
  | scalar {kind : Scalar} {v : Json} (inside : kind.inhabited v = true) :
      Inhabits defs (.scalar kind) v
  | array {element : Descriptor} {items : List Json}
      (each : ∀ item ∈ items, Inhabits defs element item) :
      Inhabits defs (.array element) (.arr items)
  | tuple {members : List Descriptor} {items : List Json} (count : items.length = members.length)
      (each : ∀ pair ∈ members.zip items, Inhabits defs pair.1 pair.2) :
      Inhabits defs (.tuple members) (.arr items)
  | record {fields : List (String × Field Descriptor)} {rest : Option Descriptor}
      {entries : List (String × Json)} (distinct : (Keyed.keys entries).Nodup)
      (required : ∀ field ∈ fields, field.2.optional = false → field.1 ∈ Keyed.keys entries)
      (declared : ∀ field ∈ fields, ∀ v, Keyed.get? entries field.1 = some v →
        Inhabits defs field.2.type v)
      (closed : rest = none → Keyed.keys entries ⊆ Keyed.keys fields)
      (further : ∀ type ∈ rest, ∀ entry ∈ entries, entry.1 ∉ Keyed.keys fields →
        Inhabits defs type entry.2) : Inhabits defs (.record fields rest) (.obj entries)
  | union {members : List Descriptor} {member : Descriptor} {v : Json} (among : member ∈ members)
      (inside : Inhabits defs member v) : Inhabits defs (.union members) v
  | ref {name : String} {target : Descriptor} {v : Json} (found : defs[name]? = some target)
      (inside : Inhabits defs target v) : Inhabits defs (.ref name) v

/-- The types that stand inside a name, each with the names whose definitions it stands in. -/
inductive StandsIn (defs : Definitions) (root : String) : List String → Descriptor → Prop
  | root : StandsIn defs root [] (.ref root)
  | part {opened : List String} {t part : Descriptor} (stands : StandsIn defs root opened t)
      (member : part ∈ t.components) : StandsIn defs root opened part
  | definition {opened : List String} {name : String} {target : Descriptor}
      (stands : StandsIn defs root opened (.ref name)) (closed : name ∉ opened)
      (found : defs[name]? = some target) : StandsIn defs root (name :: opened) target

/-- The types inside a name that the parts of a value stand at. A value of a union stands at those
of its members that it belongs to, an element of a tuple at the member in its place. -/
inductive StandsAt (defs : Definitions) (root : String) (v : Json) :
    List String → Descriptor → Json → Prop
  | root : StandsAt defs root v [] (.ref root) v
  | element {opened : List String} {element : Descriptor} {items : List Json} {item : Json}
      (stands : StandsAt defs root v opened (.array element) (.arr items))
      (member : item ∈ items) : StandsAt defs root v opened element item
  | place {opened : List String} {members : List Descriptor} {items : List Json}
      {member : Descriptor} {item : Json}
      (stands : StandsAt defs root v opened (.tuple members) (.arr items))
      (pair : (member, item) ∈ members.zip items) : StandsAt defs root v opened member item
  | field {opened : List String} {fields : List (String × Field Descriptor)}
      {rest : Option Descriptor} {entries : List (String × Json)}
      {field : String × Field Descriptor} {value : Json}
      (stands : StandsAt defs root v opened (.record fields rest) (.obj entries))
      (declared : field ∈ fields) (found : Keyed.get? entries field.1 = some value) :
      StandsAt defs root v opened field.2.type value
  | member {opened : List String} {members : List Descriptor} {member : Descriptor} {part : Json}
      (stands : StandsAt defs root v opened (.union members) part) (among : member ∈ members)
      (inside : Inhabits defs member part) : StandsAt defs root v opened member part
  | definition {opened : List String} {name : String} {target : Descriptor} {part : Json}
      (stands : StandsAt defs root v opened (.ref name) part) (closed : name ∉ opened)
      (found : defs[name]? = some target) : StandsAt defs root v (name :: opened) target part

/-- How many of the alternatives of a type take a value alone. -/
def choices (defs : Definitions) (opened : List String) (nullable : Bool) (t : Descriptor)
    (v : Json) : Nat :=
  (defs.alternatives opened nullable t).countP fun alternative => alternative.takes .one defs v

/-- No part of a value has two alternatives of the type that it stands at to choose from, and no
element of a tuple two members. -/
structure Unambiguous (defs : Definitions) (root : String) (v : Json) : Prop where
  unions : ∀ opened t part, defs.StandsAt root v opened t part →
    defs.choices opened false t part ≤ 1
  tuples : ∀ opened members items, defs.StandsAt root v opened (.tuple members) (.arr items) →
    ∀ item ∈ items, (members.countP fun member => defs.takes .one opened false member item) ≤ 1

variable {defs : Definitions} {opened : List String}

/-- Of at most one alternative that takes a value it is enough to know one. -/
theorem chooses_one {α : Type} {taken : α → Bool} {xs : List α} (single : xs.countP taken ≤ 1)
    {x : α} (member : x ∈ xs) (holds : taken x = true) :
    Schema.Reading.one.chooses (xs.map taken) = true := by
  have least : 0 < xs.countP taken := List.countP_pos_iff.mpr ⟨x, member, holds⟩
  have count : (xs.map taken).count true = xs.countP taken := by
    rw [List.count, List.countP_map]
    simp [Function.comp_def]
  rw [Schema.Reading.chooses, count, decide_eq_true_iff]
  omega

theorem takes_union_of_mem {members : List Descriptor} {nullable : Bool} {v : Json}
    (proper : defs.isFree opened (.union members) = false)
    (several : 2 ≤ (properMembers members).length)
    (single : defs.choices opened nullable (.union members) v ≤ 1) {alternative : Alternative}
    (offered : alternative ∈ (properMembers members).map (.type opened) ++
      if nullable || members.any Schema.isNil then [.null] else [])
    (holds : alternative.takes .one defs v = true) :
    defs.takes .one opened nullable (.union members) v = true := by
  rw [takes_eq_chooses proper several]
  refine chooses_one single ?_ holds
  rwa [alternatives_union_several proper several]

theorem two_le_length {α : Type} {xs : List α} (some : xs = [] → False)
    (several : ∀ x, xs = [x] → False) : 2 ≤ xs.length := by
  match xs with
  | [] => exact absurd rfl some
  | [x] => exact absurd rfl (several x)
  | _ :: _ :: _ => simp

theorem takes_of_isNull {nullable : Bool} {t : Descriptor} {v : Json} (flagged : nullable = true)
    (null : v.isNull = true) (single : defs.choices opened nullable t v ≤ 1) :
    defs.takes .one opened nullable t v = true := by
  fun_induction alternatives defs opened nullable t with
  | case1 opened nullable members free => exact takes_union_of_isFree .one nullable v free
  | case2 opened nullable members proper none =>
      rw [takes_union_nil .one nullable v none]
      exact null
  | case3 opened nullable members proper member only ih =>
      have proper := Bool.eq_false_iff.mpr proper
      rw [takes_union_single .one nullable v proper only]
      refine ih (by rw [flagged, Bool.true_or]) ?_
      rwa [choices, ← alternatives_union_single proper only]
  | case4 opened nullable members proper some several =>
      refine takes_union_of_mem (Bool.eq_false_iff.mpr proper) (two_le_length some several) single
        (List.mem_append_right _ ?_) (show Alternative.null.takes .one defs v = true from null)
      rw [flagged, Bool.true_or, if_pos rfl]
      exact List.mem_singleton_self _
  | case5 opened nullable name inside => exact takes_ref_of_mem .one nullable v inside
  | case6 opened nullable name closed target found ih =>
      rw [takes_ref_of_not_mem .one nullable v closed found]
      refine ih flagged ?_
      rwa [choices, ← alternatives_ref_of_not_mem closed found]
  | case7 opened nullable name closed missing =>
      rw [takes_ref_of_missing .one nullable v closed missing, flagged, null]
      rfl
  | case8 opened nullable t union ref =>
      cases t with
      | union members => exact absurd rfl (union members)
      | ref name => exact absurd rfl (ref name)
      | _ =>
          rw [takes]
          simp [flagged, null]

/-- A value of a type is taken by it, flagged or not, if this leaves it no choice. -/
def Taken (defs : Definitions) (root : String) (v : Json) (t : Descriptor) (part : Json) : Prop :=
  ∀ opened nullable, defs.StandsAt root v opened t part →
    defs.choices opened nullable t part ≤ 1 → defs.takes .one opened nullable t part = true

variable {root : String} {v : Json}

theorem taken_scalar {kind : Scalar} {part : Json} (inside : kind.inhabited part = true) :
    Taken defs root v (.scalar kind) part := by
  intro opened nullable _ _
  rw [takes, Scalar.admits_of_inhabited inside, Bool.true_or]

theorem isNull_of_isNil {member : Descriptor} (nil : Schema.isNil member = true) {part : Json}
    (inside : defs.Inhabits member part) : part.isNull = true := by
  obtain rfl := Schema.eq_nil_of_isNil nil
  cases inside with
  | scalar inside => cases part <;> first | rfl | cases inside

section Parts

variable (single : Unambiguous defs root v)

include single

theorem Taken.takes {t : Descriptor} {part : Json} (taken : Taken defs root v t part)
    (stands : defs.StandsAt root v opened t part) :
    defs.takes .one opened false t part = true :=
  taken opened false stands (single.unions opened t part stands)

theorem taken_array {element : Descriptor} {items : List Json}
    (each : ∀ item ∈ items, Taken defs root v element item) :
    Taken defs root v (.array element) (.arr items) := by
  intro opened nullable stands _
  have all : items.all (defs.takes .one opened false element) = true :=
    List.all_eq_true.mpr fun item member =>
      (each item member).takes single (stands.element member)
  rw [Definitions.takes, Json.isArrayOf, all, Bool.true_or]

theorem taken_tuple {members : List Descriptor} {items : List Json}
    (count : items.length = members.length)
    (each : ∀ pair ∈ members.zip items, Taken defs root v pair.1 pair.2) :
    Taken defs root v (.tuple members) (.arr items) := by
  intro opened nullable stands _
  have all : items.all (fun item => members.isEmpty || Schema.Reading.one.chooses
      (members.map fun member => defs.takes .one opened false member item)) = true := by
    refine List.all_eq_true.mpr fun item inside => ?_
    have one := single.tuples opened members items stands item inside
    -- The member in the place of an element takes it.
    have snd : (members.zip items).map Prod.snd = items := List.map_snd_zip (Nat.le_of_eq count)
    rw [← snd] at inside
    obtain ⟨⟨member, item⟩, pair, rfl⟩ := List.mem_map.mp inside
    have holds := (each _ pair).takes single (stands.place pair)
    rw [chooses_one one (List.of_mem_zip pair).1 holds, Bool.or_true]
  rw [takes_tuple, Json.isArrayOf, all, Bool.true_or]

theorem taken_record {fields : List (String × Field Descriptor)} {rest : Option Descriptor}
    {entries : List (String × Json)}
    (each : ∀ field ∈ fields, ∀ value, Keyed.get? entries field.1 = some value →
      Taken defs root v field.2.type value) :
    Taken defs root v (.record fields rest) (.obj entries) := by
  intro opened nullable stands _
  have all : (fields.all fun field => (Keyed.get? entries field.1).all
      (defs.takes .one opened false field.2.type)) = true := by
    refine List.all_eq_true.mpr fun field declared => ?_
    cases found : Keyed.get? entries field.1 with
    | none => rfl
    | some value =>
        exact (each field declared value found).takes single (stands.field declared found)
  rw [takes_record, Json.isObjectWith, all, Bool.true_or]

theorem taken_union {members : List Descriptor} {member : Descriptor} {part : Json}
    (among : member ∈ members) (inside : defs.Inhabits member part)
    (taken : Taken defs root v member part) : Taken defs root v (.union members) part := by
  intro opened nullable stands one
  have nils (nil : Schema.isNil member = true) : members.any Schema.isNil = true :=
    List.any_eq_true.mpr ⟨member, among, nil⟩
  have kept (proper : Schema.isNil member = false) : member ∈ properMembers members :=
    List.mem_filter.mpr ⟨among, by simp [proper]⟩
  have below := stands.member among inside
  by_cases free : defs.isFree opened (.union members) = true
  · exact takes_union_of_isFree .one nullable part free
  have proper := Bool.eq_false_iff.mpr free
  match only : properMembers members with
  | [] =>
      cases nil : Schema.isNil member with
      | false => simpa [only] using kept nil
      | true =>
          rw [takes_union_nil .one nullable part only]
          exact isNull_of_isNil nil inside
  | [other] =>
      have choice : defs.choices opened (nullable || members.any Schema.isNil) other part ≤ 1 := by
        rwa [choices, ← alternatives_union_single proper only]
      rw [takes_union_single .one nullable part proper only]
      cases nil : Schema.isNil member with
      | false =>
          obtain rfl : member = other := by simpa [only] using kept nil
          exact taken opened _ below choice
      | true =>
          exact takes_of_isNull (by rw [nils nil, Bool.or_true]) (isNull_of_isNil nil inside) choice
  | first :: second :: others =>
      have several : 2 ≤ (properMembers members).length := by simp [only]
      cases nil : Schema.isNil member with
      | false =>
          refine takes_union_of_mem proper several one
            (List.mem_append_left _ (List.mem_map_of_mem (kept nil))) ?_
          exact taken.takes single below
      | true =>
          refine takes_union_of_mem proper several one (List.mem_append_right _ ?_)
            (show Alternative.null.takes .one defs part = true from isNull_of_isNil nil inside)
          rw [nils nil, Bool.or_true, if_pos rfl]
          exact List.mem_singleton_self _

end Parts

theorem taken_ref {name : String} {target : Descriptor} {part : Json}
    (found : defs[name]? = some target) (taken : Taken defs root v target part) :
    Taken defs root v (.ref name) part := by
  intro opened nullable stands one
  by_cases inside : name ∈ opened
  · exact takes_ref_of_mem .one nullable part inside
  · rw [takes_ref_of_not_mem .one nullable part inside found]
    refine taken _ nullable (stands.definition inside found) ?_
    rwa [choices, ← alternatives_ref_of_not_mem inside found]

/-- What belongs to a type is taken by it, if it is unambiguous. -/
theorem taken_of_inhabits (single : Unambiguous defs root v) {t : Descriptor} {part : Json}
    (inside : defs.Inhabits t part) : Taken defs root v t part := by
  induction inside with
  | scalar inside => exact taken_scalar inside
  | array _ ih => exact taken_array single ih
  | tuple count _ ih => exact taken_tuple single count ih
  | record _ _ _ _ _ ih => exact taken_record single ih
  | union among inside ih => exact taken_union single among inside ih
  | ref found _ ih => exact taken_ref found ih

end Definitions

end SchemaWeaver
