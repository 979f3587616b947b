/-!
Type descriptors. Descriptors are finite trees; a type is recursive only through the names in it.
-/

set_option autoImplicit false
set_option relaxedAutoImplicit false

namespace SchemaWeaver

inductive Scalar where
  | nil
  | boolean
  | int
  | byte
  | float
  | decimal
  | string
  | json
  | anydata
  | any
  | handle
  deriving DecidableEq, Repr

def Scalar.name : Scalar → String
  | .nil => "()"
  | .boolean => "boolean"
  | .int => "int"
  | .byte => "byte"
  | .float => "float"
  | .decimal => "decimal"
  | .string => "string"
  | .json => "json"
  | .anydata => "anydata"
  | .any => "any"
  | .handle => "handle"

structure ModuleId where
  org : String
  name : String
  version : String
  deriving DecidableEq, Repr

def ModuleId.text (m : ModuleId) : String :=
  m.org ++ "/" ++ m.name ++ ":" ++ m.version

structure ObjectType where
  home : ModuleId
  name : String
  includes : List ObjectType
  deriving Repr

structure Field (α : Type) where
  type : α
  optional : Bool
  deriving DecidableEq, Repr

/-- A type. A record without `rest` has no further fields; `error` is the type of errors. -/
inductive Descriptor where
  | scalar (kind : Scalar)
  | array (element : Descriptor)
  | tuple (members : List Descriptor)
  | record (fields : List (String × Field Descriptor)) (rest : Option Descriptor)
  | union (members : List Descriptor)
  | ref (name : String)
  | object (type : ObjectType)
  | error
  deriving Repr, Inhabited

namespace ObjectType

mutual

def same : ObjectType → ObjectType → Bool
  | ⟨m, s, as⟩, ⟨n, t, bs⟩ => m = n && s = t && sameList as bs

def sameList : List ObjectType → List ObjectType → Bool
  | [], [] => true
  | a :: as, b :: bs => same a b && sameList as bs
  | _, _ => false

end

mutual

theorem same_iff : (a b : ObjectType) → (same a b = true ↔ a = b)
  | ⟨m, s, as⟩, ⟨n, t, bs⟩ => by
      simp [same, sameList_iff as bs, and_assoc]

theorem sameList_iff : (as bs : List ObjectType) → (sameList as bs = true ↔ as = bs)
  | [], [] => by simp [sameList]
  | [], _ :: _ => by simp [sameList]
  | _ :: _, [] => by simp [sameList]
  | a :: as, b :: bs => by simp [sameList, same_iff a b, sameList_iff as bs]

end

instance : DecidableEq ObjectType := fun a b => decidable_of_iff _ (same_iff a b)

end ObjectType

namespace Descriptor

mutual

/-- Whether two descriptors agree in every part, the order of members and fields included. -/
def same : Descriptor → Descriptor → Bool
  | .scalar a, .scalar b => a = b
  | .array a, .array b => same a b
  | .tuple as, .tuple bs => sameList as bs
  | .record fs r, .record gs s => sameFields fs gs && sameRest r s
  | .union as, .union bs => sameList as bs
  | .ref a, .ref b => a = b
  | .object a, .object b => a = b
  | .error, .error => true
  | _, _ => false

def sameList : List Descriptor → List Descriptor → Bool
  | [], [] => true
  | a :: as, b :: bs => same a b && sameList as bs
  | _, _ => false

def sameFields : List (String × Field Descriptor) → List (String × Field Descriptor) → Bool
  | [], [] => true
  | (n, ⟨a, p⟩) :: fs, (m, ⟨b, q⟩) :: gs => n = m && p = q && same a b && sameFields fs gs
  | _, _ => false

def sameRest : Option Descriptor → Option Descriptor → Bool
  | none, none => true
  | some a, some b => same a b
  | _, _ => false

end

mutual

theorem same_iff : (a b : Descriptor) → (same a b = true ↔ a = b)
  | .scalar _, b => by cases b <;> simp [same]
  | .array a, b => by cases b <;> simp [same, same_iff a]
  | .tuple as, b => by cases b <;> simp [same, sameList_iff as]
  | .record fs r, b => by cases b <;> simp [same, sameFields_iff fs, sameRest_iff r]
  | .union as, b => by cases b <;> simp [same, sameList_iff as]
  | .ref _, b => by cases b <;> simp [same]
  | .object _, b => by cases b <;> simp [same]
  | .error, b => by cases b <;> simp [same]

theorem sameList_iff : (as bs : List Descriptor) → (sameList as bs = true ↔ as = bs)
  | [], bs => by cases bs <;> simp [sameList]
  | a :: as, bs => by cases bs <;> simp [sameList, same_iff a, sameList_iff as]

theorem sameFields_iff : (fs gs : List (String × Field Descriptor)) →
    (sameFields fs gs = true ↔ fs = gs)
  | [], gs => by cases gs <;> simp [sameFields]
  | (n, ⟨a, p⟩) :: fs, [] => by simp [sameFields]
  | (n, ⟨a, p⟩) :: fs, (m, ⟨b, q⟩) :: gs => by
      simp only [sameFields, Bool.and_eq_true, decide_eq_true_eq, same_iff a, sameFields_iff fs,
        List.cons.injEq, Prod.mk.injEq, Field.mk.injEq]
      constructor
      · rintro ⟨⟨⟨name, optional⟩, type⟩, others⟩
        exact ⟨⟨name, type, optional⟩, others⟩
      · rintro ⟨⟨name, type, optional⟩, others⟩
        exact ⟨⟨⟨name, optional⟩, type⟩, others⟩

theorem sameRest_iff : (r s : Option Descriptor) → (sameRest r s = true ↔ r = s)
  | none, s => by cases s <;> simp [sameRest]
  | some a, s => by cases s <;> simp [sameRest, same_iff a]

end

instance : DecidableEq Descriptor := fun a b => decidable_of_iff _ (same_iff a b)

def orNil (t : Descriptor) : Descriptor := .union [t, .scalar .nil]

/-- The immediate parts of a type, in the order in which they are written. -/
def components : Descriptor → List Descriptor
  | .array element => [element]
  | .tuple members => members
  | .union members => members
  | .record fields rest => fields.map (fun field => field.2.type) ++ rest.toList
  | _ => []

theorem sizeOf_field_lt {fields : List (String × Field Descriptor)}
    {entry : String × Field Descriptor} (member : entry ∈ fields) :
    sizeOf entry.2.type < sizeOf fields := by
  have outer := List.sizeOf_lt_of_mem member
  obtain ⟨name, type, optional⟩ := entry
  simp only [Prod.mk.sizeOf_spec, Field.mk.sizeOf_spec] at outer ⊢
  omega

theorem sizeOf_lt_of_mem_components {t c : Descriptor} (member : c ∈ t.components) :
    sizeOf c < sizeOf t := by
  cases t with
  | array element =>
      obtain rfl : c = element := by simpa [components] using member
      simp
  | tuple members =>
      have := List.sizeOf_lt_of_mem (show c ∈ members from member)
      simp only [tuple.sizeOf_spec]
      omega
  | union members =>
      have := List.sizeOf_lt_of_mem (show c ∈ members from member)
      simp only [union.sizeOf_spec]
      omega
  | record fields rest =>
      simp only [components, List.mem_append, List.mem_map, Option.mem_toList] at member
      simp only [record.sizeOf_spec]
      rcases member with ⟨field, found, rfl⟩ | found
      · have := sizeOf_field_lt found
        omega
      · cases found
        simp only [Option.some.sizeOf_spec]
        omega
  | scalar _ => simp [components] at member
  | ref _ => simp [components] at member
  | object _ => simp [components] at member
  | error => simp [components] at member

theorem field_mem_components {fields : List (String × Field Descriptor)} {name : String}
    {field : Field Descriptor} (member : (name, field) ∈ fields) (rest : Option Descriptor) :
    field.type ∈ (record fields rest).components := by
  simp only [components, List.mem_append, List.mem_map]
  exact Or.inl ⟨(name, field), member, rfl⟩

theorem rest_mem_components (fields : List (String × Field Descriptor)) (type : Descriptor) :
    type ∈ (record fields (some type)).components := by
  simp [components]

private theorem sizeOf_append (ts us : List Descriptor) :
    sizeOf (ts ++ us) + 1 = sizeOf ts + sizeOf us := by
  induction ts with
  | nil => simp [Nat.add_comm]
  | cons t ts ih =>
      simp only [List.cons_append, List.cons.sizeOf_spec]
      omega

private theorem sizeOf_fieldTypes_le (fields : List (String × Field Descriptor)) :
    sizeOf (fields.map fun field => field.2.type) ≤ sizeOf fields := by
  induction fields with
  | nil => simp
  | cons field fields ih =>
      obtain ⟨name, type, optional⟩ := field
      simp only [List.map_cons, List.cons.sizeOf_spec, Prod.mk.sizeOf_spec, Field.mk.sizeOf_spec]
      omega

private theorem sizeOf_components_le (t : Descriptor) : sizeOf t.components ≤ sizeOf t + 1 := by
  cases t with
  | record fields rest =>
      have types := sizeOf_fieldTypes_le fields
      have all := sizeOf_append (fields.map fun field => field.2.type) rest.toList
      cases rest <;> simp [components] at all ⊢ <;> omega
  | _ => simp [components] <;> omega

theorem sizeOf_components_append_lt (t : Descriptor) (ts : List Descriptor) :
    sizeOf (t.components ++ ts) < sizeOf (t :: ts) := by
  have all := sizeOf_append t.components ts
  have components := t.sizeOf_components_le
  simp only [List.cons.sizeOf_spec]
  omega

/-- A type and all that it is built from, names not expanded. -/
def parts (t : Descriptor) : List Descriptor :=
  t :: t.components.attach.flatMap fun ⟨c, _⟩ => parts c
termination_by sizeOf t
decreasing_by exact sizeOf_lt_of_mem_components (by assumption)

end Descriptor

end SchemaWeaver
