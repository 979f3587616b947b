import SchemaWeaver.Descriptor.Basic
import SchemaWeaver.Json.Basic
import Std.Data.TreeMap.Lemmas

/-!
Definitions, which give descriptors to names, and a search through all that a type leads to. The
search opens each name once: the definitions that it has not opened yet are `fresh`, so it ends, and
its cost does not grow with the number of ways to one name. With it plain data is told: the types
that lead to admitted scalars only, and to no name without a definition.

One type is a subtype of another by structure for data, by name for objects. A name on the left is
opened, and the question whether it is a subtype of the right side is assumed to be settled below.
All right sides that can come up are parts of the given one or of definitions, so only finitely many
questions can be assumed, and each assumption leaves fewer of them open.
-/

set_option autoImplicit false
set_option relaxedAutoImplicit false

namespace SchemaWeaver

abbrev Definitions := Std.TreeMap String Descriptor

namespace Definitions

/-- Write definitions one after the other. A later one under the same name replaces the earlier. -/
def ofList (entries : List (String × Descriptor)) : Definitions :=
  entries.foldl (fun defs entry => defs.insert entry.1 entry.2) ∅

theorem size_erase_lt {defs : Definitions} {name : String} {t : Descriptor}
    (found : defs[name]? = some t) : (defs.erase name).size < defs.size := by
  have present : defs.contains name = true := by
    rw [Std.TreeMap.contains_eq_isSome_getElem?, found]
    rfl
  have positive := Std.TreeMap.isEmpty_eq_false_of_contains present
  rw [Std.TreeMap.isEmpty_eq_size_eq_zero, beq_eq_false_iff_ne] at positive
  rw [Std.TreeMap.size_erase, if_pos present]
  omega

/-- Whether a test holds for one of several types or for a type that one of them leads to. A name
leads to its definition, and a type for which `enters` holds leads to its components. -/
def search (fresh : Definitions) (enters test : Descriptor → Bool) (todo : List Descriptor) :
    Bool :=
  match todo with
  | [] => false
  | .ref name :: todo =>
      test (.ref name) ||
        match _found : fresh[name]? with
        | some target => search (fresh.erase name) enters test (target :: todo)
        | none => search fresh enters test todo
  | t :: todo =>
      test t ||
        if enters t then search fresh enters test (t.components ++ todo)
        else search fresh enters test todo
termination_by (fresh.size, sizeOf todo)
decreasing_by
  · exact Prod.Lex.left _ _ (size_erase_lt _found)
  · exact Prod.Lex.right _ (by simp +arith)
  · exact Prod.Lex.right _ (Descriptor.sizeOf_components_append_lt t todo)
  · exact Prod.Lex.right _ (by simp +arith)

end Definitions

/-! ## Plain data -/

def Scalar.isData : Scalar → Bool
  | .any | .handle => false
  | _ => true

def Scalar.isJson : Scalar → Bool
  | .any | .handle | .anydata => false
  | _ => true

namespace Definitions

/-- Whether a type by itself is none that data is built from. -/
def isForeign (defs : Definitions) (admitted : Scalar → Bool) : Descriptor → Bool
  | .scalar kind => !admitted kind
  | .ref name => !defs.contains name
  | .object _ => true
  | .error => true
  | _ => false

/-- Whether a type is built from admitted scalars only. -/
def builtFrom (defs : Definitions) (admitted : Scalar → Bool) (t : Descriptor) : Bool :=
  !defs.search (fun _ => true) (defs.isForeign admitted) [t]

def isData (defs : Definitions) (t : Descriptor) : Bool :=
  defs.builtFrom Scalar.isData t

def isJson (defs : Definitions) (t : Descriptor) : Bool :=
  defs.builtFrom Scalar.isJson t

end Definitions

/-! ## Subtypes -/

/-- The right sides that each name is assumed to be a subtype of. -/
abbrev Assumptions := Std.TreeMap String (List Descriptor)

namespace Assumptions

def holds (assumed : Assumptions) (name : String) (sup : Descriptor) : Bool :=
  decide (sup ∈ assumed.getD name [])

def assume (assumed : Assumptions) (name : String) (sup : Descriptor) : Assumptions :=
  assumed.insert name (sup :: assumed.getD name [])

@[simp]
theorem holds_assume (assumed : Assumptions) (name other : String) (sup side : Descriptor) :
    (assumed.assume name sup).holds other side =
      (decide (other = name ∧ side = sup) || assumed.holds other side) := by
  unfold holds assume
  rw [Std.TreeMap.getD_insert]
  by_cases same : name = other
  · subst same
    simp
  · have different : other ≠ name := Ne.symm same
    simp [same, different]

/-- The questions about defined names and some right sides that are open under assumptions. -/
def openQuestions (assumed : Assumptions) (defs : Definitions) (sides : List Descriptor) :
    List (String × Descriptor) :=
  (defs.keys.flatMap fun name => sides.map fun side => (name, side)).filter
    fun question => !assumed.holds question.1 question.2

theorem length_openQuestions_assume_lt {assumed : Assumptions} {defs : Definitions}
    {sides : List Descriptor} {name : String} {sup target : Descriptor}
    (found : defs[name]? = some target) (member : sup ∈ sides)
    (unsettled : ¬assumed.holds name sup = true) :
    ((assumed.assume name sup).openQuestions defs sides).length <
      (assumed.openQuestions defs sides).length := by
  have fewer : (assumed.assume name sup).openQuestions defs sides =
      (assumed.openQuestions defs sides).filter
        fun question => !(assumed.assume name sup).holds question.1 question.2 := by
    unfold openQuestions
    rw [List.filter_filter]
    refine List.filter_congr fun question _ => ?_
    by_cases settled : assumed.holds question.1 question.2 <;> simp [settled]
  have defined : name ∈ defs.keys := by
    rw [Std.TreeMap.mem_keys, Std.TreeMap.mem_iff_isSome_getElem?, found]
    rfl
  rw [fewer]
  refine List.length_filter_lt_length_iff_exists.mpr ⟨(name, sup), ?_, ?_⟩
  · simp only [openQuestions, List.mem_filter, List.mem_flatMap, List.mem_map]
    exact ⟨⟨name, defined, sup, member, rfl⟩, by simpa using unsettled⟩
  · simp

end Assumptions

mutual

/-- Whether an object type is another one or includes it, at any depth. -/
def ObjectType.isOrIncludes : ObjectType → ObjectType → Bool
  | ⟨home, name, includes⟩, target =>
      (home = target.home && name = target.name) || ObjectType.someIncludes includes target

def ObjectType.someIncludes : List ObjectType → ObjectType → Bool
  | [], _ => false
  | t :: rest, target => t.isOrIncludes target || ObjectType.someIncludes rest target

end

def Scalar.fits (a b : Scalar) : Bool :=
  a = b || (a = .byte && b = .int)

namespace Definitions

def isUnion : Descriptor → Bool
  | .union _ => true
  | _ => false

/-- The right sides that can come up on the way to deciding about one. -/
def rightSides (defs : Definitions) (sup : Descriptor) : List Descriptor :=
  sup.parts ++ defs.values.flatMap Descriptor.parts

/-- Whether a right side is a defined name or one of those given. Names are looked up, which is
quicker than going through the list. -/
def isSide (defs : Definitions) (sides : List Descriptor) : Descriptor → Bool
  | .ref name => defs.contains name || decide (.ref name ∈ sides)
  | sup => decide (sup ∈ sides)

theorem mem_of_isSide {defs : Definitions} {sides : List Descriptor} {sup : Descriptor}
    (side : defs.isSide sides sup = true) : sup ∈ defs.keys.map .ref ++ sides := by
  cases sup <;> simp_all [isSide]

private theorem part_lt {n i j : Nat} {t part : Descriptor} (member : part ∈ t.components) :
    Prod.Lex (· < ·) (Prod.Lex (· < ·) (· < ·)) (n, sizeOf part, i) (n, sizeOf t, j) :=
  .right _ (.left _ _ (Descriptor.sizeOf_lt_of_mem_components member))

mutual

/-- Whether `sub` is a subtype of `sup` under assumptions. -/
def subtypeUnder (defs : Definitions) (sides : List Descriptor) (assumed : Assumptions)
    (sub sup : Descriptor) : Bool :=
  match sub with
  | .ref name =>
      if sup = .ref name then true
      else
        match _found : defs[name]? with
        | none => false
        | some target =>
            if _settled : assumed.holds name sup then true
            else if _side : defs.isSide sides sup then
              subtypeUnder defs sides (assumed.assume name sup) target sup
            else false
  | .union members =>
      members.attach.all fun ⟨member, _⟩ => subtypeUnder defs sides assumed member sup
  | sub =>
      defs.search isUnion (fun alternative => fitsUnder defs sides assumed sub alternative) [sup]
termination_by ((assumed.openQuestions defs (defs.keys.map .ref ++ sides)).length, sizeOf sub, 1)
decreasing_by
  · exact Prod.Lex.left _ _
      (Assumptions.length_openQuestions_assume_lt _found (mem_of_isSide _side) _settled)
  · exact part_lt (by assumption)
  · exact Prod.Lex.right _ (Prod.Lex.right _ Nat.zero_lt_one)

/-- Whether `sub`, which is neither a name nor a union, is a subtype of one alternative. -/
def fitsUnder (defs : Definitions) (sides : List Descriptor) (assumed : Assumptions)
    (sub sup : Descriptor) : Bool :=
  match sub, sup with
  | _, .scalar .any => sub ≠ .error
  | _, .scalar .anydata => defs.isData sub
  | _, .scalar .json => defs.isJson sub
  | .scalar a, .scalar b => a.fits b
  | .array a, .array b => subtypeUnder defs sides assumed a b
  | .tuple members, .array b =>
      members.attach.all fun ⟨member, _⟩ => subtypeUnder defs sides assumed member b
  | .tuple members, .tuple others =>
      members.length = others.length &&
        (members.attach.zip others).all fun (⟨member, _⟩, other) =>
          subtypeUnder defs sides assumed member other
  | .record fields rest, .record others otherRest =>
      (others.all fun (name, other) =>
        match _own : Keyed.get? fields name with
        | some field =>
            (other.optional || !field.optional) &&
              subtypeUnder defs sides assumed field.type other.type
        | none => other.optional) &&
      match otherRest with
      | none => rest.isNone && fields.all fun field => Keyed.has others field.1
      | some side =>
          (fields.attach.all fun ⟨(name, field), _⟩ =>
            Keyed.has others name || subtypeUnder defs sides assumed field.type side) &&
          match rest with
          | none => true
          | some type => subtypeUnder defs sides assumed type side
  | .object a, .object b => a.isOrIncludes b
  | .error, .error => true
  | _, _ => false
termination_by ((assumed.openQuestions defs (defs.keys.map .ref ++ sides)).length, sizeOf sub, 0)
decreasing_by
  · exact part_lt (by simp [Descriptor.components])
  · exact part_lt (by assumption)
  · exact part_lt (by assumption)
  · exact part_lt (Descriptor.field_mem_components (Keyed.mem_of_get? _own) rest)
  · exact part_lt (Descriptor.field_mem_components (by assumption) rest)
  · exact part_lt (Descriptor.rest_mem_components fields type)

end

def isSubtypeOf (defs : Definitions) (sub sup : Descriptor) : Bool :=
  subtypeUnder defs (defs.rightSides sup) ∅ sub sup

end Definitions

end SchemaWeaver
