import SchemaWeaver.Descriptor.Definitions
import SchemaWeaver.Proofs.Keyed

/-!
One layer of the subtype check. Two types that are neither names nor unions are compared by asking
about types in them. Which answers a layer needs does not depend on how they are found.
-/

set_option autoImplicit false
set_option relaxedAutoImplicit false

namespace SchemaWeaver.Definitions

/-- Types inside two others that are compared when those are. -/
inductive Beside : Descriptor → Descriptor → Descriptor → Descriptor → Prop
  | element {a b : Descriptor} : Beside (.array a) (.array b) a b
  | inArray {members : List Descriptor} {a b : Descriptor} (member : a ∈ members) :
      Beside (.tuple members) (.array b) a b
  | inTuple {members others : List Descriptor} {a b : Descriptor}
      (paired : (a, b) ∈ members.zip others) : Beside (.tuple members) (.tuple others) a b
  | declared {fields others : List (String × Field Descriptor)} {rest otherRest : Option Descriptor}
      {name : String} {field other : Field Descriptor} (own : Keyed.get? fields name = some field)
      (member : (name, other) ∈ others) :
      Beside (.record fields rest) (.record others otherRest) field.type other.type
  | further {fields others : List (String × Field Descriptor)} {rest : Option Descriptor}
      {side : Descriptor} {name : String} {field : Field Descriptor}
      (member : (name, field) ∈ fields) (undeclared : name ∉ Keyed.keys others) :
      Beside (.record fields rest) (.record others (some side)) field.type side
  | beyond {fields others : List (String × Field Descriptor)} {type side : Descriptor} :
      Beside (.record fields (some type)) (.record others (some side)) type side

theorem Beside.mem_components {s t a b : Descriptor} (beside : Beside s t a b) :
    a ∈ s.components ∧ b ∈ t.components := by
  cases beside with
  | element => exact ⟨List.mem_cons_self, List.mem_cons_self⟩
  | inArray member => exact ⟨member, List.mem_cons_self⟩
  | inTuple paired => exact List.of_mem_zip paired
  | declared own member =>
      have inside := Keyed.mem_of_get? own
      exact ⟨Descriptor.field_mem_components inside _, Descriptor.field_mem_components member _⟩
  | further member _ =>
      exact ⟨Descriptor.field_mem_components member _, Descriptor.rest_mem_components _ _⟩
  | beyond => exact ⟨Descriptor.rest_mem_components _ _, Descriptor.rest_mem_components _ _⟩

/-- What is asked of two records: of the fields that the right one declares, of the further fields
of the left one, and of what may follow. -/
structure RecordFits (fits : Descriptor → Descriptor → Bool)
    (fields : List (String × Field Descriptor)) (rest : Option Descriptor)
    (others : List (String × Field Descriptor)) (otherRest : Option Descriptor) : Prop where
  declared : ∀ name other, (name, other) ∈ others → ∀ field, Keyed.get? fields name = some field →
    (other.optional = false → field.optional = false) ∧ fits field.type other.type = true
  missing : ∀ name other, (name, other) ∈ others → name ∉ Keyed.keys fields →
    other.optional = true
  closed : otherRest = none → rest = none ∧ ∀ name ∈ Keyed.keys fields, name ∈ Keyed.keys others
  further : ∀ side, otherRest = some side → ∀ name field, (name, field) ∈ fields →
    name ∉ Keyed.keys others → fits field.type side = true
  beyond : ∀ side, otherRest = some side → ∀ type, rest = some type → fits type side = true

def hasDeclared (ask : Descriptor → Descriptor → Bool) (fields : List (String × Field Descriptor))
    (other : String × Field Descriptor) : Bool :=
  match Keyed.get? fields other.1 with
  | some field => (other.2.optional || !field.optional) && ask field.type other.2.type
  | none => other.2.optional

def fitsRest (ask : Descriptor → Descriptor → Bool) (fields : List (String × Field Descriptor))
    (rest : Option Descriptor) (others : List (String × Field Descriptor)) :
    Option Descriptor → Bool
  | none => rest.isNone && fields.all fun field => Keyed.has others field.1
  | some side =>
      (fields.all fun field => Keyed.has others field.1 || ask field.2.type side) &&
        rest.all fun type => ask type side

/-- What one layer says about two types that are neither names nor unions, where `ask` answers for
the types in them. -/
def layer (defs : Definitions) (ask : Descriptor → Descriptor → Bool) (sub sup : Descriptor) :
    Bool :=
  match sub, sup with
  | _, .scalar .any => sub ≠ .error
  | _, .scalar .anydata => defs.isData sub
  | _, .scalar .json => defs.isJson sub
  | .scalar a, .scalar b => a.fits b
  | .array a, .array b => ask a b
  | .tuple members, .array b => members.all fun member => ask member b
  | .tuple members, .tuple others =>
      members.length = others.length && (members.zip others).all fun pair => ask pair.1 pair.2
  | .record fields rest, .record others otherRest =>
      others.all (hasDeclared ask fields) && fitsRest ask fields rest others otherRest
  | .object a, .object b => a.isOrIncludes b
  | .error, .error => true
  | _, _ => false

variable {defs : Definitions} {ask : Descriptor → Descriptor → Bool}

@[simp]
theorem layer_ref (sub : Descriptor) (name : String) : defs.layer ask sub (.ref name) = false := by
  cases sub <;> rfl

@[simp]
theorem layer_union (sub : Descriptor) (members : List Descriptor) :
    defs.layer ask sub (.union members) = false := by
  cases sub <;> rfl

section Record

variable {fields others : List (String × Field Descriptor)} {rest otherRest : Option Descriptor}

theorem hasDeclared_eq_true_iff {name : String} {other : Field Descriptor} :
    hasDeclared ask fields (name, other) = true ↔
      (∀ field, Keyed.get? fields name = some field →
        (other.optional = false → field.optional = false) ∧ ask field.type other.type = true) ∧
      (name ∉ Keyed.keys fields → other.optional = true) := by
  rw [← Keyed.get?_eq_none_iff]
  cases own : Keyed.get? fields name with
  | none => simp [hasDeclared, own]
  | some field =>
      cases asked : other.optional <;> simp [hasDeclared, own, asked]

theorem fitsRest_eq_true_iff :
    fitsRest ask fields rest others otherRest = true ↔
      (otherRest = none → rest = none ∧ ∀ name ∈ Keyed.keys fields, name ∈ Keyed.keys others) ∧
      ∀ side, otherRest = some side →
        (∀ name field, (name, field) ∈ fields → name ∉ Keyed.keys others →
          ask field.type side = true) ∧
        ∀ type, rest = some type → ask type side = true := by
  cases otherRest with
  | none =>
      simp only [fitsRest, Bool.and_eq_true, Option.isNone_iff_eq_none, List.all_eq_true,
        Keyed.has_eq_true_iff]
      simp [Keyed.keys]
  | some side =>
      simp only [fitsRest, Bool.and_eq_true, Bool.or_eq_true, List.all_eq_true, Option.all_eq_true,
        Keyed.has_eq_true_iff, Prod.forall, or_iff_not_imp_left]
      simp

theorem layer_record_eq_true_iff :
    defs.layer ask (.record fields rest) (.record others otherRest) = true ↔
      RecordFits ask fields rest others otherRest := by
  rw [layer, Bool.and_eq_true, List.all_eq_true, fitsRest_eq_true_iff]
  constructor
  · rintro ⟨each, closed, open_⟩
    have declares (name other) (member : (name, other) ∈ others) :=
      hasDeclared_eq_true_iff.mp (each (name, other) member)
    exact ⟨fun name other member => (declares name other member).1,
      fun name other member => (declares name other member).2, closed,
      fun side open' => (open_ side open').1, fun side open' => (open_ side open').2⟩
  · intro fits
    refine ⟨fun other member => ?_, fits.closed, fun side open_ => ?_⟩
    · obtain ⟨name, other⟩ := other
      exact hasDeclared_eq_true_iff.mpr
        ⟨fits.declared name other member, fits.missing name other member⟩
    · exact ⟨fits.further side open_, fits.beyond side open_⟩

theorem RecordFits.mono {ask' : Descriptor → Descriptor → Bool}
    (more : ∀ a b, Beside (.record fields rest) (.record others otherRest) a b →
      ask a b = true → ask' a b = true)
    (fits : RecordFits ask fields rest others otherRest) :
    RecordFits ask' fields rest others otherRest := by
  refine ⟨?_, fits.missing, fits.closed, ?_, ?_⟩
  · intro name other member field own
    obtain ⟨due, yes⟩ := fits.declared name other member field own
    exact ⟨due, more _ _ (.declared own member) yes⟩
  · rintro side rfl name field member undeclared
    exact more _ _ (.further member undeclared) (fits.further side rfl name field member undeclared)
  · rintro side rfl type rfl
    exact more _ _ .beyond (fits.beyond side rfl type rfl)

theorem RecordFits.self
    (reflexive : ∀ a ∈ (Descriptor.record fields rest).components, ask a a = true)
    (distinct : (Keyed.keys fields).Nodup) : RecordFits ask fields rest fields rest := by
  constructor
  · intro name other member field own
    have there := Keyed.get?_of_mem distinct member
    cases own.symm.trans there
    exact ⟨id, reflexive _ (Descriptor.field_mem_components member rest)⟩
  · intro name other member undeclared
    exact absurd (List.mem_map_of_mem member) undeclared
  · intro shut
    exact ⟨shut, fun name member => member⟩
  · intro side _ name field member undeclared
    exact absurd (List.mem_map_of_mem member) undeclared
  · rintro side rfl type own
    cases own
    exact reflexive _ (Descriptor.rest_mem_components fields side)

end Record

theorem layer_mono {ask' : Descriptor → Descriptor → Bool} {sub sup : Descriptor}
    (more : ∀ a b, Beside sub sup a b → ask a b = true → ask' a b = true)
    (fits : defs.layer ask sub sup = true) : defs.layer ask' sub sup = true := by
  unfold layer at fits ⊢
  split at fits
  case h_5 => exact more _ _ .element fits
  case h_6 members other =>
      rw [List.all_eq_true] at fits ⊢
      exact fun member inside => more _ _ (.inArray inside) (fits member inside)
  case h_7 members others =>
      rw [Bool.and_eq_true, List.all_eq_true] at fits ⊢
      exact ⟨fits.1, fun pair inside => more _ _ (.inTuple inside) (fits.2 pair inside)⟩
  case h_8 fields rest others otherRest =>
      have yes := layer_record_eq_true_iff.mp (show defs.layer ask _ _ = true from fits)
      have again : defs.layer ask' (.record fields rest) (.record others otherRest) = true :=
        layer_record_eq_true_iff.mpr (yes.mono more)
      exact again
  all_goals exact fits

theorem layer_self {t : Descriptor} (unnamed : ∀ name, t ≠ .ref name) (single : isUnion t = false)
    (reflexive : ∀ a ∈ t.components, ask a a = true)
    (distinct : ∀ fields rest, t = .record fields rest → (Keyed.keys fields).Nodup) :
    defs.layer ask t t = true := by
  cases t with
  | scalar kind =>
      cases kind <;> simp [layer, Scalar.fits, isData, isJson, builtFrom, search, isForeign,
        Scalar.isData, Scalar.isJson, Descriptor.components]
  | array element => exact reflexive element List.mem_cons_self
  | tuple members =>
      rw [layer, Bool.and_eq_true, List.all_eq_true, List.zip, List.zipWith_self]
      refine ⟨decide_eq_true rfl, fun pair member => ?_⟩
      obtain ⟨a, inside, rfl⟩ := List.mem_map.mp member
      exact reflexive a inside
  | record fields rest =>
      exact layer_record_eq_true_iff.mpr (.self reflexive (distinct fields rest rfl))
  | union members => cases single
  | ref name => exact absurd rfl (unnamed name)
  | object type =>
      obtain ⟨home, name, includes⟩ := type
      simp [layer, ObjectType.isOrIncludes]
  | error => rfl

/-- The check of one layer asks for the answers of the check itself. -/
theorem fitsUnder_eq_layer {sides : List Descriptor} {assumed : Assumptions}
    (sub sup : Descriptor) :
    fitsUnder defs sides assumed sub sup =
      defs.layer (subtypeUnder defs sides assumed) sub sup := by
  fun_cases layer defs (subtypeUnder defs sides assumed) sub sup
  case case4 => rw [fitsUnder] <;> assumption
  case case6 members other =>
      rw [fitsUnder]
      exact all_attach members fun member => subtypeUnder defs sides assumed member other
  case case7 members others =>
      rw [fitsUnder]
      have pairs : (members.attach.zip others).map (Prod.map Subtype.val id) =
          members.zip others := by
        rw [← List.zip_map_left, List.attach_map_subtype_val]
      rw [← pairs, List.all_map]
      rfl
  case case8 fields rest others otherRest =>
      unfold fitsUnder
      congr 1
      · refine congrArg others.all (funext fun other => ?_)
        obtain ⟨name, other⟩ := other
        simp only [hasDeclared]
        split <;> simp [*]
      · cases otherRest with
        | none => rfl
        | some side =>
            have further := all_attach fields fun field =>
              Keyed.has others field.1 || subtypeUnder defs sides assumed field.2.type side
            rw [fitsRest, ← further]
            cases rest <;> rfl
  case case11 => rw [fitsUnder] <;> assumption
  all_goals rw [fitsUnder]

end SchemaWeaver.Definitions
