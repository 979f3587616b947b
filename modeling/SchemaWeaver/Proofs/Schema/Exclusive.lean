import SchemaWeaver.Proofs.Schema.Availability
import SchemaWeaver.Proofs.Schema.Inhabitants
import SchemaWeaver.Proofs.Schema.Meaning

/-!
When the canonical schema of a name is exclusive. Each branch of a union is met by the values that
its alternative takes, so a value meets two branches exactly if two alternatives take it, and the
values that are valid against the schema of a name are those that the name takes if it reads unions
and the elements of tuples as exactly one alternative. Alternatives may overlap: an integer is also
a number, and then its own schema refuses it.
-/

set_option autoImplicit false
set_option relaxedAutoImplicit false

namespace SchemaWeaver

namespace Definitions

/-- The definitions that are not opened. -/
def without (defs : Definitions) (opened : List String) : Definitions :=
  opened.foldr (fun name fresh => fresh.erase name) defs

theorem fresh_without (defs : Definitions) (opened : List String) :
    defs.Fresh (defs.without opened) opened := by
  induction opened with
  | nil =>
      intro name
      simp [without]
  | cons name opened ih => exact ih.erase name

end Definitions

namespace Schema

open List (Forall₂)

variable {defs : Definitions} {opened : List String}

theorem ofType_ref_of_not_mem {name : String} {target : Descriptor} (closed : name ∉ opened)
    (found : defs[name]? = some target) :
    ofType defs (defs.without opened) (.ref name) =
      ofType defs (defs.without (name :: opened)) target := by
  have fresh : (defs.without opened)[name]? = some target := by
    rw [defs.fresh_without opened, if_neg closed, found]
  exact ofType_of_found fresh

theorem exists_ofType_eq_ok {root : String} (whole : (ofName defs root).isOk = true)
    {t : Descriptor} (stands : defs.StandsIn root opened t) :
    ∃ schema, ofType defs (defs.without opened) t = .ok schema := by
  have isOk : (ofType defs (defs.without opened) t).isOk = true := by
    induction stands with
    | root => exact whole
    | @part opened t part stands member ih =>
        have unnamed : ∀ name, t ≠ .ref name := by
          rintro name rfl
          cases member
        rw [isOk_ofType_of_unnamed _ _ unnamed, Bool.and_eq_true] at ih
        exact List.all_eq_true.mp ih.2 part member
    | definition stands closed found ih =>
        rwa [ofType_ref_of_not_mem closed found] at ih
  cases built : ofType defs (defs.without opened) t with
  | error fault =>
      rw [built] at isOk
      cases isOk
  | ok schema => exact ⟨schema, rfl⟩

/-! ## Branches -/

/-- A branch that is met by the values that an alternative takes, in either reading. -/
def StandsFor (defs : Definitions) (branch : Json) (alternative : Definitions.Alternative) : Prop :=
  ∀ reading v, meets reading branch v = alternative.takes reading defs v

theorem ofType_union_eq_ok {members : List Descriptor} {schema : Json}
    (mapped : ofType defs (defs.without opened) (.union members) = .ok schema) :
    ∃ schemas, Forall₂ (fun member schema => ofType defs (defs.without opened) member = .ok schema)
        (Definitions.properMembers members) schemas ∧
      schemas.any isUnconstrained = defs.isFree opened (.union members) ∧
      schema = ofUnion (members.any isNil) schemas := by
  have means := means_ofType .any (defs.fresh_without opened) _ mapped
  rw [ofType, map_eq_ok_iff] at mapped
  obtain ⟨schemas, inner, rfl⟩ := mapped
  rw [← means.isUnconstrained, isUnconstrained_ofUnion]
  exact ⟨schemas, forall₂_of_ofMembers_eq_ok (fun _ _ _ built => built) inner, rfl, rfl⟩

theorem branches_of_type {schema : Json} {name : String} {others : List (String × Json)}
    {nullable : Bool}
    (form : canonical (flag nullable schema) =
      .obj (("type", typeOrNull nullable name) :: others))
    (unbranched : branches (.obj others) = []) :
    branches (canonical (flag nullable schema)) = [] := by
  rw [form]
  exact unbranched

theorem branches_ofScalar {kind : Scalar} {schema : Json} (mapped : ofScalar kind = .ok schema)
    (nullable : Bool) : branches (canonical (flag nullable schema)) = [] := by
  cases kind <;> cases mapped <;> cases nullable <;> rfl

theorem branches_eq_nil {fresh : Definitions} {t : Descriptor} {schema : Json}
    (mapped : ofType defs fresh t = .ok schema) (union : ∀ members, t ≠ .union members)
    (ref : ∀ name, t ≠ .ref name) (nullable : Bool) :
    branches (canonical (flag nullable schema)) = [] := by
  cases t with
  | scalar kind =>
      rw [ofType] at mapped
      exact branches_ofScalar mapped nullable
  | array element =>
      rw [ofType, map_eq_ok_iff] at mapped
      obtain ⟨items, -, rfl⟩ := mapped
      exact branches_of_type (canonical_flag_ofArray nullable items) rfl
  | tuple members =>
      rw [ofType, map_eq_ok_iff] at mapped
      obtain ⟨schemas, -, rfl⟩ := mapped
      refine branches_of_type (canonical_flag_ofTuple nullable schemas) ?_
      split <;> rfl
  | record fields rest =>
      obtain ⟨properties, further, -, rfl⟩ :=
        ofType_record_eq_ok (fun _ _ => True) (fun _ _ _ _ => trivial) mapped
      refine branches_of_type (canonical_flag_ofRecord nullable properties further) ?_
      split <;> rfl
  | union members => exact absurd rfl (union members)
  | ref name => exact absurd rfl (ref name)
  | object type =>
      rw [ofType] at mapped
      cases mapped
  | error =>
      rw [ofType] at mapped
      cases mapped

theorem forall₂_standsFor_several {members : List Descriptor} {schemas : List Json}
    (each : Forall₂ (fun member schema => ofType defs (defs.without opened) member = .ok schema)
      (Definitions.properMembers members) schemas) (nullable : Bool) :
    Forall₂ (StandsFor defs)
      (schemas.map canonical ++ if nullable then [nullSchema] else [])
      ((Definitions.properMembers members).map (.type opened) ++
        if nullable then [.null] else []) := by
  refine List.rel_append ?_ ?_
  · rw [List.forall₂_map_left_iff, List.forall₂_map_right_iff]
    refine each.flip.imp fun schema member mapped reading v => ?_
    exact (means_ofType reading (defs.fresh_without opened) member mapped).meets_canonical v
  · cases nullable with
    | false => exact .nil
    | true => exact .cons meets_nullSchema .nil

/-- The schema of a type has one branch for each alternative of the type, and no others. -/
theorem forall₂_branches {t : Descriptor} (nullable : Bool) {schema : Json}
    (mapped : ofType defs (defs.without opened) t = .ok schema) :
    Forall₂ (StandsFor defs) (branches (canonical (flag nullable schema)))
      (defs.alternatives opened nullable t) := by
  fun_induction Definitions.alternatives defs opened nullable t generalizing schema with
  | case1 opened nullable members free =>
      obtain ⟨schemas, -, among, rfl⟩ := ofType_union_eq_ok mapped
      rw [ofUnion_of_any (among.trans free)]
      cases nullable <;> exact .nil
  | case2 opened nullable members proper none =>
      obtain ⟨schemas, each, -, rfl⟩ := ofType_union_eq_ok mapped
      rw [none, List.forall₂_nil_left_iff] at each
      rw [each, show ofUnion (members.any isNil) [] = nil from rfl, canonical_flag_nil]
      exact .nil
  | case3 opened nullable members proper member only ih =>
      obtain ⟨schemas, each, among, rfl⟩ := ofType_union_eq_ok mapped
      rw [only] at each
      obtain ⟨schema, others, built, none, rfl⟩ := List.forall₂_cons_left_iff.mp each
      cases none
      have proper : isUnconstrained schema = false := by
        simpa using among.trans (Bool.eq_false_iff.mpr proper)
      rw [ofUnion_singleton proper, flag_flag]
      exact ih built
  | case4 opened nullable members proper some several =>
      obtain ⟨schemas, each, among, rfl⟩ := ofType_union_eq_ok mapped
      have many : 2 ≤ schemas.length := each.length_eq ▸ Definitions.two_le_length some several
      rw [ofUnion_several (among.trans (Bool.eq_false_iff.mpr proper)) many, flag_flag,
        canonical_flag_oneOf]
      exact forall₂_standsFor_several each _
  | case5 opened nullable name inside =>
      rcases ofType_ref_eq_ok mapped with ⟨target, found, -⟩ | ⟨-, -, rfl⟩
      · exact absurd inside ((defs.fresh_without opened).of_found found).1
      · rw [canonical_flag_reference]
        exact .nil
  | case6 opened nullable name closed target found ih =>
      rw [ofType_ref_of_not_mem closed found] at mapped
      exact ih mapped
  | case7 opened nullable name closed missing =>
      rcases ofType_ref_eq_ok mapped with ⟨target, found, -⟩ | ⟨absent, defined, -⟩
      · cases missing.symm.trans ((defs.fresh_without opened).of_found found).2
      · exact absurd ((defs.fresh_without opened).of_missing absent defined) closed
  | case8 opened nullable t union ref =>
      rw [branches_eq_nil mapped union ref]
      exact .nil

theorem countP_validates {branches : List Json} {alternatives : List Definitions.Alternative}
    (each : Forall₂ (StandsFor defs) branches alternatives) (v : Json) :
    (branches.countP fun branch => validates branch v) =
      alternatives.countP fun alternative => alternative.takes .one defs v := by
  induction each with
  | nil => rfl
  | cons same _ ih => rw [List.countP_cons, List.countP_cons, ih, validates, same]

/-- The schema of each union inside a name of plain data has one branch for each of its alternatives
and no others, so that a value meets as many branches as alternatives take it. The values that are
valid against the schema of the name are those that the name takes, if it reads alternatives as
exactly one; a value of the name is one of them if it is unambiguous. -/
theorem canonical_exclusive {defs : Definitions} {name : String}
    (eligible : defs.isSubtypeOf (.ref name) (.scalar .anydata) = true) :
    (∀ opened members, defs.StandsIn name opened (.union members) →
      ∃ schema, ofType defs (defs.without opened) (.union members) = .ok schema ∧
        Forall₂ (StandsFor defs) (branches (canonical schema))
          (defs.alternatives opened false (.union members)) ∧
        ∀ v, ((branches (canonical schema)).countP fun branch => validates branch v) =
          defs.choices opened false (.union members) v) ∧
    ∃ schema, ofName defs name = .ok schema ∧
      (∀ v, validates (canonical schema) v = defs.takes .one [] false (.ref name) v) ∧
      ∀ v, defs.Inhabits (.ref name) v → defs.Unambiguous name v →
        validates (canonical schema) v = true := by
  have whole : (ofName defs name).isOk = true := by rw [isOk_ofName, eligible]
  constructor
  · intro opened members stands
    obtain ⟨schema, mapped⟩ := exists_ofType_eq_ok whole stands
    have each := forall₂_branches false mapped
    exact ⟨schema, mapped, each, countP_validates each⟩
  · obtain ⟨schema, mapped⟩ := exists_ofType_eq_ok whole .root
    have reads := meets_canonical_ofName mapped .one
    refine ⟨schema, mapped, reads, fun v inside single => (reads v).trans ?_⟩
    exact (Definitions.taken_of_inhabits single inside).takes single .root

def ratio : Descriptor := .union [.scalar .string, .scalar .int, .scalar .float]

/-- A count and a ratio, of which only the ratio leaves a choice. -/
def measure : Descriptor :=
  .record [("count", ⟨.scalar .int, false⟩), ("ratio", ⟨ratio, false⟩)] none

def measures : Definitions := .ofList [("Measure", measure)]

def measured (value : Json) : Json := .obj [("count", .ofInt 3), ("ratio", value)]

private theorem getElem?_measures : measures["Measure"]? = some measure := by
  cbv

private theorem standsAt_measures {opened : List String} {t : Descriptor} {part : Json}
    (stands : measures.StandsAt "Measure" (measured (.str "n/a")) opened t part) :
    (opened, t, part) ∈ [([], Descriptor.ref "Measure", measured (.str "n/a")),
      (["Measure"], measure, measured (.str "n/a")), (["Measure"], .scalar .int, .ofInt 3),
      (["Measure"], ratio, .str "n/a"), (["Measure"], .scalar .string, .str "n/a")] := by
  induction stands with
  | root => simp
  | element _ _ ih => simp [measure, ratio] at ih
  | place _ _ ih => simp [measure, ratio] at ih
  | field _ declared found ih =>
      simp only [measure, measured, ratio, List.mem_cons, Prod.mk.injEq, reduceCtorEq, and_false,
        false_and, or_false, false_or, List.not_mem_nil, Descriptor.record.injEq,
        Json.obj.injEq] at ih
      obtain ⟨rfl, ⟨rfl, rfl⟩, rfl⟩ := ih
      simp only [List.mem_cons, List.not_mem_nil, or_false] at declared
      rcases declared with rfl | rfl <;> simp_all [Keyed.get?, ratio]
  | member _ among inside ih =>
      simp only [measure, measured, ratio, List.mem_cons, Prod.mk.injEq, reduceCtorEq, and_false,
        false_and, or_false, false_or, List.not_mem_nil, Descriptor.union.injEq] at ih
      obtain ⟨rfl, rfl, rfl⟩ := ih
      cases inside with
      | scalar inside =>
          -- A text belongs to the first member only.
          simp only [List.mem_cons, List.not_mem_nil, or_false, Descriptor.scalar.injEq] at among
          rcases among with rfl | rfl | rfl
          · simp
          all_goals cases inside
      | _ => simp at among
  | definition _ _ found ih =>
      simp only [measure, measured, ratio, List.mem_cons, Prod.mk.injEq, reduceCtorEq, and_false,
        false_and, or_false, List.not_mem_nil, Descriptor.ref.injEq] at ih
      obtain ⟨rfl, rfl, rfl⟩ := ih
      rw [getElem?_measures] at found
      cases found
      simp [measured]

private theorem choices_ratio (v : Json) :
    measures.choices ["Measure"] false ratio v =
      [Scalar.string, .int, .float].countP fun kind => kind.admits v := by
  rw [Definitions.choices, ratio,
    Definitions.alternatives_union_several (by simp [Definitions.isFree]) (by decide)]
  simp [Definitions.properMembers, isNil, List.countP_cons, Definitions.Alternative.takes,
    Definitions.takes]

private theorem unambiguous_measures :
    measures.Unambiguous "Measure" (measured (.str "n/a")) := by
  constructor
  · intro opened t part stands
    have place := standsAt_measures stands
    simp only [List.mem_cons, Prod.mk.injEq, List.not_mem_nil, or_false] at place
    rcases place with ⟨rfl, rfl, rfl⟩ | ⟨rfl, rfl, rfl⟩ | ⟨rfl, rfl, rfl⟩ | ⟨rfl, rfl, rfl⟩ |
      ⟨rfl, rfl, rfl⟩
    · rw [Definitions.choices, Definitions.alternatives_ref_of_not_mem (by simp) getElem?_measures]
      simp [measure, Definitions.alternatives]
    · simp [Definitions.choices, measure, Definitions.alternatives]
    · simp [Definitions.choices, Definitions.alternatives]
    · rw [choices_ratio]
      decide
    · simp [Definitions.choices, Definitions.alternatives]
  · intro opened members items stands
    have place := standsAt_measures stands
    simp [measure, ratio] at place

/-- Only the ratio of a measure has a choice, so that an integral count does no harm and an integral
ratio does. -/
theorem canonical_exclusive_measures :
    measures.isSubtypeOf (.ref "Measure") (.scalar .anydata) = true ∧
      measures.StandsIn "Measure" ["Measure"] ratio ∧
      measures.Inhabits (.ref "Measure") (measured (.str "n/a")) ∧
      measures.Unambiguous "Measure" (measured (.str "n/a")) ∧
      (∃ schema, ofType measures (measures.without ["Measure"]) ratio = .ok schema ∧
        ((branches (canonical schema)).countP fun branch => validates branch (.ofInt 1)) = 2) ∧
      ∃ schema, ofName measures "Measure" = .ok schema ∧
        validates (canonical schema) (measured (.str "n/a")) = true ∧
        validates (canonical schema) (measured (.ofInt 1)) = false := by
  have eligible : measures.isSubtypeOf (.ref "Measure") (.scalar .anydata) = true := by
    rw [← isOk_ofName, ofName, ofType_of_found getElem?_measures]
    simp [measure, ratio, ofType, ofFields, ofMembers, ofScalar, isNil, Except.map, Except.isOk,
      Except.toBool]
  have inside : measures.Inhabits (.ref "Measure") (measured (.str "n/a")) := by
    refine .ref getElem?_measures (.record ?_ ?_ ?_ ?_ ?_)
    · decide
    · simp [Keyed.keys]
    · intro field declared value found
      simp only [List.mem_cons, List.not_mem_nil, or_false] at declared
      rcases declared with rfl | rfl
      · cases found
        exact .scalar rfl
      · cases found
        exact .union List.mem_cons_self (.scalar rfl)
    · simp [Keyed.keys]
    · simp
  have stands : measures.StandsIn "Measure" ["Measure"] ratio :=
    .part (.definition .root (by simp) getElem?_measures) (by simp [measure, Descriptor.components])
  obtain ⟨unions, schema, mapped, valid, unambiguous⟩ := canonical_exclusive eligible
  obtain ⟨union, built, -, count⟩ := unions _ _ stands
  refine ⟨eligible, stands, inside, unambiguous_measures, ⟨union, built, ?_⟩, schema, mapped,
    unambiguous _ inside unambiguous_measures, ?_⟩
  · rw [count]
    exact choices_ratio (.ofInt 1)
  · have refused : measures.takes .one ["Measure"] false ratio (.ofInt 1) = false := by
      rw [ratio, Definitions.takes_union_several .one false _ (by simp [Definitions.isFree])
        (by decide)]
      simp [Definitions.properMembers, isNil, Definitions.takes, Scalar.admits, Reading.chooses,
        Json.ofInt, Json.Number.isIntegral]
    rw [valid, Definitions.takes_ref_of_not_mem .one false _ (by simp) getElem?_measures, measure,
      Definitions.takes_record]
    simp [measured, Json.isObjectWith, Keyed.get?, refused]

/-- An integer is also a number, so it meets both branches of its union and is refused. -/
theorem canonical_overlap :
    let defs := Definitions.ofList [("U", .union [.scalar .int, .scalar .float])]
    let branches := [formatted "integer" "int64", formatted "number" "float"]
    let schema := Json.obj [("oneOf", .arr branches)]
    defs.isSubtypeOf (.ref "U") (.scalar .anydata) = true ∧
      defs.StandsIn "U" ["U"] (.union [.scalar .int, .scalar .float]) ∧
      ofType defs (defs.without ["U"]) (.union [.scalar .int, .scalar .float]) = .ok schema ∧
      ofName defs "U" = .ok schema ∧ canonical schema = schema ∧
      defs.Inhabits (.union [.scalar .int, .scalar .float]) (.ofInt 1) ∧
      defs.Inhabits (.ref "U") (.ofInt 1) ∧
      (∀ branch ∈ branches, validates branch (.ofInt 1) = true) ∧
      validates (canonical schema) (.ofInt 1) = false := by
  intro defs branches schema
  have found : defs["U"]? = some (.union [.scalar .int, .scalar .float]) := by cbv
  have stands : defs.StandsIn "U" ["U"] (.union [.scalar .int, .scalar .float]) :=
    .definition .root (by simp) found
  have inside : defs.Inhabits (.union [.scalar .int, .scalar .float]) (.ofInt 1) :=
    .union List.mem_cons_self (.scalar rfl)
  refine ⟨by cbv, stands, by cbv, by cbv, by cbv, inside, .ref found inside, ?_, by cbv⟩
  simp only [branches, List.forall_mem_cons]
  exact ⟨rfl, rfl, by simp⟩

end Schema

end SchemaWeaver
