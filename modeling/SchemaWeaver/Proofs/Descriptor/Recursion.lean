import SchemaWeaver.Proofs.Descriptor.Answers
import SchemaWeaver.Proofs.Descriptor.Membership
import Mathlib.Order.Filter.AtTopBot.Basic
import Mathlib.Order.Filter.Finite

/-!
The checks of types as plain recursions, which follow every way and remember only what they are
inside of. Nothing makes such a recursion end, so it is given a depth, and without an answer within
that depth it has none. It ends if from some depth on it has an answer, always the same; and that is
the answer of the check.
-/

set_option autoImplicit false
set_option relaxedAutoImplicit false

namespace SchemaWeaver

open Filter (atTop)

/-- From some depth on a recursion has a result. -/
def Ends {α : Type} (run : Nat → Option α) (result : α) : Prop :=
  ∃ enough, ∀ depth, enough ≤ depth → run depth = some result

theorem ends_iff_eventually {α : Type} {run : Nat → Option α} {result : α} :
    Ends run result ↔ ∀ᶠ depth in atTop, run depth = some result :=
  Filter.eventually_atTop.symm

theorem eventually_of_succ {holds : Nat → Prop}
    (later : ∀ᶠ depth in atTop, holds (depth + 1)) : ∀ᶠ depth in atTop, holds depth := by
  rw [← Filter.map_add_atTop_eq_nat 1]
  exact Filter.eventually_map.mpr later

theorem eventually_forall_mem {α : Type} {items : List α} {holds : Nat → α → Prop}
    (each : ∀ a ∈ items, ∀ᶠ depth in atTop, holds depth a) :
    ∀ᶠ depth in atTop, ∀ a ∈ items, holds depth a :=
  (Filter.eventually_all_finite items.finite_toSet).mpr each

section Several

variable {α : Type} {items : List α} {run : α → Option Bool} {answer : α → Bool}

theorem allM_eq_some (each : ∀ a ∈ items, run a = some (answer a)) :
    items.allM run = some (items.all answer) := by
  induction items with
  | nil => rfl
  | cons a items ih =>
      have later := ih fun b member => each b (List.mem_cons_of_mem a member)
      rw [List.allM_cons, each a List.mem_cons_self, later]
      cases first : answer a <;> simp [first]

theorem anyM_eq_some (each : ∀ a ∈ items, run a = some (answer a)) :
    items.anyM run = some (items.any answer) := by
  induction items with
  | nil => rfl
  | cons a items ih =>
      have later := ih fun b member => each b (List.mem_cons_of_mem a member)
      rw [List.anyM_cons, each a List.mem_cons_self, later]
      cases first : answer a <;> simp [first]

end Several

namespace Definitions

open Relation (ReflTransGen)

/-! ## Data -/

/-- The recursion that looks whether a type is built from admitted scalars, inside the definitions
of some names. -/
def conformsRun (defs : Definitions) (admitted : Scalar → Bool) :
    Nat → List String → Descriptor → Option Bool
  | 0, _, _ => none
  | _ + 1, _, .scalar kind => some (admitted kind)
  | depth + 1, visiting, .ref name =>
      if name ∈ visiting then some true
      else
        match defs[name]? with
        | none => some false
        | some target => conformsRun defs admitted depth (name :: visiting) target
  | _ + 1, _, .object _ => some false
  | _ + 1, _, .error => some false
  | depth + 1, visiting, t => t.components.allM (conformsRun defs admitted depth visiting)

variable {defs : Definitions}

/-- The recursion over data ends, since it does not open a name inside its own definition. -/
theorem eventually_conformsRun_eq {fresh : Definitions} {visiting : List String}
    (admitted : Scalar → Bool) (without : defs.Fresh fresh visiting)
    (defined : ∀ name ∈ visiting, defs.contains name = true) (t : Descriptor) :
    ∀ᶠ depth in atTop,
      conformsRun defs admitted depth visiting t = some (conforms defs fresh admitted t) := by
  have parts : ∀ᶠ depth in atTop, ∀ part ∈ t.components,
      conformsRun defs admitted depth visiting part = some (conforms defs fresh admitted part) :=
    eventually_forall_mem fun part _member =>
      eventually_conformsRun_eq admitted without defined part
  have definition : ∀ name target, fresh[name]? = some target → ∀ᶠ depth in atTop,
      conformsRun defs admitted depth (name :: visiting) target =
        some (conforms defs (fresh.erase name) admitted target) := by
    intro name target _found
    refine eventually_conformsRun_eq admitted (without.erase name) (fun other member => ?_) target
    rcases List.mem_cons.mp member with rfl | old
    · rw [Std.TreeMap.contains_eq_isSome_getElem?, (without.of_found _found).2]
      rfl
    · exact defined other old
  refine eventually_of_succ ?_
  cases t with
  | scalar kind => exact .of_forall fun depth => by rw [conformsRun, conforms]
  | object type => exact .of_forall fun depth => by rw [conformsRun, conforms]
  | error => exact .of_forall fun depth => by rw [conformsRun, conforms]
  | ref name =>
      by_cases inside : name ∈ visiting
      · have opened : fresh[name]? = none := by rw [without, if_pos inside]
        refine .of_forall fun depth => ?_
        rw [conformsRun, if_pos inside, conforms_of_missing opened, defined name inside]
      · have same : defs[name]? = fresh[name]? := by rw [without, if_neg inside]
        cases found : fresh[name]? with
        | none =>
            refine .of_forall fun depth => ?_
            rw [conformsRun, if_neg inside, conforms_of_missing found,
              Std.TreeMap.contains_eq_isSome_getElem?, same, found]
            rfl
        | some target =>
            filter_upwards [definition name target found] with depth below
            rw [conformsRun, if_neg inside, conforms_of_found found, same, found]
            exact below
  | _ =>
      filter_upwards [parts] with depth below
      rw [conformsRun, conforms, allM_eq_some below]
      all_goals simp
termination_by (fresh.size, sizeOf t)
decreasing_by
  · exact Prod.Lex.right _ (Descriptor.sizeOf_lt_of_mem_components _member)
  · exact Prod.Lex.left _ _ (size_erase_lt _found)

theorem eventually_conformsRun_nil (defs : Definitions) (admitted : Scalar → Bool)
    (t : Descriptor) :
    ∀ᶠ depth in atTop, conformsRun defs admitted depth [] t = some (defs.builtFrom admitted t) := by
  have without : defs.Fresh defs [] := fun name => by simp
  rw [← conforms_eq_builtFrom]
  exact eventually_conformsRun_eq admitted without (by simp) t

/-! ## Comparison -/

def recordRun (ask : Descriptor → Descriptor → Option Bool)
    (fields : List (String × Field Descriptor)) (rest : Option Descriptor)
    (others : List (String × Field Descriptor)) (otherRest : Option Descriptor) : Option Bool := do
  let declared ← others.allM fun other =>
    match Keyed.get? fields other.1 with
    | none => some other.2.optional
    | some field =>
        if other.2.optional || !field.optional then ask field.type other.2.type else some false
  if !declared then return false
  match otherRest with
  | none => return rest.isNone && fields.all fun field => Keyed.has others field.1
  | some side =>
      let further ← (fields.filter fun field => !Keyed.has others field.1).allM fun field =>
        ask field.2.type side
      if !further then return false
      match rest with
      | none => return true
      | some type => ask type side

/-- One layer of a comparison, where `data` looks for data and `ask` compares the types inside. -/
def layerRun (data : (Scalar → Bool) → Descriptor → Option Bool)
    (ask : Descriptor → Descriptor → Option Bool) (sub sup : Descriptor) : Option Bool :=
  match sub, sup with
  | _, .scalar .any => some (sub ≠ .error)
  | _, .scalar .anydata => data Scalar.isData sub
  | _, .scalar .json => data Scalar.isJson sub
  | .scalar a, .scalar b => some (a.fits b)
  | .array a, .array b => ask a b
  | .tuple members, .array b => members.allM fun member => ask member b
  | .tuple members, .tuple others =>
      if members.length = others.length then
        (members.zip others).allM fun pair => ask pair.1 pair.2
      else some false
  | .record fields rest, .record others otherRest => recordRun ask fields rest others otherRest
  | .object a, .object b => some (a.isOrIncludes b)
  | .error, .error => some true
  | _, _ => some false

def subtypeRun (defs : Definitions) : Nat → Assumptions → Descriptor → Descriptor → Option Bool
  | 0, _, _, _ => none
  | depth + 1, assumed, .ref name, sup =>
      if sup = .ref name then some true
      else if assumed.holds name sup then some true
      else
        match defs[name]? with
        | none => some false
        | some target => subtypeRun defs depth (assumed.assume name sup) target sup
  | depth + 1, assumed, .union members, sup =>
      members.allM fun member => subtypeRun defs depth assumed member sup
  | depth + 1, assumed, sub, .ref name =>
      match defs[name]? with
      | none => some false
      | some target => subtypeRun defs depth assumed sub target
  | depth + 1, assumed, sub, .union members =>
      members.anyM fun member => subtypeRun defs depth assumed sub member
  | depth + 1, assumed, sub, sup =>
      layerRun (fun admitted => conformsRun defs admitted depth []) (subtypeRun defs depth assumed)
        sub sup

section Layer

variable {data : (Scalar → Bool) → Descriptor → Option Bool}
  {run : Descriptor → Descriptor → Option Bool} {ask : Descriptor → Descriptor → Bool}

theorem recordRun_eq {fields others : List (String × Field Descriptor)}
    {rest otherRest : Option Descriptor}
    (parts : ∀ a b, Beside (.record fields rest) (.record others otherRest) a b →
      run a b = some (ask a b)) :
    recordRun run fields rest others otherRest =
      some (others.all (hasDeclared ask fields) && fitsRest ask fields rest others otherRest) := by
  have declared (other) (member : other ∈ others) :
      (match Keyed.get? fields other.1 with
        | none => some other.2.optional
        | some field =>
            if other.2.optional || !field.optional then run field.type other.2.type
            else some false) = some (hasDeclared ask fields other) := by
    obtain ⟨name, other⟩ := other
    cases own : Keyed.get? fields name with
    | none => simp [hasDeclared, own]
    | some field =>
        simp only [hasDeclared, own, parts _ _ (.declared own member)]
        cases other.optional || !field.optional <;> rfl
  unfold recordRun
  rw [allM_eq_some declared]
  cases others.all (hasDeclared ask fields) with
  | false => rfl
  | true =>
      cases otherRest with
      | none => rfl
      | some side =>
          have further : ∀ field ∈ fields.filter fun field => !Keyed.has others field.1,
              run field.2.type side = some (ask field.2.type side) := by
            intro field member
            obtain ⟨inside, undeclared⟩ := List.mem_filter.mp member
            rw [Bool.not_eq_true', ← Bool.not_eq_true, Keyed.has_eq_true_iff] at undeclared
            exact parts _ _ (.further inside undeclared)
          have each : ((fields.filter fun field => !Keyed.has others field.1).all fun field =>
              ask field.2.type side) =
                fields.all fun field => Keyed.has others field.1 || ask field.2.type side := by
            simp [List.all_filter]
          simp only [fitsRest, ← each, allM_eq_some further]
          cases (fields.filter fun field => !Keyed.has others field.1).all fun field =>
              ask field.2.type side with
          | false => rfl
          | true =>
              cases rest with
              | none => rfl
              | some type => exact parts _ _ .beyond

theorem layerRun_eq {sub sup : Descriptor}
    (isData : data Scalar.isData sub = some (defs.isData sub))
    (isJson : data Scalar.isJson sub = some (defs.isJson sub))
    (parts : ∀ a b, Beside sub sup a b → run a b = some (ask a b)) :
    layerRun data run sub sup = some (defs.layer ask sub sup) := by
  fun_cases layer defs ask sub sup
  case case8 => exact recordRun_eq parts
  case case2 => exact isData
  case case3 => exact isJson
  case case5 => exact parts _ _ .element
  case case6 members other =>
      exact allM_eq_some fun member inside => parts member other (.inArray inside)
  case case7 members others =>
      rw [layerRun, allM_eq_some fun pair inside => parts pair.1 pair.2 (.inTuple inside)]
      by_cases same : members.length = others.length <;> simp [same]
  all_goals rw [layerRun] <;> assumption

end Layer

/-- Right sides that lead to one another, are all listed, and end in types that are neither names
nor unions. -/
structure Descends (defs : Definitions) (sides : List Descriptor) (side : Descriptor → Prop) :
    Prop where
  listed : ∀ u, side u → defs.isSide sides u = true
  onward : ∀ u v, side u → defs.Leads (fun _ => true) u v → side v
  ends : ∀ u, side u → Acc (fun v u => defs.Leads isUnion u v) u

section Subtype

variable {sides : List Descriptor} {side : Descriptor → Prop}

private theorem eventually_subtypeRun_single {assumed : Assumptions}
    (descends : defs.Descends sides side) {sub : Descriptor} (unnamed : ∀ name, sub ≠ .ref name)
    (single : isUnion sub = false)
    (parts : ∀ a ∈ sub.components, ∀ b, side b → ∀ᶠ depth in atTop,
      subtypeRun defs depth assumed a b = some (subtypeUnder defs sides assumed a b))
    {sup : Descriptor} (asked : side sup) :
    ∀ᶠ depth in atTop,
      subtypeRun defs depth assumed sub sup = some (subtypeUnder defs sides assumed sub sup) := by
  have several : ∀ members, sub ≠ .union members := by
    rintro members rfl
    cases single
  induction descends.ends sup asked with
  | intro sup _ ih =>
      have next (u) (step : defs.Leads isUnion sup u) : ∀ᶠ depth in atTop,
          subtypeRun defs depth assumed sub u = some (subtypeUnder defs sides assumed sub u) := by
        refine ih u step (descends.onward sup u asked ?_)
        cases step with
        | definition found => exact .definition found
        | part _ member => exact .part rfl member
      refine eventually_of_succ ?_
      cases sup with
      | ref name =>
          rw [subtypeUnder_single_ref unnamed single]
          cases found : defs[name]? with
          | none =>
              refine .of_forall fun depth => ?_
              rw [subtypeRun, found]
              · rfl
              · exact unnamed
              · exact several
          | some target =>
              filter_upwards [next target (.definition found)] with depth below
              rw [subtypeRun, found]
              · exact below
              · exact unnamed
              · exact several
      | union members =>
          rw [subtypeUnder_single_union unnamed single]
          filter_upwards [eventually_forall_mem fun member inside => next member (.part rfl inside)]
            with depth below
          rw [subtypeRun]
          · exact anyM_eq_some below
          · exact unnamed
          · exact several
      | _ =>
          have compared := eventually_forall_mem fun a inside => eventually_forall_mem
            fun b opposite => parts a inside b (descends.onward _ b asked (.part rfl opposite))
          have data := defs.eventually_conformsRun_nil Scalar.isData sub
          have json := defs.eventually_conformsRun_nil Scalar.isJson sub
          rw [subtypeUnder_single_single unnamed single (by simp) rfl]
          filter_upwards [compared, data, json] with depth below isData isJson
          rw [subtypeRun]
          · refine layerRun_eq isData isJson fun a b beside => ?_
            obtain ⟨inside, opposite⟩ := beside.mem_components
            exact below a inside b opposite
          · exact unnamed
          · exact several
          · simp
          · simp

/-- The comparison ends, since every question about a name on the left is asked once on the way to a
type, and what is asked about it comes to an end on the right. -/
theorem eventually_subtypeRun_eq {assumed : Assumptions} (descends : defs.Descends sides side)
    (defined : ∀ name sup, assumed.holds name sup = true → defs.contains name = true)
    (sub : Descriptor) {sup : Descriptor} (asked : side sup) :
    ∀ᶠ depth in atTop,
      subtypeRun defs depth assumed sub sup = some (subtypeUnder defs sides assumed sub sup) := by
  have parts : ∀ a ∈ sub.components, ∀ b, side b → ∀ᶠ depth in atTop,
      subtypeRun defs depth assumed a b = some (subtypeUnder defs sides assumed a b) :=
    fun a _member b asked => eventually_subtypeRun_eq descends defined a asked
  have listed := descends.listed sup asked
  have definition : ∀ name target, defs[name]? = some target → ¬assumed.holds name sup = true →
      ∀ᶠ depth in atTop, subtypeRun defs depth (assumed.assume name sup) target sup =
        some (subtypeUnder defs sides (assumed.assume name sup) target sup) := by
    intro name target found _unsettled
    refine eventually_subtypeRun_eq descends (fun other right holds => ?_) target asked
    rw [Assumptions.holds_assume, Bool.or_eq_true, decide_eq_true_eq] at holds
    rcases holds with ⟨rfl, -⟩ | old
    · rw [Std.TreeMap.contains_eq_isSome_getElem?, found]
      rfl
    · exact defined other right old
  cases sub with
  | ref name =>
      refine eventually_of_succ ?_
      rw [subtypeUnder_ref_eq listed]
      by_cases same : sup = .ref name
      · exact .of_forall fun depth => by simp [subtypeRun, same]
      by_cases settled : assumed.holds name sup = true
      · obtain ⟨target, found⟩ : ∃ target, defs[name]? = some target := by
          have known := defined name sup settled
          rw [Std.TreeMap.contains_eq_isSome_getElem?] at known
          exact Option.isSome_iff_exists.mp known
        exact .of_forall fun depth => by simp [subtypeRun, same, settled, found]
      cases found : defs[name]? with
      | none => exact .of_forall fun depth => by simp [subtypeRun, same, settled, found]
      | some target =>
          filter_upwards [definition name target found settled] with depth below
          simp [subtypeRun, same, settled, found, below]
  | union members =>
      refine eventually_of_succ ?_
      filter_upwards [eventually_forall_mem fun member inside => parts member inside sup asked]
        with depth below
      rw [subtypeRun, subtypeUnder]
      have each := allM_eq_some below
      simpa [Descriptor.components] using each
  | _ => exact eventually_subtypeRun_single descends (by simp) rfl parts asked
termination_by ((assumed.openQuestions defs (defs.keys.map .ref ++ sides)).length, sizeOf sub)
decreasing_by
  · exact Prod.Lex.right _ (Descriptor.sizeOf_lt_of_mem_components _member)
  · exact Prod.Lex.left _ _
      (Assumptions.length_openQuestions_assume_lt found (mem_of_isSide listed) _unsettled)

end Subtype

/-- No definition leads back to its name through names and unions only. -/
def Grounded (defs : Definitions) : Prop :=
  ∀ name target, defs[name]? = some target → ¬defs.Reaches isUnion target (.ref name)

/-- If definitions are grounded, going through names and unions comes to an end: the definitions
that are not opened yet get fewer. -/
private theorem Grounded.acc_of_opened (grounded : defs.Grounded) (fresh : Definitions)
    {t : Descriptor} (opened : ∀ (name : String) target, defs[name]? = some target →
      fresh[name]? = some target ∨ defs.Reaches isUnion target t) :
    Acc (fun v u => defs.Leads isUnion u v) t := by
  constructor
  intro u step
  cases step with
  | @definition name _ found =>
      have _unopened : fresh[name]? = some u :=
        (opened name u found).resolve_right (grounded name u found)
      refine grounded.acc_of_opened (fresh.erase name) fun other target there => ?_
      by_cases same : other = name
      · subst same
        cases found.symm.trans there
        exact Or.inr ReflTransGen.refl
      · rw [getElem?_erase_of_ne same]
        exact (opened other target there).imp_right fun way => way.tail (.definition found)
  | part entered _member =>
      refine grounded.acc_of_opened fresh fun other target there => ?_
      exact (opened other target there).imp_right fun way => way.tail (.part entered _member)
termination_by (fresh.size, sizeOf t)
decreasing_by
  · exact Prod.Lex.left _ _ (size_erase_lt _unopened)
  · exact Prod.Lex.right _ (Descriptor.sizeOf_lt_of_mem_components _member)

theorem Grounded.acc (grounded : defs.Grounded) (t : Descriptor) :
    Acc (fun v u => defs.Leads isUnion u v) t :=
  grounded.acc_of_opened defs fun _ _ found => Or.inl found

theorem Grounded.descends (grounded : defs.Grounded) (sup : Descriptor) :
    defs.Descends (defs.rightSides sup) (defs.Reaches (fun _ => true) sup) where
  listed _ way := isSide_rightSides way
  onward _ _ way step := way.tail step
  ends u _ := grounded.acc u

theorem descends_leaf {leaf : Descriptor} (last : ∀ u, ¬defs.Leads (fun _ => true) leaf u) :
    defs.Descends (defs.rightSides leaf) (· = leaf) where
  listed _ same := isSide_rightSides (same ▸ ReflTransGen.refl)
  onward _ v same step := absurd (same ▸ step) (last v)
  ends u same := by
    refine ⟨u, fun v step => absurd ?_ (last v)⟩
    subst same
    cases step with
    | definition found => exact .definition found
    | part _ member => exact .part rfl member

private theorem ends_subtypeRun {side : Descriptor → Prop} {sup : Descriptor}
    (descends : defs.Descends (defs.rightSides sup) side) (asked : side sup) (sub : Descriptor) :
    Ends (fun depth => subtypeRun defs depth ∅ sub sup) (defs.isSubtypeOf sub sup) := by
  refine ends_iff_eventually.mpr (eventually_subtypeRun_eq descends ?_ sub asked)
  intro name right holds
  simp [Assumptions.holds] at holds

theorem ends_subtypeRun_scalar (sub : Descriptor) (kind : Scalar) :
    Ends (fun depth => subtypeRun defs depth ∅ sub (.scalar kind))
      (defs.isSubtypeOf sub (.scalar kind)) := by
  refine ends_subtypeRun (descends_leaf ?_) rfl sub
  rintro u (⟨⟩ | ⟨-, ⟨⟩⟩)

theorem ends_subtypeRun_object (sub : Descriptor) (type : ObjectType) :
    Ends (fun depth => subtypeRun defs depth ∅ sub (.object type))
      (defs.isSubtypeOf sub (.object type)) := by
  refine ends_subtypeRun (descends_leaf ?_) rfl sub
  rintro u (⟨⟩ | ⟨-, ⟨⟩⟩)

theorem Grounded.ends_subtypeRun (grounded : defs.Grounded) (sub sup : Descriptor) :
    Ends (fun depth => subtypeRun defs depth ∅ sub sup) (defs.isSubtypeOf sub sup) :=
  Definitions.ends_subtypeRun (grounded.descends sup) ReflTransGen.refl sub

/-- Comparing a type with a name that is defined as itself goes on for ever. -/
theorem subtypeRun_eq_none {name : String} (loop : defs[name]? = some (.ref name))
    {sub : Descriptor} (unnamed : ∀ name, sub ≠ .ref name) (single : isUnion sub = false)
    (assumed : Assumptions) (depth : Nat) :
    subtypeRun defs depth assumed sub (.ref name) = none := by
  induction depth with
  | zero => rfl
  | succ depth ih =>
      rw [subtypeRun, loop]
      · exact ih
      · exact unnamed
      · rintro members rfl
        cases single

def tree : Descriptor :=
  .record [("value", ⟨.scalar .int, false⟩), ("below", ⟨.ref "Forest", true⟩)] none

def forest : Descriptor := (Descriptor.array (.ref "Tree")).orNil

def outcome : Descriptor := .union [.ref "Forest", .error]

def forests : Definitions :=
  .ofList [("Tree", tree), ("Forest", forest), ("Outcome", outcome)]

theorem found_forests {name : String} {target : Descriptor}
    (found : forests[name]? = some target) :
    name = "Tree" ∧ target = tree ∨ name = "Forest" ∧ target = forest ∨
      name = "Outcome" ∧ target = outcome := by
  have listed : (name, target) ∈ [("Forest", forest), ("Outcome", outcome), ("Tree", tree)] :=
    Std.TreeMap.mem_toList_iff_getElem?_eq_some.mpr found
  simp only [List.mem_cons, Prod.mk.injEq, List.not_mem_nil, or_false] at listed
  rcases listed with first | second | third
  · exact Or.inr (Or.inl first)
  · exact Or.inr (Or.inr second)
  · exact Or.inl third

theorem grounded_forests : forests.Grounded := by
  intro name target found way
  have finds : forests.Finds isUnion (fun u => decide (u = .ref name)) target := ⟨_, way, by simp⟩
  have open_ : forests["Forest"]? = some forest := rfl
  rcases found_forests found with ⟨rfl, rfl⟩ | ⟨rfl, rfl⟩ | ⟨rfl, rfl⟩ <;>
    simp [finds_ref_iff, finds_unnamed_iff, isUnion, Descriptor.components, Descriptor.orNil, tree,
      forest, outcome, open_] at finds

end Definitions

end SchemaWeaver
