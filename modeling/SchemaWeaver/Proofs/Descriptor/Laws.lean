import SchemaWeaver.Proofs.Descriptor.Recursion
import Mathlib.Data.List.Permutation

/-!
Laws of the subtype check: every type is a subtype of itself, and a union is an upper bound of its
members. A question that comes up under assumptions has the answer that it has without them as long
as the assumptions were answered yes, so that an answer carries over from one right side to another
that has the first among its alternatives.
-/

set_option autoImplicit false
set_option relaxedAutoImplicit false

namespace SchemaWeaver.Definitions

open Relation (ReflTransGen)

/-- Whether a type by itself is well formed: a name has a definition, and the fields of a record
have different names. -/
def isProper (defs : Definitions) : Descriptor → Bool
  | .ref name => defs.contains name
  | .record fields _ => (Keyed.keys fields).Nodup
  | _ => true

/-- All that a type is built from is well formed. -/
def Covers (defs : Definitions) (t : Descriptor) : Prop :=
  t.parts.all defs.isProper = true

def Closed (defs : Definitions) : Prop :=
  ∀ (name : String) target, defs[name]? = some target → defs.Covers target

variable {defs : Definitions}

theorem Covers.isProper {t : Descriptor} (covers : defs.Covers t) : defs.isProper t = true :=
  List.all_eq_true.mp covers t (mem_parts_self t)

theorem Covers.component {t part : Descriptor} (covers : defs.Covers t)
    (member : part ∈ t.components) : defs.Covers part := by
  refine List.all_eq_true.mpr fun u inside => ?_
  exact List.all_eq_true.mp covers u (mem_parts_iff.mpr (Or.inr ⟨part, member, inside⟩))

theorem Covers.exists_definition {name : String} (covers : defs.Covers (.ref name)) :
    ∃ target, defs[name]? = some target := by
  have defined : defs.contains name = true := covers.isProper
  rw [Std.TreeMap.contains_eq_isSome_getElem?] at defined
  exact Option.isSome_iff_exists.mp defined

theorem Covers.nodup {t : Descriptor} (covers : defs.Covers t)
    {fields : List (String × Field Descriptor)} {rest : Option Descriptor}
    (record : t = .record fields rest) : (Keyed.keys fields).Nodup := by
  subst record
  exact of_decide_eq_true covers.isProper

section Laws

variable (closed : defs.Closed) {whole : Descriptor}
include closed

theorem subtypeUnder_of_alternative {assumed : Assumptions} {sub sup : Descriptor}
    (covers : defs.Covers sub) (asked : defs.Reaches (fun _ => true) whole sup)
    (way : defs.Reaches isUnion sup sub) :
    subtypeUnder defs (defs.rightSides whole) assumed sub sup = true := by
  have side := isSide_rightSides asked
  have members : isUnion sub = true → ∀ member ∈ sub.components,
      subtypeUnder defs (defs.rightSides whole) assumed member sup = true :=
    fun union member _inside => subtypeUnder_of_alternative (covers.component _inside) asked
      (way.tail (.part union _inside))
  have parts : ∀ part ∈ sub.components,
      subtypeUnder defs (defs.rightSides whole) assumed part part = true :=
    fun part _inside => subtypeUnder_of_alternative (covers.component _inside)
      ((asked.trans way.everywhere).tail (.part rfl _inside)) ReflTransGen.refl
  cases sub with
  | ref name =>
      obtain ⟨target, found⟩ := covers.exists_definition
      refine subtypeUnder_ref_of_found found side ?_
      by_cases settled : assumed.holds name sup = true
      · exact Or.inl settled
      · exact Or.inr (subtypeUnder_of_alternative (closed name target found) asked
          (way.tail (.definition found)))
  | union _ => exact subtypeUnder_union.mpr (members rfl)
  | _ =>
      refine (subtypeUnder_single_iff (by simp) rfl).mpr ⟨_, way, ?_⟩
      exact layer_self (by simp) rfl parts fun _ _ record => covers.nodup record
termination_by
  ((assumed.openQuestions defs (defs.keys.map .ref ++ defs.rightSides whole)).length, sizeOf sub)
decreasing_by
  · exact Prod.Lex.right _ (Descriptor.sizeOf_lt_of_mem_components _inside)
  · exact Prod.Lex.right _ (Descriptor.sizeOf_lt_of_mem_components _inside)
  · exact Prod.Lex.left _ _
      (Assumptions.length_openQuestions_assume_lt found (mem_of_isSide side) settled)

end Laws

/-- Assumptions each of which was made on the way to a yes. -/
inductive Justified (defs : Definitions) (sides : List Descriptor) : Assumptions → Prop
  | none : Justified defs sides ∅
  | assume {assumed : Assumptions} {name : String} {target sup : Descriptor}
      (justified : Justified defs sides assumed) (found : defs[name]? = some target)
      (answer : subtypeUnder defs sides (assumed.assume name sup) target sup = true) :
      Justified defs sides (assumed.assume name sup)

theorem Justified.exists_answer {sides : List Descriptor} {assumed : Assumptions}
    (justified : defs.Justified sides assumed) {name : String} {sup : Descriptor}
    (settled : assumed.holds name sup = true) :
    ∃ earlier target, defs.Justified sides earlier ∧ defs[name]? = some target ∧
      subtypeUnder defs sides earlier target sup = true := by
  induction justified with
  | none => simp [Assumptions.holds] at settled
  | @assume assumed other target right justified found answer ih =>
      rw [Assumptions.holds_assume, Bool.or_eq_true, decide_eq_true_eq] at settled
      rcases settled with ⟨rfl, rfl⟩ | old
      · exact ⟨_, target, .assume justified found answer, found, answer⟩
      · exact ih old

section Laws

variable (closed : defs.Closed) {whole : Descriptor}
include closed

/-- A yes carries over to a right side that has the first one among its alternatives, and from
assumptions that are justified to any others. -/
theorem subtypeUnder_widen {sides : List Descriptor} {assumed other : Assumptions}
    (justified : defs.Justified sides assumed) {s t wider : Descriptor} (covers : defs.Covers s)
    (asked : defs.Reaches (fun _ => true) whole wider) (way : defs.Reaches isUnion wider t)
    (answer : subtypeUnder defs sides assumed s t = true) :
    subtypeUnder defs (defs.rightSides whole) other s wider = true := by
  have side := isSide_rightSides asked
  have members : ∀ member ∈ s.components, subtypeUnder defs sides assumed member t = true →
      subtypeUnder defs (defs.rightSides whole) other member wider = true :=
    fun member _inside => subtypeUnder_widen justified (covers.component _inside) asked way
  have parts : ∀ a ∈ s.components, ∀ b, defs.Reaches (fun _ => true) whole b →
      subtypeUnder defs sides assumed a b = true →
        subtypeUnder defs (defs.rightSides whole) other a b = true :=
    fun a _inside b asked =>
      subtypeUnder_widen justified (covers.component _inside) asked ReflTransGen.refl
  cases s with
  | ref name =>
      -- The question is new on this side, or settled. Its answer on the other side is found where
      -- it was opened there.
      have opened : ∀ earlier target, defs.Justified sides earlier → defs[name]? = some target →
          subtypeUnder defs sides earlier target t = true →
            subtypeUnder defs (defs.rightSides whole) other (.ref name) wider = true := by
        intro earlier target justified found answer
        refine subtypeUnder_ref_of_found found side ?_
        by_cases settled : other.holds name wider = true
        · exact Or.inl settled
        · exact Or.inr
            (subtypeUnder_widen justified (closed name target found) asked way answer)
      rcases subtypeUnder_ref answer with rfl | ⟨target, found, settled | below⟩
      · exact subtypeUnder_of_alternative closed covers asked way
      · obtain ⟨earlier, target, justified, found, answer⟩ := justified.exists_answer settled
        exact opened earlier target justified found answer
      · exact opened _ target (.assume justified found below) found below
  | union _ =>
      refine subtypeUnder_union.mpr fun member inside => members member inside ?_
      exact subtypeUnder_union.mp answer member inside
  | _ =>
      obtain ⟨alternative, right, fits⟩ := (subtypeUnder_single_iff (by simp) rfl).mp answer
      have across : defs.Reaches isUnion wider alternative := ReflTransGen.trans way right
      refine (subtypeUnder_single_iff (by simp) rfl).mpr ⟨alternative, across, ?_⟩
      refine layer_mono (fun a b beside => ?_) fits
      obtain ⟨inside, opposite⟩ := beside.mem_components
      exact parts a inside b ((asked.trans across.everywhere).tail (.part rfl opposite))
termination_by
  ((other.openQuestions defs (defs.keys.map .ref ++ defs.rightSides whole)).length, sizeOf s)
decreasing_by
  · exact Prod.Lex.right _ (Descriptor.sizeOf_lt_of_mem_components _inside)
  · exact Prod.Lex.right _ (Descriptor.sizeOf_lt_of_mem_components _inside)
  · exact Prod.Lex.left _ _
      (Assumptions.length_openQuestions_assume_lt found (mem_of_isSide side) settled)

end Laws

/-- If all definitions and a type are well formed, and no definition leads back to its name through
names and unions only, the comparison of the type with itself ends with a yes, and so does that with
a union one of whose members it is a subtype of. -/
theorem isSubtypeOf_self_and_union (closed : defs.Closed) (grounded : defs.Grounded)
    (t : Descriptor) (covers : defs.Covers t) :
    (Ends (fun depth => subtypeRun defs depth ∅ t t) true ∧ defs.isSubtypeOf t t = true) ∧
    ∀ members, ∀ member ∈ members, defs.isSubtypeOf t member = true →
      Ends (fun depth => subtypeRun defs depth ∅ t (.union members)) true ∧
        defs.isSubtypeOf t (.union members) = true := by
  have reflexive : defs.isSubtypeOf t t = true :=
    subtypeUnder_of_alternative closed covers ReflTransGen.refl ReflTransGen.refl
  refine ⟨⟨?_, reflexive⟩, fun members member inside answer => ?_⟩
  · have ended := grounded.ends_subtypeRun t t
    rwa [reflexive] at ended
  · have bound : defs.isSubtypeOf t (.union members) = true :=
      subtypeUnder_widen closed .none covers ReflTransGen.refl
        (ReflTransGen.single (.part rfl inside)) answer
    have ended := grounded.ends_subtypeRun t (.union members)
    rw [bound] at ended
    exact ⟨ended, bound⟩

private theorem closed_forests : forests.Closed := by
  intro name target found
  rcases found_forests found with ⟨rfl, rfl⟩ | ⟨rfl, rfl⟩ | ⟨rfl, rfl⟩
  · cbv
  · cbv
  · cbv

/-- A forest is a forest, and it is one of several things one of which is a forest or an error. -/
theorem isSubtypeOf_self_and_union_forest :
    let forest := Descriptor.ref "Forest"
    let several := [.scalar .string, .ref "Outcome", .object ⟨⟨"acme", "trees", "1"⟩, "Client", []⟩]
    forests.Closed ∧ forests.Grounded ∧ forests.Covers forest ∧
      Ends (fun depth => subtypeRun forests depth ∅ forest forest) true ∧
      forests.isSubtypeOf forest (.ref "Outcome") = true ∧
      Ends (fun depth => subtypeRun forests depth ∅ forest (.union several)) true ∧
      forests.isSubtypeOf forest (.union several) = true := by
  intro forest several
  have covers : forests.Covers forest := by cbv
  obtain ⟨⟨same, -⟩, bound⟩ :=
    isSubtypeOf_self_and_union closed_forests grounded_forests forest covers
  have member : forests.isSubtypeOf forest (.ref "Outcome") = true := by
    have opened : forests["Outcome"]? = some outcome := rfl
    have way : forests.Reaches isUnion (.ref "Outcome") forest :=
      ReflTransGen.head (.definition opened) (ReflTransGen.single (.part rfl List.mem_cons_self))
    exact subtypeUnder_of_alternative closed_forests covers ReflTransGen.refl way
  obtain ⟨ended, answer⟩ := bound several (.ref "Outcome") (by simp [several]) member
  exact ⟨closed_forests, grounded_forests, covers, same, member, ended, answer⟩

end SchemaWeaver.Definitions
