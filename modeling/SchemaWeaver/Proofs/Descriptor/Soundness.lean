import SchemaWeaver.Proofs.Descriptor.Answers
import SchemaWeaver.Proofs.Descriptor.Data
import SchemaWeaver.Proofs.Descriptor.Values

/-!
What the subtype check promises about values. A yes is right if no open record can have, among its
further fields, one that the other side declares with a type that does not admit it: the check lets
an optional field of the right side be missing on the left without a look at the rest type there.
-/

set_option autoImplicit false
set_option relaxedAutoImplicit false

namespace SchemaWeaver.Definitions

open List (Forall₂)
open Relation (ReflTransGen)

variable {defs : Definitions}

theorem values_subset_of_reaches {t u : Descriptor} (way : defs.Reaches isUnion t u) :
    defs.values u ⊆ defs.values t := by
  intro v inside
  refine ReflTransGen.head_induction_on way inside ?_
  intro t u step _ later
  rw [mem_values_iff]
  cases step with
  | definition found => exact ⟨u, found, later⟩
  | part entered member =>
      cases t with
      | union members => exact ⟨u, member, later⟩
      | _ => cases entered

theorem FindsForeign.of_leads {admitted : Scalar → Bool} {t u : Descriptor}
    (step : defs.Leads (fun _ => true) t u) (finds : defs.FindsForeign admitted u) :
    defs.FindsForeign admitted t := by
  obtain ⟨w, way, foreign⟩ := finds
  exact ⟨w, ReflTransGen.head step way, foreign⟩

private theorem exists_mem_of_forall₂ {α β : Type} {related : α → β → Prop} {xs : List α}
    {ys : List β} (each : Forall₂ related xs ys) {y : β} (member : y ∈ ys) :
    ∃ x ∈ xs, related x y := by
  obtain ⟨i, rfl⟩ := List.get_of_mem member
  have inside : i < xs.length := by
    rw [each.length_eq]
    exact i.2
  exact ⟨xs.get ⟨i, inside⟩, List.get_mem xs _, each.get inside i.2⟩

private theorem isJson_of_holds {kind : Scalar} (admitted : kind.isJson = true) {v : Value}
    (holds : kind.holds v = true) : v.isJson = true := by
  cases kind with
  | json => exact holds
  | anydata => cases admitted
  | any => cases admitted
  | handle => cases admitted
  | _ => cases v <;> first | rfl | cases holds

theorem isJson_of_within {n : Nat} {t : Descriptor} (json : ¬defs.FindsForeign Scalar.isJson t)
    {v : Value} (within : defs.Within n t v) : v.isJson = true := by
  induction n generalizing t v with
  | zero => exact within.elim
  | succ n ih =>
      have part {u : Descriptor} (member : u ∈ t.components) :
          ¬defs.FindsForeign Scalar.isJson u :=
        fun finds => json (.of_leads (.part rfl member) finds)
      change defs.Reads (defs.Within n) t v at within
      unfold Reads at within
      split at within
      · rename_i kind
        have admitted : kind.isJson = true := by
          by_contra refused
          exact json ⟨_, ReflTransGen.refl, by simpa [isForeign] using refused⟩
        exact isJson_of_holds admitted within
      · have element := part List.mem_cons_self
        exact Value.areJson_of_forall fun item member => ih element (within item member)
      · refine Value.areJson_of_forall fun item member => ?_
        obtain ⟨type, inside, belongs⟩ := exists_mem_of_forall₂ within member
        exact ih (part inside) belongs
      · rename_i fields rest entries
        refine Value.entriesAreJson_of_forall fun name u member => ?_
        by_cases declared : name ∈ Keyed.keys fields
        · obtain ⟨⟨same, field⟩, inside, rfl⟩ := List.mem_map.mp declared
          have type := part (Descriptor.field_mem_components inside rest)
          exact ih type (within.declared same field u inside member)
        · obtain ⟨type, rfl, belongs⟩ := within.further name u member declared
          exact ih (part (Descriptor.rest_mem_components fields type)) belongs
      · obtain ⟨member, inside, belongs⟩ := within
        exact ih (part inside) belongs
      · obtain ⟨target, found, belongs⟩ := within
        exact ih (fun finds => json (.of_leads (.definition found) finds)) belongs
      · exact within.elim

/-! ## Rest types -/

/-- One step of a comparison: from two types to two that are compared next. -/
inductive Compares (defs : Definitions) : Descriptor × Descriptor → Descriptor × Descriptor → Prop
  | definition {name : String} {target t : Descriptor} (found : defs[name]? = some target) :
      Compares defs (.ref name, t) (target, t)
  | member {members : List Descriptor} {s t : Descriptor} (member : s ∈ members) :
      Compares defs (.union members, t) (s, t)
  | alternative {s t u : Descriptor} (step : defs.Leads isUnion t u) : Compares defs (s, t) (s, u)
  | part {s t a b : Descriptor} (beside : Beside s t a b) : Compares defs (s, t) (a, b)

/-- Where an open record is compared with one that declares a field which the first does not, the
rest type of the first has only values of the type of that field. -/
def RestsFit (defs : Definitions) (s t : Descriptor) : Prop :=
  ∀ fields type others side,
    ReflTransGen defs.Compares (s, t) (.record fields (some type), .record others (some side)) →
    ∀ name other, (name, other) ∈ others → name ∉ Keyed.keys fields →
      defs.values type ⊆ defs.values other.type

theorem reaches_of_compares {s t a b : Descriptor}
    (way : ReflTransGen defs.Compares (s, t) (a, b)) :
    defs.Reaches (fun _ => true) s a ∧ defs.Reaches (fun _ => true) t b := by
  constructor
  · refine ReflTransGen.lift' Prod.fst ?_ _ _ way
    rintro _ _ (found | member | step | beside)
    · exact ReflTransGen.single (.definition found)
    · exact ReflTransGen.single (.part rfl member)
    · exact ReflTransGen.refl
    · exact ReflTransGen.single (.part rfl beside.mem_components.1)
  · refine ReflTransGen.lift' Prod.snd ?_ _ _ way
    rintro _ _ (found | member | step | beside)
    · exact ReflTransGen.refl
    · exact ReflTransGen.refl
    · exact Reaches.everywhere (ReflTransGen.single step)
    · exact ReflTransGen.single (.part rfl beside.mem_components.2)

section Layer

variable {sides : List Descriptor} {assumed : Assumptions} {has : Descriptor → Value → Prop}

private theorem holds_of_fits {a b : Scalar} (fits : a.fits b = true) {v : Value}
    (holds : a.holds v = true) : b.holds v = true := by
  rw [Scalar.fits, Bool.or_eq_true, Bool.and_eq_true] at fits
  rcases fits with same | ⟨byte, int⟩
  · rw [← of_decide_eq_true same]
    exact holds
  · rw [of_decide_eq_true byte] at holds
    rw [of_decide_eq_true int]
    cases v with
    | int n => rfl
    | _ => cases holds

private theorem forall₂_values_of_fits {members others : List Descriptor} {items : List Value}
    (parts : ∀ a b, (a, b) ∈ members.zip others → subtypeUnder defs sides assumed a b = true →
      ∀ v, has a v → v ∈ defs.values b)
    (fits : Forall₂ (fun a b => subtypeUnder defs sides assumed a b = true) members others)
    (reads : Forall₂ has members items) :
    Forall₂ (fun t v => v ∈ defs.values t) others items := by
  induction fits generalizing items with
  | nil =>
      cases reads
      exact .nil
  | cons fit _ ih =>
      cases reads with
      | cons first later =>
          refine .cons (parts _ _ List.mem_cons_self fit _ first) ?_
          exact ih (fun a b paired => parts a b (List.mem_cons_of_mem _ paired)) later

private theorem recordEntries_of_fits {fields others : List (String × Field Descriptor)}
    {rest otherRest : Option Descriptor} {entries : List (String × Value)}
    (parts : ∀ a b, Beside (.record fields rest) (.record others otherRest) a b →
      subtypeUnder defs sides assumed a b = true → ∀ v, has a v → v ∈ defs.values b)
    (rests : ∀ type, rest = some type → otherRest ≠ none → ∀ name other, (name, other) ∈ others →
      name ∉ Keyed.keys fields → ∀ v, has type v → v ∈ defs.values other.type)
    (fits : RecordFits (subtypeUnder defs sides assumed) fields rest others otherRest)
    (record : RecordEntries has fields rest entries) :
    RecordEntries (fun t v => v ∈ defs.values t) others otherRest entries := by
  constructor
  · exact record.distinct
  · intro name other member due
    cases own : Keyed.get? fields name with
    | none =>
        have optional := fits.missing name other member (Keyed.get?_eq_none_iff.mp own)
        rw [due] at optional
        cases optional
    | some field =>
        have required := (fits.declared name other member field own).1 due
        exact record.required name field (Keyed.mem_of_get? own) required
  · intro name other v member entry
    cases own : Keyed.get? fields name with
    | some field =>
        have inside := Keyed.mem_of_get? own
        have fit := (fits.declared name other member field own).2
        exact parts _ _ (.declared own member) fit v (record.declared name field v inside entry)
    | none =>
        -- The left side has this field among its further ones, so both sides are open.
        have undeclared := Keyed.get?_eq_none_iff.mp own
        obtain ⟨type, rfl, belongs⟩ := record.further name v entry undeclared
        refine rests type rfl ?_ name other member undeclared v belongs
        intro shut
        cases (fits.closed shut).1
  · intro name v entry undeclared
    cases otherRest with
    | none =>
        obtain ⟨shut, known⟩ := fits.closed rfl
        have declared : name ∉ Keyed.keys fields := fun inside => undeclared (known name inside)
        obtain ⟨type, open_, -⟩ := record.further name v entry declared
        rw [shut] at open_
        cases open_
    | some side =>
        refine ⟨side, rfl, ?_⟩
        by_cases declared : name ∈ Keyed.keys fields
        · obtain ⟨⟨same, field⟩, inside, rfl⟩ := List.mem_map.mp declared
          have fit := fits.further side rfl same field inside undeclared
          have belongs := record.declared same field v inside entry
          exact parts _ _ (.further inside undeclared) fit v belongs
        · obtain ⟨type, rfl, belongs⟩ := record.further name v entry declared
          exact parts _ _ .beyond (fits.beyond side rfl type rfl) v belongs

private theorem mem_values_of_fitsUnder {s t : Descriptor} {v : Value}
    (parts : ∀ a b, Beside s t a b → subtypeUnder defs sides assumed a b = true →
      ∀ u, has a u → u ∈ defs.values b)
    (rests : ∀ fields type others side, s = .record fields (some type) →
      t = .record others (some side) → ∀ name other, (name, other) ∈ others →
        name ∉ Keyed.keys fields → ∀ u, has type u → u ∈ defs.values other.type)
    (json : defs.isJson s = true → v.isJson = true)
    (fits : fitsUnder defs sides assumed s t = true) (reads : defs.Reads has s v) :
    v ∈ defs.values t := by
  rw [mem_values_iff]
  have whole := fits
  unfold fitsUnder at fits
  split at fits
  · rfl
  · rfl
  · exact json fits
  · exact holds_of_fits fits reads
  · cases v with
    | list items =>
        intro item member
        exact parts _ _ .element fits item (reads item member)
    | _ => exact reads.elim
  · rename_i members element
    cases v with
    | list items =>
        intro item member
        obtain ⟨type, inside, belongs⟩ := exists_mem_of_forall₂ reads member
        rw [List.all_eq_true] at fits
        have fit := fits ⟨type, inside⟩ (List.mem_attach _ _)
        exact parts type _ (.inArray inside) fit item belongs
    | _ => exact reads.elim
  · rename_i members others
    cases v with
    | list items =>
        refine forall₂_values_of_fits (fun a b paired => ?_) (fitsUnder_tuple whole) reads
        exact parts a b (.inTuple paired)
    | _ => exact reads.elim
  · rename_i fields rest others otherRest
    cases v with
    | mapping entries =>
        refine recordEntries_of_fits parts ?_ (fitsUnder_record whole) reads
        rintro type rfl open_ name other member undeclared u belongs
        obtain ⟨side, rfl⟩ := Option.ne_none_iff_exists'.mp open_
        exact rests fields type others side rfl rfl name other member undeclared u belongs
    | _ => exact reads.elim
  · exact reads.elim
  · exact reads.elim
  · cases fits

end Layer

/-- What is assumed of names holds for the values that so many layers show. -/
def Sound (defs : Definitions) (n : Nat) (assumed : Assumptions) : Prop :=
  ∀ name side, assumed.holds name side = true →
    ∀ v, defs.Within n (.ref name) v → v ∈ defs.values side

theorem Sound.of_succ {n : Nat} {assumed : Assumptions} (sound : defs.Sound (n + 1) assumed) :
    defs.Sound n assumed :=
  fun name side holds v within => sound name side holds v within.succ

theorem Sound.assume {n : Nat} {assumed : Assumptions} (sound : defs.Sound n assumed)
    {name : String} {side : Descriptor}
    (new : ∀ v, defs.Within n (.ref name) v → v ∈ defs.values side) :
    defs.Sound n (assumed.assume name side) := by
  intro other right holds v within
  rw [Assumptions.holds_assume, Bool.or_eq_true, decide_eq_true_eq] at holds
  rcases holds with ⟨rfl, rfl⟩ | old
  · exact new v within
  · exact sound other right old v within

/-- The check keeps the values that so many layers show, by induction on the number of layers: what
is assumed below a name was settled for one layer less. -/
theorem mem_values_of_subtypeUnder {sides : List Descriptor} {whole other : Descriptor}
    (rests : defs.RestsFit whole other) {n : Nat} {assumed : Assumptions}
    (sound : defs.Sound n assumed) {s t : Descriptor}
    (way : ReflTransGen defs.Compares (whole, other) (s, t))
    (answer : subtypeUnder defs sides assumed s t = true) {v : Value}
    (within : defs.Within n s v) : v ∈ defs.values t := by
  induction n generalizing assumed s t v with
  | zero => exact within.elim
  | succ n ih =>
      cases s with
      | ref name =>
          rcases subtypeUnder_ref answer with rfl | ⟨target, found, settled | opened⟩
          · exact ⟨n + 1, within⟩
          · exact sound name t settled v within
          · obtain ⟨_, same, inside⟩ := within
            cases found.symm.trans same
            have new : ∀ u, defs.Within n (.ref name) u → u ∈ defs.values t :=
              fun u => ih sound.of_succ way answer
            exact ih (sound.of_succ.assume new) (way.tail (.definition found)) opened inside
      | union members =>
          obtain ⟨member, inside, belongs⟩ := within
          have fits := subtypeUnder_union.mp answer _ inside
          exact ih sound.of_succ (way.tail (.member inside)) fits belongs
      | _ =>
          obtain ⟨alternative, right, fits⟩ := subtypeUnder_single (by simp) rfl answer
          refine values_subset_of_reaches right ?_
          have across := way.trans (right.lift (Prod.mk _) fun _ _ => .alternative)
          refine mem_values_of_fitsUnder ?_ ?_ ?_ fits within
          · intro a b beside answer u belongs
            exact ih sound.of_succ (across.tail (.part beside)) answer belongs
          · intro fields type others side same opposite name field member undeclared u belongs
            rw [same, opposite] at across
            exact rests fields type others side across name field member undeclared ⟨n, belongs⟩
          · intro json
            exact isJson_of_within ((builtFrom_eq_true_iff _ _ _).mp json) within

/-- A yes of the subtype check is right if the rest types on the left fit. -/
theorem values_subset_of_isSubtypeOf {s t : Descriptor} (rests : defs.RestsFit s t)
    (answer : defs.isSubtypeOf s t = true) : defs.values s ⊆ defs.values t := by
  rintro v ⟨n, within⟩
  have sound : defs.Sound n ∅ := by
    intro name side holds
    simp [Assumptions.holds] at holds
  exact mem_values_of_subtypeUnder rests sound ReflTransGen.refl answer within

def bytes : Descriptor :=
  .record [("value", ⟨.scalar .byte, false⟩), ("next", ⟨.ref "Bytes", true⟩)]
    (some (.scalar .byte))

def numbers : Descriptor :=
  .record
    [("value", ⟨.scalar .int, false⟩), ("next", ⟨.ref "Numbers", true⟩),
      ("count", ⟨.scalar .int, true⟩)]
    (some (.scalar .int))

def chains : Definitions := .ofList [("Bytes", bytes), ("Numbers", numbers)]

private theorem subtypeUnder_scalar (sides : List Descriptor) (assumed : Assumptions)
    (a b : Scalar) : subtypeUnder defs sides assumed (.scalar a) (.scalar b) =
      fitsUnder defs sides assumed (.scalar a) (.scalar b) := by
  rw [subtypeUnder, search_single _ (by simp) rfl]
  all_goals simp

private theorem isSubtypeOf_chains :
    chains.isSubtypeOf (.ref "Bytes") (.ref "Numbers") = true := by
  have left : chains["Bytes"]? = some bytes := rfl
  have right : chains["Numbers"]? = some numbers := rfl
  have side : chains.isSide (chains.rightSides (.ref "Numbers")) (.ref "Numbers") = true := by
    rw [isSide, Std.TreeMap.contains_eq_isSome_getElem?, right]
    rfl
  refine subtypeUnder_ref_of_found left side (Or.inr ?_)
  rw [bytes, subtypeUnder, search_eq_true_iff]
  · refine ⟨_, List.mem_singleton_self _, _, ReflTransGen.single (.definition right), ?_⟩
    -- The question comes up again at the next link and is settled there.
    have settled : (Assumptions.assume ∅ "Bytes" (.ref "Numbers")).holds "Bytes" (.ref "Numbers") =
        true := by
      simp [Assumptions.holds_assume]
    have next := subtypeUnder_ref_of_found left side (Or.inl settled)
    simp [numbers, fitsUnder, Keyed.get?, Keyed.has, next, subtypeUnder_scalar, Scalar.fits]
  all_goals simp

def isOpen : Descriptor → Bool
  | .record _ (some _) => true
  | _ => false

/-- A record with further fields that comes up is the only one that there is. -/
private theorem eq_of_reaches_open {t u only : Descriptor} (way : defs.Reaches (fun _ => true) t u)
    (further : isOpen u = true)
    (others : ¬defs.Finds (fun _ => true) (fun v => isOpen v && decide (v ≠ only)) t) :
    u = only := by
  by_contra different
  exact others ⟨u, way, by simp [further, different]⟩

private theorem restsFit_chains : chains.RestsFit (.ref "Bytes") (.ref "Numbers") := by
  intro fields type others side way name other member undeclared
  obtain ⟨left, right⟩ := reaches_of_compares way
  have first : Descriptor.record fields (some type) = bytes := by
    have found : chains["Bytes"]? = some bytes := rfl
    refine eq_of_reaches_open left rfl ?_
    simp [finds_ref_iff, finds_unnamed_iff, found, bytes, isOpen, Descriptor.components]
  have second : Descriptor.record others (some side) = numbers := by
    have found : chains["Numbers"]? = some numbers := rfl
    refine eq_of_reaches_open right rfl ?_
    simp [finds_ref_iff, finds_unnamed_iff, found, numbers, isOpen, Descriptor.components]
  cases first
  cases second
  have counted : other = ⟨.scalar .int, true⟩ := by
    simp only [List.mem_cons, Prod.mk.injEq, List.not_mem_nil, or_false] at member
    rcases member with ⟨rfl, -⟩ | ⟨rfl, -⟩ | ⟨-, same⟩
    · exact absurd (by simp [Keyed.keys]) undeclared
    · exact absurd (by simp [Keyed.keys]) undeclared
    · exact same
  rw [counted]
  rintro v ⟨n, within⟩
  cases n with
  | zero => exact within.elim
  | succ n => exact ⟨1, holds_of_fits rfl within⟩

theorem values_subset_of_isSubtypeOf_chains :
    chains.RestsFit (.ref "Bytes") (.ref "Numbers") ∧
      chains.isSubtypeOf (.ref "Bytes") (.ref "Numbers") = true ∧
      chains.values (.ref "Bytes") ⊆ chains.values (.ref "Numbers") :=
  ⟨restsFit_chains, isSubtypeOf_chains,
    values_subset_of_isSubtypeOf restsFit_chains isSubtypeOf_chains⟩

/-- Without a look at the rest types a yes can be wrong: a record of strings is called a subtype of
one in which a field that is a number is optional. -/
theorem not_values_subset_of_optional :
    let strings : Descriptor := .record [] (some (.scalar .string))
    let counted : Descriptor := .record [("a", ⟨.scalar .int, true⟩)] (some (.scalar .string))
    let text : Value := .mapping [("a", .string "x")]
    isSubtypeOf ∅ strings counted = true ∧ text ∈ values ∅ strings ∧ text ∉ values ∅ counted := by
  intro strings counted text
  refine ⟨?_, ⟨2, ?_⟩, ?_⟩
  · rw [isSubtypeOf, subtypeUnder, search_eq_true_iff]
    · refine ⟨counted, List.mem_singleton_self _, counted, ReflTransGen.refl, ?_⟩
      simp [strings, counted, fitsUnder, Keyed.get?, subtypeUnder_scalar, Scalar.fits]
    all_goals simp [strings]
  · refine ⟨by simp [Keyed.keys], ?_, ?_, ?_⟩
    · intro name field member
      cases member
    · intro name field v member
      cases member
    · intro name v member _
      cases List.mem_singleton.mp member
      exact ⟨_, rfl, rfl⟩
  · intro inside
    have record := mem_values_iff.mp inside
    obtain ⟨n, within⟩ := record.declared "a" _ _ List.mem_cons_self List.mem_cons_self
    cases n with
    | zero => exact within.elim
    | succ n => cases within

end SchemaWeaver.Definitions
