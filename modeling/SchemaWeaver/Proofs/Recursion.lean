import SchemaWeaver.Proofs.Descriptor.Recursion
import SchemaWeaver.Proofs.Gather.Walk
import SchemaWeaver.Proofs.Schema.Raw

/-!
Schemas and walks as plain recursions that are given a depth, and the statement that all recursions
over recursive types end, with the results of the functions that they stand for.
-/

set_option autoImplicit false
set_option relaxedAutoImplicit false

namespace SchemaWeaver

open Filter (atTop)

/-! ## Schemas -/

namespace Schema

/-- The recursion that builds the raw schema of a type, inside the definitions of some names. -/
def typeRun (defs : Definitions) : Nat → List String → Descriptor → ExceptT Fault Option Json
  | 0, _, _ => ExceptT.mk none
  | _ + 1, _, .scalar kind => ExceptT.mk (some (ofScalar kind))
  | depth + 1, opened, .array element => do
      let items ← typeRun defs depth opened element
      return ofArray items
  | depth + 1, opened, .tuple members => do
      let schemas ← members.mapM (typeRun defs depth opened)
      return ofTuple schemas
  | depth + 1, opened, .record fields rest => do
      let properties ← fields.mapM fun field => do
        let schema ← typeRun defs depth opened field.2.type
        return (field.1, schema)
      match rest with
      | none => return ofRecord properties none
      | some type => do
          let schema ← typeRun defs depth opened type
          return ofRecord properties (some schema)
  | depth + 1, opened, .union members => do
      let others := members.filter fun member => !isNil member
      let schemas ← others.mapM (typeRun defs depth opened)
      return ofUnion (members.any isNil) schemas
  | depth + 1, opened, .ref name =>
      if name ∈ opened then return reference name
      else
        match defs[name]? with
        | none => throw (.unknownType name)
        | some target => typeRun defs depth (name :: opened) target
  | _ + 1, _, .object type =>
      throw (.unsupported ("object type " ++ type.home.text ++ ":" ++ type.name))
  | _ + 1, _, .error => throw (.unsupported "error")

def ended {α : Type} (outcome : Except Fault α) : ExceptT Fault Option α :=
  ExceptT.mk (some outcome)

section Ended

variable {α β : Type}

theorem ended_map (outcome : Except Fault α) (f : α → β) :
    (do let a ← ended outcome; return f a) = ended (outcome.map f) := by
  cases outcome <;> rfl

theorem mapM_eq_ended {items : List α} {run : α → ExceptT Fault Option β}
    {outcome : α → Except Fault β} (each : ∀ a ∈ items, run a = ended (outcome a)) :
    items.mapM run = ended (items.mapM outcome) := by
  induction items with
  | nil => rfl
  | cons a items ih =>
      have later := ih fun b member => each b (List.mem_cons_of_mem a member)
      rw [List.mapM_cons, List.mapM_cons, each a List.mem_cons_self, later]
      cases outcome a with
      | error fault => rfl
      | ok b => cases items.mapM outcome <;> rfl

end Ended

/-- The recursion that builds schemas ends: inside its own definition a name becomes a reference. -/
theorem eventually_typeRun_eq {defs fresh : Definitions} {opened : List String}
    (without : defs.Fresh fresh opened) (defined : ∀ name ∈ opened, defs.contains name = true)
    (t : Descriptor) :
    ∀ᶠ depth in atTop, typeRun defs depth opened t = ended (ofType defs fresh t) := by
  have parts : ∀ᶠ depth in atTop, ∀ part ∈ t.components,
      typeRun defs depth opened part = ended (ofType defs fresh part) :=
    eventually_forall_mem fun part _member => eventually_typeRun_eq without defined part
  have definition : ∀ name target, fresh[name]? = some target → ∀ᶠ depth in atTop,
      typeRun defs depth (name :: opened) target =
        ended (ofType defs (fresh.erase name) target) := by
    intro name target _found
    refine eventually_typeRun_eq (without.erase name) (fun other member => ?_) target
    rcases List.mem_cons.mp member with rfl | old
    · rw [Std.TreeMap.contains_eq_isSome_getElem?, (without.of_found _found).2]
      rfl
    · exact defined other old
  refine eventually_of_succ ?_
  cases t with
  | ref name =>
      by_cases inside : name ∈ opened
      · have missing : fresh[name]? = none := by rw [without, if_pos inside]
        refine .of_forall fun depth => ?_
        rw [typeRun, if_pos inside, ofType_of_missing missing, if_pos (defined name inside)]
        rfl
      · have same : defs[name]? = fresh[name]? := by rw [without, if_neg inside]
        cases found : fresh[name]? with
        | none =>
            refine .of_forall fun depth => ?_
            rw [typeRun, if_neg inside, ofType_of_missing found,
              Std.TreeMap.contains_eq_isSome_getElem?, same, found]
            rfl
        | some target =>
            filter_upwards [definition name target found] with depth below
            rw [typeRun, if_neg inside, ofType_of_found found, same, found]
            exact below
  | array element =>
      filter_upwards [parts] with depth below
      rw [typeRun, ofType, below element List.mem_cons_self, ended_map]
  | tuple members =>
      filter_upwards [parts] with depth below
      rw [typeRun, ofType, mapM_eq_ended (show ∀ member ∈ members, _ from below), ended_map,
        ofMembers_eq_mapM, List.filter_true]
  | union members =>
      filter_upwards [parts] with depth below
      have kept : ∀ member ∈ members.filter fun member => !isNil member,
          typeRun defs depth opened member = ended (ofType defs fresh member) :=
        fun member inside => below member (List.mem_of_mem_filter inside)
      rw [typeRun, ofType, ofMembers_eq_mapM, ← ended_map, ← mapM_eq_ended kept]
  | record fields rest =>
      filter_upwards [parts] with depth below
      have named : ∀ field ∈ fields,
          (do let schema ← typeRun defs depth opened field.2.type; return (field.1, schema)) =
            ended ((ofType defs fresh field.2.type).map fun schema => (field.1, schema)) := by
        intro field inside
        rw [below _ (Descriptor.field_mem_components inside rest), ended_map]
      rw [typeRun, ofType, ofFields_eq_mapM, mapM_eq_ended named]
      cases fields.mapM fun field => (ofType defs fresh field.2.type).map fun schema =>
        (field.1, schema) with
      | error fault => rfl
      | ok properties =>
          cases rest with
          | none => rfl
          | some type =>
              have last := below type (Descriptor.rest_mem_components fields type)
              exact (congrArg (· >>= _) last).trans (ended_map _ _)
  | _ =>
      refine .of_forall fun depth => ?_
      rw [typeRun, ofType]
      rfl
termination_by (fresh.size, sizeOf t)
decreasing_by
  · exact Prod.Lex.right _ (Descriptor.sizeOf_lt_of_mem_components _member)
  · exact Prod.Lex.left _ _ (Definitions.size_erase_lt _found)

def nameRun (defs : Definitions) (depth : Nat) (name : String) : Option (Except Fault Json) :=
  (typeRun defs depth [] (.ref name)).run

theorem ends_nameRun (defs : Definitions) (name : String) :
    Ends (fun depth => nameRun defs depth name) (ofName defs name) := by
  have without : defs.Fresh defs [] := fun other => by simp
  exact ends_iff_eventually.mpr (eventually_typeRun_eq without (by simp) (.ref name))

end Schema

/-! ## Walks -/

namespace Walker

/-- The recursion of a walk, which counts the steps that it has taken and is given the raw schemas
of names by another recursion. -/
def walkRun (w : Walker) (ask : Nat → String → Option (Except Schema.Fault Json)) :
    Nat → Nat → List String → Descriptor → Gathering → Option Walked
  | 0, _, _, _, _ => none
  | depth + 1, steps, expanding, t, g =>
      if w.settings.walkDepth < steps then
        some (.failed (.depthExceeded (expanding.head?.getD "")) g)
      else
        match t with
        | .ref name =>
            if w.settings.cycleGuard && name ∈ expanding then
              some (.done (g.report (.alreadyExpanding name)))
            else do
              let eligible ← w.model.definitions.subtypeRun depth ∅ (.ref name) (.scalar .anydata)
              if !eligible then return .done (g.report (.notData name))
              let outcome ← ask depth name
              match { w with source := fun _ _ => outcome }.record name g with
              | .failed fault g => return .failed fault g
              | .done g =>
                  match w.model.definitions[name]? with
                  | none => return .done g
                  | some target => walkRun w ask depth (steps + 1) (expanding ++ [name]) target g
        | t =>
            t.components.foldlM
              (fun walked part =>
                match walked with
                | .failed fault g => some (.failed fault g)
                | .done g => walkRun w ask depth (steps + 1) expanding part g)
              (.done g)

theorem foldlM_eq_walkAll {items : List Descriptor} {run : Descriptor → Gathering → Option Walked}
    {walk : Descriptor → Gathering → Walked} (each : ∀ a ∈ items, ∀ g, run a g = some (walk a g))
    (walked : Walked) :
    items.foldlM
      (fun walked a =>
        match walked with
        | .failed fault g => some (.failed fault g)
        | .done g => run a g) walked = some (walked.andThen (walkAll walk items)) := by
  induction items generalizing walked with
  | nil => cases walked <;> rfl
  | cons a items ih =>
      have later := ih fun b member => each b (List.mem_cons_of_mem a member)
      rw [List.foldlM_cons]
      cases walked with
      | failed fault g => exact later (.failed fault g)
      | done g =>
          simp only [each a List.mem_cons_self]
          exact later (walk a g)

/-- The recursion of a walk ends, with the guard or without: it goes a bounded number of steps. -/
theorem eventually_walkRun_eq {w : Walker} {ask : Nat → String → Option (Except Schema.Fault Json)}
    (asked : ∀ name, Ends (fun depth => ask depth name) (w.source name w.model)) {room steps : Nat}
    (bounded : steps + room = w.settings.walkDepth + 1) (expanding : List String)
    (t : Descriptor) :
    ∀ᶠ depth in atTop, ∀ g,
      w.walkRun ask depth steps expanding t g = some (w.walk room expanding t g) := by
  induction room generalizing steps expanding t with
  | zero =>
      refine eventually_of_succ (.of_forall fun depth g => ?_)
      unfold walkRun
      rw [if_pos (by omega)]
      cases t <;> rfl
  | succ room ih =>
      have inner : ∀ expanding t, ∀ᶠ depth in atTop, ∀ g,
          w.walkRun ask depth (steps + 1) expanding t g = some (w.walk room expanding t g) :=
        ih (by omega)
      have within : ¬w.settings.walkDepth < steps := by omega
      refine eventually_of_succ ?_
      cases t with
      | ref name =>
          have data : ∀ᶠ depth in atTop,
              w.model.definitions.subtypeRun depth ∅ (.ref name) (.scalar .anydata) =
                some (w.isEligible name) :=
            ends_iff_eventually.mp (Definitions.ends_subtypeRun_scalar (.ref name) .anydata)
          have target : ∀ᶠ depth in atTop, ∀ target ∈ w.model.definitions[name]?.toList, ∀ g,
              w.walkRun ask depth (steps + 1) (expanding ++ [name]) target g =
                some (w.walk room (expanding ++ [name]) target g) :=
            eventually_forall_mem fun target _ => inner (expanding ++ [name]) target
          filter_upwards [data, ends_iff_eventually.mp (asked name), target]
            with depth eligible schema below g
          unfold walkRun walk
          rw [if_neg within]
          simp only [eligible, schema]
          split
          · rfl
          · cases w.isEligible name with
            | false => rfl
            | true =>
                have same : { w with source := fun _ _ => w.source name w.model }.record name g =
                    w.record name g := rfl
                simp only [Option.bind_eq_bind, Option.bind_some, Bool.not_true, same]
                cases w.record name g with
                | failed fault after => rfl
                | done after =>
                    cases found : w.model.definitions[name]? with
                    | none => rfl
                    | some target => exact below target (by simp [found]) after
      | _ =>
          filter_upwards [eventually_forall_mem fun part (_ : part ∈ Descriptor.components _) =>
            inner expanding part] with depth below g
          unfold walkRun
          rw [if_neg within, w.walk_of_ne_ref (by simp)]
          exact foldlM_eq_walkAll below (.done g)

def gatherRun (w : Walker) (ask : Nat → String → Option (Except Schema.Fault Json)) (depth : Nat)
    (t : Descriptor) (g : Gathering) : Option Walked :=
  w.walkRun ask depth 0 [] t g

theorem ends_gatherRun {w : Walker} {ask : Nat → String → Option (Except Schema.Fault Json)}
    (asked : ∀ name, Ends (fun depth => ask depth name) (w.source name w.model)) (t : Descriptor)
    (g : Gathering) : Ends (fun depth => w.gatherRun ask depth t g) (w.gather t g) := by
  rw [ends_iff_eventually]
  filter_upwards [eventually_walkRun_eq asked (Nat.zero_add _) [] t] with depth walked
  exact walked g

end Walker

/-- All recursions over types end, however recursive the definitions are, and come to the result of
the function that they stand for: the checks of data, the comparison with a scalar or an object
type, the schema of a name, and the gathering of schemas, whatever the settings. If no definition
leads back to its name through names and unions only, every comparison ends. -/
theorem Model.recursions_end (model : Model) :
    let defs := model.definitions
    (∀ t, Ends (fun depth => defs.conformsRun Scalar.isData depth [] t) (defs.isData t)) ∧
    (∀ t, Ends (fun depth => defs.conformsRun Scalar.isJson depth [] t) (defs.isJson t)) ∧
    (∀ t kind, Ends (fun depth => defs.subtypeRun depth ∅ t (.scalar kind))
      (defs.isSubtypeOf t (.scalar kind))) ∧
    (∀ t type, Ends (fun depth => defs.subtypeRun depth ∅ t (.object type))
      (defs.isSubtypeOf t (.object type))) ∧
    (∀ name, Ends (fun depth => Schema.nameRun defs depth name) (Schema.ofName defs name)) ∧
    (∀ settings t g,
      let w : Walker := ⟨model, Schema.ofModel, settings⟩
      Ends (fun depth => w.gatherRun (Schema.nameRun defs) depth t g) (w.gather t g)) ∧
    (∀ source ask, (∀ name, Ends (fun depth => ask depth name) (source name model)) →
      ∀ settings t g,
        let w : Walker := ⟨model, source, settings⟩
        Ends (fun depth => w.gatherRun ask depth t g) (w.gather t g)) ∧
    (defs.Grounded → ∀ s t,
      Ends (fun depth => defs.subtypeRun depth ∅ s t) (defs.isSubtypeOf s t)) := by
  intro defs
  refine ⟨?_, ?_, ?_, ?_, ?_, ?_, ?_, ?_⟩
  · exact fun t => ends_iff_eventually.mpr (defs.eventually_conformsRun_nil Scalar.isData t)
  · exact fun t => ends_iff_eventually.mpr (defs.eventually_conformsRun_nil Scalar.isJson t)
  · exact Definitions.ends_subtypeRun_scalar
  · exact Definitions.ends_subtypeRun_object
  · exact Schema.ends_nameRun defs
  · exact fun settings t g => Walker.ends_gatherRun (Schema.ends_nameRun defs) t g
  · exact fun source ask asked settings t g => Walker.ends_gatherRun asked t g
  · exact fun grounded => grounded.ends_subtypeRun

def Model.ofDefinitions (defs : Definitions) : Model := { Model.empty with definitions := defs }

/-- A name that is defined as itself, and one that is defined as itself or a number. -/
def loops : Definitions :=
  .ofList [("Loop", .ref "Loop"), ("Count", .union [.ref "Count", .scalar .int])]

/-- With names that are defined by themselves the recursions end, but for the comparison with such a
name; where trees are made of trees, that one ends too. -/
theorem Model.recursions_end_loops :
    let numbers : Descriptor := .tuple [.ref "Loop", .array (.ref "Count")]
    let unguarded : Walker := ⟨.ofDefinitions loops, Schema.ofModel, .skipEntry, false, 1000⟩
    Ends (fun depth => loops.conformsRun Scalar.isJson depth [] numbers) (loops.isJson numbers) ∧
    Ends (fun depth => loops.subtypeRun depth ∅ (.ref "Count") (.scalar .int))
      (loops.isSubtypeOf (.ref "Count") (.scalar .int)) ∧
    (∀ depth, loops.subtypeRun depth ∅ (.scalar .int) (.ref "Loop") = none) ∧
    Ends (fun depth => Schema.nameRun loops depth "Count") (Schema.ofName loops "Count") ∧
    (∀ g, Ends (fun depth => unguarded.gatherRun (Schema.nameRun loops) depth numbers g)
      (unguarded.gather numbers g)) ∧
    Definitions.forests.Grounded ∧
    Ends (fun depth => Definitions.forests.subtypeRun depth ∅ (.ref "Forest") (.ref "Outcome"))
      (Definitions.forests.isSubtypeOf (.ref "Forest") (.ref "Outcome")) := by
  intro numbers unguarded
  obtain ⟨-, json, scalar, -, schema, -, gathered, -⟩ := recursions_end (.ofDefinitions loops)
  obtain ⟨-, -, -, -, -, -, -, compared⟩ := recursions_end (.ofDefinitions Definitions.forests)
  have grounded := Definitions.grounded_forests
  refine ⟨json numbers, scalar (.ref "Count") .int, ?_, schema "Count", fun g => ?_, grounded,
    compared grounded _ _⟩
  · exact Definitions.subtypeRun_eq_none rfl (by simp) rfl ∅
  · exact gathered Schema.ofModel (Schema.nameRun loops) schema unguarded.settings numbers g

end SchemaWeaver
