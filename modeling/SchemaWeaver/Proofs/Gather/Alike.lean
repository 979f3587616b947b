import SchemaWeaver.Proofs.Gather.Walk

/-!
Walks that go side by side. What a walk does next depends on the type, on the model and on whether
names have schemas, but never on what it has gathered, so two walks that begin with different
gatherings end in the same way. If every data type has a schema, the policy for those without one
makes no difference, and there is one fault only that a walk can end with.
-/

set_option autoImplicit false
set_option relaxedAutoImplicit false

namespace SchemaWeaver

namespace Walked

/-- Two walks are both done or failed with the same fault, and what they gathered is related. -/
inductive Alike (related : Gathering → Gathering → Prop) : Walked → Walked → Prop
  | done {g g' : Gathering} (both : related g g') : Alike related (.done g) (.done g')
  | failed (fault : Fault) {g g' : Gathering} (both : related g g') :
      Alike related (.failed fault g) (.failed fault g')

def isDone : Walked → Bool
  | .done _ => true
  | .failed _ _ => false

variable {related : Gathering → Gathering → Prop} {w w' : Walked}

theorem Alike.andThen {next next' : Gathering → Walked} (first : Alike related w w')
    (later : ∀ g g', related g g' → Alike related (next g) (next' g')) :
    Alike related (w.andThen next) (w'.andThen next') := by
  cases first with
  | done both => exact later _ _ both
  | failed fault both => exact .failed fault both

theorem Alike.eq (alike : Alike Eq w w') : w = w' := by
  cases alike with
  | done both => rw [both]
  | failed fault both => rw [both]

theorem Alike.isDone_eq (alike : Alike related w w') : w.isDone = w'.isDone := by
  cases alike <;> rfl

theorem isDone_eq_true_iff : w.isDone = true ↔ ∃ g, w = .done g := by
  cases w <;> simp [isDone]

/-- A walk does not fail, or it fails with one of some faults. -/
def FailsWith (faults : Fault → Prop) (w : Walked) : Prop :=
  ∀ fault g, w = .failed fault g → faults fault

theorem FailsWith.andThen {faults : Fault → Prop} {next : Gathering → Walked}
    (first : w.FailsWith faults) (later : ∀ g, (next g).FailsWith faults) :
    (w.andThen next).FailsWith faults := by
  cases w with
  | done g => exact later g
  | failed fault g => exact first

end Walked

open Walked (Alike FailsWith)

section WalkAll

variable {α : Type} {walk walk' : α → Gathering → Walked} {items : List α}

theorem alike_walkAll {related : Gathering → Gathering → Prop}
    (step : ∀ a ∈ items, ∀ g g', related g g' → Alike related (walk a g) (walk' a g'))
    {g g' : Gathering} (start : related g g') :
    Alike related (walkAll walk items g) (walkAll walk' items g') := by
  induction items generalizing g g' with
  | nil => exact .done start
  | cons a items ih =>
      refine (step a List.mem_cons_self g g' start).andThen fun middle middle' both => ?_
      exact ih (fun b member => step b (List.mem_cons_of_mem _ member)) both

theorem failsWith_walkAll {faults : Fault → Prop}
    (step : ∀ a ∈ items, ∀ g, (walk a g).FailsWith faults) (g : Gathering) :
    (walkAll walk items g).FailsWith faults := by
  induction items generalizing g with
  | nil =>
      intro fault after failed
      cases failed
  | cons a items ih =>
      refine (step a List.mem_cons_self g).andThen fun middle => ?_
      exact ih (fun b member => step b (List.mem_cons_of_mem _ member)) middle

theorem isDone_walkAll (step : ∀ a g g', (walk a g).isDone = (walk a g').isDone) (g : Gathering) :
    (walkAll walk items g).isDone = items.all fun a => (walk a g).isDone := by
  induction items generalizing g with
  | nil => rfl
  | cons a items ih =>
      rw [walkAll, List.all_cons]
      cases walk a g with
      | failed fault middle => rfl
      | done middle =>
          have later := ih middle
          simp only [step _ middle g] at later
          exact later

end WalkAll

namespace Walker

/-- Walks of two walkers with the same model and guard go side by side if recording names does. -/
theorem alike_walk {w w' : Walker} {related : Gathering → Gathering → Prop}
    (model : w.model = w'.model) (guard : w.settings.cycleGuard = w'.settings.cycleGuard)
    (report : ∀ event g g', related g g' → related (g.report event) (g'.report event))
    (record : ∀ name, w.isEligible name = true → ∀ g g', related g g' →
      Alike related (w.record name g) (w'.record name g'))
    (room : Nat) (expanding : List String) (t : Descriptor) {g g' : Gathering}
    (start : related g g') :
    Alike related (w.walk room expanding t g) (w'.walk room expanding t g') := by
  have eligible (name : String) : w'.isEligible name = w.isEligible name := by
    rw [isEligible, isEligible, model]
  induction room generalizing expanding t g g' with
  | zero => exact .failed _ start
  | succ room ih =>
      by_cases named : ∃ name, t = .ref name
      · obtain ⟨name, rfl⟩ := named
        unfold walk
        rw [← guard, eligible, ← model]
        split
        · exact .done (report _ g g' start)
        · split
          · exact .done (report _ g g' start)
          · rename_i data
            have data : w.isEligible name = true := by simpa using data
            refine (record name data g g' start).andThen fun middle middle' both => ?_
            cases w.model.definitions[name]? with
            | none => exact .done both
            | some target => exact ih _ target both
      · have unnamed : ∀ name, t ≠ .ref name := fun name same => named ⟨name, same⟩
        rw [w.walk_of_ne_ref unnamed, w'.walk_of_ne_ref unnamed]
        exact alike_walkAll (fun part _ _ _ both => ih expanding part both) start

theorem walk_congr {w w' : Walker} (model : w.model = w'.model)
    (guard : w.settings.cycleGuard = w'.settings.cycleGuard)
    (record : ∀ name, w.isEligible name = true → ∀ g, w.record name g = w'.record name g)
    (room : Nat) (expanding : List String) (t : Descriptor) (g : Gathering) :
    w.walk room expanding t g = w'.walk room expanding t g := by
  have alike : Alike Eq (w.walk room expanding t g) (w'.walk room expanding t g) := by
    refine alike_walk model guard ?_ ?_ room expanding t rfl
    · rintro event g _ rfl
      rfl
    · rintro name data g _ rfl
      rw [← record name data g]
      cases w.record name g with
      | done after => exact .done rfl
      | failed fault after => exact .failed fault rfl
  exact alike.eq

variable (w : Walker)

theorem isDone_gather (t : Descriptor) (g g' : Gathering) :
    (w.gather t g).isDone = (w.gather t g').isDone := by
  have recorded (name : String) (g g' : Gathering) :
      Alike (fun _ _ => True) (w.record name g) (w.record name g') := by
    unfold record
    cases w.source name w.model with
    | ok raw => exact .done trivial
    | error cause =>
        cases w.settings.policy with
        | skipEntry => exact .done trivial
        | abortModule => exact .failed _ trivial
  have alike : Alike (fun _ _ => True) (w.gather t g) (w.gather t g') :=
    alike_walk rfl rfl (fun _ _ _ _ => trivial) (fun name _ g g' _ => recorded name g g') _ [] t
      trivial
  exact alike.isDone_eq

def IsServed : Prop :=
  ∀ name, w.isEligible name = true → ∃ raw, w.source name w.model = .ok raw

def withPolicy (policy : MappingPolicy) : Walker :=
  { w with settings := { w.settings with policy } }

variable {w}

theorem gather_withPolicy (served : w.IsServed) (policy : MappingPolicy) (t : Descriptor)
    (g : Gathering) : (w.withPolicy policy).gather t g = w.gather t g := by
  have recorded (name : String) (data : w.isEligible name = true) (g : Gathering) :
      (w.withPolicy policy).record name g = w.record name g := by
    obtain ⟨raw, mapped⟩ := served name data
    have mapped' : (w.withPolicy policy).source name (w.withPolicy policy).model = .ok raw := mapped
    simp only [record, mapped, mapped']
  have model : (w.withPolicy policy).model = w.model := rfl
  exact walk_congr model rfl recorded _ [] t g

/-- A walk that finds a schema for every data type can only run out of room. -/
theorem failsWith_gather (served : w.IsServed) (t : Descriptor) (g : Gathering) :
    (w.gather t g).FailsWith fun fault => ∃ root, fault = .depthExceeded root := by
  unfold gather
  generalize w.settings.walkDepth + 1 = room
  generalize ([] : List String) = expanding
  induction room generalizing expanding t g with
  | zero =>
      intro fault after failed
      cases failed
      exact ⟨_, rfl⟩
  | succ room ih =>
      by_cases named : ∃ name, t = .ref name
      · obtain ⟨name, rfl⟩ := named
        unfold walk
        split
        · intro fault after failed
          cases failed
        · split
          · intro fault after failed
            cases failed
          · rename_i data
            have recorded : (w.record name g).FailsWith fun fault =>
                ∃ root, fault = .depthExceeded root := by
              obtain ⟨raw, mapped⟩ := served name (by simpa using data)
              intro fault after failed
              simp only [record, mapped] at failed
              cases failed
            refine recorded.andThen fun middle => ?_
            cases w.model.definitions[name]? with
            | none =>
                intro fault after failed
                cases failed
            | some target => exact ih target middle _
      · have unnamed : ∀ name, t ≠ .ref name := fun name same => named ⟨name, same⟩
        rw [w.walk_of_ne_ref unnamed]
        exact failsWith_walkAll (fun part _ g => ih part g expanding) g

end Walker

end SchemaWeaver
