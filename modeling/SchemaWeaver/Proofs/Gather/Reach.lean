import SchemaWeaver.Model
import Mathlib.Logic.Relation

/-!
The types that a type leads to: its immediate parts, and from the name of a data type its
definition. A way to a name that goes through some other name more than once can be cut short, so
what lies behind a name is also found on ways that do not come back to it.
-/

set_option autoImplicit false
set_option relaxedAutoImplicit false

namespace SchemaWeaver.Model

open Relation (ReflTransGen)

/-- One step from a type: to an array's elements, a member of a tuple or a union, the type of a
field or of the rest of a record, or from the name of a data type to its definition. -/
inductive Leads (m : Model) : Descriptor → Descriptor → Prop
  | part {t part : Descriptor} (member : part ∈ t.components) : m.Leads t part
  | definition {name : String} {target : Descriptor}
      (data : m.isSubtypeOf (.ref name) (.scalar .anydata) = true)
      (found : m.definitions[name]? = some target) : m.Leads (.ref name) target

def Reaches (m : Model) (t : Descriptor) (name : String) : Prop :=
  ReflTransGen m.Leads t (.ref name)

/-- One step that does not leave from one of the closed names. -/
def LeadsOutside (m : Model) (closed : List String) (t u : Descriptor) : Prop :=
  m.Leads t u ∧ ∀ name ∈ closed, t ≠ .ref name

def ReachesOutside (m : Model) (closed : List String) (t : Descriptor) (name : String) : Prop :=
  ReflTransGen (m.LeadsOutside closed) t (.ref name)

variable {m : Model}

theorem reaches_self (m : Model) (name : String) : m.Reaches (.ref name) name :=
  ReflTransGen.refl

theorem Leads.reaches {t u : Descriptor} {name : String} (step : m.Leads t u)
    (rest : m.Reaches u name) : m.Reaches t name :=
  ReflTransGen.head step rest

theorem reachesOutside_nil_iff {t : Descriptor} {name : String} :
    m.ReachesOutside [] t name ↔ m.Reaches t name := by
  have steps : m.LeadsOutside [] = m.Leads := by
    funext t u
    simp [LeadsOutside]
  rw [ReachesOutside, Reaches, steps]

/-- A way either avoids a name, or what it leads to is also reached from the definition of the name
without coming back to it: leave out all of the way up to its last visit to the name. -/
theorem ReachesOutside.avoid {closed : List String} {t target : Descriptor} {name goal : String}
    (found : m.definitions[name]? = some target) (way : m.ReachesOutside closed t goal) :
    m.ReachesOutside (closed ++ [name]) t goal ∨
      m.ReachesOutside (closed ++ [name]) target goal := by
  refine ReflTransGen.head_induction_on way (Or.inl ReflTransGen.refl) ?_
  intro t u step _ ih
  rcases ih with rest | cut
  · by_cases visit : t = .ref name
    · subst visit
      -- The step goes from the name to its definition, and what follows does not come back.
      cases step.1 with
      | part member => cases member
      | definition _ other =>
          obtain rfl : target = u := by simpa [found] using other
          exact Or.inr rest
    · refine Or.inl (ReflTransGen.head ⟨step.1, ?_⟩ rest)
      intro other member
      rcases List.mem_append.mp member with old | new
      · exact step.2 other old
      · obtain rfl := List.mem_singleton.mp new
        exact visit
  · exact Or.inr cut

theorem ReachesOutside.head {closed : List String} {t : Descriptor} {goal : String}
    (way : m.ReachesOutside closed t goal) (further : t ≠ .ref goal) :
    ∃ u, m.LeadsOutside closed t u ∧ m.ReachesOutside closed u goal := by
  rcases ReflTransGen.cases_head way with same | ⟨u, step, rest⟩
  · exact absurd same further
  · exact ⟨u, step, rest⟩

theorem ReachesOutside.through_definition {closed : List String} {name goal : String}
    (way : m.ReachesOutside closed (.ref name) goal) (further : name ≠ goal) :
    name ∉ closed ∧ m.isSubtypeOf (.ref name) (.scalar .anydata) = true ∧
      ∃ target, m.definitions[name]? = some target ∧
        m.ReachesOutside (closed ++ [name]) target goal := by
  have different : Descriptor.ref name ≠ .ref goal := by simpa using further
  obtain ⟨target, ⟨step, leave⟩, -⟩ := way.head different
  cases step with
  | part member => cases member
  | definition data found =>
      refine ⟨fun member => leave name member rfl, data, target, found, ?_⟩
      rcases way.avoid found with avoiding | cut
      · obtain ⟨u, ⟨-, leave⟩, -⟩ := avoiding.head different
        exact absurd rfl (leave name (by simp))
      · exact cut

theorem ReachesOutside.through_part {closed : List String} {t : Descriptor} {goal : String}
    (way : m.ReachesOutside closed t goal) (unnamed : ∀ name, t ≠ .ref name) :
    ∃ part ∈ t.components, m.ReachesOutside closed part goal := by
  obtain ⟨part, ⟨step, -⟩, rest⟩ := way.head (unnamed goal)
  cases step with
  | part member => exact ⟨part, member, rest⟩
  | definition _ _ => exact absurd rfl (unnamed _)

end SchemaWeaver.Model
