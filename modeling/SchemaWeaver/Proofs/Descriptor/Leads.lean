import SchemaWeaver.Descriptor.Definitions
import Mathlib.Data.List.Basic
import Mathlib.Logic.Relation

/-!
The types that a type leads to through definitions, and what a search or a check finds there. A
search opens every name once. A check opens a name again on every way to it, but not inside its own
definition. Neither misses anything: a way that comes back to a name can be cut short.
-/

set_option autoImplicit false
set_option relaxedAutoImplicit false

namespace SchemaWeaver.Definitions

open Relation (ReflTransGen)

/-- One step: from a name to its definition, or from a type that is entered to a component. -/
inductive Leads (defs : Definitions) (enters : Descriptor → Bool) : Descriptor → Descriptor → Prop
  | definition {name : String} {target : Descriptor} (found : defs[name]? = some target) :
      Leads defs enters (.ref name) target
  | part {t part : Descriptor} (entered : enters t = true) (member : part ∈ t.components) :
      Leads defs enters t part

def Reaches (defs : Definitions) (enters : Descriptor → Bool) : Descriptor → Descriptor → Prop :=
  ReflTransGen (defs.Leads enters)

variable {defs : Definitions} {enters : Descriptor → Bool}

section Lookup

variable {α : Type} {name : String} {target : Descriptor} {present : Descriptor → α} {absent : α}

/-- A recursion that keeps what it found to show that it ends does not depend on that. -/
theorem match_of_found :
    defs[name]? = some target →
      (match _found : defs[name]? with
        | some target => present target
        | none => absent) = present target := by
  intro found
  split
  · rename_i same
    cases found.symm.trans same
    rfl
  · rename_i missing
    cases found.symm.trans missing

theorem match_of_missing :
    defs[name]? = none →
      (match _found : defs[name]? with
        | some target => present target
        | none => absent) = absent := by
  intro missing
  split
  · rename_i found
    cases missing.symm.trans found
  · rfl

end Lookup

theorem getElem?_of_erase {name other : String} {target : Descriptor}
    (found : (defs.erase name)[other]? = some target) :
    other ≠ name ∧ defs[other]? = some target := by
  rw [Std.TreeMap.getElem?_erase] at found
  by_cases same : other = name
  · subst same
    simp at found
  · rw [if_neg (by simpa using Ne.symm same)] at found
    exact ⟨same, found⟩

theorem getElem?_erase_of_ne {name other : String} (different : other ≠ name) :
    (defs.erase name)[other]? = defs[other]? := by
  rw [Std.TreeMap.getElem?_erase, if_neg (by simpa using Ne.symm different)]

theorem Leads.of_erase {name : String} {t u : Descriptor}
    (step : Leads (defs.erase name) enters t u) : defs.Leads enters t u := by
  cases step with
  | definition found => exact .definition (getElem?_of_erase found).2
  | part entered member => exact .part entered member

theorem Reaches.of_erase {name : String} {t u : Descriptor}
    (way : Reaches (defs.erase name) enters t u) : defs.Reaches enters t u :=
  ReflTransGen.mono (fun _ _ step => Leads.of_erase step) _ _ way

theorem Reaches.everywhere {t u : Descriptor} (way : defs.Reaches enters t u) :
    defs.Reaches (fun _ => true) t u := by
  refine ReflTransGen.mono ?_ _ _ way
  rintro _ _ (found | ⟨-, member⟩)
  · exact .definition found
  · exact .part rfl member

/-- A way does without the definition of a name, or the rest of it after the last visit to the name
does. -/
theorem Reaches.avoid {name : String} {target t u : Descriptor} (found : defs[name]? = some target)
    (way : defs.Reaches enters t u) :
    Reaches (defs.erase name) enters t u ∨ Reaches (defs.erase name) enters target u := by
  refine ReflTransGen.head_induction_on way (Or.inl ReflTransGen.refl) ?_
  intro t v step _ ih
  rcases ih with rest | cut
  · cases step with
    | part entered member => exact Or.inl (ReflTransGen.head (.part entered member) rest)
    | @definition other _ opened =>
        by_cases same : other = name
        · subst same
          obtain rfl : target = v := by simpa [found] using opened
          exact Or.inr rest
        · have kept : (defs.erase name)[other]? = some v := by
            rw [getElem?_erase_of_ne same, opened]
          exact Or.inl (ReflTransGen.head (.definition kept) rest)
  · exact Or.inr cut

theorem Reaches.eq_of_undefined {name : String} {u : Descriptor} (missing : defs[name]? = none)
    (way : defs.Reaches enters (.ref name) u) : u = .ref name := by
  rcases ReflTransGen.cases_head way with same | ⟨v, step, -⟩
  · exact same.symm
  · cases step with
    | definition found =>
        rw [missing] at found
        cases found
    | part _ member => cases member

theorem Reaches.of_definition {name : String} {target u : Descriptor}
    (found : defs[name]? = some target) (way : defs.Reaches enters (.ref name) u) :
    u = .ref name ∨ Reaches (defs.erase name) enters target u := by
  rcases way.avoid found with short | rest
  · exact Or.inl (short.eq_of_undefined (by simp))
  · exact Or.inr rest

theorem Reaches.of_unnamed {t u : Descriptor} (unnamed : ∀ name, t ≠ .ref name)
    (way : defs.Reaches enters t u) :
    u = t ∨ enters t = true ∧ ∃ part ∈ t.components, defs.Reaches enters part u := by
  rcases ReflTransGen.cases_head way with same | ⟨v, step, rest⟩
  · exact Or.inl same.symm
  · cases step with
    | definition _ => exact absurd rfl (unnamed _)
    | part entered member => exact Or.inr ⟨entered, v, member, rest⟩

/-- Some type that a type leads to passes a test. -/
def Finds (defs : Definitions) (enters test : Descriptor → Bool) (t : Descriptor) : Prop :=
  ∃ u, defs.Reaches enters t u ∧ test u = true

variable {test : Descriptor → Bool}

theorem Finds.of_erase {name : String} {t : Descriptor}
    (finds : Finds (defs.erase name) enters test t) : defs.Finds enters test t := by
  obtain ⟨u, way, passes⟩ := finds
  exact ⟨u, way.of_erase, passes⟩

theorem Finds.avoid {name : String} {target t : Descriptor} (found : defs[name]? = some target)
    (finds : defs.Finds enters test t) :
    Finds (defs.erase name) enters test t ∨ Finds (defs.erase name) enters test target := by
  obtain ⟨u, way, passes⟩ := finds
  rcases way.avoid found with short | rest
  · exact Or.inl ⟨u, short, passes⟩
  · exact Or.inr ⟨u, rest, passes⟩

theorem finds_iff_leads {t : Descriptor} :
    defs.Finds enters test t ↔
      test t = true ∨ ∃ u, defs.Leads enters t u ∧ defs.Finds enters test u := by
  constructor
  · rintro ⟨u, way, passes⟩
    rcases ReflTransGen.cases_head way with rfl | ⟨v, step, rest⟩
    · exact Or.inl passes
    · exact Or.inr ⟨v, step, u, rest, passes⟩
  · rintro (passes | ⟨v, step, u, rest, passes⟩)
    · exact ⟨t, ReflTransGen.refl, passes⟩
    · exact ⟨u, ReflTransGen.head step rest, passes⟩

theorem finds_ref_iff {name : String} :
    defs.Finds enters test (.ref name) ↔
      test (.ref name) = true ∨
        ∃ target, defs[name]? = some target ∧ Finds (defs.erase name) enters test target := by
  constructor
  · rintro ⟨u, way, passes⟩
    cases found : defs[name]? with
    | none =>
        obtain rfl := way.eq_of_undefined found
        exact Or.inl passes
    | some target =>
        rcases way.of_definition found with rfl | rest
        · exact Or.inl passes
        · exact Or.inr ⟨target, rfl, u, rest, passes⟩
  · rintro (passes | ⟨target, found, finds⟩)
    · exact ⟨_, ReflTransGen.refl, passes⟩
    · obtain ⟨u, way, passes⟩ := finds.of_erase
      exact ⟨u, ReflTransGen.head (.definition found) way, passes⟩

theorem finds_unnamed_iff {t : Descriptor} (unnamed : ∀ name, t ≠ .ref name) :
    defs.Finds enters test t ↔
      test t = true ∨ enters t = true ∧ ∃ part ∈ t.components, defs.Finds enters test part := by
  constructor
  · rintro ⟨u, way, passes⟩
    rcases way.of_unnamed unnamed with rfl | ⟨entered, part, member, rest⟩
    · exact Or.inl passes
    · exact Or.inr ⟨entered, part, member, u, rest, passes⟩
  · rintro (passes | ⟨entered, part, member, u, way, passes⟩)
    · exact ⟨_, ReflTransGen.refl, passes⟩
    · exact ⟨u, ReflTransGen.head (.part entered member) way, passes⟩

/-- A search finds out whether one of the types leads to one that passes the test. -/
theorem search_eq_true_iff (defs : Definitions) (enters test : Descriptor → Bool)
    (todo : List Descriptor) :
    defs.search enters test todo = true ↔ ∃ t ∈ todo, defs.Finds enters test t := by
  fun_induction search defs enters test todo with
  | case1 => simp
  | case2 fresh name todo opened skipped =>
      rw [Bool.or_eq_true, List.exists_mem_cons_iff, finds_ref_iff]
      split
      · rename_i target found
        rw [opened target found, List.exists_mem_cons_iff]
        -- What is behind the name is looked for once, for all of the types.
        constructor
        · rintro (passes | finds | ⟨t, member, finds⟩)
          · exact Or.inl (Or.inl passes)
          · exact Or.inl (Or.inr ⟨target, found, finds⟩)
          · exact Or.inr ⟨t, member, finds.of_erase⟩
        · rintro ((passes | ⟨other, same, finds⟩) | ⟨t, member, finds⟩)
          · exact Or.inl passes
          · obtain rfl : target = other := by simpa [found] using same
            exact Or.inr (Or.inl finds)
          · rcases finds.avoid found with short | rest
            · exact Or.inr (Or.inr ⟨t, member, short⟩)
            · exact Or.inr (Or.inl rest)
      · rename_i missing
        rw [skipped]
        simp [missing]
  | case3 fresh t todo unnamed entered skipped =>
      rw [Bool.or_eq_true, List.exists_mem_cons_iff, finds_unnamed_iff unnamed]
      split
      · rename_i enters
        rw [entered, or_assoc]
        simp only [enters, true_and, List.mem_append, or_and_right, exists_or]
      · rename_i stays
        rw [skipped]
        simp only [stays, Bool.false_eq_true, false_and, or_false]

/-- Definitions from which exactly the opened ones are taken out. -/
def Fresh (defs fresh : Definitions) (opened : List String) : Prop :=
  ∀ name, fresh[name]? = if name ∈ opened then none else defs[name]?

namespace Fresh

variable {fresh : Definitions} {opened : List String}

theorem erase (without : defs.Fresh fresh opened) (name : String) :
    defs.Fresh (fresh.erase name) (name :: opened) := by
  intro other
  rw [Std.TreeMap.getElem?_erase, without]
  by_cases same : other = name
  · subst same
    simp
  · simp [same, Ne.symm same]

theorem of_found (without : defs.Fresh fresh opened) {name : String} {target : Descriptor}
    (found : fresh[name]? = some target) : name ∉ opened ∧ defs[name]? = some target := by
  rw [without] at found
  by_cases inside : name ∈ opened
  · simp [inside] at found
  · rw [if_neg inside] at found
    exact ⟨inside, found⟩

theorem of_missing (without : defs.Fresh fresh opened) {name : String}
    (missing : fresh[name]? = none) (defined : defs.contains name = true) : name ∈ opened := by
  by_contra outside
  rw [without, if_neg outside] at missing
  rw [Std.TreeMap.contains_eq_isSome_getElem?, missing] at defined
  cases defined

end Fresh

section Check

variable {σ : Type} (reading : σ → Definitions → Prop) (inside : σ → String → σ)
  (check : σ → Descriptor → Prop) {bad : Descriptor → Bool}

/-- A check that refuses bad types and goes on to components and definitions, but does not open a
name inside its own definition, comes to the same result as looking for a bad type everywhere. The
state of the check tells which definitions are still to be opened. -/
theorem check_iff_not_finds
    (enter : ∀ {s fresh}, reading s fresh → ∀ name, reading (inside s name) (fresh.erase name))
    (named : ∀ {s fresh}, reading s fresh → ∀ name, check s (.ref name) ↔
      bad (.ref name) = false ∧ ∀ target, fresh[name]? = some target → check (inside s name) target)
    (unnamed : ∀ {s fresh}, reading s fresh → ∀ t, (∀ name, t ≠ .ref name) → (check s t ↔
      bad t = false ∧ (enters t = true → ∀ part ∈ t.components, check s part)))
    {s : σ} {fresh : Definitions} (read : reading s fresh) (t : Descriptor) :
    check s t ↔ ¬fresh.Finds enters bad t := by
  have parts : ∀ part ∈ t.components, check s part ↔ ¬fresh.Finds enters bad part :=
    fun part _member => check_iff_not_finds enter named unnamed read part
  have definition : ∀ name target, fresh[name]? = some target →
      (check (inside s name) target ↔ ¬Finds (fresh.erase name) enters bad target) :=
    fun name target _found => check_iff_not_finds enter named unnamed (enter read name) target
  by_cases isName : ∃ name, t = .ref name
  · obtain ⟨name, rfl⟩ := isName
    rw [named read, finds_ref_iff, not_or, Bool.not_eq_true]
    refine and_congr_right fun _ => ?_
    constructor
    · rintro passes ⟨target, found, finds⟩
      exact (definition name target found).mp (passes target found) finds
    · intro none target found
      exact (definition name target found).mpr fun finds => none ⟨target, found, finds⟩
  · have isUnnamed : ∀ name, t ≠ .ref name := fun name same => isName ⟨name, same⟩
    rw [unnamed read t isUnnamed, finds_unnamed_iff isUnnamed, not_or, Bool.not_eq_true]
    refine and_congr_right fun _ => ?_
    constructor
    · rintro passes ⟨entered, part, member, finds⟩
      exact (parts part member).mp (passes entered part member) finds
    · intro none entered part member
      exact (parts part member).mpr fun finds => none ⟨entered, part, member, finds⟩
termination_by (fresh.size, sizeOf t)
decreasing_by
  · exact Prod.Lex.right _ (Descriptor.sizeOf_lt_of_mem_components _member)
  · exact Prod.Lex.left _ _ (size_erase_lt _found)

end Check

end SchemaWeaver.Definitions
