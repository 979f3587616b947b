import SchemaWeaver.Gather
import SchemaWeaver.Proofs.Gather.Reach
import SchemaWeaver.Proofs.Keyed

/-!
What a walk can do to a catalog. Every entry that is written is the canonical text of the schema
that the source has for a data type, so an entry that is written a second time does not change, and
whether a walk is done or fails on the way, it has only added entries at the end.
-/

set_option autoImplicit false
set_option relaxedAutoImplicit false

namespace SchemaWeaver

theorem Walked.andThen_eq_done_iff {w : Walked} {next : Gathering → Walked} {g : Gathering} :
    w.andThen next = .done g ↔ ∃ middle, w = .done middle ∧ next middle = .done g := by
  cases w with
  | done middle => simp [Walked.andThen]
  | failed fault middle => simp [Walked.andThen]

namespace Walker

variable (w : Walker)

theorem walk_of_ne_ref {t : Descriptor} (unnamed : ∀ name, t ≠ .ref name) (room : Nat)
    (expanding : List String) (g : Gathering) :
    w.walk (room + 1) expanding t g = walkAll (w.walk room expanding) t.components g := by
  cases t with
  | ref name => exact absurd rfl (unnamed name)
  | _ => rfl

/-- What a walk at a name did, if it is done: nothing because the name is being walked, nothing
because it is no name of a data type, or it recorded the name and walked its definition. -/
theorem walk_ref_eq_done {room : Nat} {expanding : List String} {name : String}
    {g g' : Gathering} (done : w.walk (room + 1) expanding (.ref name) g = .done g') :
    (w.settings.cycleGuard = true ∧ name ∈ expanding ∧ g' = g.report (.alreadyExpanding name)) ∨
      (w.isEligible name = false ∧ g' = g.report (.notData name)) ∨
      (w.isEligible name = true ∧ ∃ middle, w.record name g = .done middle ∧
        match w.model.definitions[name]? with
        | none => g' = middle
        | some target => w.walk room (expanding ++ [name]) target middle = .done g') := by
  unfold walk at done
  split at done
  · rename_i guarded
    obtain ⟨guarding, inside⟩ := Bool.and_eq_true_iff.mp guarded
    cases done
    exact Or.inl ⟨guarding, of_decide_eq_true inside, rfl⟩
  · split at done
    · rename_i ineligible
      cases done
      exact Or.inr (Or.inl ⟨by simpa using ineligible, rfl⟩)
    · rename_i eligible
      obtain ⟨middle, recorded, rest⟩ := Walked.andThen_eq_done_iff.mp done
      refine Or.inr (Or.inr ⟨by simpa using eligible, middle, recorded, ?_⟩)
      cases found : w.model.definitions[name]? with
      | none =>
          simp only [found, Walked.done.injEq] at rest
          exact rest.symm
      | some target => simpa only [found] using rest

/-- What a catalog may say about a name of a data type: the text of its schema. -/
structure Records (name text : String) : Prop where
  data : w.isEligible name = true
  mapped : ∃ raw, w.source name w.model = .ok raw ∧ text = Schema.canonicalText raw

theorem Records.unique {w : Walker} {name text other : String} (first : w.Records name text)
    (second : w.Records name other) : text = other := by
  obtain ⟨raw, mapped, rfl⟩ := first.mapped
  obtain ⟨raw', mapped', rfl⟩ := second.mapped
  rw [mapped] at mapped'
  cases mapped'
  rfl

def Sound (reached : String → Prop) (catalog : Catalog) : Prop :=
  ∀ name text, (name, text) ∈ catalog → w.Records name text ∧ reached name

/-- To a sound catalog only sound entries were added, at the end. -/
def Extends (reached : String → Prop) (g g' : Gathering) : Prop :=
  w.Sound reached g.catalog → w.Sound reached g'.catalog ∧ g.catalog <+: g'.catalog

namespace Extends

variable {w} {reached : String → Prop}

theorem of_catalog_eq {g g' : Gathering} (same : g'.catalog = g.catalog) :
    w.Extends reached g g' := by
  intro sound
  rw [same]
  exact ⟨sound, List.prefix_rfl⟩

theorem trans {g₁ g₂ g₃ : Gathering} (first : w.Extends reached g₁ g₂)
    (second : w.Extends reached g₂ g₃) : w.Extends reached g₁ g₃ := by
  intro sound
  obtain ⟨middle, kept⟩ := first sound
  obtain ⟨final, keptAgain⟩ := second middle
  exact ⟨final, kept.trans keptAgain⟩

theorem andThen {g : Gathering} {walked : Walked} {next : Gathering → Walked}
    (first : w.Extends reached g walked.gathering)
    (second : ∀ middle, w.Extends reached middle (next middle).gathering) :
    w.Extends reached g (walked.andThen next).gathering := by
  cases walked with
  | done middle => exact first.trans (second middle)
  | failed fault middle => exact first

end Extends

theorem extends_write {reached : String → Prop} {name text : String}
    (records : w.Records name text) (reach : reached name) (g : Gathering) :
    w.Extends reached g (g.write name text) := by
  intro sound
  change w.Sound reached (Keyed.insert g.catalog name text) ∧
    g.catalog <+: Keyed.insert g.catalog name text
  cases found : Keyed.get? g.catalog name with
  | none =>
      rw [Keyed.insert_of_get?_eq_none found]
      refine ⟨?_, List.prefix_append _ _⟩
      intro other otherText member
      rcases List.mem_append.mp member with old | new
      · exact sound other otherText old
      · cases List.mem_singleton.mp new
        exact ⟨records, reach⟩
  | some present =>
      -- The entry that is there has the same text.
      have old := (sound name present (Keyed.mem_of_get? found)).1
      obtain rfl := old.unique records
      rw [Keyed.insert_of_get?_eq_some found]
      exact ⟨sound, List.prefix_rfl⟩

theorem extends_record {reached : String → Prop} {name : String} (data : w.isEligible name = true)
    (reach : reached name) (g : Gathering) : w.Extends reached g (w.record name g).gathering := by
  unfold record
  cases mapped : w.source name w.model with
  | ok raw =>
      have asked : w.Extends reached g (g.ask name) := .of_catalog_eq rfl
      exact asked.trans (w.extends_write ⟨data, raw, mapped, rfl⟩ reach _)
  | error cause =>
      cases w.settings.policy with
      | skipEntry => exact .of_catalog_eq rfl
      | abortModule => exact .of_catalog_eq rfl

theorem extends_walkAll {α : Type} {reached : String → Prop} {walk : α → Gathering → Walked}
    {items : List α} (step : ∀ a ∈ items, ∀ g, w.Extends reached g (walk a g).gathering)
    (g : Gathering) : w.Extends reached g (walkAll walk items g).gathering := by
  induction items generalizing g with
  | nil => exact .of_catalog_eq rfl
  | cons a items ih =>
      refine (step a List.mem_cons_self g).andThen fun middle => ?_
      exact ih (fun b member => step b (List.mem_cons_of_mem _ member)) middle

theorem extends_walk {reached : String → Prop} (room : Nat) (expanding : List String)
    (t : Descriptor) (reach : ∀ name, w.model.Reaches t name → reached name) (g : Gathering) :
    w.Extends reached g (w.walk room expanding t g).gathering := by
  induction room generalizing expanding t g with
  | zero => exact .of_catalog_eq rfl
  | succ room ih =>
      by_cases named : ∃ name, t = .ref name
      · obtain ⟨name, rfl⟩ := named
        unfold walk
        split
        · exact .of_catalog_eq rfl
        · split
          · exact .of_catalog_eq rfl
          · rename_i eligible
            have data : w.isEligible name = true := by simpa using eligible
            have recorded := w.extends_record data (reach name (w.model.reaches_self name)) g
            refine recorded.andThen fun middle => ?_
            cases found : w.model.definitions[name]? with
            | none => exact .of_catalog_eq rfl
            | some target =>
                refine ih _ target (fun other way => reach other ?_) middle
                exact (Model.Leads.definition data found).reaches way
      · have unnamed : ∀ name, t ≠ .ref name := fun name same => named ⟨name, same⟩
        rw [w.walk_of_ne_ref unnamed]
        refine w.extends_walkAll (fun part member middle => ?_) g
        refine ih expanding part (fun other way => reach other ?_) middle
        exact (Model.Leads.part member).reaches way

theorem walkAll_done_mem {α : Type} {reached : String → Prop} {walk : α → Gathering → Walked}
    {items : List α} (step : ∀ a ∈ items, ∀ g, w.Extends reached g (walk a g).gathering)
    {g g' : Gathering} (done : walkAll walk items g = .done g') {a : α} (member : a ∈ items) :
    ∃ before after, w.Extends reached g before ∧ walk a before = .done after ∧
      w.Extends reached after g' := by
  induction items generalizing g with
  | nil => cases member
  | cons b items ih =>
      obtain ⟨middle, first, rest⟩ := Walked.andThen_eq_done_iff.mp done
      have later : ∀ a ∈ items, ∀ g, w.Extends reached g (walk a g).gathering :=
        fun a member => step a (List.mem_cons_of_mem _ member)
      rcases List.mem_cons.mp member with rfl | member
      · have extended := w.extends_walkAll later middle
        rw [rest] at extended
        exact ⟨g, middle, .of_catalog_eq rfl, first, extended⟩
      · obtain ⟨before, after, reach, walked, extended⟩ := ih later rest member
        have begun := step b List.mem_cons_self g
        rw [first] at begun
        exact ⟨before, after, begun.trans reach, walked, extended⟩

end Walker

end SchemaWeaver
