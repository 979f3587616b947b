import SchemaWeaver.Proofs.Gather.Walk
import Mathlib.Data.List.Induction

/-!
The catalog after any number of walks, done or failed: it holds schemas of names that can be reached
from the walked types, and after a walk that is done it holds the schemas of all of them. A name
that is being walked is not walked again if recursion is guarded; nothing is missed by that, because
what lies behind the name is reached from its definition on a way that does not come back to it.
-/

set_option autoImplicit false
set_option relaxedAutoImplicit false

namespace SchemaWeaver.Walker

variable (w : Walker)

/-- A catalog has the schema of a name, if there is one; there has to be one if its absence is not
to be skipped. -/
structure Covers (catalog : Catalog) (name : String) : Prop where
  listed : (∃ raw, w.source name w.model = .ok raw) → ∃ text, (name, text) ∈ catalog
  mapped : w.settings.policy = .abortModule → ∃ raw, w.source name w.model = .ok raw

theorem Covers.mono {w : Walker} {catalog larger : Catalog} {name : String}
    (covers : w.Covers catalog name) (kept : catalog <+: larger) : w.Covers larger name := by
  refine ⟨fun mapped => ?_, covers.mapped⟩
  obtain ⟨text, member⟩ := covers.listed mapped
  exact ⟨text, kept.subset member⟩

theorem covers_of_record_eq_done {name : String} {g g' : Gathering}
    (done : w.record name g = .done g') : w.Covers g'.catalog name := by
  unfold record at done
  cases mapped : w.source name w.model with
  | ok raw =>
      simp only [mapped, Walked.done.injEq] at done
      subst done
      refine ⟨fun _ => ?_, fun _ => ⟨raw, mapped⟩⟩
      exact ⟨_, Keyed.mem_of_get? (Keyed.get?_insert_self _ _ _)⟩
  | error cause =>
      cases policy : w.settings.policy with
      | skipEntry =>
          refine ⟨?_, fun abort => ?_⟩
          · rintro ⟨raw, same⟩
            cases mapped.symm.trans same
          · cases policy.symm.trans abort
      | abortModule =>
          simp only [mapped, policy] at done
          cases done

/-- Every entry of a catalog is the text of the schema of a data type. -/
def Consistent (catalog : Catalog) : Prop := w.Sound (fun _ => True) catalog

theorem consistent_of_walk_eq_done {room : Nat} {expanding : List String} {t : Descriptor}
    {g g' : Gathering} (sound : w.Consistent g.catalog)
    (done : w.walk room expanding t g = .done g') :
    w.Consistent g'.catalog ∧ g.catalog <+: g'.catalog := by
  have extended := w.extends_walk room expanding t (fun _ _ => trivial) g
  rw [done] at extended
  exact extended sound

/-- A walk that is done covers the data types that are reached without going through a name that is
being walked. -/
theorem covers_of_walk_eq_done {room : Nat} {expanding : List String} {t : Descriptor}
    {g g' : Gathering} (sound : w.Consistent g.catalog)
    (done : w.walk room expanding t g = .done g') {goal : String}
    (way : w.model.ReachesOutside expanding t goal) (outside : goal ∉ expanding)
    (data : w.isEligible goal = true) : w.Covers g'.catalog goal := by
  -- The induction follows the walk; the way is cut at each name that the walk goes into.
  induction room generalizing expanding t g g' with
  | zero => cases done
  | succ room ih =>
      by_cases named : ∃ name, t = .ref name
      · obtain ⟨name, rfl⟩ := named
        rcases w.walk_ref_eq_done done with
          ⟨-, inside, -⟩ | ⟨foreign, -⟩ | ⟨eligible, middle, recorded, rest⟩
        · by_cases same : name = goal
          · exact absurd (same ▸ inside) outside
          · exact absurd inside (way.through_definition same).1
        · have eligible : w.isEligible name = true := by
            by_cases same : name = goal
            · exact same ▸ data
            · exact (way.through_definition same).2.1
          rw [foreign] at eligible
          cases eligible
        · have consistent : w.Consistent middle.catalog := by
            have extended : w.Extends (fun _ => True) g (w.record name g).gathering :=
              w.extends_record eligible trivial g
            rw [recorded] at extended
            exact (extended sound).1
          by_cases same : name = goal
          · subst same
            have covered := w.covers_of_record_eq_done recorded
            cases found : w.model.definitions[name]? with
            | none =>
                obtain rfl : g' = middle := by simpa only [found] using rest
                exact covered
            | some target =>
                simp only [found] at rest
                exact covered.mono (w.consistent_of_walk_eq_done consistent rest).2
          · obtain ⟨-, -, target, found, cut⟩ := way.through_definition same
            rw [found] at rest
            exact ih consistent rest cut (by simp [outside, Ne.symm same])
      · have unnamed : ∀ name, t ≠ .ref name := fun name same => named ⟨name, same⟩
        rw [w.walk_of_ne_ref unnamed] at done
        obtain ⟨part, member, rest⟩ := way.through_part unnamed
        obtain ⟨before, after, begun, walked, ended⟩ := w.walkAll_done_mem
          (fun part _ => w.extends_walk room expanding part fun _ _ => trivial) done member
        have consistent := (begun sound).1
        have covered := ih consistent walked rest outside
        exact covered.mono (ended (w.consistent_of_walk_eq_done consistent walked).1).2

/-- What is gathered from types one after the other, whether the walk from one of them fails or
not. -/
def gatherings (types : List Descriptor) : Gathering :=
  types.foldl (fun g t => (w.gather t g).gathering) (Gathering.ofCatalog [])

theorem gatherings_append_singleton (types : List Descriptor) (t : Descriptor) :
    w.gatherings (types ++ [t]) = (w.gather t (w.gatherings types)).gathering := by
  simp [gatherings, List.foldl_append]

theorem sound_gatherings (reached : String → Prop) (types : List Descriptor)
    (reach : ∀ t ∈ types, ∀ name, w.model.Reaches t name → reached name) :
    w.Sound reached (w.gatherings types).catalog := by
  induction types using List.reverseRecOn with
  | nil =>
      intro name text member
      cases member
  | append_singleton types t ih =>
      rw [gatherings_append_singleton]
      have sound := ih fun u member => reach u (List.mem_append_left _ member)
      have extended := w.extends_walk (w.settings.walkDepth + 1) [] t
        (reach t (List.mem_append_right _ List.mem_cons_self)) (w.gatherings types)
      exact (extended sound).1

/-- After each of any number of walks that begin with an empty catalog, no entry is lost, every
entry is the schema of a data type that one of the walked types reaches, and if the walk is done all
the data types that its type reaches are covered. -/
theorem gatherings_sound_and_complete (earlier : List Descriptor) (t : Descriptor) :
    let before := w.gatherings earlier
    let outcome := w.gather t before
    w.gatherings (earlier ++ [t]) = outcome.gathering ∧
      before.catalog <+: outcome.gathering.catalog ∧
      (∀ name text, (name, text) ∈ outcome.gathering.catalog →
        w.Records name text ∧ ∃ u ∈ earlier ++ [t], w.model.Reaches u name) ∧
      ∀ after, outcome = .done after → ∀ name, w.model.Reaches t name →
        w.isEligible name = true → w.Covers after.catalog name := by
  intro before outcome
  have consistent : w.Consistent before.catalog :=
    w.sound_gatherings _ earlier fun _ _ _ _ => trivial
  refine ⟨w.gatherings_append_singleton earlier t, ?_, ?_, ?_⟩
  · exact (w.extends_walk _ [] t (fun _ _ => trivial) before consistent).2
  · rw [← w.gatherings_append_singleton earlier t]
    exact w.sound_gatherings (fun name => ∃ u ∈ earlier ++ [t], w.model.Reaches u name) _
      fun u member name way => ⟨u, member, way⟩
  · intro after done name way data
    exact w.covers_of_walk_eq_done consistent done
      (Model.reachesOutside_nil_iff.mpr way) List.not_mem_nil data

end SchemaWeaver.Walker
