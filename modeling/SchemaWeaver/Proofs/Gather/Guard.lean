import SchemaWeaver.Proofs.Descriptor.Data
import SchemaWeaver.Proofs.Gather.Walk
import Mathlib.Data.List.Permutation

/-!
Walks with and without the guard against recursion. Without it, a walk that comes to a recursive
data type is never done: each time around the cycle it would have to be done with less room. So a
walk that is done without the guard never meets a name inside its own definition, and with the guard
it goes the same way.
-/

set_option autoImplicit false
set_option relaxedAutoImplicit false

namespace SchemaWeaver

open Relation (ReflTransGen)

theorem walkAll_done_of_done {α : Type} {walk walk' : α → Gathering → Walked} {items : List α}
    (step : ∀ a ∈ items, ∀ g after, walk a g = .done after → walk' a g = .done after)
    {g after : Gathering} (done : walkAll walk items g = .done after) :
    walkAll walk' items g = .done after := by
  induction items generalizing g with
  | nil => exact done
  | cons a items ih =>
      obtain ⟨middle, first, rest⟩ := Walked.andThen_eq_done_iff.mp done
      have first' := step a List.mem_cons_self g middle first
      have rest' := ih (fun b member => step b (List.mem_cons_of_mem _ member)) rest
      exact Walked.andThen_eq_done_iff.mpr ⟨middle, first', rest'⟩

namespace Walker

def withGuard (w : Walker) (guard : Bool) : Walker :=
  { w with settings := { w.settings with cycleGuard := guard } }

/-- Some walk from a type, with so much room, is done. -/
def Completes (w : Walker) (room : Nat) (t : Descriptor) : Prop :=
  ∃ expanding g after, w.walk room expanding t g = .done after

variable {w : Walker}

theorem Completes.of_leads (unguarded : w.settings.cycleGuard = false) {room : Nat}
    {t u : Descriptor} (completes : w.Completes room t) (step : w.model.Leads t u) :
    ∃ fewer < room, w.Completes fewer u := by
  obtain ⟨expanding, g, after, done⟩ := completes
  cases room with
  | zero => cases done
  | succ room =>
      refine ⟨room, Nat.lt_succ_self room, ?_⟩
      cases step with
      | part member =>
          have unnamed : ∀ name, t ≠ .ref name := by
            rintro name rfl
            cases member
          rw [w.walk_of_ne_ref unnamed] at done
          obtain ⟨before, later, -, walked, -⟩ := w.walkAll_done_mem
            (fun part _ => w.extends_walk room expanding part fun _ _ => trivial) done member
          exact ⟨expanding, before, later, walked⟩
      | @definition name _ data found =>
          rcases w.walk_ref_eq_done done with ⟨guarded, -⟩ | ⟨foreign, -⟩ | ⟨-, middle, -, rest⟩
          · rw [unguarded] at guarded
            cases guarded
          · have eligible : w.isEligible name = true := data
            rw [foreign] at eligible
            cases eligible
          · rw [found] at rest
            exact ⟨expanding ++ [name], middle, after, rest⟩

theorem Completes.of_steps (unguarded : w.settings.cycleGuard = false) {room : Nat}
    {t u : Descriptor} (completes : w.Completes room t) (way : ReflTransGen w.model.Leads t u) :
    ∃ fewer ≤ room, w.Completes fewer u := by
  induction way with
  | refl => exact ⟨room, Nat.le_refl room, completes⟩
  | tail _ step ih =>
      obtain ⟨middle, fewer, reached⟩ := ih
      obtain ⟨least, less, last⟩ := reached.of_leads unguarded step
      exact ⟨least, by omega, last⟩

/-- Without a guard, no walk from a recursive data type is done. -/
theorem not_completes_of_cycle (unguarded : w.settings.cycleGuard = false) {name : String}
    {target : Descriptor} (data : w.isEligible name = true)
    (found : w.model.definitions[name]? = some target) (back : w.model.Reaches target name)
    (room : Nat) : ¬w.Completes room (.ref name) := by
  -- Going around once leaves less room, and there is a least one.
  induction room using Nat.strongRecOn with
  | ind room ih =>
      intro completes
      have opened : w.model.Leads (.ref name) target := .definition data found
      obtain ⟨inner, less, entered⟩ := completes.of_leads unguarded opened
      obtain ⟨again, fewer, around⟩ := entered.of_steps unguarded back
      exact ih again (by omega) around

variable (w) in
/-- The names that are being walked are those of data types whose definitions lead to the type that
the walk has come to. -/
def Surrounds (expanding : List String) (t : Descriptor) : Prop :=
  ∀ name ∈ expanding, w.isEligible name = true ∧
    ∃ target, w.model.definitions[name]? = some target ∧ ReflTransGen w.model.Leads target t

theorem Surrounds.tail {expanding : List String} {t u : Descriptor}
    (surrounds : w.Surrounds expanding t) (step : w.model.Leads t u) :
    w.Surrounds expanding u := by
  intro name member
  obtain ⟨data, target, found, way⟩ := surrounds name member
  exact ⟨data, target, found, way.tail step⟩

theorem Surrounds.enter {expanding : List String} {name : String} {target : Descriptor}
    (surrounds : w.Surrounds expanding (.ref name)) (data : w.isEligible name = true)
    (found : w.model.definitions[name]? = some target) :
    w.Surrounds (expanding ++ [name]) target := by
  intro other member
  rcases List.mem_append.mp member with old | new
  · exact surrounds.tail (.definition data found) other old
  · obtain rfl := List.mem_singleton.mp new
    exact ⟨data, target, found, ReflTransGen.refl⟩

theorem walk_withGuard_of_done {room : Nat} {expanding : List String} {t : Descriptor}
    {g after : Gathering} (surrounds : w.Surrounds expanding t)
    (done : (w.withGuard false).walk room expanding t g = .done after) :
    (w.withGuard true).walk room expanding t g = .done after := by
  induction room generalizing expanding t g after with
  | zero => cases done
  | succ room ih =>
      by_cases named : ∃ name, t = .ref name
      · obtain ⟨name, rfl⟩ := named
        have outside : name ∉ expanding := by
          intro inside
          obtain ⟨data, target, found, back⟩ := surrounds name inside
          have stuck := not_completes_of_cycle (w := w.withGuard false) rfl data found back
          exact stuck (room + 1) ⟨expanding, g, after, done⟩
        unfold walk
        rw [if_neg (by simp [outside])]
        rcases (w.withGuard false).walk_ref_eq_done done with
          ⟨guarded, -⟩ | ⟨foreign, rfl⟩ | ⟨data, middle, recorded, rest⟩
        · cases guarded
        · have foreign' : (w.withGuard true).isEligible name = false := foreign
          rw [if_pos (by simp [foreign'])]
        · have data' : (w.withGuard true).isEligible name = true := data
          have recorded' : (w.withGuard true).record name g = .done middle := recorded
          rw [if_neg (by simp [data']), recorded', Walked.andThen]
          rw [show (w.withGuard true).model = w.model from rfl]
          cases found : w.model.definitions[name]? with
          | none =>
              have same : after = middle := by simpa [withGuard, found] using rest
              rw [same]
          | some target =>
              have inner : (w.withGuard false).walk room (expanding ++ [name]) target middle =
                  .done after := by simpa [withGuard, found] using rest
              exact ih (surrounds.enter data found) inner
      · have unnamed : ∀ name, t ≠ .ref name := fun name same => named ⟨name, same⟩
        rw [walk_of_ne_ref _ unnamed] at done ⊢
        refine walkAll_done_of_done (fun part member g after walked => ?_) done
        exact ih (surrounds.tail (.part member)) walked

variable (w)

/-- If gathering from a type is done without the guard, it is done with the guard too, with the same
catalog, the same names asked for and the same events. Without the guard it fails, whatever the
depth, if the type leads to the name of a data type that leads back to itself. -/
theorem gather_withGuard (t : Descriptor) (g : Gathering) :
    (∀ after, (w.withGuard false).gather t g = .done after →
      (w.withGuard true).gather t g = .done after) ∧
    ∀ name target, w.model.Reaches t name → w.isEligible name = true →
      w.model.definitions[name]? = some target → w.model.Reaches target name →
        ∃ fault after, (w.withGuard false).gather t g = .failed fault after := by
  constructor
  · intro after done
    have surrounds : w.Surrounds [] t := fun name member => absurd member List.not_mem_nil
    exact walk_withGuard_of_done surrounds done
  · intro name target way data found back
    cases gathered : (w.withGuard false).gather t g with
    | failed fault after => exact ⟨fault, after, rfl⟩
    | done after =>
        have completes : (w.withGuard false).Completes (w.settings.walkDepth + 1) t :=
          ⟨[], g, after, gathered⟩
        obtain ⟨fewer, -, reached⟩ := completes.of_steps rfl way
        have stuck := not_completes_of_cycle (w := w.withGuard false) rfl data found back fewer
        exact absurd reached stuck

def trees : Walker :=
  ⟨⟨Definitions.ofList [("Tree", .array (.ref "Tree"))], [], [], []⟩,
    fun _ _ => .ok Schema.unconstrained, ⟨.skipEntry, true, Settings.depthBound⟩⟩

def leaves : Walker :=
  ⟨⟨Definitions.ofList [("Leaf", .scalar .string)], [], [], []⟩,
    fun _ _ => .ok Schema.unconstrained, ⟨.skipEntry, false, 3⟩⟩

private theorem gather_leaves :
    (leaves.withGuard false).gather (.tuple [.ref "Leaf", .array (.ref "Leaf")])
        (Gathering.ofCatalog []) =
      .done ⟨[("Leaf", "\x7b\x7d")], #["Leaf", "Leaf"],
        #[.schemaAdded "Leaf", .schemaRecomputed "Leaf"]⟩ := by
  have data : (leaves.withGuard false).isEligible "Leaf" = true :=
    (leaves.model.definitions.isSubtypeOf_anydata (.ref "Leaf")).trans (by cbv)
  have found : (leaves.withGuard false).model.definitions["Leaf"]? = some (.scalar .string) := by
    cbv
  have recorded (g : Gathering) : (leaves.withGuard false).record "Leaf" g =
      .done ((g.ask "Leaf").write "Leaf" "\x7b\x7d") := by
    have text : Schema.canonicalText Schema.unconstrained = "\x7b\x7d" := by decide
    rw [← text]
    rfl
  rw [gather, show (leaves.withGuard false).settings.walkDepth = 3 from rfl]
  calc
    _ = Walked.done (((((Gathering.ofCatalog []).ask "Leaf").write "Leaf" "\x7b\x7d").ask
          "Leaf").write "Leaf" "\x7b\x7d") := by
      simp [walk, data, recorded, found, Walked.andThen, walkAll, Descriptor.components]
    _ = _ := rfl

/-- Trees cannot be gathered without the guard, even at the greatest depth that can be set. Leaves
can, also twice, and then the guard makes no difference. -/
theorem gather_withGuard_trees :
    let start := Gathering.ofCatalog []
    (trees.isEligible "Tree" = true ∧
      ∃ fault after, (trees.withGuard false).gather (.ref "Tree") start = .failed fault after) ∧
    ∃ after, after.asked = #["Leaf", "Leaf"] ∧
      (leaves.withGuard false).gather (.tuple [.ref "Leaf", .array (.ref "Leaf")]) start =
        .done after ∧
      (leaves.withGuard true).gather (.tuple [.ref "Leaf", .array (.ref "Leaf")]) start =
        .done after := by
  intro start
  have data : trees.isEligible "Tree" = true :=
    (trees.model.definitions.isSubtypeOf_anydata (.ref "Tree")).trans (by cbv)
  have found : trees.model.definitions["Tree"]? = some (.array (.ref "Tree")) := by cbv
  have back : trees.model.Reaches (.array (.ref "Tree")) "Tree" :=
    (Model.Leads.part List.mem_cons_self).reaches (Model.reaches_self _ _)
  obtain ⟨-, fails⟩ := trees.gather_withGuard (.ref "Tree") start
  obtain ⟨agrees, -⟩ := leaves.gather_withGuard (.tuple [.ref "Leaf", .array (.ref "Leaf")]) start
  exact ⟨⟨data, fails "Tree" _ (Model.reaches_self _ _) data found back⟩,
    _, rfl, gather_leaves, agrees _ gather_leaves⟩

end Walker

end SchemaWeaver
