import SchemaWeaver.Proofs.Gather.Alike
import SchemaWeaver.Proofs.Gather.Guard

/-!
When a guarded walk runs out of room. It fails exactly if some way from the type is longer than the
walk may go deep and steps through no name twice, and the fault names the first name on the first
such way. Ways are compared by their places, which is the order in which a walk goes along them. A
walk that is done does not change when it may go deeper.
-/

set_option autoImplicit false
set_option relaxedAutoImplicit false

namespace SchemaWeaver

section WalkAll

variable {α : Type} {walk : α → Gathering → Walked} {items : List α}

theorem exists_done_of_walkAll {g after : Gathering} (done : walkAll walk items g = .done after)
    {a : α} (member : a ∈ items) : ∃ before later, walk a before = .done later := by
  induction items generalizing g with
  | nil => cases member
  | cons b items ih =>
      obtain ⟨middle, first, rest⟩ := Walked.andThen_eq_done_iff.mp done
      rcases List.mem_cons.mp member with rfl | later
      · exact ⟨g, middle, first⟩
      · exact ih rest later

theorem exists_failed_of_walkAll {fault : Fault} {g after : Gathering}
    (failed : walkAll walk items g = .failed fault after) :
    ∃ (i : Nat) (a : α) (before : Gathering), items[i]? = some a ∧
      walk a before = .failed fault after ∧
      ∀ j b, j < i → items[j]? = some b → ∃ g later, walk b g = .done later := by
  induction items generalizing g with
  | nil => cases failed
  | cons b items ih =>
      cases first : walk b g with
      | failed other middle =>
          rw [walkAll, first] at failed
          cases failed
          exact ⟨0, b, g, rfl, first, fun j c earlier => absurd earlier (Nat.not_lt_zero j)⟩
      | done middle =>
          rw [walkAll, first] at failed
          obtain ⟨i, a, before, found, fails, done⟩ := ih failed
          refine ⟨i + 1, a, before, found, fails, ?_⟩
          intro j c earlier here
          cases j with
          | zero =>
              obtain rfl : b = c := by simpa using here
              exact ⟨g, middle, first⟩
          | succ j => exact done j c (Nat.lt_of_succ_lt_succ earlier) (by simpa using here)

end WalkAll

namespace Walker

/-- A way from one type to another, and the names that are stepped through on it, each of a data
type. A place tells which part is taken at a step; from a name the only step is to its
definition. -/
inductive Way (w : Walker) : Descriptor → List Nat → List String → Descriptor → Prop
  | stay (t : Descriptor) : Way w t [] [] t
  | part {t part u : Descriptor} {place : Nat} {places : List Nat} {names : List String}
      (taken : t.components[place]? = some part) (rest : Way w part places names u) :
      Way w t (place :: places) names u
  | definition {name : String} {target u : Descriptor} {places : List Nat} {names : List String}
      (data : w.isEligible name = true) (found : w.model.definitions[name]? = some target)
      (rest : Way w target places names u) : Way w (.ref name) (0 :: places) (name :: names) u

/-- A way of so many steps at least, on which no name is stepped through twice, and none of those
that are closed. -/
structure IsLong (w : Walker) (closed : List String) (steps : Nat) (t : Descriptor)
    (places : List Nat) (names : List String) : Prop where
  way : ∃ u, w.Way t places names u
  distinct : names.Nodup
  outside : ∀ name ∈ names, name ∉ closed
  long : steps ≤ places.length

/-- The first of the long ways: a walk comes to no other before it. -/
structure IsFirstLong (w : Walker) (closed : List String) (steps : Nat) (t : Descriptor)
    (places : List Nat) (names : List String) : Prop extends
    w.IsLong closed steps t places names where
  first : ∀ others otherNames, w.IsLong closed steps t others otherNames →
    ¬List.Lex (· < ·) others places

variable {w : Walker}

namespace IsLong

variable {closed : List String} {steps : Nat}

theorem of_definition {name : String} {target : Descriptor} {places : List Nat}
    {names : List String} (data : w.isEligible name = true)
    (found : w.model.definitions[name]? = some target) (open_ : name ∉ closed)
    (rest : w.IsLong (closed ++ [name]) steps target places names) :
    w.IsLong closed (steps + 1) (.ref name) (0 :: places) (name :: names) := by
  obtain ⟨u, way⟩ := rest.way
  have fresh : name ∉ names := fun inside => rest.outside name inside (by simp)
  refine ⟨⟨u, .definition data found way⟩, List.nodup_cons.mpr ⟨fresh, rest.distinct⟩, ?_, ?_⟩
  · intro other inside
    rcases List.mem_cons.mp inside with rfl | later
    · exact open_
    · intro shut
      exact rest.outside other later (List.mem_append_left _ shut)
  · have length := rest.long
    rw [List.length_cons]
    omega

theorem of_part {t part : Descriptor} {place : Nat} {places : List Nat} {names : List String}
    (taken : t.components[place]? = some part) (rest : w.IsLong closed steps part places names) :
    w.IsLong closed (steps + 1) t (place :: places) names := by
  obtain ⟨u, way⟩ := rest.way
  refine ⟨⟨u, .part taken way⟩, rest.distinct, rest.outside, ?_⟩
  have length := rest.long
  rw [List.length_cons]
  omega

theorem through_definition {name : String} {places : List Nat} {names : List String}
    (isLong : w.IsLong closed (steps + 1) (.ref name) places names) :
    name ∉ closed ∧ w.isEligible name = true ∧ ∃ target places' names',
      w.model.definitions[name]? = some target ∧ places = 0 :: places' ∧ names = name :: names' ∧
        w.IsLong (closed ++ [name]) steps target places' names' := by
  obtain ⟨⟨u, way⟩, distinct, outside, long⟩ := isLong
  cases way with
  | stay => cases long
  | part taken rest => cases taken
  | @definition _ target _ places' names' data found rest =>
      obtain ⟨fresh, distinct⟩ := List.nodup_cons.mp distinct
      refine ⟨outside name List.mem_cons_self, data, target, places', names', found, rfl, rfl, ?_⟩
      refine ⟨⟨u, rest⟩, distinct, ?_, Nat.le_of_succ_le_succ long⟩
      intro other inside shut
      rcases List.mem_append.mp shut with old | new
      · exact outside other (List.mem_cons_of_mem _ inside) old
      · obtain rfl := List.mem_singleton.mp new
        exact fresh inside

theorem through_part {t : Descriptor} (unnamed : ∀ name, t ≠ .ref name) {places : List Nat}
    {names : List String} (isLong : w.IsLong closed (steps + 1) t places names) :
    ∃ place part places', t.components[place]? = some part ∧ places = place :: places' ∧
      w.IsLong closed steps part places' names := by
  obtain ⟨⟨u, way⟩, distinct, outside, long⟩ := isLong
  cases way with
  | stay => cases long
  | @part _ part _ place places' _ taken rest =>
      refine ⟨place, part, places', taken, rfl, ?_⟩
      exact ⟨⟨u, rest⟩, distinct, outside, Nat.le_of_succ_le_succ long⟩
  | definition => exact absurd rfl (unnamed _)

end IsLong

/-- A guarded walk that is done leaves no way of as many steps as there is room. -/
theorem not_isLong_of_walk_eq_done {room : Nat} {expanding : List String} {t : Descriptor}
    {g after : Gathering} (done : w.walk room expanding t g = .done after) {places : List Nat}
    {names : List String} : ¬w.IsLong expanding room t places names := by
  induction room generalizing expanding t g after places names with
  | zero => cases done
  | succ room ih =>
      intro isLong
      by_cases named : ∃ name, t = .ref name
      · obtain ⟨name, rfl⟩ := named
        obtain ⟨outside, data, target, _, _, found, -, -, rest⟩ := isLong.through_definition
        rcases w.walk_ref_eq_done done with ⟨-, inside, -⟩ | ⟨foreign, -⟩ | ⟨-, middle, -, walked⟩
        · exact outside inside
        · rw [foreign] at data
          cases data
        · rw [found] at walked
          exact ih walked rest
      · have unnamed : ∀ name, t ≠ .ref name := fun name same => named ⟨name, same⟩
        obtain ⟨place, part, _, taken, -, rest⟩ := isLong.through_part unnamed
        rw [w.walk_of_ne_ref unnamed] at done
        obtain ⟨before, later, walked⟩ :=
          exists_done_of_walkAll done (List.mem_of_getElem? taken)
        exact ih walked rest

theorem exists_record_eq_done (skips : w.settings.policy = .skipEntry) (name : String)
    (g : Gathering) : ∃ after, w.record name g = .done after := by
  unfold record
  cases w.source name w.model with
  | ok raw => exact ⟨_, rfl⟩
  | error cause =>
      simp only [skips]
      exact ⟨_, rfl⟩

/-- What a guarded walk at a name did, if it failed: it went into the definition of a data type that
is not being walked, and failed there. -/
theorem walk_ref_eq_failed (guarded : w.settings.cycleGuard = true)
    (skips : w.settings.policy = .skipEntry) {room : Nat} {expanding : List String} {name : String}
    {fault : Fault} {g after : Gathering}
    (failed : w.walk (room + 1) expanding (.ref name) g = .failed fault after) :
    name ∉ expanding ∧ w.isEligible name = true ∧ ∃ target middle,
      w.model.definitions[name]? = some target ∧
        w.walk room (expanding ++ [name]) target middle = .failed fault after := by
  unfold walk at failed
  rw [guarded, Bool.true_and] at failed
  split at failed
  · cases failed
  · rename_i outside
    split at failed
    · cases failed
    · rename_i eligible
      obtain ⟨middle, recorded⟩ := exists_record_eq_done skips name g
      rw [recorded, Walked.andThen] at failed
      refine ⟨by simpa using outside, by simpa using eligible, ?_⟩
      cases found : w.model.definitions[name]? with
      | none =>
          simp only [found] at failed
          cases failed
      | some target =>
          simp only [found] at failed
          exact ⟨target, middle, rfl, failed⟩

/-- A guarded walk that fails has come to the end of the first way of as many steps as there was
room. -/
theorem isFirstLong_of_walk_eq_failed (guarded : w.settings.cycleGuard = true)
    (skips : w.settings.policy = .skipEntry) {room : Nat} {expanding : List String} {t : Descriptor}
    {fault : Fault} {g after : Gathering}
    (failed : w.walk room expanding t g = .failed fault after) :
    ∃ places names, w.IsFirstLong expanding room t places names ∧
      fault = .depthExceeded ((expanding ++ names).head?.getD "") := by
  induction room generalizing expanding t g with
  | zero =>
      cases failed
      refine ⟨[], [], ⟨⟨⟨t, .stay t⟩, List.nodup_nil, ?_, Nat.le_refl 0⟩, ?_⟩, ?_⟩
      · intro name inside
        cases inside
      · intro others _ _ before
        cases before
      · rw [List.append_nil]
  | succ room ih =>
      by_cases named : ∃ name, t = .ref name
      · obtain ⟨name, rfl⟩ := named
        obtain ⟨outside, data, target, middle, found, walked⟩ :=
          walk_ref_eq_failed guarded skips failed
        obtain ⟨places, names, ⟨isLong, first⟩, root⟩ := ih walked
        refine ⟨0 :: places, name :: names, ⟨isLong.of_definition data found outside, ?_⟩, ?_⟩
        · intro others otherNames other before
          obtain ⟨-, -, target', places', names', found', rfl, -, rest⟩ := other.through_definition
          obtain rfl : target = target' := by simpa [found] using found'
          cases before with
          | cons below => exact first places' names' rest below
          | rel less => exact Nat.lt_irrefl 0 less
        · rw [root, List.append_assoc, List.singleton_append]
      · have unnamed : ∀ name, t ≠ .ref name := fun name same => named ⟨name, same⟩
        rw [w.walk_of_ne_ref unnamed] at failed
        obtain ⟨place, part, before, taken, walked, earlier⟩ := exists_failed_of_walkAll failed
        obtain ⟨places, names, ⟨isLong, first⟩, root⟩ := ih walked
        refine ⟨place :: places, names, ⟨isLong.of_part taken, ?_⟩, root⟩
        intro others otherNames other before
        obtain ⟨place', part', places', taken', rfl, rest⟩ := other.through_part unnamed
        cases before with
        | cons below =>
            obtain rfl : part = part' := by simpa [taken] using taken'
            exact first places' otherNames rest below
        | rel less =>
            -- The walk was done with this part, so no long way goes through it.
            obtain ⟨_, _, done⟩ := earlier place' part' less taken'
            exact not_isLong_of_walk_eq_done done rest

theorem walk_eq_done_of_le {room more : Nat} (wider : room ≤ more) {expanding : List String}
    {t : Descriptor} {g after : Gathering} (done : w.walk room expanding t g = .done after) :
    w.walk more expanding t g = .done after := by
  induction room generalizing more expanding t g after with
  | zero => cases done
  | succ room ih =>
      obtain ⟨more, rfl⟩ : ∃ further, more = further + 1 := ⟨more - 1, by omega⟩
      have wider : room ≤ more := Nat.le_of_succ_le_succ wider
      by_cases named : ∃ name, t = .ref name
      · obtain ⟨name, rfl⟩ := named
        unfold walk at done ⊢
        split at done
        · rename_i inside
          rw [if_pos inside]
          exact done
        · rename_i outside
          rw [if_neg outside]
          split at done
          · rename_i foreign
            rw [if_pos foreign]
            exact done
          · rename_i data
            rw [if_neg data]
            obtain ⟨middle, recorded, rest⟩ := Walked.andThen_eq_done_iff.mp done
            refine Walked.andThen_eq_done_iff.mpr ⟨middle, recorded, ?_⟩
            cases found : w.model.definitions[name]? with
            | none => simpa only [found] using rest
            | some target =>
                simp only [found] at rest ⊢
                exact ih wider rest
      · have unnamed : ∀ name, t ≠ .ref name := fun name same => named ⟨name, same⟩
        rw [w.walk_of_ne_ref unnamed] at done ⊢
        exact walkAll_done_of_done (fun part _ g after walked => ih wider walked) done

def withDepth (w : Walker) (depth : Nat) : Walker :=
  { w with settings := { w.settings with maxDepth := depth } }

theorem gather_withDepth (w : Walker) (depth : Nat) (t : Descriptor) (g : Gathering) :
    (w.withDepth depth).gather t g = w.walk (min depth Settings.depthLimit + 1) [] t g := by
  have model : (w.withDepth depth).model = w.model := rfl
  exact walk_congr model rfl (fun _ _ _ => rfl) _ [] t g

variable (w)

/-- With the guard, and with types without a schema skipped, gathering fails exactly if a way of
more steps than the depth steps through no name twice, and the fault names the first name on the
first such way. What is gathered at some depth is gathered at every greater one, and from the limit
on the depth makes no difference. -/
theorem gather_depth (guarded : w.settings.cycleGuard = true)
    (skips : w.settings.policy = .skipEntry) (t : Descriptor) (g : Gathering) :
    ((∃ fault after, w.gather t g = .failed fault after) ↔
      ∃ places names, w.IsLong [] (min w.settings.maxDepth 1024 + 1) t places names) ∧
    (∀ fault after, w.gather t g = .failed fault after →
      ∃ places names, w.IsFirstLong [] (min w.settings.maxDepth 1024 + 1) t places names ∧
        fault = .depthExceeded (names.head?.getD "")) ∧
    (∀ depth more, depth ≤ more → ∀ after, (w.withDepth depth).gather t g = .done after →
      (w.withDepth more).gather t g = .done after) ∧
    ∀ depth, 1024 ≤ depth → (w.withDepth depth).gather t g = (w.withDepth 1024).gather t g := by
  have fails : ∀ fault after, w.gather t g = .failed fault after →
      ∃ places names, w.IsFirstLong [] (min w.settings.maxDepth 1024 + 1) t places names ∧
        fault = .depthExceeded (names.head?.getD "") := by
    intro fault after failed
    exact isFirstLong_of_walk_eq_failed guarded skips failed
  refine ⟨⟨?_, ?_⟩, fails, ?_, ?_⟩
  · rintro ⟨fault, after, failed⟩
    obtain ⟨places, names, first, -⟩ := fails fault after failed
    exact ⟨places, names, first.toIsLong⟩
  · rintro ⟨places, names, isLong⟩
    cases gathered : w.gather t g with
    | failed fault after => exact ⟨fault, after, rfl⟩
    | done after => exact absurd isLong (not_isLong_of_walk_eq_done gathered)
  · intro depth more deeper after done
    rw [gather_withDepth] at done ⊢
    have wider : min depth Settings.depthLimit + 1 ≤ min more Settings.depthLimit + 1 := by omega
    exact walk_eq_done_of_le wider done
  · intro depth deep
    have limited : min depth Settings.depthLimit = min 1024 Settings.depthLimit := by
      rw [Settings.depthLimit]
      omega
    rw [gather_withDepth, gather_withDepth, limited]

/-- Trees can be gathered two steps deep. One step deep, the walk fails inside their definition,
where it comes to the name again. -/
theorem gather_depth_trees :
    let start := Gathering.ofCatalog []
    (∃ after,
        (trees.withDepth 1).gather (.ref "Tree") start = .failed (.depthExceeded "Tree") after) ∧
      ∃ after, (trees.withDepth 2).gather (.ref "Tree") start = .done after := by
  intro start
  have data (depth : Nat) : (trees.withDepth depth).isEligible "Tree" = true :=
    (trees.model.definitions.isSubtypeOf_anydata (.ref "Tree")).trans (by cbv)
  have found (depth : Nat) : (trees.withDepth depth).model.definitions["Tree"]? =
      some (.array (.ref "Tree")) := by
    rw [show (trees.withDepth depth).model = trees.model from rfl]
    cbv
  constructor
  · obtain ⟨⟨-, fails⟩, names, -⟩ := (trees.withDepth 1).gather_depth rfl rfl (.ref "Tree") start
    have inside : (trees.withDepth 1).IsLong ["Tree"] 1 (.array (.ref "Tree")) [0] [] :=
      ⟨⟨_, .part rfl (.stay _)⟩, List.nodup_nil, by simp, Nat.le_refl 1⟩
    have isLong : (trees.withDepth 1).IsLong [] 2 (.ref "Tree") [0, 0] ["Tree"] :=
      .of_definition (data 1) (found 1) List.not_mem_nil inside
    obtain ⟨fault, after, failed⟩ := fails ⟨_, _, isLong⟩
    obtain ⟨places, passed, first, rfl⟩ := names fault after failed
    obtain ⟨-, -, _, _, rest, -, -, rfl, -⟩ := first.toIsLong.through_definition
    exact ⟨after, failed⟩
  · obtain ⟨⟨fails, -⟩, -⟩ := (trees.withDepth 2).gather_depth rfl rfl (.ref "Tree") start
    cases gathered : (trees.withDepth 2).gather (.ref "Tree") start with
    | done after => exact ⟨after, rfl⟩
    | failed fault after =>
        -- The third step would go through the name a second time.
        obtain ⟨places, passed, isLong⟩ := fails ⟨fault, after, gathered⟩
        obtain ⟨-, -, target, _, _, opened, -, -, inner⟩ := isLong.through_definition
        obtain rfl : .array (.ref "Tree") = target := by simpa [found 2] using opened
        obtain ⟨place, part, _, taken, -, last⟩ := inner.through_part (by simp)
        obtain rfl : .ref "Tree" = part := by
          cases place with
          | zero => simpa [Descriptor.components] using taken
          | succ place => simp [Descriptor.components] at taken
        obtain ⟨closed, -⟩ := last.through_definition
        exact absurd (by simp) closed

end Walker

end SchemaWeaver
