import SchemaWeaver.Proofs.Gather.Coverage
import SchemaWeaver.Proofs.Marking
import SchemaWeaver.Proofs.Schema.Availability
import SchemaWeaver.Proofs.Schema.Literal

/-!
Which texts of a catalog are mapping literals. A walk counts types and a literal counts containers,
so a walk can be done and leave a text behind that no literal can be read from. Its definition then
gets no mark.
-/

set_option autoImplicit false
set_option relaxedAutoImplicit false

namespace SchemaWeaver

open Source (literalRoom readMapping TypeDef)

namespace Walker

variable {w : Walker}

theorem get?_of_mem_catalog {catalog : Catalog} (sound : w.Consistent catalog)
    {name text : String} (member : (name, text) ∈ catalog) :
    Keyed.get? catalog name = some text := by
  obtain ⟨found, same⟩ := Keyed.exists_get?_of_mem member
  have first := (sound name found (Keyed.mem_of_get? same)).1
  have second := (sound name text member).1
  rw [same, first.unique second]

/-- If gathering from a type is done, every text of the catalog is the canonical text of the schema
of its name. It is a mapping literal exactly if the containers of that schema nest no deeper than
those of a literal may, and else it is refused for its depth. A definition of that name which bears
no mark yet gets one in the first case only. -/
theorem gather_readMapping_iff {model : Model} {settings : Settings} {t : Descriptor}
    {g : Gathering}
    (done : (Walker.mk model Schema.ofModel settings).gather t (Gathering.ofCatalog []) = .done g)
    {name text : String} (member : (name, text) ∈ g.catalog) :
    ∃ raw, Schema.ofName model.definitions name = .ok raw ∧ text = Schema.canonicalText raw ∧
      ((∃ literal, readMapping text.toList = .ok literal) ↔
        (Schema.canonical raw).nesting ≤ literalRoom) ∧
      (literalRoom < (Schema.canonical raw).nesting → ∃ failure,
        readMapping text.toList = .error (.unreadable text.toList failure) ∧
          failure.fault = .tooDeep) ∧
      ∀ (qualifier : String) (d : TypeDef), d.name = name →
        (Marker.mk g.catalog qualifier).isMarked d = false →
          ((Marker.mk g.catalog qualifier).isMarking d = true ↔
            (Schema.canonical raw).nesting ≤ literalRoom) := by
  have start : (Walker.mk model Schema.ofModel settings).Consistent [] := by
    intro name text member
    cases member
  have sound := (consistent_of_walk_eq_done _ start done).1
  obtain ⟨raw, mapped, rfl⟩ := (sound name text member).1.mapped
  obtain ⟨read, refused⟩ := (Schema.isRaw_ofType _ mapped).readMapping_canonicalText
  have readable : (∃ literal, readMapping (Schema.canonicalText raw).toList = .ok literal) ↔
      (Schema.canonical raw).nesting ≤ literalRoom := by
    refine ⟨fun literal => ?_, read⟩
    by_contra deep
    obtain ⟨failure, refusal, -⟩ := refused (Nat.not_le.mp deep)
    obtain ⟨literal, accepted⟩ := literal
    rw [refusal] at accepted
    cases accepted
  refine ⟨raw, mapped, rfl, readable, refused, ?_⟩
  rintro qualifier d rfl unmarked
  have listed := get?_of_mem_catalog sound member
  rw [← readable, Marker.isMarking_eq_true_iff]
  constructor
  · rintro ⟨schema, due⟩
    obtain ⟨text, found, -, accepted⟩ := (Marker.verdict_eq_mark_iff _).mp due
    cases listed.symm.trans found
    exact ⟨schema, accepted⟩
  · rintro ⟨literal, accepted⟩
    exact ⟨literal, (Marker.verdict_eq_mark_iff _).mpr ⟨_, listed, unmarked, accepted⟩⟩

/-! ## Arrays of arrays -/

/-- Strings inside a number of arrays. -/
def arrays : Nat → Descriptor
  | 0 => .scalar .string
  | n + 1 => .array (arrays n)

def arraySchema : Nat → Json
  | 0 => Schema.typed "string"
  | n + 1 => Schema.ofArray (arraySchema n)

def deep (n : Nat) : Walker :=
  ⟨⟨Definitions.ofList [("Deep", arrays n)], [], [], []⟩, Schema.ofModel, Settings.standard⟩

theorem ofType_arrays (defs fresh : Definitions) (n : Nat) :
    Schema.ofType defs fresh (arrays n) = .ok (arraySchema n) := by
  induction n with
  | zero => rw [arrays, Schema.ofType, arraySchema, Schema.ofScalar]
  | succ n ih =>
      rw [arrays, Schema.ofType, ih]
      rfl

theorem nesting_canonical_arraySchema (n : Nat) :
    (Schema.canonical (arraySchema n)).nesting = n + 1 := by
  induction n with
  | zero =>
      have form := Schema.canonical_flag_typed false "string"
      rw [Schema.flag, if_neg Bool.false_ne_true] at form
      rw [arraySchema, form]
      decide
  | succ n ih =>
      have form := Schema.canonical_flag_ofArray false (arraySchema n)
      rw [Schema.flag, if_neg Bool.false_ne_true] at form
      rw [arraySchema, form, Json.nesting]
      simp [Json.nestingOfEntries, Schema.typeOrNull, Json.nesting, ih]

theorem walk_arrays (w : Walker) {n room : Nat} (inside : n < room) (expanding : List String)
    (g : Gathering) : w.walk room expanding (arrays n) g = .done g := by
  obtain ⟨room, rfl⟩ : ∃ r, room = r + 1 := ⟨room - 1, by omega⟩
  induction n generalizing room with
  | zero => rfl
  | succ n ih =>
      obtain ⟨room, rfl⟩ : ∃ r, room = r + 1 := ⟨room - 1, by omega⟩
      rw [arrays, w.walk_of_ne_ref (by simp), Descriptor.components, walkAll,
        ih room (by omega)]
      rfl

theorem definitions_deep (n : Nat) : (deep n).model.definitions["Deep"]? = some (arrays n) := by
  simp [deep, Definitions.ofList]

theorem ofName_deep (n : Nat) :
    Schema.ofName (deep n).model.definitions "Deep" = .ok (arraySchema n) := by
  rw [Schema.ofName, Schema.ofType_of_found (definitions_deep n)]
  exact ofType_arrays _ _ n

theorem isEligible_deep (n : Nat) : (deep n).isEligible "Deep" = true := by
  rw [isEligible, Model.isSubtypeOf, ← Schema.isOk_ofName, ofName_deep]
  rfl

def deepGathering (n : Nat) : Gathering :=
  ((Gathering.ofCatalog []).ask "Deep").write "Deep" (Schema.canonicalText (arraySchema n))

theorem mem_deepGathering (n : Nat) :
    ("Deep", Schema.canonicalText (arraySchema n)) ∈ (deepGathering n).catalog :=
  List.mem_singleton_self _

theorem gather_deep {n : Nat} (inside : n < 128) :
    (deep n).gather (.ref "Deep") (Gathering.ofCatalog []) = .done (deepGathering n) := by
  have mapped : (deep n).source "Deep" (deep n).model = .ok (arraySchema n) := ofName_deep n
  have recorded : (deep n).record "Deep" (Gathering.ofCatalog []) = .done (deepGathering n) := by
    rw [record, mapped]
    rfl
  have room : (deep n).settings.walkDepth + 1 = 128 + 1 := rfl
  rw [gather, room, walk, isEligible_deep, recorded]
  simp only [List.not_mem_nil, decide_false, Bool.and_false, Bool.false_eq_true, if_false,
    Bool.not_true, Walked.andThen, definitions_deep]
  exact walk_arrays _ inside _ _

/-- The deepest arrays whose schema is a literal. -/
theorem gather_readMapping_deep :
    (deep 126).gather (.ref "Deep") (Gathering.ofCatalog []) = .done (deepGathering 126) ∧
      ∃ text, ("Deep", text) ∈ (deepGathering 126).catalog ∧
        ∃ literal, readMapping text.toList = .ok literal := by
  have done := gather_deep (show 126 < 128 by decide)
  have member := mem_deepGathering 126
  obtain ⟨raw, mapped, -, readable, -, -⟩ := gather_readMapping_iff done member
  cases (ofName_deep 126).symm.trans mapped
  refine ⟨done, _, member, readable.mpr ?_⟩
  rw [nesting_canonical_arraySchema]
  decide

/-- One array more, and the walk is still done, but the text that it lists is no literal. -/
theorem exists_not_readMapping_deep :
    (deep 127).gather (.ref "Deep") (Gathering.ofCatalog []) = .done (deepGathering 127) ∧
      ∃ text, ("Deep", text) ∈ (deepGathering 127).catalog ∧
        ∀ literal, readMapping text.toList ≠ .ok literal := by
  refine ⟨gather_deep (by decide), _, mem_deepGathering 127, fun literal accepted => ?_⟩
  have raw := Schema.isRaw_ofType _ (ofType_arrays ∅ ∅ 127)
  have depth : literalRoom < (Schema.canonical (arraySchema 127)).nesting := by
    rw [nesting_canonical_arraySchema]
    decide
  obtain ⟨failure, refusal, -⟩ := raw.readMapping_canonicalText.2 depth
  rw [refusal] at accepted
  cases accepted

end Walker

end SchemaWeaver
