import SchemaWeaver.Proofs.Json.Reading
import SchemaWeaver.Source.Text

/-!
JSON text as a mapping literal, and the literal as source text again. The two printers lay values
out alike and differ only in some control characters, for which the source takes more room than
JSON does. So two texts can be compared by their lengths, part by part.
-/

set_option autoImplicit false
set_option relaxedAutoImplicit false

namespace SchemaWeaver.Source

open Text (join isControl)

/-- A text that is at least as long as another one, and the same under a condition. -/
structure Widens (narrow wide : List Char) (same : Prop) : Prop where
  length_le : narrow.length ≤ wide.length
  eq_iff : wide = narrow ↔ same

namespace Widens

theorem refl (cs : List Char) : Widens cs cs True :=
  ⟨Nat.le_refl _, by simp⟩

theorem of_iff {narrow wide : List Char} {same other : Prop} (widens : Widens narrow wide same)
    (iff : same ↔ other) : Widens narrow wide other :=
  ⟨widens.length_le, widens.eq_iff.trans iff⟩

theorem append {narrow wide narrow' wide' : List Char} {same same' : Prop}
    (first : Widens narrow wide same) (second : Widens narrow' wide' same') :
    Widens (narrow ++ narrow') (wide ++ wide') (same ∧ same') := by
  have le := first.length_le
  have le' := second.length_le
  constructor
  · rw [List.length_append, List.length_append]
    omega
  · rw [← first.eq_iff, ← second.eq_iff]
    constructor
    · intro whole
      have total := congrArg List.length whole
      rw [List.length_append, List.length_append] at total
      exact List.append_inj whole (by omega)
    · rintro ⟨rfl, rfl⟩
      rfl

theorem cons (c : Char) {narrow wide : List Char} {same : Prop} (widens : Widens narrow wide same) :
    Widens (c :: narrow) (c :: wide) same :=
  ((refl [c]).append widens).of_iff (by simp)

section Lists

variable {α : Type} {narrow wide : α → List Char} {same : α → Prop}

theorem flatMap {xs : List α} (each : ∀ a ∈ xs, Widens (narrow a) (wide a) (same a)) :
    Widens (xs.flatMap narrow) (xs.flatMap wide) (∀ a ∈ xs, same a) := by
  induction xs with
  | nil => exact (refl []).of_iff (by simp)
  | cons a xs ih =>
      rw [List.forall_mem_cons] at each
      rw [List.flatMap_cons, List.flatMap_cons]
      exact (each.1.append (ih each.2)).of_iff List.forall_mem_cons.symm

theorem join {xs : List α} (each : ∀ a ∈ xs, Widens (narrow a) (wide a) (same a)) :
    Widens (join [','] (xs.map narrow)) (join [','] (xs.map wide)) (∀ a ∈ xs, same a) := by
  induction xs with
  | nil => exact (refl []).of_iff (by simp)
  | cons a xs ih =>
      rw [List.forall_mem_cons] at each
      cases xs with
      | nil => exact each.1.of_iff (by simp)
      | cons b xs =>
          exact (each.1.append ((ih each.2).cons ',')).of_iff List.forall_mem_cons.symm

end Lists

end Widens

/-- A character that both printers write alike. -/
def IsPlain (c : Char) : Prop :=
  isControl c = true → c = '\n' ∨ c = '\r' ∨ c = '\t'

theorem widens_escaped (c : Char) : Widens (Json.escaped c) (escaped c) (IsPlain c) := by
  by_cases plain : IsPlain c
  · have same : escaped c = Json.escaped c := by
      by_cases control : isControl c = true
      · rcases plain control with rfl | rfl | rfl <;> rfl
      · have high : ¬c.toNat < 0x20 := by
          intro low
          simp [isControl] at control
          omega
        have other {d : Char} (low : d.toNat < 0x20) : c ≠ d := by
          rintro rfl
          exact high low
        simp [escaped, Json.escaped, control, high, other (d := '\x08') (by decide),
          other (d := '\x0c') (by decide)]
    exact ⟨Nat.le_of_eq (congrArg List.length same.symm), by simp [same, plain]⟩
  · -- Eight characters stand against six at most.
    obtain ⟨control, line, carriage, tab⟩ :
        isControl c = true ∧ c ≠ '\n' ∧ c ≠ '\r' ∧ c ≠ '\t' := by
      simpa [IsPlain] using plain
    have quote : c ≠ '"' := by
      rintro rfl
      cases control
    have slash : c ≠ '\\' := by
      rintro rfl
      cases control
    have wide : (escaped c).length = 8 := by
      simp [escaped, quote, slash, line, carriage, tab, control]
    have narrow : (Json.escaped c).length ≤ 6 := by
      unfold Json.escaped
      split_ifs <;> simp
    refine ⟨by omega, fun same => ?_, fun holds => absurd holds plain⟩
    rw [same] at wide
    omega

theorem widens_quoted (s : String) :
    Widens (Json.quoted s) (quoted s) (∀ c ∈ s.toList, IsPlain c) := by
  have inner := Widens.flatMap fun c (_ : c ∈ s.toList) => widens_escaped c
  exact ((inner.append (Widens.refl ['"'])).cons '"').of_iff (by simp)

theorem itemTexts_itemsOfJson (items : List Json) :
    Expr.itemTexts (itemsOfJson items) = items.map fun v => (Expr.ofJson v).text := by
  induction items with
  | nil => rfl
  | cons v rest ih => rw [itemsOfJson, Expr.itemTexts, ih, List.map_cons]

theorem fieldTexts_fieldsOfJson (entries : List (String × Json)) :
    Expr.fieldTexts (fieldsOfJson entries) =
      entries.map fun entry => quoted entry.1 ++ ':' :: (Expr.ofJson entry.2).text := by
  induction entries with
  | nil => rfl
  | cons entry rest ih => rw [fieldsOfJson, Expr.fieldTexts, ih, List.map_cons]

/-- The source text of a value is its JSON text if all characters of its keys and strings are
written alike. -/
theorem widens_text (v : Json) :
    Widens v.compact (Expr.ofJson v).text (∀ s ∈ v.texts, ∀ c ∈ s.toList, IsPlain c) := by
  induction v using Json.inductionOn with
  | null => exact (Widens.refl _).of_iff (by simp [Json.texts, Json.parts, Json.ownTexts])
  | bool b =>
      cases b <;> exact (Widens.refl _).of_iff (by simp [Json.texts, Json.parts, Json.ownTexts])
  | num n =>
      rw [Json.compact, Expr.ofJson, Expr.text_literal, Literal.text, String.toList_ofList]
      exact (Widens.refl _).of_iff (by simp [Json.texts, Json.parts, Json.ownTexts])
  | str s =>
      rw [Json.compact, Expr.ofJson, Expr.text_literal, Literal.text]
      exact (widens_quoted s).of_iff (by simp [Json.texts, Json.parts, Json.ownTexts])
  | arr items ih =>
      rw [Json.compact, Expr.ofJson, Expr.text_list, Json.compactItems_eq, itemTexts_itemsOfJson,
        Json.texts_arr]
      refine (((Widens.join ih).cons '[').append (Widens.refl [']'])).of_iff ?_
      rw [and_true, List.forall_mem_flatMap]
  | obj entries ih =>
      rw [Json.compact, Expr.ofJson, Expr.text_mapping, Json.compactEntries_eq,
        fieldTexts_fieldsOfJson, Json.texts_obj]
      have each (entry : String × Json) (member : entry ∈ entries) :=
        (widens_quoted entry.1).append ((ih entry member).cons ':')
      refine (((Widens.join each).cons '{').append (Widens.refl ['}'])).of_iff ?_
      rw [and_true, List.forall_mem_append, Keyed.keys, List.forall_mem_map,
        List.forall_mem_flatMap, ← forall₂_and]

/-- JSON text without blanks is a mapping literal, and as source text it is the same again unless a
key or string has a control character other than those that break lines or columns. -/
theorem text_readMapping_compact_iff {entries : List (String × Json)}
    (distinct : ∀ part ∈ (Json.obj entries).parts, part.keysDiffer = true)
    (whole : ∀ part ∈ (Json.obj entries).parts, part.isWhole = true)
    (shallow : (Json.obj entries).nesting ≤ literalRoom) :
    ∃ literal, readMapping (Json.obj entries).compact = .ok literal ∧
      (literal.text = (Json.obj entries).compact ↔
        ∀ s ∈ (Json.obj entries).texts, ∀ c ∈ s.toList,
          isControl c = true → c = '\n' ∨ c = '\r' ∨ c = '\t') := by
  have read : Json.read literalRoom (Json.obj entries).compact = .ok (.obj entries) := by
    rw [Json.read_compact whole shallow, Json.merged_eq_self distinct]
  refine ⟨Expr.ofJson (.obj entries), by rw [readMapping, read], ?_⟩
  exact (widens_text (.obj entries)).eq_iff

def rangeSchema : List (String × Json) :=
  [("type", .str "integer"),
    ("enum", .arr [.ofInt (-0x8000000000000000), .ofInt 0xffffffffffffffff, .null]),
    ("x\x7f", .obj [("note", .str "a\tb")])]

theorem text_readMapping_compact_rangeSchema :
    (∀ part ∈ (Json.obj rangeSchema).parts, part.keysDiffer = true) ∧
      (∀ part ∈ (Json.obj rangeSchema).parts, part.isWhole = true) ∧
      (Json.obj rangeSchema).nesting ≤ literalRoom ∧
      ∃ literal, readMapping (Json.obj rangeSchema).compact = .ok literal ∧
        literal.text ≠ (Json.obj rangeSchema).compact := by
  have distinct : ∀ part ∈ (Json.obj rangeSchema).parts, part.keysDiffer = true := by
    decide
  have whole : ∀ part ∈ (Json.obj rangeSchema).parts, part.isWhole = true := by
    decide
  have shallow : (Json.obj rangeSchema).nesting ≤ literalRoom := by
    decide
  obtain ⟨literal, read, printed⟩ := text_readMapping_compact_iff distinct whole shallow
  refine ⟨distinct, whole, shallow, literal, read, fun same => ?_⟩
  have plain := printed.mp same "x\x7f" (by decide) '\x7f' (by decide) (by decide)
  simp at plain

end SchemaWeaver.Source
