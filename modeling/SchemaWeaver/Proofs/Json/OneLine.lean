import SchemaWeaver.Proofs.Json.Grammar
import SchemaWeaver.Proofs.Json.Parts
import SchemaWeaver.Proofs.Json.Tokens
import SchemaWeaver.Proofs.Text.OneLine
import SchemaWeaver.Proofs.Text.Runs

/-!
What the one-line form of an indented text is: text without blanks of the same value, whose keys and
strings have lost three line breaks and then the runs of blanks that touch a mark. Marks and blanks
in quotes are treated like any others; blanks that are written as escapes stay, and stop a run.
-/

set_option autoImplicit false
set_option relaxedAutoImplicit false

namespace SchemaWeaver.Json

open Text

/-! ## Quoted text -/

def isRawBlank (c : Char) : Bool := isBlank c && 0x20 ≤ c.toNat

def isRawBreak (c : Char) : Bool := isLineBreak c && 0x20 ≤ c.toNat

/-- What the one-line form leaves of the characters in quotes. -/
def squeezed (afterMark : Bool) (cs : List Char) : List Char :=
  dropTouching isRawBlank afterMark (cs.filter fun c => !isRawBreak c)

def squeeze (s : String) : String := String.ofList (squeezed false s.toList)

private theorem isSolid_hexDigit :
    ∀ n < 16, isBlank (hexDigit n) = false ∧ isMark (hexDigit n) = false := by
  decide

/-- A character stands in quotes as it is, or as an escape, in which there are no blanks and no
marks. -/
theorem escaped_cases (c : Char) :
    (escaped c = [c] ∧ isRawBlank c = isBlank c ∧ isRawBreak c = isLineBreak c) ∨
      ((∀ d ∈ escaped c, isBlank d = false ∧ isMark d = false) ∧ escaped c ≠ [] ∧
        isRawBlank c = false ∧ isRawBreak c = false ∧ isMark c = false) := by
  unfold escaped
  split_ifs with _ _ _ _ _ _ _ control
  -- Seven characters have an escape of their own.
  iterate 7
    · subst c
      exact Or.inr (by simp [isBlank, isMark, isRawBlank, isRawBreak, isLineBreak])
  · refine Or.inr ⟨?_, by simp, ?_, ?_, ?_⟩
    · have high := isSolid_hexDigit (c.toNat / 16) (by omega)
      have low := isSolid_hexDigit (c.toNat % 16) (by omega)
      simp only [List.forall_mem_cons]
      exact ⟨by decide, by decide, by decide, by decide, high, low, by simp⟩
    · simp [isRawBlank, control]
    · simp [isRawBreak, control]
    · by_contra mark
      simp only [isMark, Bool.or_eq_true, decide_eq_true_eq, Bool.not_eq_false] at mark
      rcases mark with ((((rfl | rfl) | rfl) | rfl) | rfl) | rfl <;> revert control <;> decide
  · exact Or.inl ⟨rfl, by simp [isRawBlank, Nat.not_lt.mp control],
      by simp [isRawBreak, Nat.not_lt.mp control]⟩

private theorem opensWithMark_flatMap_escaped (s cs : List Char) :
    opensWithMark isBlank ((s.flatMap escaped ++ '"' :: cs).filter fun c => !isLineBreak c) =
      opensWithMark isRawBlank (s.filter fun c => !isRawBreak c) := by
  induction s with
  | nil =>
      rw [List.flatMap_nil, List.nil_append, List.filter_cons_of_pos rfl, opensWithMark_cons]
      rfl
  | cons c s ih =>
      rw [List.flatMap_cons, List.append_assoc]
      rcases escaped_cases c with ⟨same, blank, line⟩ | ⟨solid, filled, blank, line, mark⟩
      · rw [same, List.singleton_append, List.filter_cons, List.filter_cons, line]
        split
        · rw [opensWithMark_cons, opensWithMark_cons, blank, ih]
        · exact ih
      · obtain ⟨d, ds, same⟩ := List.exists_cons_of_ne_nil filled
        rw [same, List.forall_mem_cons] at solid
        have kept : isLineBreak d = false := isLineBreak_of_not_blank solid.1.1
        rw [same, List.cons_append, List.filter_cons_of_pos (by rw [kept]; rfl),
          opensWithMark_cons, List.filter_cons_of_pos (by rw [line]; rfl), opensWithMark_cons,
          blank, mark, solid.1.1, solid.1.2]
        rfl

theorem oneLineFrom_flatMap_escaped (afterMark : Bool) (s cs : List Char) :
    oneLineFrom afterMark (s.flatMap escaped ++ '"' :: cs) =
      (squeezed afterMark s).flatMap escaped ++ '"' :: oneLineFrom false cs := by
  induction s generalizing afterMark with
  | nil => exact oneLineFrom_cons rfl
  | cons c s ih =>
      rw [List.flatMap_cons, List.append_assoc]
      rcases escaped_cases c with ⟨same, blank, line⟩ | ⟨solid, filled, blank, line, mark⟩
      · have opens := opensWithMark_flatMap_escaped s cs
        rw [same, List.singleton_append, oneLineFrom, squeezed, List.filter_cons, List.filter_cons,
          line]
        split
        · rw [dropTouching, dropTouching, opens, blank]
          split
          · exact ih afterMark
          · rw [List.flatMap_cons, same, List.append_assoc, List.singleton_append]
            exact congrArg _ (ih (isMark c))
        · exact ih afterMark
      · have empty : (escaped c).isEmpty = false := by simpa using filled
        have kept : squeezed afterMark (c :: s) = c :: squeezed false s := by
          simp [squeezed, line, dropTouching, blank, mark]
        rw [oneLineFrom_word_append solid, empty, Bool.and_false, ih, kept, List.flatMap_cons,
          List.append_assoc]

theorem oneLineFrom_quoted_append (afterMark : Bool) (s : String) (cs : List Char) :
    oneLineFrom afterMark (quoted s ++ cs) = quoted (squeeze s) ++ oneLineFrom false cs := by
  rw [quoted_append, quoted_append, oneLineFrom_cons rfl, squeeze, String.toList_ofList,
    ← oneLineFrom_flatMap_escaped]
  rfl

/-! ## Numbers -/

def isNumeral (c : Char) : Bool :=
  isDigit c || c = '-' || c = '+' || c = '.' || c = 'e'

private theorem isBlank_of_isDigit {c : Char} (digit : isDigit c = true) : isBlank c = false := by
  simp only [isDigit, Bool.and_eq_true, decide_eq_true_eq] at digit
  have least : 48 ≤ c.toNat := digit.1
  have greatest : c.toNat ≤ 57 := digit.2
  simp only [isBlank, Bool.or_eq_false_iff, Bool.and_eq_false_iff, decide_eq_false_iff_not,
    beq_eq_false_iff_ne]
  omega

theorem isSolid_of_isNumeral {c : Char} (numeral : isNumeral c = true) :
    isBlank c = false ∧ isMark c = false := by
  simp only [isNumeral, Bool.or_eq_true, decide_eq_true_eq] at numeral
  rcases numeral with (((digit | rfl) | rfl) | rfl) | rfl
  · refine ⟨isBlank_of_isDigit digit, ?_⟩
    have other {d : Char} (sign : isDigit d = false) : c ≠ d := ne_of_isDigit digit sign
    simp only [isMark, Bool.or_eq_false_iff, decide_eq_false_iff_not]
    exact ⟨⟨⟨⟨⟨other rfl, other rfl⟩, other rfl⟩, other rfl⟩, other rfl⟩, other rfl⟩
  all_goals decide

theorem isNumeral_of_mem_decimal {n : Nat} {c : Char} (member : c ∈ decimal n) :
    isNumeral c = true := by
  rw [isNumeral, isDigit_of_mem_decimal member]
  rfl

private theorem forall_isNumeral_write (layout : Numeric.DecimalLayout) (d : Numeric.Decimal) :
    ∀ c ∈ layout.write d, isNumeral c = true := by
  have digits (n : Nat) : ∀ c ∈ decimal n, isNumeral c = true := fun c => isNumeral_of_mem_decimal
  have taken (n k : Nat) : ∀ c ∈ (decimal n).take k, isNumeral c = true :=
    fun c inside => digits n c (List.mem_of_mem_take inside)
  have dropped (n k : Nat) : ∀ c ∈ (decimal n).drop k, isNumeral c = true :=
    fun c inside => digits n c (List.mem_of_mem_drop inside)
  have zeros (k : Nat) : ∀ c ∈ List.replicate k '0', isNumeral c = true := by
    intro c inside
    rw [List.eq_of_mem_replicate inside]
    rfl
  unfold Numeric.DecimalLayout.write
  dsimp only
  split_ifs
  · simp only [List.forall_mem_append]
    exact ⟨⟨by simp [isNumeral, isDigit], zeros _⟩, digits _⟩
  · simp only [List.forall_mem_append]
    exact ⟨⟨digits _, zeros _⟩, by simp [isNumeral, isDigit]⟩
  · simp only [List.forall_mem_append]
    exact ⟨⟨taken _ _, by simp [isNumeral]⟩, dropped _ _⟩
  all_goals
    simp only [List.forall_mem_append]
    refine ⟨⟨⟨taken _ _, ?_⟩, by simp [isNumeral]⟩, digits _⟩
    have tail := dropped d.digits 1
    split
    · simp
    · exact List.forall_mem_cons.mpr ⟨rfl, tail⟩

theorem isNumeral_of_mem_text {n : Number} {c : Char} (member : c ∈ n.text) :
    isNumeral c = true := by
  cases n with
  | int n =>
      rw [Number.text] at member
      split at member
      · rcases List.mem_cons.mp member with rfl | digit
        · rfl
        · exact isNumeral_of_mem_decimal digit
      · exact isNumeral_of_mem_decimal member
  | float x =>
      rw [Number.text, Numeric.Binary64.text] at member
      have sign : ∀ c ∈ (if x.negative then ['-'] else []), isNumeral c = true := by
        split <;> simp [isNumeral]
      split at member
      · rcases List.mem_append.mp member with signed | zero
        · exact sign c signed
        · have digits : ∀ c ∈ ['0', '.', '0'], isNumeral c = true := by
            simp [isNumeral, isDigit]
          exact digits c zero
      · rcases List.mem_append.mp member with signed | written
        · exact sign c signed
        · exact forall_isNumeral_write _ _ c written

/-! ## Indented text -/

private theorem isBlank_of_mem_newline (level : Nat) : ∀ c ∈ newline level, isBlank c = true := by
  intro c member
  rcases List.mem_cons.mp member with rfl | space
  · rfl
  · rw [List.eq_of_mem_replicate space]
    rfl

/-- What the one-line form leaves of a value that is followed by a mark or by nothing. -/
def Flattens (v : Json) : Prop :=
  ∀ level afterMark rest, IsSettled rest →
    oneLineFrom afterMark (prettyOnto level v rest) =
      (v.mapTexts squeeze).compact ++ oneLineFrom true rest

theorem flattens_of_word {v : Json} (word : List Char)
    (solid : ∀ c ∈ word, isBlank c = false ∧ isMark c = false)
    (pretty : ∀ level rest, prettyOnto level v rest = word ++ rest)
    (compact : (v.mapTexts squeeze).compact = word) : Flattens v := by
  intro level afterMark rest settled
  rw [pretty, oneLineFrom_word_append solid, settled, compact]

theorem oneLineFrom_prettyItems {items : List Json} (each : ∀ v ∈ items, Flattens v) (level : Nat)
    {rest : List Char} (settled : IsSettled rest) :
    oneLineFrom true (prettyItems level items rest) =
      join [','] (items.map fun v => (v.mapTexts squeeze).compact) ++ oneLineFrom true rest := by
  induction items with
  | nil => rfl
  | cons v items ih =>
      rw [List.forall_mem_cons] at each
      rw [prettyItems, oneLineFrom_blanks_append (isBlank_of_mem_newline level)]
      cases items with
      | nil =>
          rw [commaBefore, prettyItems, List.nil_append, each.1 level true rest settled]
          rfl
      | cons next items =>
          have comma : IsSettled (',' :: prettyItems level (next :: items) rest) :=
            isSettled_mark rfl
          rw [commaBefore, List.singleton_append, each.1 level true _ comma, oneLineFrom_mark rfl,
            ih each.2]
          simp [join]

theorem oneLineFrom_prettyEntries {entries : List (String × Json)}
    (each : ∀ entry ∈ entries, Flattens entry.2) (level : Nat) {rest : List Char}
    (settled : IsSettled rest) :
    oneLineFrom true (prettyEntries level entries rest) =
      join [','] (entries.map fun entry =>
        compactEntry (squeeze entry.1, entry.2.mapTexts squeeze)) ++ oneLineFrom true rest := by
  induction entries with
  | nil => rfl
  | cons entry entries ih =>
      rw [List.forall_mem_cons] at each
      rw [prettyEntries, oneLineFrom_blanks_append (isBlank_of_mem_newline level),
        oneLineFrom_quoted_append, oneLineFrom_mark rfl, oneLineFrom_blank rfl]
      cases entries with
      | nil =>
          rw [commaBefore, prettyEntries, List.nil_append, each.1 level true rest settled]
          simp [join, compactEntry]
      | cons next entries =>
          have comma : IsSettled (',' :: prettyEntries level (next :: entries) rest) :=
            isSettled_mark rfl
          rw [commaBefore, List.singleton_append, each.1 level true _ comma, oneLineFrom_mark rfl,
            ih each.2]
          simp [join, compactEntry]

theorem flattens (v : Json) : Flattens v := by
  induction v using inductionOn with
  | null =>
      refine flattens_of_word "null".toList (by simp [isBlank, isMark]) (fun _ _ => ?_) rfl
      rw [prettyOnto]
  | bool b =>
      cases b with
      | true =>
          refine flattens_of_word "true".toList (by simp [isBlank, isMark]) (fun _ _ => ?_) rfl
          rw [prettyOnto]
      | false =>
          refine flattens_of_word "false".toList (by simp [isBlank, isMark]) (fun _ _ => ?_) rfl
          rw [prettyOnto]
  | num n =>
      refine flattens_of_word n.text (fun c member => ?_) (fun _ _ => by rw [prettyOnto]) rfl
      exact isSolid_of_isNumeral (isNumeral_of_mem_text member)
  | str s =>
      intro level afterMark rest settled
      rw [prettyOnto, oneLineFrom_quoted_append, settled, mapTexts, compact]
  | arr items ih =>
      intro level afterMark rest settled
      cases items with
      | nil => rw [prettyOnto, oneLineFrom_mark rfl, oneLineFrom_mark rfl]; rfl
      | cons item items =>
          have close : IsSettled (newline level ++ ']' :: rest) :=
            isSettled_blanks_mark (isBlank_of_mem_newline level) rfl
          rw [prettyOnto, oneLineFrom_mark rfl, oneLineFrom_prettyItems ih _ close,
            oneLineFrom_blanks_mark (isBlank_of_mem_newline level) rfl]
          simp [mapTexts, compact, compactItems_eq, mapItemTexts_eq, Function.comp_def]
  | obj entries ih =>
      intro level afterMark rest settled
      cases entries with
      | nil => rw [prettyOnto, oneLineFrom_mark rfl, oneLineFrom_mark rfl]; rfl
      | cons entry entries =>
          have close : IsSettled (newline level ++ '}' :: rest) :=
            isSettled_blanks_mark (isBlank_of_mem_newline level) rfl
          rw [prettyOnto, oneLineFrom_mark rfl, oneLineFrom_prettyEntries ih _ close,
            oneLineFrom_blanks_mark (isBlank_of_mem_newline level) rfl]
          simp [mapTexts, compact, compactEntries_eq, mapEntryTexts_eq, Function.comp_def]

theorem oneLine_pretty (v : Json) : oneLine v.pretty = (v.mapTexts squeeze).compact := by
  have flat := flattens v 0 false [] isSettled_nil
  rw [oneLine_eq_dropTouching]
  exact flat.trans (List.append_nil _)

/-! ## Tightened keys and strings -/

/-- Next line, line separator and paragraph separator. -/
def isSeparator (c : Char) : Bool := c ∈ ['\x85', '\u2028', '\u2029']

/-- The blanks other than tab, line feed, vertical tab, form feed and carriage return. -/
def isInlineBlank (c : Char) : Bool := isBlank c && c ∉ ['\t', '\n', '\x0b', '\x0c', '\r']

/-- A key or string without separators and without the runs of blanks that touch a mark. -/
def tighten (s : String) : String :=
  String.ofList (withoutTouching isInlineBlank (s.toList.filter fun c => !isSeparator c))

private theorem toNat_eq_iff {c d : Char} : c = d ↔ c.toNat = d.toNat :=
  Char.toNat_inj.symm

theorem isRawBreak_eq (c : Char) : isRawBreak c = isSeparator c := by
  rw [Bool.eq_iff_iff]
  simp only [isRawBreak, isLineBreak, isSeparator, Bool.and_eq_true, Bool.or_eq_true,
    decide_eq_true_eq, beq_iff_eq, List.mem_cons, List.not_mem_nil, or_false, toNat_eq_iff,
    Char.reduceToNat]
  omega

theorem isRawBlank_eq (c : Char) : isRawBlank c = isInlineBlank c := by
  rw [Bool.eq_iff_iff]
  simp only [isRawBlank, isBlank, isInlineBlank, Bool.and_eq_true, Bool.or_eq_true,
    decide_eq_true_eq, beq_iff_eq, List.mem_cons, List.not_mem_nil, or_false, toNat_eq_iff,
    Char.reduceToNat]
  omega

theorem squeeze_eq_tighten (s : String) : squeeze s = tighten s := by
  have blank : isRawBlank = isInlineBlank := funext isRawBlank_eq
  have line : isRawBreak = isSeparator := funext isRawBreak_eq
  have apart (c : Char) (inline : isInlineBlank c = true) : isMark c = false :=
    isMark_of_isBlank (Bool.and_eq_true_iff.mp inline).1
  rw [squeeze, squeezed, blank, line, dropTouching_eq_withoutTouching apart, tighten]

/-- The one-line form of the indented text of a value is the text without blanks of the value with
tightened keys and strings: JSON of the same shape, and the value's own text if tightening changes
nothing. -/
theorem oneLine_pretty_eq_compact_tighten (v : Json) :
    oneLine v.pretty = (v.mapTexts tighten).compact ∧ HasShape v (oneLine v.pretty) ∧
      ((∀ s ∈ v.texts, tighten s = s) → oneLine v.pretty = v.compact) := by
  have flat : oneLine v.pretty = (v.mapTexts tighten).compact := by
    rw [oneLine_pretty, funext squeeze_eq_tighten]
  refine ⟨flat, ?_, fun same => ?_⟩
  · rw [flat]
    exact hasShape_compact_mapTexts tighten v
  · rw [flat, mapTexts_eq_self same]

theorem oneLine_pretty_eq_compact_tighten_list :
    tighten "a , b\t, c" = "a,b\t,c" ∧
      (∀ s ∈ (Json.arr [.str "no mark", .obj [("key", .null)]]).texts, tighten s = s) ∧
      oneLine (Json.arr [.str "no mark", .obj [("key", .null)]]).pretty =
        "[\"no mark\",\x7b\"key\":null\x7d]".toList := by
  have same : ∀ s ∈ (Json.arr [.str "no mark", .obj [("key", .null)]]).texts, tighten s = s := by
    decide +kernel
  refine ⟨by cbv, same, ?_⟩
  exact ((oneLine_pretty_eq_compact_tighten _).2.2 same).trans (by cbv)

end SchemaWeaver.Json
