import SchemaWeaver.Proofs.Json.Parts
import SchemaWeaver.Proofs.Json.Tokens

/-!
The grammar of JSON text, and the texts that have the shape of a value: the same nulls, booleans and
numbers in the same lists and objects, with some string wherever the value has a key or a string.
The text of a value without blanks has its shape, whatever its keys and strings are changed to.
-/

set_option autoImplicit false
set_option relaxedAutoImplicit false

namespace SchemaWeaver.Json

open Text (isDigit decimal join)

/-! ## Tokens -/

def IsDigits (cs : List Char) : Prop := cs ≠ [] ∧ ∀ c ∈ cs, isDigit c = true

/-- Digits that do not start with a zero, unless there is no other. -/
inductive IsWhole : List Char → Prop
  | zero : IsWhole ['0']
  | leading {d : Char} {cs : List Char} (digits : IsDigits (d :: cs)) (nonzero : d ≠ '0') :
      IsWhole (d :: cs)

inductive IsFraction : List Char → Prop
  | none : IsFraction []
  | point {cs : List Char} (digits : IsDigits cs) : IsFraction ('.' :: cs)

inductive IsExponent : List Char → Prop
  | none : IsExponent []
  | power {mark : Char} {sign cs : List Char} (marked : mark ∈ ['e', 'E'])
      (signed : sign ∈ [[], ['+'], ['-']]) (digits : IsDigits cs) :
      IsExponent (mark :: (sign ++ cs))

inductive IsNumeral : List Char → Prop
  | parts {sign whole fraction exponent : List Char} (signed : sign ∈ [[], ['-']])
      (units : IsWhole whole) (decimals : IsFraction fraction) (scaled : IsExponent exponent) :
      IsNumeral (sign ++ (whole ++ (fraction ++ exponent)))

def isHexDigit (c : Char) : Bool :=
  isDigit c || ('a' ≤ c && c ≤ 'f') || ('A' ≤ c && c ≤ 'F')

/-- One character between quotes, as it is or escaped. -/
inductive IsLetter : List Char → Prop
  | plain {c : Char} (quote : c ≠ '"') (slash : c ≠ '\\') (visible : 0x20 ≤ c.toNat) : IsLetter [c]
  | escape {c : Char} (known : c ∈ ['"', '\\', '/', 'b', 'f', 'n', 'r', 't']) : IsLetter ['\\', c]
  | unit {a b c d : Char} (digits : ∀ digit ∈ [a, b, c, d], isHexDigit digit = true) :
      IsLetter ['\\', 'u', a, b, c, d]

inductive IsQuoted : List Char → Prop
  | letters {list : List (List Char)} (each : ∀ letter ∈ list, IsLetter letter) :
      IsQuoted ('"' :: list.flatten ++ ['"'])

/-- The texts with the shape of a value. -/
inductive HasShape : Json → List Char → Prop
  | null : HasShape .null "null".toList
  | true : HasShape (.bool true) "true".toList
  | false : HasShape (.bool false) "false".toList
  | num {n : Number} (numeral : IsNumeral n.text) : HasShape (.num n) n.text
  | str {s : String} {text : List Char} (quoted : IsQuoted text) : HasShape (.str s) text
  | arr {items : List Json} {texts : List (List Char)} (count : texts.length = items.length)
      (each : ∀ pair ∈ items.zip texts, HasShape pair.1 pair.2) :
      HasShape (.arr items) ('[' :: join [','] texts ++ [']'])
  | obj {entries : List (String × Json)} {texts : List (List Char × List Char)}
      (count : texts.length = entries.length) (keys : ∀ text ∈ texts, IsQuoted text.1)
      (each : ∀ pair ∈ entries.zip texts, HasShape pair.1.2 pair.2.2) :
      HasShape (.obj entries) ('{' :: join [','] (texts.map fun text => text.1 ++ ':' :: text.2) ++
        ['}'])

/-! ## Strings -/

private theorem isHexDigit_hexDigit : ∀ n < 16, isHexDigit (hexDigit n) = true := by
  decide

theorem isLetter_escaped (c : Char) : IsLetter (escaped c) := by
  unfold escaped
  split_ifs with quote slash _ _ _ _ _ control
  iterate 7 exact .escape (by decide)
  · refine .unit ?_
    have high := isHexDigit_hexDigit (c.toNat / 16) (by omega)
    have low := isHexDigit_hexDigit (c.toNat % 16) (by omega)
    simp only [List.forall_mem_cons]
    exact ⟨by decide, by decide, high, low, by simp⟩
  · exact .plain quote slash (Nat.not_lt.mp control)

theorem isQuoted_quoted (s : String) : IsQuoted (quoted s) := by
  have letters : ∀ letter ∈ s.toList.map escaped, IsLetter letter := by
    intro letter member
    obtain ⟨c, -, rfl⟩ := List.mem_map.mp member
    exact isLetter_escaped c
  rw [quoted, List.flatMap_def]
  exact .letters letters

/-! ## Numbers -/

theorem isDigits_decimal (n : Nat) : IsDigits (decimal n) :=
  ⟨Nat.toDigits_ne_nil, fun _ => isDigit_of_mem_decimal⟩

theorem isWhole_decimal (n : Nat) : IsWhole (decimal n) := by
  rcases Nat.eq_zero_or_pos n with rfl | positive
  · exact .zero
  · obtain ⟨d, digits, same, nonzero⟩ := exists_decimal_eq_cons positive
    have all := isDigits_decimal n
    rw [same] at all ⊢
    exact .leading all nonzero

theorem IsDigits.zeros_append {cs : List Char} (digits : IsDigits cs) (zeros : Nat) :
    IsDigits (List.replicate zeros '0' ++ cs) := by
  refine ⟨List.append_ne_nil_of_right_ne_nil _ digits.1, fun c member => ?_⟩
  rw [List.mem_append, List.mem_replicate] at member
  rcases member with ⟨-, rfl⟩ | inside
  · rfl
  · exact digits.2 c inside

theorem IsDigits.drop {cs : List Char} (digits : IsDigits cs) {k : Nat} (left : k < cs.length) :
    IsDigits (cs.drop k) :=
  ⟨by simpa using left, fun c member => digits.2 c (List.mem_of_mem_drop member)⟩

theorem IsDigits.isWhole_take {cs : List Char} (digits : IsDigits cs) : IsWhole (cs.take 1) := by
  obtain ⟨d, cs, rfl⟩ := List.exists_cons_of_ne_nil digits.1
  have digit : isDigit d = true := digits.2 d List.mem_cons_self
  by_cases zero : d = '0'
  · subst zero
    exact .zero
  · exact .leading ⟨by simp, by simpa using digit⟩ zero

private theorem isWhole_take_append {n k : Nat} (positive : 0 < n) (some : 0 < k) (zeros : Nat) :
    IsWhole ((decimal n).take k ++ List.replicate zeros '0') := by
  obtain ⟨d, digits, same, nonzero⟩ := exists_decimal_eq_cons positive
  obtain ⟨k, rfl⟩ := Nat.exists_eq_add_one.mpr some
  have all := (isDigits_decimal n).2
  rw [same] at all ⊢
  rw [List.take_succ_cons, List.cons_append]
  refine .leading ⟨by simp, fun c member => ?_⟩ nonzero
  rw [← List.cons_append, List.mem_append, List.mem_replicate] at member
  rcases member with inside | ⟨-, rfl⟩
  · rw [← List.take_succ_cons] at inside
    exact all c (List.mem_of_mem_take inside)
  · rfl

end SchemaWeaver.Json

namespace SchemaWeaver.Numeric

open Json Text

/-- A decimal that is zero has no zeros to write after its digit. -/
def Decimal.IsTrim (d : Decimal) : Prop := d.digits = 0 → d.exponent = 0

theorem Decimal.isTrim_strip (d : Decimal) (trim : d.IsTrim) : d.strip.IsTrim := by
  fun_induction strip d with
  | case1 d trailing ih =>
      refine ih fun zero => ?_
      simp only at zero
      omega
  | case2 d => exact trim

namespace Magnitude

theorem digits_ne_zero_of_roundsFrom {a : Magnitude} (positive : a.isZero = false) {d : Decimal}
    (rounds : a.roundsFrom d = true) : d.digits ≠ 0 := by
  intro zero
  have significand : a.significand ≠ 0 := by simpa [isZero] using positive
  have low : 0 < a.roundingEnds.1 := by
    simp only [roundingEnds]
    split <;> omega
  have scale : 0 < Nat.pow 2 (a.exponent - 2).toNat * Nat.pow 10 (-d.exponent).toNat :=
    Nat.mul_pos (Nat.pow_pos (by omega)) (Nat.pow_pos (by omega))
  have least := Nat.mul_pos low scale
  simp only [roundsFrom, zero, Nat.zero_mul] at rounds
  split at rounds
  · simp only [Bool.and_eq_true, decide_eq_true_eq] at rounds
    omega
  · simp only [Bool.and_eq_true, decide_eq_true_eq] at rounds
    omega

theorem mem_of_closer_eq_some {candidates : List (Decimal × Nat)} {d : Decimal}
    (chosen : closer candidates = some d) : ∃ distance, (d, distance) ∈ candidates := by
  unfold closer at chosen
  split at chosen
  · cases chosen
  · cases chosen
    exact ⟨_, List.mem_cons_self⟩
  · split at chosen
    · cases chosen
      exact ⟨_, List.mem_cons_self⟩
    · cases chosen
      exact ⟨_, List.mem_cons_of_mem _ List.mem_cons_self⟩

theorem roundsFrom_of_shortestFrom {a : Magnitude} {order : Int} {count more : Nat} {d : Decimal}
    (found : shortestFrom a order count more = some d) : a.roundsFrom d = true := by
  induction more generalizing count with
  | zero => cases found
  | succ more ih =>
      rw [shortestFrom] at found
      split at found
      · cases found
        obtain ⟨distance, member⟩ := mem_of_closer_eq_some ‹_›
        exact (List.mem_filter.mp member).2
      · exact ih found

theorem isTrim_shortest {a : Magnitude} (positive : a.isZero = false) : a.shortest.IsTrim := by
  unfold shortest
  apply Decimal.isTrim_strip
  cases found : shortestFrom a _ 1 17 with
  | none => exact fun _ => rfl
  | some d =>
      have nonzero := digits_ne_zero_of_roundsFrom positive (roundsFrom_of_shortestFrom found)
      exact fun zero => absurd zero nonzero

end Magnitude

theorem DecimalLayout.exists_write_eq (layout : DecimalLayout) {d : Decimal} (trim : d.IsTrim) :
    ∃ whole fraction exponent, layout.write d = whole ++ (fraction ++ exponent) ∧
      IsWhole whole ∧ IsFraction fraction ∧ IsExponent exponent := by
  have digits := isDigits_decimal d.digits
  have filled : 0 < (decimal d.digits).length := List.length_pos_iff.mpr digits.1
  unfold write
  dsimp only
  generalize place : ((decimal d.digits).length : Int) + d.exponent = point
  split_ifs with positional small large
  · refine ⟨['0'], '.' :: (List.replicate (-point).toNat '0' ++ decimal d.digits), [], ?_, .zero,
      .point (digits.zeros_append _), .none⟩
    rw [List.append_nil, List.append_assoc]
    rfl
  · refine ⟨_, ['.', '0'], [], rfl, ?_, .point (isDigits_decimal 0), .none⟩
    rcases Nat.eq_zero_or_pos d.digits with zero | positive
    · rw [zero, trim zero]
      exact .zero
    · have whole := isWhole_take_append positive filled d.exponent.toNat
      rwa [List.take_length] at whole
  · have positive : 0 < d.digits := by
      refine Nat.pos_of_ne_zero fun zero => ?_
      have := trim zero
      omega
    have whole := isWhole_take_append positive (k := point.toNat) (by omega) 0
    rw [List.replicate_zero, List.append_nil] at whole
    refine ⟨_, '.' :: (decimal d.digits).drop point.toNat, [], ?_, whole, .point (digits.drop ?_),
      .none⟩
    · rw [List.append_nil, List.append_assoc]
      rfl
    · omega
  all_goals
    refine ⟨_, _, _, by simp only [List.append_assoc]; rfl, digits.isWhole_take, ?_,
      .power (by simp) (by simp) (isDigits_decimal _)⟩
    split
    · exact .none
    · exact .point ⟨‹_›, fun c member => digits.2 c (List.mem_of_mem_drop member)⟩

theorem Binary64.isNumeral_text (x : Binary64) : IsNumeral x.text := by
  have signed : (if x.negative then ['-'] else []) ∈ [[], ['-']] := by
    split <;> simp
  unfold text
  dsimp only
  split
  · have point : IsFraction ['.', '0'] := .point (isDigits_decimal 0)
    exact .parts signed .zero point .none
  · obtain ⟨whole, fraction, exponent, same, units, decimals, scaled⟩ :=
      DecimalLayout.standard.exists_write_eq
        (Magnitude.isTrim_shortest (Bool.eq_false_iff.mpr ‹_›))
    rw [same]
    exact .parts signed units decimals scaled

end SchemaWeaver.Numeric

namespace SchemaWeaver.Json

open Text

theorem isNumeral_text (n : Number) : IsNumeral n.text := by
  cases n with
  | int n =>
      rw [Number.text]
      have whole := isWhole_decimal n.natAbs
      have signed (sign : List Char) (known : sign ∈ [[], ['-']]) :
          IsNumeral (sign ++ decimal n.natAbs) := by
        simpa using IsNumeral.parts known whole .none .none
      split
      · exact signed ['-'] (by simp)
      · exact signed [] (by simp)
  | float x => exact x.isNumeral_text

/-! ## Values -/

theorem mapTexts_eq_self {change : String → String} {v : Json}
    (same : ∀ s ∈ v.texts, change s = s) : v.mapTexts change = v := by
  induction v using inductionOn with
  | str s =>
      have here := same s (by simp [texts, parts, ownTexts])
      rw [mapTexts, here]
  | arr items ih =>
      rw [texts_arr] at same
      have each : items.map (mapTexts change) = items.map id :=
        List.map_congr_left fun v member =>
          ih v member fun s inside => same s (List.mem_flatMap.mpr ⟨v, member, inside⟩)
      rw [mapTexts, mapItemTexts_eq, each, List.map_id]
  | obj entries ih =>
      rw [texts_obj, List.forall_mem_append] at same
      have each : (entries.map fun entry => (change entry.1, entry.2.mapTexts change)) =
          entries.map id := by
        refine List.map_congr_left fun entry member => ?_
        have key := same.1 entry.1 (List.mem_map_of_mem member)
        have value := ih entry member fun s inside =>
          same.2 s (List.mem_flatMap.mpr ⟨entry, member, inside⟩)
        rw [key, value, id]
      rw [mapTexts, mapEntryTexts_eq, each, List.map_id]
  | _ => rfl

theorem hasShape_compact_mapTexts (change : String → String) (v : Json) :
    HasShape v (v.mapTexts change).compact := by
  induction v using inductionOn with
  | null => exact .null
  | bool b =>
      cases b with
      | true => exact .true
      | false => exact .false
  | num n => exact .num (isNumeral_text n)
  | str s => exact .str (isQuoted_quoted _)
  | arr items ih =>
      rw [mapTexts, compact, compactItems_eq, mapItemTexts_eq, List.map_map]
      refine .arr (by simp) fun pair member => ?_
      rw [← List.map_prod_left_eq_zip] at member
      obtain ⟨v, inside, rfl⟩ := List.mem_map.mp member
      exact ih v inside
  | obj entries ih =>
      let texts := entries.map fun entry =>
        (quoted (change entry.1), (entry.2.mapTexts change).compact)
      have joined : compactEntries (mapEntryTexts change entries) =
          texts.map fun text => text.1 ++ ':' :: text.2 := by
        rw [compactEntries_eq, mapEntryTexts_eq, List.map_map, List.map_map]
        rfl
      rw [mapTexts, compact, joined]
      refine .obj (by simp [texts]) (fun text member => ?_) fun pair member => ?_
      · obtain ⟨entry, -, rfl⟩ := List.mem_map.mp member
        exact isQuoted_quoted _
      · rw [← List.map_prod_left_eq_zip] at member
        obtain ⟨entry, inside, rfl⟩ := List.mem_map.mp member
        exact ih entry inside

end SchemaWeaver.Json
