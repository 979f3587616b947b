import SchemaWeaver.Json.Reader
import SchemaWeaver.Proofs.Json.Parts
import SchemaWeaver.Proofs.Json.Tokens
import SchemaWeaver.Proofs.Keyed

/-!
Reading back what was written without blanks. A text is read as long as its containers nest no
deeper than there is room for, and the only other answer is that they do.
-/

set_option autoImplicit false
set_option relaxedAutoImplicit false

namespace SchemaWeaver.Json

open Text (join isDigit decimal)

mutual

/-- A value in which a later entry of an object takes the place of an earlier one under the same
key. -/
def merged : Json → Json
  | .arr items => .arr (mergedItems items)
  | .obj entries => .obj (Keyed.ofList (mergedEntries entries))
  | v => v

def mergedItems : List Json → List Json
  | [] => []
  | v :: rest => merged v :: mergedItems rest

def mergedEntries : List (String × Json) → List (String × Json)
  | [] => []
  | (key, v) :: rest => (key, merged v) :: mergedEntries rest

end

/-- Whether a value is not a number, or a whole number of 64 bits with or without a sign. -/
def isWhole : Json → Bool
  | .num (.int n) => -(negativeBound : Int) ≤ n && n < significandBound
  | .num (.float _) => false
  | _ => true

theorem forall_isWhole_str (s : String) : ∀ part ∈ (Json.str s).parts, part.isWhole = true := by
  intro part member
  rw [List.mem_singleton.mp member]
  rfl

theorem forall_isWhole_arr {items : List Json} :
    (∀ part ∈ (Json.arr items).parts, part.isWhole = true) ↔
      ∀ v ∈ items, ∀ part ∈ v.parts, part.isWhole = true := by
  rw [parts_arr, List.forall_mem_cons, List.forall_mem_flatMap]
  exact and_iff_right rfl

theorem forall_isWhole_obj {entries : List (String × Json)} :
    (∀ part ∈ (Json.obj entries).parts, part.isWhole = true) ↔
      ∀ entry ∈ entries, ∀ part ∈ entry.2.parts, part.isWhole = true := by
  rw [parts_obj, List.forall_mem_cons, List.forall_mem_flatMap]
  exact and_iff_right rfl

theorem isWhole_mapTexts (change : String → String) (v : Json) :
    (v.mapTexts change).isWhole = v.isWhole := by
  cases v <;> rfl

/-! ## One step of a reader -/

/-- What a reader makes of a well-formed text: the result, or a refusal for want of room. -/
def Gives {α : Type} (reading : Reading α) (fits : Prop) (value : α) (rest : List Char) : Prop :=
  (fits → reading = .ok (value, rest)) ∧
    (¬fits → ∃ failure, reading = .error failure ∧ failure.fault = .tooDeep)

section Steps

variable {fuel room : Nat} {cs rest : List Char} {fits others : Prop}

theorem Gives.map {α β : Type} {reading : Reading α} {value : α}
    (gives : Gives reading fits value rest) (build : α → β) :
    Gives (reading.map fun (a, cs) => (build a, cs)) fits (build value) rest := by
  refine ⟨fun holds => ?_, fun fails => ?_⟩
  · rw [gives.1 holds]
    rfl
  · obtain ⟨failure, same, deep⟩ := gives.2 fails
    rw [same]
    exact ⟨failure, rfl, deep⟩

theorem Gives.of_iff {α : Type} {reading : Reading α} {value : α}
    (gives : Gives reading fits value rest) (same : fits ↔ others) :
    Gives reading others value rest :=
  ⟨fun holds => gives.1 (same.mpr holds), fun fails => gives.2 fun holds => fails (same.mp holds)⟩

theorem skipSpace_cons {c : Char} (solid : isSpace c = false) (cs : List Char) :
    skipSpace (c :: cs) = c :: cs := by
  rw [skipSpace, List.dropWhile_cons_of_neg (by rw [solid]; exact Bool.false_ne_true)]

theorem readList_of_start {c : Char} (solid : isSpace c = false) (other : c ≠ ']') :
    readList (fuel + 1) room (c :: cs) = readItems fuel room (c :: cs) := by
  rw [readList, skipSpace_cons solid]
  split
  · rename_i same
    cases same
  · rename_i same
    cases same
    exact absurd rfl other
  · rfl

theorem gives_readItems_last {item : Json}
    (first : Gives (readValue fuel room cs) fits item (']' :: rest)) :
    Gives (readItems (fuel + 1) room cs) fits [item] rest := by
  rw [readItems]
  refine ⟨fun holds => ?_, fun fails => ?_⟩
  · rw [first.1 holds]
    rfl
  · obtain ⟨failure, same, deep⟩ := first.2 fails
    rw [same]
    exact ⟨failure, rfl, deep⟩

theorem gives_readItems_next {item : Json} {items : List Json} {c : Char} {more : List Char}
    (solid : isSpace c = false) (other : c ≠ ']')
    (first : Gives (readValue fuel room cs) fits item (',' :: c :: more))
    (later : Gives (readItems fuel room (c :: more)) others items rest) :
    Gives (readItems (fuel + 1) room cs) (fits ∧ others) (item :: items) rest := by
  rw [readItems]
  by_cases holds : fits
  · rw [first.1 holds]
    have start : skipSpace (c :: more) = c :: more := skipSpace_cons solid more
    have comma : skipSpace (',' :: c :: more) = ',' :: c :: more := skipSpace_cons rfl _
    simp only [comma, start]
    split
    · rename_i same
      cases same
    · rename_i same
      cases same
      exact absurd rfl other
    · exact (later.map (item :: ·)).of_iff (by simp [holds])
  · obtain ⟨failure, same, deep⟩ := first.2 holds
    rw [same]
    exact ⟨fun both => absurd both.1 holds, fun _ => ⟨failure, rfl, deep⟩⟩

theorem gives_readEntries_last (key : String) {v : Json}
    (value : Gives (readValue fuel room cs) fits v ('}' :: rest)) :
    Gives (readEntries (fuel + 1) room (key.toList.flatMap escaped ++ '"' :: ':' :: cs)) fits
      [(key, v)] rest := by
  have colon : skipSpace (':' :: cs) = ':' :: cs := skipSpace_cons rfl cs
  rw [readEntries, readString_flatMap_escaped]
  simp only [colon, String.ofList_toList]
  refine ⟨fun holds => ?_, fun fails => ?_⟩
  · rw [value.1 holds]
    rfl
  · obtain ⟨failure, same, deep⟩ := value.2 fails
    rw [same]
    exact ⟨failure, rfl, deep⟩

theorem gives_readEntries_next (key : String) {v : Json} {entries : List (String × Json)}
    {more : List Char} (value : Gives (readValue fuel room cs) fits v (',' :: '"' :: more))
    (later : Gives (readEntries fuel room more) others entries rest) :
    Gives (readEntries (fuel + 1) room (key.toList.flatMap escaped ++ '"' :: ':' :: cs))
      (fits ∧ others) ((key, v) :: entries) rest := by
  have colon : skipSpace (':' :: cs) = ':' :: cs := skipSpace_cons rfl cs
  rw [readEntries, readString_flatMap_escaped]
  simp only [colon, String.ofList_toList]
  by_cases holds : fits
  · rw [value.1 holds]
    have comma : skipSpace (',' :: '"' :: more) = ',' :: '"' :: more := skipSpace_cons rfl _
    have quote : skipSpace ('"' :: more) = '"' :: more := skipSpace_cons rfl more
    simp only [comma, quote]
    exact (later.map ((key, v) :: ·)).of_iff (by simp [holds])
  · obtain ⟨failure, same, deep⟩ := value.2 holds
    rw [same]
    exact ⟨fun both => absurd both.1 holds, fun _ => ⟨failure, rfl, deep⟩⟩

theorem readValue_of_digit {d : Char} (digit : isDigit d = true) :
    readValue (fuel + 1) room (d :: cs) =
      (readNumber false (d :: cs)).map fun (n, cs) => (.num n, cs) := by
  have other {c : Char} (letter : isDigit c = false) : d ≠ c := ne_of_isDigit digit letter
  rw [readValue, skipSpace_cons (isSpace_of_isDigit digit)]
  simp only [if_neg (other (c := 'n') rfl), if_neg (other (c := 't') rfl),
    if_neg (other (c := 'f') rfl), if_neg (other (c := '-') rfl), if_pos digit]

end Steps

/-! ## Whole values -/

theorem mergedItems_eq (items : List Json) : mergedItems items = items.map merged := by
  induction items with
  | nil => rfl
  | cons v rest ih => rw [mergedItems, ih, List.map_cons]

theorem mergedEntries_eq (entries : List (String × Json)) :
    mergedEntries entries = entries.map fun entry => (entry.1, entry.2.merged) := by
  induction entries with
  | nil => rfl
  | cons entry rest ih => rw [mergedEntries, ih, List.map_cons]

/-- The reader gives back a value that was written in front of a text, with the entries of its
objects merged, if there is room. -/
def ReadsBack (v : Json) : Prop :=
  ∀ fuel room rest, 3 * v.compact.length < fuel → endsNumber rest = true →
    Gives (readValue fuel room (v.compact ++ rest)) (v.nesting ≤ room) v.merged rest

private theorem readsBack_of_flat {v : Json} (flat : v.nesting = 0)
    (read : ∀ fuel room rest, endsNumber rest = true →
      readValue (fuel + 1) room (v.compact ++ rest) = .ok (v.merged, rest)) : ReadsBack v := by
  intro fuel room rest enough ends
  obtain ⟨fuel, rfl⟩ : ∃ f, fuel = f + 1 := ⟨fuel - 1, by omega⟩
  exact ⟨fun _ => read fuel room rest ends, fun deep => absurd (flat ▸ Nat.zero_le room) deep⟩

private theorem readsBack_null : ReadsBack .null :=
  readsBack_of_flat rfl fun fuel room rest _ => by
    simp [compact, readValue, skipSpace, isSpace, readWord, merged, Except.map]

private theorem readsBack_bool (b : Bool) : ReadsBack (.bool b) :=
  readsBack_of_flat rfl fun fuel room rest _ => by
    cases b <;> simp [compact, readValue, skipSpace, isSpace, readWord, merged, Except.map]

private theorem readsBack_str (s : String) : ReadsBack (.str s) :=
  readsBack_of_flat rfl fun fuel room rest _ => by
    rw [compact, quoted_append, readValue, skipSpace_cons rfl]
    simp [readString_flatMap_escaped, isDigit, merged, Except.map]

private theorem exists_decimal_eq_digit (n : Nat) :
    ∃ d digits, decimal n = d :: digits ∧ isDigit d = true := by
  cases same : decimal n with
  | nil => exact absurd same Nat.toDigits_ne_nil
  | cons d digits =>
      exact ⟨d, digits, rfl, isDigit_of_mem_decimal (same ▸ List.mem_cons_self)⟩

private theorem wholeNumber_of_neg {n : Int} (negative : n < 0)
    (least : -(negativeBound : Int) ≤ n) : wholeNumber true n.natAbs = .int n := by
  have inside : ¬(n.natAbs = 0 ∨ n.natAbs > negativeBound) := by omega
  have value : -(n.natAbs : Int) = n := by omega
  simp only [wholeNumber, Bool.not_true, Bool.false_eq_true, if_false, Bool.or_eq_true,
    decide_eq_true_eq, if_neg inside, value]

private theorem readsBack_num {n : Number} (whole : (Json.num n).isWhole = true) :
    ReadsBack (.num n) := by
  refine readsBack_of_flat rfl fun fuel room rest ends => ?_
  cases n with
  | float x => cases whole
  | int n =>
      rw [isWhole, Bool.and_eq_true, decide_eq_true_eq, decide_eq_true_eq] at whole
      obtain ⟨least, greatest⟩ := whole
      have bound : n.natAbs < significandBound := by
        have half : negativeBound < significandBound := by decide
        omega
      simp only [compact, Number.text, merged]
      split
      · rename_i negative
        rw [List.cons_append, readValue, skipSpace_cons rfl]
        simp only [readNumber_decimal bound ends, wholeNumber_of_neg negative least]
        rfl
      · have value : wholeNumber false n.natAbs = .int n := by
          rw [wholeNumber, Bool.not_false, if_pos rfl]
          congr
          omega
        obtain ⟨d, digits, same, digit⟩ := exists_decimal_eq_digit n.natAbs
        rw [same, List.cons_append, readValue_of_digit digit, ← List.cons_append, ← same,
          readNumber_decimal bound ends, value]
        rfl

private theorem exists_compact_eq_cons {v : Json} (whole : v.isWhole = true) :
    ∃ c cs, v.compact = c :: cs ∧ isSpace c = false ∧ c ≠ ']' := by
  cases v with
  | num n =>
      cases n with
      | float x => cases whole
      | int n =>
          obtain ⟨d, digits, same, digit⟩ := exists_decimal_eq_digit n.natAbs
          by_cases negative : n < 0
          · exact ⟨'-', decimal n.natAbs, by simp [compact, Number.text, negative], rfl, by simp⟩
          · refine ⟨d, digits, by simp [compact, Number.text, negative, same], ?_, ?_⟩
            · exact isSpace_of_isDigit digit
            · exact ne_of_isDigit digit rfl
  | null => exact ⟨'n', "ull".toList, by simp [compact], rfl, by simp⟩
  | bool b =>
      cases b with
      | true => exact ⟨'t', "rue".toList, by simp [compact], rfl, by simp⟩
      | false => exact ⟨'f', "alse".toList, by simp [compact], rfl, by simp⟩
  | _ => exact ⟨_, _, rfl, rfl, by simp⟩

private theorem exists_items_eq_cons {item : Json} (whole : item.isWhole = true)
    (items : List Json) :
    ∃ c more, join [','] ((item :: items).map compact) = c :: more ∧ isSpace c = false ∧
      c ≠ ']' := by
  obtain ⟨c, cs, start, solid, other⟩ := exists_compact_eq_cons whole
  cases items with
  | nil => exact ⟨c, cs, start, solid, other⟩
  | cons next items =>
      refine ⟨c, cs ++ ',' :: join [','] ((next :: items).map compact), ?_, solid, other⟩
      simp [join, start]

private theorem exists_entries_eq_cons (entry : String × Json) (entries : List (String × Json)) :
    ∃ more, join [','] ((entry :: entries).map compactEntry) = '"' :: more := by
  cases entries <;> simp [join, compactEntry, quoted_append]

theorem gives_readItems {item : Json} {items : List Json}
    (whole : ∀ v ∈ item :: items, v.isWhole = true) (each : ∀ v ∈ item :: items, ReadsBack v)
    {fuel room : Nat} {rest : List Char}
    (enough : 3 * (join [','] ((item :: items).map compact)).length + 1 < fuel) :
    Gives (readItems fuel room (join [','] ((item :: items).map compact) ++ ']' :: rest))
      (∀ v ∈ item :: items, v.nesting ≤ room) ((item :: items).map merged) rest := by
  induction items generalizing item fuel with
  | nil =>
      obtain ⟨fuel, rfl⟩ : ∃ f, fuel = f + 1 := ⟨fuel - 1, by omega⟩
      simp only [List.map_cons, List.map_nil, join] at enough ⊢
      have first := each item List.mem_cons_self fuel room (']' :: rest) (by omega) rfl
      exact (gives_readItems_last first).of_iff (by simp)
  | cons next items ih =>
      obtain ⟨c, more, tail, solid, other⟩ :=
        exists_items_eq_cons (whole next (List.mem_cons_of_mem _ List.mem_cons_self)) items
      have whole' := (List.forall_mem_cons.mp whole).2
      have each' := (List.forall_mem_cons.mp each).2
      have text : join [','] ((item :: next :: items).map compact) =
          item.compact ++ ',' :: c :: more := by
        rw [← tail]
        rfl
      rw [text, List.length_append, List.length_cons] at enough
      obtain ⟨fuel, rfl⟩ : ∃ f, fuel = f + 1 := ⟨fuel - 1, by omega⟩
      have first := each item List.mem_cons_self fuel room (',' :: c :: more ++ ']' :: rest)
        (by omega) rfl
      have later : Gives (readItems fuel room (c :: more ++ ']' :: rest))
          (∀ v ∈ next :: items, v.nesting ≤ room) ((next :: items).map merged) rest := by
        rw [← tail]
        exact ih whole' each' (by rw [tail]; omega)
      rw [text, List.append_assoc]
      exact (gives_readItems_next solid other first later).of_iff
        (List.forall_mem_cons (p := fun v => nesting v ≤ room)).symm

theorem gives_readEntries {entry : String × Json} {entries : List (String × Json)}
    (each : ∀ e ∈ entry :: entries, ReadsBack e.2) {fuel room : Nat} {rest cs : List Char}
    (text : join [','] ((entry :: entries).map compactEntry) = '"' :: cs)
    (enough : 3 * cs.length + 1 < fuel) :
    Gives (readEntries fuel room (cs ++ '}' :: rest))
      (∀ e ∈ entry :: entries, e.2.nesting ≤ room)
      ((entry :: entries).map fun e => (e.1, e.2.merged)) rest := by
  induction entries generalizing entry fuel cs with
  | nil =>
      obtain ⟨fuel, rfl⟩ : ∃ f, fuel = f + 1 := ⟨fuel - 1, by omega⟩
      obtain ⟨key, v⟩ := entry
      simp only [List.map_cons, List.map_nil, join, compactEntry, quoted_append, List.cons.injEq,
        true_and] at text
      subst text
      simp only [List.length_append, List.length_cons] at enough
      have value : Gives (readValue fuel room (v.compact ++ '}' :: rest)) (v.nesting ≤ room)
          v.merged ('}' :: rest) :=
        each (key, v) List.mem_cons_self fuel room ('}' :: rest) (by dsimp only; omega) rfl
      simp only [List.append_assoc, List.cons_append]
      exact (gives_readEntries_last key value).of_iff (by simp)
  | cons next entries ih =>
      obtain ⟨key, v⟩ := entry
      obtain ⟨more, tail⟩ := exists_entries_eq_cons next entries
      have each' := (List.forall_mem_cons.mp each).2
      have shape : cs = key.toList.flatMap escaped ++ '"' :: ':' ::
          (v.compact ++ ',' :: '"' :: more) := by
        have unfolded : join [','] (((key, v) :: next :: entries).map compactEntry) =
            compactEntry (key, v) ++ ',' :: join [','] ((next :: entries).map compactEntry) := rfl
        rw [unfolded, tail, compactEntry, List.append_assoc, quoted_append] at text
        simpa using text.symm
      subst shape
      simp only [List.length_append, List.length_cons] at enough
      obtain ⟨fuel, rfl⟩ : ∃ f, fuel = f + 1 := ⟨fuel - 1, by omega⟩
      have value : Gives (readValue fuel room (v.compact ++ ',' :: '"' :: (more ++ '}' :: rest)))
          (v.nesting ≤ room) v.merged (',' :: '"' :: (more ++ '}' :: rest)) :=
        each (key, v) List.mem_cons_self _ room _ (by dsimp only; omega) rfl
      have later : Gives (readEntries fuel room (more ++ '}' :: rest))
          (∀ e ∈ next :: entries, e.2.nesting ≤ room)
          ((next :: entries).map fun e => (e.1, e.2.merged)) rest :=
        ih each' tail (by omega)
      simp only [List.append_assoc, List.cons_append]
      exact (gives_readEntries_next key value later).of_iff
        (List.forall_mem_cons (p := fun e => e.2.nesting ≤ room) (a := (key, v))).symm

theorem readsBack_arr {items : List Json} (whole : ∀ v ∈ items, v.isWhole = true)
    (each : ∀ v ∈ items, ReadsBack v) : ReadsBack (.arr items) := by
  intro fuel room rest enough _
  simp only [compact, compactItems_eq, List.length_append, List.length_cons] at enough
  simp only [compact, compactItems_eq, List.cons_append, List.append_assoc, List.nil_append]
  obtain ⟨fuel, rfl⟩ : ∃ f, fuel = f + 2 := ⟨fuel - 2, by omega⟩
  rw [merged, mergedItems_eq, readValue, skipSpace_cons rfl]
  cases room with
  | zero => exact ⟨fun fits => by simp [nesting] at fits, fun _ => ⟨_, rfl, rfl⟩⟩
  | succ room =>
      suffices list : Gives (readList (fuel + 1) room
          (join [','] (items.map compact) ++ ']' :: rest)) (∀ v ∈ items, v.nesting ≤ room)
          (items.map merged) rest from (list.map Json.arr).of_iff nesting_arr_le_iff.symm
      cases items with
      | nil =>
          refine ⟨fun _ => ?_, fun deep => absurd (by simp) deep⟩
          simp [join, readList, skipSpace, isSpace]
      | cons item items =>
          obtain ⟨c, more, text, solid, other⟩ :=
            exists_items_eq_cons (whole item List.mem_cons_self) items
          have read : Gives (readItems fuel room (c :: more ++ ']' :: rest))
              (∀ v ∈ item :: items, v.nesting ≤ room) ((item :: items).map merged) rest := by
            rw [← text]
            exact gives_readItems whole each (by omega)
          rw [text, List.cons_append, readList_of_start solid other]
          exact read

theorem readsBack_obj {entries : List (String × Json)} (each : ∀ e ∈ entries, ReadsBack e.2) :
    ReadsBack (.obj entries) := by
  intro fuel room rest enough _
  simp only [compact, compactEntries_eq, List.length_append, List.length_cons] at enough
  simp only [compact, compactEntries_eq, List.cons_append, List.append_assoc, List.nil_append]
  obtain ⟨fuel, rfl⟩ : ∃ f, fuel = f + 2 := ⟨fuel - 2, by omega⟩
  rw [merged, mergedEntries_eq, readValue, skipSpace_cons rfl]
  cases room with
  | zero => exact ⟨fun fits => by simp [nesting] at fits, fun _ => ⟨_, rfl, rfl⟩⟩
  | succ room =>
      suffices object : Gives (readObject (fuel + 1) room
          (join [','] (entries.map compactEntry) ++ '}' :: rest))
          (∀ e ∈ entries, e.2.nesting ≤ room) (entries.map fun e => (e.1, e.2.merged)) rest from
        (object.map fun entries => Json.obj (Keyed.ofList entries)).of_iff nesting_obj_le_iff.symm
      cases entries with
      | nil =>
          refine ⟨fun _ => ?_, fun deep => absurd (by simp) deep⟩
          simp [join, readObject, skipSpace, isSpace]
      | cons entry entries =>
          obtain ⟨cs, text⟩ := exists_entries_eq_cons entry entries
          rw [text, List.length_cons] at enough
          rw [text, List.cons_append, readObject, skipSpace_cons rfl]
          exact gives_readEntries each text (by omega)

theorem readsBack {v : Json} (whole : ∀ part ∈ v.parts, part.isWhole = true) : ReadsBack v := by
  induction v using inductionOn with
  | null => exact readsBack_null
  | bool b => exact readsBack_bool b
  | num n => exact readsBack_num (whole _ (self_mem_parts _))
  | str s => exact readsBack_str s
  | arr items ih =>
      have inside (v : Json) (member : v ∈ items) : ∀ part ∈ v.parts, part.isWhole = true :=
        fun part below => whole part (parts_item member below)
      refine readsBack_arr (fun v member => inside v member v (self_mem_parts v)) ?_
      exact fun v member => ih v member (inside v member)
  | obj entries ih =>
      refine readsBack_obj fun entry member => ih entry member fun part below => ?_
      exact whole part (parts_entry member below)

theorem read_compact {v : Json} (whole : ∀ part ∈ v.parts, part.isWhole = true) {room : Nat}
    (shallow : v.nesting ≤ room) : read room v.compact = .ok v.merged := by
  have reading := readsBack whole (3 * v.compact.length + 3) room [] (by omega) rfl
  rw [List.append_nil] at reading
  rw [read, reading.1 shallow]
  rfl

theorem read_compact_of_lt {v : Json} (whole : ∀ part ∈ v.parts, part.isWhole = true) {room : Nat}
    (deep : room < v.nesting) :
    ∃ failure, read room v.compact = .error failure ∧ failure.fault = .tooDeep := by
  have reading := readsBack whole (3 * v.compact.length + 3) room [] (by omega) rfl
  rw [List.append_nil] at reading
  obtain ⟨failure, same, fault⟩ := reading.2 (Nat.not_le.mpr deep)
  exact ⟨failure, by rw [read, same], fault⟩

def keysDiffer : Json → Bool
  | .obj entries => (Keyed.keys entries).Nodup
  | _ => true

theorem merged_eq_self {v : Json} (distinct : ∀ part ∈ v.parts, part.keysDiffer = true) :
    v.merged = v := by
  induction v using inductionOn with
  | arr items ih =>
      have same : items.map merged = items := by
        refine Eq.trans (List.map_congr_left fun v member => ?_) (List.map_id items)
        exact ih v member fun part below => distinct part (parts_item member below)
      rw [merged, mergedItems_eq, same]
  | obj entries ih =>
      have own : (Keyed.keys entries).Nodup := by
        simpa [keysDiffer] using distinct _ (self_mem_parts _)
      have same : entries.map (fun entry => (entry.1, entry.2.merged)) = entries := by
        refine Eq.trans (List.map_congr_left fun entry member => ?_) (List.map_id entries)
        have kept := ih entry member fun part below => distinct part (parts_entry member below)
        rw [kept, id]
      rw [merged, mergedEntries_eq, same, Keyed.ofList_of_nodup own]
  | _ => rfl

end SchemaWeaver.Json
