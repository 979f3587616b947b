import SchemaWeaver.Text
import Mathlib.Data.List.TakeWhile

/-!
What the cuts of a text are, said without the functions that make them: the blanks at the two ends,
the words between blanks, the pieces between separators, and the parts before and after the first
separator. Pieces that are joined by a separator that none of them has are the pieces of the whole.
-/

set_option autoImplicit false
set_option relaxedAutoImplicit false

namespace SchemaWeaver.Text

/-! ## Pieces -/

theorem splitAt_eq_splitOnP (p : Char → Bool) (cs : List Char) : splitAt p cs = cs.splitOnP p := by
  induction cs with
  | nil => rfl
  | cons c cs ih =>
      rw [splitAt, List.splitOnP_cons_eq_if_modifyHead, ← ih]
      cases pieces : splitAt p cs with
      | nil =>
          rw [ih] at pieces
          exact absurd pieces (List.splitOnP_ne_nil p cs)
      | cons piece pieces => rfl

theorem join_eq_intercalate (separator : List Char) (pieces : List (List Char)) :
    join separator pieces = separator.intercalate pieces := by
  induction pieces with
  | nil => rfl
  | cons piece pieces ih =>
      cases pieces with
      | nil => rw [join, List.intercalate_singleton]
      | cons next pieces => rw [join, ih, List.intercalate_cons_cons, List.append_assoc]

theorem splitAt_ne_nil (p : Char → Bool) (cs : List Char) : splitAt p cs ≠ [] := by
  rw [splitAt_eq_splitOnP]
  exact List.splitOnP_ne_nil p cs

theorem splitAt_append_cons {p : Char → Bool} {c : Char} (separates : p c = true)
    (cs ds : List Char) : splitAt p (cs ++ c :: ds) = splitAt p cs ++ splitAt p ds := by
  rw [splitAt_eq_splitOnP, splitAt_eq_splitOnP, splitAt_eq_splitOnP,
    List.splitOnP_append_cons cs ds separates]

theorem splitAt_of_forall {p : Char → Bool} {cs : List Char} (whole : ∀ c ∈ cs, p c = false) :
    splitAt p cs = [cs] := by
  rw [splitAt_eq_splitOnP, List.splitOnP_eq_singleton whole]

theorem splitAt_eq_splitOn (separator : Char) (cs : List Char) :
    splitAt (fun c => c = separator) cs = cs.splitOn separator := by
  rw [splitAt_eq_splitOnP, List.splitOn_eq_splitOnP]
  congr 1

theorem forall_mem_splitAt (p : Char → Bool) (cs : List Char) :
    ∀ piece ∈ splitAt p cs, ∀ c ∈ piece, p c = false := by
  induction cs with
  | nil => simp [splitAt]
  | cons c cs ih =>
      intro piece member
      rw [splitAt] at member
      split at member
      · rcases List.mem_cons.mp member with rfl | later
        · simp
        · exact ih piece later
      · rename_i other
        split at member
        · rename_i none
          exact absurd none (splitAt_ne_nil p cs)
        · rename_i first pieces found
          rw [found, List.forall_mem_cons] at ih
          rcases List.mem_cons.mp member with rfl | later
          · rw [List.forall_mem_cons]
            exact ⟨by simpa using other, ih.1⟩
          · exact ih.2 piece later

/-- Pieces without separators, joined by one, are the pieces of the whole, and the pieces of a text,
joined again, are the text. -/
theorem splitAt_eq_iff {separator : Char} {cs : List Char} {pieces : List (List Char)} :
    splitAt (fun c => c = separator) cs = pieces ↔
      cs = join [separator] pieces ∧ pieces ≠ [] ∧ ∀ piece ∈ pieces, separator ∉ piece := by
  rw [join_eq_intercalate]
  constructor
  · rintro rfl
    refine ⟨?_, splitAt_ne_nil _ cs, fun piece member inside => ?_⟩
    · rw [splitAt_eq_splitOn, List.intercalate_splitOn]
    · have other := forall_mem_splitAt _ cs piece member separator inside
      simp at other
  · rintro ⟨rfl, filled, free⟩
    rw [splitAt_eq_splitOn]
    exact List.splitOn_intercalate separator free filled

theorem mem_join_of_mem (separator : List Char) {pieces : List (List Char)} {piece : List Char}
    (member : piece ∈ pieces) : piece ⊆ join separator pieces := by
  induction pieces with
  | nil => cases member
  | cons first pieces ih =>
      cases pieces with
      | nil =>
          rw [List.mem_singleton.mp member]
          exact fun _ => id
      | cons next pieces =>
          intro c inside
          rw [join, List.mem_append, List.mem_append]
          rcases List.mem_cons.mp member with rfl | later
          · exact Or.inl inside
          · exact Or.inr (Or.inr (ih later inside))

theorem exists_mem_of_mem_join {separator : List Char} {pieces : List (List Char)} {c : Char}
    (member : c ∈ join separator pieces) : c ∈ separator ∨ ∃ piece ∈ pieces, c ∈ piece := by
  induction pieces with
  | nil => cases member
  | cons first pieces ih =>
      cases pieces with
      | nil => exact Or.inr ⟨first, List.mem_cons_self, member⟩
      | cons next pieces =>
          rw [join, List.mem_append, List.mem_append] at member
          rcases member with here | between | later
          · exact Or.inr ⟨first, List.mem_cons_self, here⟩
          · exact Or.inl between
          · rcases ih later with between | ⟨piece, found, inside⟩
            · exact Or.inl between
            · exact Or.inr ⟨piece, List.mem_cons_of_mem _ found, inside⟩

/-! ## The first separator, the opening and the end -/

theorem cutAt_eq_some_iff {separator : Char} {cs before after : List Char} :
    cutAt separator cs = some (before, after) ↔
      cs = before ++ separator :: after ∧ separator ∉ before := by
  induction cs generalizing before with
  | nil => simp [cutAt]
  | cons c cs ih =>
      rw [cutAt]
      by_cases here : c = separator
      · subst here
        rw [if_pos rfl]
        cases before with
        | nil => simp
        | cons b before =>
            simp only [Option.some.injEq, Prod.mk.injEq, reduceCtorEq, false_and, List.cons_append,
              List.cons.injEq, List.mem_cons, not_or, false_iff, not_and]
            intro same different
            exact absurd same.1 different
      · rw [if_neg here, Option.map_eq_some_iff]
        constructor
        · rintro ⟨⟨early, late⟩, found, same⟩
          obtain ⟨rfl, rfl⟩ := Prod.mk.inj same
          obtain ⟨rfl, free⟩ := ih.mp found
          exact ⟨rfl, by simp [free, Ne.symm here]⟩
        · rintro ⟨same, free⟩
          cases before with
          | nil =>
              rw [List.nil_append, List.cons.injEq] at same
              exact absurd same.1 here
          | cons b before =>
              rw [List.cons_append, List.cons.injEq] at same
              rw [List.mem_cons, not_or] at free
              exact ⟨(before, after), ih.mpr ⟨same.2, free.2⟩, by rw [same.1]⟩

theorem cutAt_eq_none_iff {separator : Char} {cs : List Char} :
    cutAt separator cs = none ↔ separator ∉ cs := by
  induction cs with
  | nil => simp [cutAt]
  | cons c cs ih =>
      rw [cutAt]
      by_cases here : c = separator
      · simp [here]
      · rw [if_neg here, Option.map_eq_none_iff, ih, List.mem_cons, not_or]
        exact ⟨fun free => ⟨Ne.symm here, free⟩, fun free => free.2⟩

theorem afterOpening_eq_some_iff {opening cs rest : List Char} :
    afterOpening opening cs = some rest ↔ cs = opening ++ rest := by
  induction opening generalizing cs with
  | nil => rw [afterOpening, Option.some.injEq, List.nil_append]
  | cons o opening ih =>
      cases cs with
      | nil => simp [afterOpening]
      | cons c cs =>
          rw [afterOpening, List.cons_append, List.cons.injEq]
          by_cases same : o = c
          · rw [if_pos same, ih]
            exact ⟨fun tail => ⟨same.symm, tail⟩, fun both => both.2⟩
          · rw [if_neg same]
            constructor
            · intro found
              cases found
            · intro both
              exact absurd both.1.symm same

theorem beforeFinal_eq_some_iff {final : Char} {cs body : List Char} :
    beforeFinal final cs = some body ↔ cs = body ++ [final] := by
  unfold beforeFinal
  constructor
  · intro found
    split at found
    · rename_i last
      obtain ⟨front, rfl⟩ := List.getLast?_eq_some_iff.mp last
      rw [List.dropLast_concat, Option.some.injEq] at found
      rw [found]
    · cases found
  · rintro rfl
    rw [if_pos List.getLast?_concat, List.dropLast_concat]

/-! ## Blanks at the ends -/

def IsGap (cs : List Char) : Prop := ∀ c ∈ cs, isBlank c = true

/-- A text that neither starts nor ends with a blank. -/
structure IsTight (cs : List Char) : Prop where
  first : ∀ c ∈ cs.head?, isBlank c = false
  last : ∀ c ∈ cs.getLast?, isBlank c = false

private theorem dropWhile_of_head {cs : List Char} (first : ∀ c ∈ cs.head?, isBlank c = false) :
    cs.dropWhile isBlank = cs := by
  cases cs with
  | nil => rfl
  | cons c cs =>
      have solid : isBlank c = false := first c rfl
      rw [List.dropWhile_cons_of_neg (by simp [solid])]

theorem exists_eq_append_trim (cs : List Char) :
    ∃ before after, IsGap before ∧ IsGap after ∧ cs = before ++ (trim cs ++ after) := by
  let front := cs.dropWhile isBlank
  refine ⟨cs.takeWhile isBlank, (front.reverse.takeWhile isBlank).reverse, ?_, ?_, ?_⟩
  · exact fun c member => List.mem_takeWhile_imp member
  · intro c member
    exact List.mem_takeWhile_imp (List.mem_reverse.mp member)
  · have back : (front.reverse.dropWhile isBlank).reverse ++
        (front.reverse.takeWhile isBlank).reverse = front := by
      rw [← List.reverse_append, List.takeWhile_append_dropWhile, List.reverse_reverse]
    calc cs = cs.takeWhile isBlank ++ front := List.takeWhile_append_dropWhile.symm
      _ = cs.takeWhile isBlank ++ (trim cs ++ (front.reverse.takeWhile isBlank).reverse) := by
          rw [trim, back]

theorem trim_eq_of_isTight {before core after : List Char} (leading : IsGap before)
    (trailing : IsGap after) (tight : IsTight core) (filled : core ≠ []) :
    trim (before ++ (core ++ after)) = core := by
  have front : (before ++ (core ++ after)).dropWhile isBlank = core ++ after := by
    rw [List.dropWhile_append_of_pos leading]
    apply dropWhile_of_head
    intro c member
    obtain ⟨d, rest, rfl⟩ := List.exists_cons_of_ne_nil filled
    exact tight.first c member
  have back : (core ++ after).reverse.dropWhile isBlank = core.reverse := by
    rw [List.reverse_append, List.dropWhile_append_of_pos]
    · apply dropWhile_of_head
      intro c member
      rw [List.head?_reverse] at member
      exact tight.last c member
    · exact fun c member => trailing c (List.mem_reverse.mp member)
  rw [trim, front, back, List.reverse_reverse]

/-! ## Words -/

/-- The words of a text: what stands between its gaps. -/
inductive Worded : List Char → List (List Char) → Prop
  | gap {cs : List Char} (blanks : IsGap cs) : Worded cs []
  | word (before word rest : List Char) {later : List (List Char)} (blanks : IsGap before)
      (filled : word ≠ []) (solid : ∀ c ∈ word, isBlank c = false)
      (ends : ∀ c ∈ rest.head?, isBlank c = true) (others : Worded rest later) :
      Worded (before ++ (word ++ rest)) (word :: later)

theorem Worded.forall_mem {cs : List Char} {list : List (List Char)} (worded : Worded cs list) :
    ∀ word ∈ list, word ≠ [] ∧ ∀ c ∈ word, isBlank c = false := by
  induction worded with
  | gap _ => simp
  | word _ _ _ _ filled solid _ _ ih => exact List.forall_mem_cons.mpr ⟨⟨filled, solid⟩, ih⟩

theorem words_cons_of_isBlank {c : Char} (blank : isBlank c = true) (cs : List Char) :
    words (c :: cs) = words cs := by
  rw [words, words, splitAt, if_pos blank]
  rfl

theorem words_gap_append {before : List Char} (blanks : IsGap before) (rest : List Char) :
    words (before ++ rest) = words rest := by
  induction before with
  | nil => rfl
  | cons c before ih =>
      have both := List.forall_mem_cons.mp blanks
      rw [List.cons_append, words_cons_of_isBlank both.1, ih both.2]

theorem words_word_append {word rest : List Char} (filled : word ≠ [])
    (solid : ∀ c ∈ word, isBlank c = false) (ends : ∀ c ∈ rest.head?, isBlank c = true) :
    words (word ++ rest) = word :: words rest := by
  cases rest with
  | nil =>
      rw [List.append_nil, words, splitAt_of_forall solid]
      simp [filled, words, splitAt]
  | cons c rest =>
      have blank : isBlank c = true := ends c rfl
      rw [words_cons_of_isBlank blank, words, splitAt_append_cons blank, splitAt_of_forall solid]
      simp [filled, words]

theorem Worded.words_eq {cs : List Char} {list : List (List Char)} (worded : Worded cs list) :
    words cs = list := by
  induction worded with
  | gap blanks => simpa [words, splitAt] using words_gap_append blanks []
  | word _ _ _ blanks filled solid ends others ih =>
      rw [words_gap_append blanks, words_word_append filled solid ends, ih]

theorem Worded.cons_blank {c : Char} (blank : isBlank c = true) {cs : List Char}
    {list : List (List Char)} (worded : Worded cs list) : Worded (c :: cs) list := by
  cases worded with
  | gap blanks => exact .gap (List.forall_mem_cons.mpr ⟨blank, blanks⟩)
  | word before word rest blanks filled solid ends others =>
      have longer : IsGap (c :: before) := List.forall_mem_cons.mpr ⟨blank, blanks⟩
      exact .word (c :: before) word rest longer filled solid ends others

/-- A character that is not blank starts a word, or goes on with the word that stands right after
it. -/
theorem Worded.cons_solid {c : Char} (solid : isBlank c = false) {cs : List Char}
    {list : List (List Char)} (worded : Worded cs list) : ∃ longer, Worded (c :: cs) longer := by
  have alone : ∀ d ∈ [c], isBlank d = false := by simpa using solid
  by_cases ends : ∀ d ∈ cs.head?, isBlank d = true
  · exact ⟨_, .word [] [c] cs (by simp [IsGap]) (by simp) alone ends worded⟩
  · -- The next character is not blank, so there is no gap before the next word.
    cases worded with
    | gap blanks =>
        refine absurd (fun d member => ?_) ends
        exact blanks d (List.mem_of_mem_head? member)
    | word before word rest blanks filled inner after others =>
        cases before with
        | nil =>
            refine ⟨_, .word [] (c :: word) rest (by simp [IsGap]) (by simp) ?_ after others⟩
            exact List.forall_mem_cons.mpr ⟨solid, inner⟩
        | cons d before =>
            refine absurd (fun e member => ?_) ends
            obtain rfl : d = e := by simpa using member
            exact blanks d List.mem_cons_self

theorem exists_worded (cs : List Char) : ∃ list, Worded cs list := by
  induction cs with
  | nil => exact ⟨[], .gap (by simp [IsGap])⟩
  | cons c cs ih =>
      obtain ⟨list, worded⟩ := ih
      cases blank : isBlank c with
      | true => exact ⟨list, worded.cons_blank blank⟩
      | false => exact worded.cons_solid blank

theorem words_eq_iff {cs : List Char} {list : List (List Char)} :
    words cs = list ↔ Worded cs list := by
  constructor
  · rintro rfl
    obtain ⟨list, worded⟩ := exists_worded cs
    rwa [worded.words_eq]
  · exact Worded.words_eq

end SchemaWeaver.Text
