import SchemaWeaver.Text
import Mathlib.Data.List.Basic

/-!
The one-line form of a text in one pass: once the line breaks are gone, every run of blanks that
touches a mark on either side is deleted as a whole.
-/

set_option autoImplicit false
set_option relaxedAutoImplicit false

namespace SchemaWeaver.Text

/-- Whether the first character of a text that is not blank is a mark. -/
def opensWithMark (blank : Char → Bool) (cs : List Char) : Bool :=
  (cs.find? fun c => !blank c).any isMark

/-- Delete the runs of blanks that touch a mark. The flag tells whether a mark stands before the
text. -/
def dropTouching (blank : Char → Bool) : Bool → List Char → List Char
  | _, [] => []
  | afterMark, c :: cs =>
      if blank c && (afterMark || opensWithMark blank cs) then dropTouching blank afterMark cs
      else c :: dropTouching blank (isMark c) cs

theorem isBlank_of_isMark {c : Char} (mark : isMark c = true) : isBlank c = false := by
  simp only [isMark, Bool.or_eq_true, decide_eq_true_eq] at mark
  rcases mark with ((((rfl | rfl) | rfl) | rfl) | rfl) | rfl <;> rfl

theorem isMark_of_isBlank {c : Char} (blank : isBlank c = true) : isMark c = false := by
  by_contra mark
  rw [isBlank_of_isMark (by simpa using mark)] at blank
  cases blank

theorem isBlank_of_isLineBreak {c : Char} (line : isLineBreak c = true) : isBlank c = true := by
  simp only [isLineBreak, isBlank, Bool.or_eq_true, Bool.and_eq_true, decide_eq_true_eq,
    beq_iff_eq] at line ⊢
  omega

theorem isLineBreak_of_not_blank {c : Char} (solid : isBlank c = false) :
    isLineBreak c = false := by
  by_contra line
  rw [isBlank_of_isLineBreak (by simpa using line)] at solid
  cases solid

theorem opensWithMark_cons (blank : Char → Bool) (c : Char) (cs : List Char) :
    opensWithMark blank (c :: cs) = if blank c then opensWithMark blank cs else isMark c := by
  rw [opensWithMark, List.find?_cons]
  cases blank c with
  | false => rfl
  | true => rfl

private theorem dropBlanksBefore_cons (c : Char) (cs : List Char) :
    dropBlanksBefore (c :: cs) =
      if isBlank c && (dropBlanksBefore cs).head?.any isMark then dropBlanksBefore cs
      else c :: dropBlanksBefore cs := by
  unfold dropBlanksBefore
  rw [List.foldr_cons]

private theorem head?_dropBlanksBefore (cs : List Char) :
    (dropBlanksBefore cs).head?.any isMark = opensWithMark isBlank cs := by
  induction cs with
  | nil => rfl
  | cons c cs ih =>
      rw [dropBlanksBefore_cons, ih, opensWithMark_cons]
      cases blank : isBlank c with
      | false => simp
      | true =>
          cases opens : opensWithMark isBlank cs with
          | true => simpa [opens] using ih
          | false => simpa using isMark_of_isBlank blank

private theorem dropBlanksAfter_dropBlanksBefore (afterMark : Bool) (cs : List Char) :
    dropBlanksAfter afterMark (dropBlanksBefore cs) = dropTouching isBlank afterMark cs := by
  induction cs generalizing afterMark with
  | nil => rfl
  | cons c cs ih =>
      rw [dropBlanksBefore_cons, head?_dropBlanksBefore, dropTouching]
      cases blank : isBlank c with
      | false => simp [dropBlanksAfter, blank, ih]
      | true =>
          cases opens : opensWithMark isBlank cs with
          | true => simp [ih]
          | false => cases afterMark <;> simp [dropBlanksAfter, blank, ih]

theorem oneLine_eq_dropTouching (cs : List Char) :
    oneLine cs = dropTouching isBlank false (cs.filter fun c => !isLineBreak c) := by
  rw [oneLine, dropBlanksAfter_dropBlanksBefore]

/-! ## One part of a text after the other -/

def oneLineFrom (afterMark : Bool) (cs : List Char) : List Char :=
  dropTouching isBlank afterMark (cs.filter fun c => !isLineBreak c)

section Parts

variable {afterMark : Bool} {cs : List Char}

theorem oneLineFrom_cons {c : Char} (solid : isBlank c = false) :
    oneLineFrom afterMark (c :: cs) = c :: oneLineFrom (isMark c) cs := by
  simp [oneLineFrom, isLineBreak_of_not_blank solid, dropTouching, solid]

theorem oneLineFrom_mark {c : Char} (mark : isMark c = true) :
    oneLineFrom afterMark (c :: cs) = c :: oneLineFrom true cs := by
  rw [oneLineFrom_cons (isBlank_of_isMark mark), mark]

theorem oneLineFrom_blank {c : Char} (blank : isBlank c = true) :
    oneLineFrom true (c :: cs) = oneLineFrom true cs := by
  cases line : isLineBreak c with
  | true => simp [oneLineFrom, line]
  | false => simp [oneLineFrom, line, dropTouching, blank]

theorem oneLineFrom_blanks_append {pad : List Char} (blanks : ∀ c ∈ pad, isBlank c = true) :
    oneLineFrom true (pad ++ cs) = oneLineFrom true cs := by
  induction pad with
  | nil => rfl
  | cons c pad ih =>
      rw [List.forall_mem_cons] at blanks
      rw [List.cons_append, oneLineFrom_blank blanks.1, ih blanks.2]

private theorem opensWithMark_blanks_mark {pad : List Char}
    (blanks : ∀ c ∈ pad, isBlank c = true) {m : Char} (mark : isMark m = true) :
    opensWithMark isBlank ((pad ++ m :: cs).filter fun c => !isLineBreak c) = true := by
  induction pad with
  | nil =>
      have kept : isLineBreak m = false := isLineBreak_of_not_blank (isBlank_of_isMark mark)
      rw [List.nil_append, List.filter_cons_of_pos (by rw [kept]; rfl), opensWithMark_cons,
        isBlank_of_isMark mark]
      simpa using mark
  | cons c pad ih =>
      rw [List.forall_mem_cons] at blanks
      rw [List.cons_append, List.filter_cons]
      split
      · rw [opensWithMark_cons, if_pos blanks.1]
        exact ih blanks.2
      · exact ih blanks.2

theorem oneLineFrom_blanks_mark {pad : List Char} (blanks : ∀ c ∈ pad, isBlank c = true) {m : Char}
    (mark : isMark m = true) :
    oneLineFrom afterMark (pad ++ m :: cs) = m :: oneLineFrom true cs := by
  induction pad with
  | nil => exact oneLineFrom_mark mark
  | cons c pad ih =>
      rw [List.forall_mem_cons] at blanks
      rw [← ih blanks.2, oneLineFrom, List.cons_append, List.filter_cons]
      split
      · rw [dropTouching, blanks.1, opensWithMark_blanks_mark blanks.2 mark, Bool.or_true,
          Bool.and_true, if_pos rfl, oneLineFrom]
      · rfl

/-- A text that reads the same after a mark and after any other character. -/
def IsSettled (cs : List Char) : Prop :=
  ∀ afterMark, oneLineFrom afterMark cs = oneLineFrom true cs

theorem isSettled_nil : IsSettled [] := fun _ => rfl

theorem isSettled_mark {m : Char} (mark : isMark m = true) : IsSettled (m :: cs) := by
  intro afterMark
  rw [oneLineFrom_mark mark, oneLineFrom_mark mark]

theorem isSettled_blanks_mark {pad : List Char} (blanks : ∀ c ∈ pad, isBlank c = true) {m : Char}
    (mark : isMark m = true) : IsSettled (pad ++ m :: cs) := by
  intro afterMark
  rw [oneLineFrom_blanks_mark blanks mark, oneLineFrom_blanks_mark blanks mark]

theorem oneLineFrom_word_append {word : List Char}
    (solid : ∀ c ∈ word, isBlank c = false ∧ isMark c = false) :
    oneLineFrom afterMark (word ++ cs) = word ++ oneLineFrom (afterMark && word.isEmpty) cs := by
  induction word generalizing afterMark with
  | nil => simp
  | cons c word ih =>
      rw [List.forall_mem_cons] at solid
      rw [List.cons_append, oneLineFrom_cons solid.1.1, solid.1.2, ih solid.2]
      simp

end Parts

end SchemaWeaver.Text
