import SchemaWeaver.Proofs.Text.Cuts

/-!
The lines of a text, and comparisons of two texts of which the second has some lines more. A
comparison lists the lines of the second text and tells which of them are new. Comparisons of texts
that consist of whole lines can be put one after the other.
-/

set_option autoImplicit false
set_option relaxedAutoImplicit false

namespace SchemaWeaver.Text

/-- The lines of a text, which line feeds stand between. -/
def lines (cs : List Char) : List (List Char) := splitAt (fun c => c = '\n') cs

theorem lines_append_newline (cs ds : List Char) :
    lines (cs ++ '\n' :: ds) = lines cs ++ lines ds :=
  splitAt_append_cons (by simp) cs ds

theorem lines_of_notMem {cs : List Char} (single : '\n' ∉ cs) : lines cs = [cs] := by
  apply splitAt_of_forall
  intro c member
  rw [decide_eq_false_iff_not]
  rintro rfl
  exact single member

theorem length_lines (cs : List Char) : (lines cs).length = cs.count '\n' + 1 := by
  induction cs with
  | nil => rfl
  | cons c cs ih =>
      by_cases newline : c = '\n'
      · subst newline
        have split := lines_append_newline [] cs
        rw [List.nil_append] at split
        rw [split, List.length_append, ih, List.count_cons_self, lines_of_notMem (by simp)]
        simp only [List.length_singleton]
        omega
      · obtain ⟨first, others, found⟩ := List.exists_cons_of_ne_nil
          (splitAt_ne_nil (fun c => c = '\n') cs)
        rw [List.count_cons_of_ne newline, ← ih, lines, lines, splitAt, found]
        simp [newline]

theorem exists_lines_append {cs : List Char} (single : '\n' ∉ cs) (ds : List Char) :
    ∃ first others, lines (cs ++ ds) = (cs ++ first) :: others := by
  induction cs with
  | nil => exact List.exists_cons_of_ne_nil (splitAt_ne_nil _ ds)
  | cons c cs ih =>
      rw [List.mem_cons, not_or] at single
      obtain ⟨first, others, found⟩ := ih single.2
      refine ⟨first, others, ?_⟩
      have other : ¬c = '\n' := fun same => single.1 same.symm
      rw [lines] at found
      rw [lines, List.cons_append, splitAt, found]
      simp [other]

/-- A line of a comparison: it stands in both texts, or only in the second one. -/
inductive DiffLine where
  | kept (line : List Char)
  | added (line : List Char)

namespace DiffLine

def text : DiffLine → List Char
  | kept line => line
  | added line => line

def kept? : DiffLine → Option (List Char)
  | kept line => some line
  | added _ => none

def added? : DiffLine → Option (List Char)
  | kept _ => none
  | added line => some line

@[simp]
theorem map_text_kept (cs : List (List Char)) : (cs.map kept).map text = cs := by
  simp [Function.comp_def, text]

@[simp]
theorem map_text_added (cs : List (List Char)) : (cs.map added).map text = cs := by
  simp [Function.comp_def, text]

@[simp]
theorem filterMap_kept?_kept (cs : List (List Char)) : (cs.map kept).filterMap kept? = cs := by
  simp [List.filterMap_map, Function.comp_def, kept?]

@[simp]
theorem filterMap_kept?_added (cs : List (List Char)) : (cs.map added).filterMap kept? = [] := by
  simp [List.filterMap_map, Function.comp_def, kept?]

@[simp]
theorem filterMap_added?_kept (cs : List (List Char)) : (cs.map kept).filterMap added? = [] := by
  simp [List.filterMap_map, Function.comp_def, added?]

@[simp]
theorem filterMap_added?_added (cs : List (List Char)) :
    (cs.map added).filterMap added? = cs := by
  simp [List.filterMap_map, Function.comp_def, added?]

section Items

variable {α : Type} (write : α → List Char) (items : List α)

theorem filterMap_added?_flatMap_kept :
    (items.flatMap fun a => (lines (write a)).map kept).filterMap added? = [] := by
  rw [List.filterMap_flatMap]
  simp only [filterMap_added?_kept]
  exact List.flatMap_eq_nil_iff.mpr fun _ _ => rfl

theorem filterMap_added?_flatMap_added :
    (items.flatMap fun a => (lines (write a)).map added).filterMap added? =
      items.flatMap fun a => lines (write a) := by
  rw [List.filterMap_flatMap]
  simp only [filterMap_added?_added]

end Items

end DiffLine

open DiffLine

/-- A comparison of two lists of lines, in which every line of the first one is kept. -/
structure IsDiff (diff : List DiffLine) (before after : List (List Char)) : Prop where
  old : diff.filterMap kept? = before
  new : diff.map text = after

namespace IsDiff

variable {diff : List DiffLine} {before after : List (List Char)}

theorem sublist (isDiff : IsDiff diff before after) : before.Sublist after := by
  obtain ⟨rfl, rfl⟩ := isDiff
  induction diff with
  | nil => exact .slnil
  | cons line diff ih =>
      cases line with
      | kept line => exact ih.cons_cons line
      | added line => exact ih.cons line

theorem length_eq (isDiff : IsDiff diff before after) :
    after.length = before.length + (diff.filterMap added?).length := by
  obtain ⟨rfl, rfl⟩ := isDiff
  induction diff with
  | nil => rfl
  | cons line diff ih =>
      cases line with
      | kept line =>
          simp only [List.map_cons, List.length_cons, List.filterMap_cons, kept?, added?, ih]
          omega
      | added line =>
          simp only [List.map_cons, List.length_cons, List.filterMap_cons, kept?, added?, ih]
          omega

end IsDiff

/-- A comparison of two texts that consist of whole lines: it holds in front of any text. -/
structure Grows (diff : List DiffLine) (before after : List Char) : Prop where
  old : ∀ rest, lines (before ++ rest) = diff.filterMap kept? ++ lines rest
  new : ∀ rest, lines (after ++ rest) = diff.map text ++ lines rest

namespace Grows

theorem nil : Grows [] [] [] := ⟨fun _ => rfl, fun _ => rfl⟩

theorem append {diff diff' : List DiffLine} {before before' after after' : List Char}
    (first : Grows diff before after) (second : Grows diff' before' after') :
    Grows (diff ++ diff') (before ++ before') (after ++ after') := by
  constructor
  · intro rest
    rw [List.append_assoc, first.old, second.old, List.filterMap_append, List.append_assoc]
  · intro rest
    rw [List.append_assoc, first.new, second.new, List.map_append, List.append_assoc]

theorem keep (cs : List Char) : Grows ((lines cs).map kept) (cs ++ ['\n']) (cs ++ ['\n']) := by
  constructor
  · intro rest
    rw [List.append_assoc, List.singleton_append, lines_append_newline, filterMap_kept?_kept]
  · intro rest
    rw [List.append_assoc, List.singleton_append, lines_append_newline, map_text_kept]

theorem add (cs : List Char) : Grows ((lines cs).map added) [] (cs ++ ['\n']) := by
  constructor
  · intro rest
    rw [filterMap_kept?_added]
    rfl
  · intro rest
    rw [List.append_assoc, List.singleton_append, lines_append_newline, map_text_added]

section Items

variable {α : Type} (write : α → List Char)

theorem keepAll (items : List α) :
    Grows (items.flatMap fun a => (lines (write a)).map kept)
      (items.flatMap fun a => write a ++ ['\n']) (items.flatMap fun a => write a ++ ['\n']) := by
  induction items with
  | nil => exact nil
  | cons a items ih =>
      simp only [List.flatMap_cons]
      exact (keep (write a)).append ih

theorem addAll (items : List α) :
    Grows (items.flatMap fun a => (lines (write a)).map added) []
      (items.flatMap fun a => write a ++ ['\n']) := by
  induction items with
  | nil => exact nil
  | cons a items ih =>
      simp only [List.flatMap_cons]
      exact (add (write a)).append ih

end Items

variable {diff : List DiffLine} {before after : List Char}

theorem count_newline (whole : Grows diff before after) : after.count '\n' = diff.length := by
  have all := congrArg List.length (whole.new [])
  rw [List.append_nil, length_lines, List.length_append, List.length_map, length_lines,
    List.count_nil] at all
  omega

theorem isDiff (whole : Grows diff before after) :
    IsDiff (diff ++ [kept []]) (lines before) (lines after) := by
  have old := whole.old []
  have new := whole.new []
  rw [List.append_nil] at old new
  constructor
  · rw [old, List.filterMap_append]
    rfl
  · rw [new, List.map_append]
    rfl

end Grows

end SchemaWeaver.Text
