import SchemaWeaver.Proofs.Text.OneLine
import Mathlib.Data.List.SplitBy

/-!
The maximal runs of blanks in a text. Deleting blanks that touch a mark in one pass is deleting
every run of blanks that touches a mark, as a whole.
-/

set_option autoImplicit false
set_option relaxedAutoImplicit false

namespace SchemaWeaver.Text

/-- The maximal runs of blanks and the maximal runs of other characters, in order. -/
def runs (blank : Char → Bool) (cs : List Char) : List (List Char) :=
  cs.splitBy fun c d => blank c == blank d

/-- Leave out the runs of blanks that touch a mark, where `before` is the run that precedes. -/
def keptRuns (blank : Char → Bool) : List Char → List (List Char) → List (List Char)
  | _, [] => []
  | before, run :: later =>
      let touches := before.getLast?.any isMark || later.flatten.head?.any isMark
      if run.all blank && touches then keptRuns blank run later
      else run :: keptRuns blank run later

def withoutTouching (blank : Char → Bool) (cs : List Char) : List Char :=
  (keptRuns blank [] (runs blank cs)).flatten

variable {blank : Char → Bool} {cs : List Char}

private theorem dropTouching_of_head (solid : ∀ c ∈ cs.head?, blank c = false)
    (first second : Bool) : dropTouching blank first cs = dropTouching blank second cs := by
  cases cs with
  | nil => rfl
  | cons c cs =>
      have here : blank c = false := solid c rfl
      simp [dropTouching, here]

private theorem opensWithMark_append {run : List Char} (blanks : ∀ c ∈ run, blank c = true)
    (solid : ∀ c ∈ cs.head?, blank c = false) :
    opensWithMark blank (run ++ cs) = cs.head?.any isMark := by
  induction run with
  | nil =>
      cases cs with
      | nil => rfl
      | cons c cs =>
          have here : blank c = false := solid c rfl
          rw [List.nil_append, opensWithMark_cons, here]
          simp
  | cons c run ih =>
      rw [List.forall_mem_cons] at blanks
      rw [List.cons_append, opensWithMark_cons, if_pos blanks.1, ih blanks.2]

theorem dropTouching_blanks {run : List Char} (blanks : ∀ c ∈ run, blank c = true)
    (solid : ∀ c ∈ cs.head?, blank c = false) (apart : ∀ c, blank c = true → isMark c = false)
    (afterMark : Bool) :
    dropTouching blank afterMark (run ++ cs) =
      (if afterMark || cs.head?.any isMark then [] else run) ++ dropTouching blank false cs := by
  induction run generalizing afterMark with
  | nil =>
      rw [ite_self, List.nil_append]
      exact dropTouching_of_head solid _ _
  | cons c run ih =>
      rw [List.forall_mem_cons] at blanks
      rw [List.cons_append, dropTouching, opensWithMark_append blanks.2 solid, blanks.1,
        Bool.true_and]
      cases touches : afterMark || cs.head?.any isMark with
      | true =>
          have rest := ih blanks.2 afterMark
          rw [touches] at rest
          exact rest
      | false =>
          have rest := ih blanks.2 (isMark c)
          rw [Bool.or_eq_false_iff] at touches
          rw [apart c blanks.1, touches.2] at rest
          rw [apart c blanks.1]
          simpa using rest

private theorem dropTouching_solid {run : List Char} (filled : run ≠ [])
    (solid : ∀ c ∈ run, blank c = false) (afterMark : Bool) :
    dropTouching blank afterMark (run ++ cs) =
      run ++ dropTouching blank (run.getLast?.any isMark) cs := by
  induction run generalizing afterMark with
  | nil => exact absurd rfl filled
  | cons c run ih =>
      rw [List.forall_mem_cons] at solid
      rw [List.cons_append, dropTouching, solid.1, Bool.false_and, if_neg Bool.false_ne_true]
      cases run with
      | nil => simp
      | cons d run =>
          rw [ih (by simp) solid.2, List.getLast?_cons_cons]
          rfl

private theorem forall_blank_eq {c : Char} {run : List Char}
    (chain : (c :: run).IsChain fun c d => (blank c == blank d) = true) :
    ∀ d ∈ c :: run, blank d = blank c := by
  induction run generalizing c with
  | nil => simp
  | cons d run ih =>
      rw [List.isChain_cons_cons, beq_iff_eq] at chain
      rw [List.forall_mem_cons]
      refine ⟨rfl, fun e member => ?_⟩
      rw [ih chain.2 e member, chain.1]

/-- Runs that alternate, none of them empty and each of one kind. -/
structure AreRuns (blank : Char → Bool) (list : List (List Char)) : Prop where
  filled : [] ∉ list
  uniform : ∀ run ∈ list, run.IsChain fun c d => (blank c == blank d) = true
  apart : list.IsChain fun run next =>
    ∃ filled filled', (blank (run.getLast filled) == blank (next.head filled')) = false

theorem areRuns_runs (blank : Char → Bool) (cs : List Char) : AreRuns blank (runs blank cs) :=
  ⟨List.nil_notMem_splitBy _ cs, fun _ => List.isChain_of_mem_splitBy,
    List.isChain_getLast_head_splitBy (fun c d => blank c == blank d) cs⟩

private theorem AreRuns.head_flatten {c : Char} {run : List Char} {later : List (List Char)}
    (are : AreRuns blank ((c :: run) :: later)) :
    ∀ d ∈ later.flatten.head?, blank d ≠ blank c := by
  obtain ⟨filled, uniform, apart⟩ := are
  cases later with
  | nil => simp
  | cons next later =>
      rw [List.isChain_cons_cons] at apart
      obtain ⟨⟨_, nonempty, different⟩, -⟩ := apart
      intro d first
      obtain ⟨e, next, rfl⟩ := List.exists_cons_of_ne_nil nonempty
      have same : d = e := by simpa [eq_comm] using first
      have kind := forall_blank_eq (uniform _ List.mem_cons_self) _ (List.getLast_mem (by simp))
      rw [List.head_cons, kind, beq_eq_false_iff_ne] at different
      rw [same]
      exact different.symm

private theorem dropTouching_flatten (marks : ∀ c, blank c = true → isMark c = false)
    (list : List (List Char)) (are : AreRuns blank list) (before : List Char) :
    dropTouching blank (before.getLast?.any isMark) list.flatten =
      (keptRuns blank before list).flatten := by
  induction list generalizing before with
  | nil => rfl
  | cons run later ih =>
      have rest : AreRuns blank later :=
        ⟨fun member => are.filled (List.mem_cons_of_mem _ member),
          fun run member => are.uniform run (List.mem_cons_of_mem _ member), are.apart.tail⟩
      have nonempty : run ≠ [] := by
        rintro rfl
        exact are.filled List.mem_cons_self
      obtain ⟨c, run, rfl⟩ := List.exists_cons_of_ne_nil nonempty
      have kind := forall_blank_eq (are.uniform _ List.mem_cons_self)
      have after := are.head_flatten
      rw [List.flatten_cons, keptRuns]
      cases here : blank c with
      | true =>
          have blanks : ∀ d ∈ c :: run, blank d = true := fun d member => (kind d member).trans here
          have unmarked : (c :: run).getLast?.any isMark = false := by
            rw [List.getLast?_eq_some_getLast (by simp), Option.any_some]
            exact marks _ (blanks _ (List.getLast_mem _))
          have solid : ∀ d ∈ later.flatten.head?, blank d = false := by
            intro d first
            simpa [here] using after d first
          have tail := ih rest (c :: run)
          rw [unmarked] at tail
          rw [dropTouching_blanks blanks solid marks, tail, List.all_eq_true.mpr blanks,
            Bool.true_and]
          split <;> rfl
      | false =>
          have solid : ∀ d ∈ c :: run, blank d = false := fun d member => (kind d member).trans here
          rw [dropTouching_solid (by simp) solid, ih rest (c :: run)]
          simp [here]

/-- Deleting the blanks that touch a mark is deleting the runs of blanks that do. -/
theorem dropTouching_eq_withoutTouching (marks : ∀ c, blank c = true → isMark c = false)
    (cs : List Char) : dropTouching blank false cs = withoutTouching blank cs := by
  have whole := dropTouching_flatten marks (runs blank cs) (areRuns_runs blank cs) []
  rwa [runs, List.flatten_splitBy] at whole

end SchemaWeaver.Text
