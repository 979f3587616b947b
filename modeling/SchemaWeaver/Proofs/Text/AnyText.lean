import SchemaWeaver.Proofs.Text.Runs
import Mathlib.Data.List.TakeWhile

/-!
The one-line form of any text, be it JSON or not. It is what two scans from the left leave, one that
deletes line ends and one that closes up the longest stretches of blanks, a mark and blanks. It is
the text less some of its blanks, it has no line end and no blank beside a mark, and once the line
ends are gone it keeps every maximal run of blanks that no mark touches. A text with no line end and
no blank beside a mark is its own one-line form.
-/

set_option autoImplicit false
set_option relaxedAutoImplicit false

namespace SchemaWeaver.Text

def whiteSpace : List Char :=
  ['\t', '\n', '\x0b', '\x0c', '\r', ' ', '\x85', '\xa0', '\u1680', '\u2000', '\u2001', '\u2002',
    '\u2003', '\u2004', '\u2005', '\u2006', '\u2007', '\u2008', '\u2009', '\u200a', '\u2028',
    '\u2029', '\u202f', '\u205f', '\u3000']

def lineEnds : List Char := ['\n', '\x0b', '\x0c', '\r', '\x85', '\u2028', '\u2029']

def punctuation : List Char := ['{', '}', '[', ']', ':', ',']

theorem isBlank_eq (c : Char) : isBlank c = decide (c ∈ whiteSpace) := by
  rw [Bool.eq_iff_iff]
  simp only [isBlank, whiteSpace, Bool.and_eq_true, Bool.or_eq_true, decide_eq_true_eq, beq_iff_eq,
    List.mem_cons, List.not_mem_nil, or_false, ← Char.toNat_inj, Char.reduceToNat]
  omega

theorem isLineBreak_eq (c : Char) : isLineBreak c = decide (c ∈ lineEnds) := by
  rw [Bool.eq_iff_iff]
  simp only [isLineBreak, lineEnds, Bool.and_eq_true, Bool.or_eq_true, decide_eq_true_eq,
    beq_iff_eq, List.mem_cons, List.not_mem_nil, or_false, ← Char.toNat_inj, Char.reduceToNat]
  omega

theorem isMark_eq (c : Char) : isMark c = decide (c ∈ punctuation) := by
  simp [isMark, punctuation, Bool.or_assoc]

/-! ## What a one-line form is -/

/-- Blanks are deleted from a text, and nothing else. -/
structure DeletesBlanks (text line : List Char) : Prop where
  sublist : line.Sublist text
  solid : line.filter (· ∉ whiteSpace) = text.filter (· ∉ whiteSpace)

/-- A maximal run of blanks of a text, between what stands before and after it, that no mark
touches. -/
structure IsFreeRun (text before run after : List Char) : Prop where
  parts : text = before ++ (run ++ after)
  blank : ∀ c ∈ run, c ∈ whiteSpace
  left : ∀ c ∈ before.getLast?, c ∉ whiteSpace ∧ c ∉ punctuation
  right : ∀ c ∈ after.head?, c ∉ whiteSpace ∧ c ∉ punctuation

/-- A text on one line: blanks are deleted, among them all line ends and all blanks beside marks.
The runs of blanks that no mark touches once the line ends are gone are kept where they stand. -/
structure IsOneLineOf (text line : List Char) : Prop where
  deletes : DeletesBlanks text line
  unbroken : ∀ c ∈ line, c ∉ lineEnds
  bare : line.IsChain fun c d =>
    ¬(c ∈ whiteSpace ∧ d ∈ punctuation) ∧ ¬(c ∈ punctuation ∧ d ∈ whiteSpace)
  keeps : ∀ before run after,
    IsFreeRun (text.filter (· ∉ lineEnds)) before run after →
      ∃ first last, line = first ++ (run ++ last) ∧
        DeletesBlanks before first ∧ DeletesBlanks after last

theorem DeletesBlanks.trans {text middle line : List Char} (first : DeletesBlanks text middle)
    (second : DeletesBlanks middle line) : DeletesBlanks text line :=
  ⟨second.sublist.trans first.sublist, second.solid.trans first.solid⟩

theorem deletesBlanks_of_filter {text line : List Char} (sublist : line.Sublist text)
    (solid : line.filter (fun c => !isBlank c) = text.filter fun c => !isBlank c) :
    DeletesBlanks text line := by
  refine ⟨sublist, ?_⟩
  simpa only [isBlank_eq, ← decide_not] using solid

/-! ## Deleting blanks that touch a mark -/

theorem dropTouching_sublist (afterMark : Bool) (cs : List Char) :
    (dropTouching isBlank afterMark cs).Sublist cs := by
  induction cs generalizing afterMark with
  | nil => exact .slnil
  | cons c cs ih =>
      rw [dropTouching]
      split
      · exact (ih afterMark).cons c
      · exact (ih (isMark c)).cons_cons c

theorem filter_dropTouching (afterMark : Bool) (cs : List Char) :
    (dropTouching isBlank afterMark cs).filter (fun c => !isBlank c) =
      cs.filter fun c => !isBlank c := by
  induction cs generalizing afterMark with
  | nil => rfl
  | cons c cs ih =>
      rw [dropTouching]
      split
      · next dropped =>
          rw [Bool.and_eq_true] at dropped
          rw [ih, List.filter_cons_of_neg (by simp [dropped.1])]
      · rw [List.filter_cons, List.filter_cons, ih]

/-- No blank stands beside a mark. -/
def IsBare (cs : List Char) : Prop :=
  cs.IsChain fun c d => (isBlank c && isMark d) = false ∧ (isMark c && isBlank d) = false

theorem head?_dropTouching {afterMark : Bool} {cs : List Char}
    (closed : opensWithMark isBlank cs = false) :
    ∀ c ∈ (dropTouching isBlank afterMark cs).head?, isMark c = false := by
  induction cs generalizing afterMark with
  | nil => simp [dropTouching]
  | cons d cs ih =>
      rw [opensWithMark_cons] at closed
      rw [dropTouching]
      cases here : isBlank d with
      | false =>
          rw [here, if_neg Bool.false_ne_true] at closed
          simpa using closed
      | true =>
          rw [here, if_pos rfl] at closed
          split
          · exact ih closed
          · simpa using isMark_of_isBlank here

theorem isBare_dropTouching (afterMark : Bool) (cs : List Char) :
    IsBare (dropTouching isBlank afterMark cs) ∧
      (afterMark = true → ∀ c ∈ (dropTouching isBlank afterMark cs).head?, isBlank c = false) := by
  -- The flag speaks of the character before, so what the text begins with is carried along.
  induction cs generalizing afterMark with
  | nil => exact ⟨.nil, by simp [dropTouching]⟩
  | cons c cs ih =>
      rw [dropTouching]
      split
      · exact ih afterMark
      · next kept =>
          obtain ⟨bare, start⟩ := ih (isMark c)
          refine ⟨List.isChain_cons.mpr ⟨fun d first => ⟨?_, ?_⟩, bare⟩, fun marked => ?_⟩
          · cases here : isBlank c with
            | false => rfl
            | true =>
                have closed : opensWithMark isBlank cs = false := by
                  simp only [here, Bool.true_and, Bool.or_eq_true, not_or] at kept
                  simpa using kept.2
                simpa using head?_dropTouching closed d first
          · cases here : isMark c with
            | false => rfl
            | true => simpa using start here d first
          · simpa [marked] using kept

theorem IsBare.opensWithMark_eq_false {c : Char} {cs : List Char} (bare : IsBare (c :: cs))
    (here : isBlank c = true) : opensWithMark isBlank cs = false := by
  induction cs generalizing c with
  | nil => rfl
  | cons d cs ih =>
      obtain ⟨⟨untouched, -⟩, rest⟩ := List.isChain_cons_cons.mp bare
      rw [opensWithMark_cons]
      split
      · next also => exact ih rest also
      · simpa [here] using untouched

theorem IsBare.dropTouching_eq_self {afterMark : Bool} {cs : List Char} (bare : IsBare cs)
    (start : afterMark = true → ∀ c ∈ cs.head?, isBlank c = false) :
    dropTouching isBlank afterMark cs = cs := by
  induction cs generalizing afterMark with
  | nil => rfl
  | cons c cs ih =>
      have kept : ¬(isBlank c && (afterMark || opensWithMark isBlank cs)) = true := by
        rw [Bool.and_eq_true, Bool.or_eq_true]
        rintro ⟨here, marked | opens⟩
        · simpa [here] using start marked c rfl
        · simpa [opens] using bare.opensWithMark_eq_false here
      rw [dropTouching, if_neg kept, ih bare.tail fun marked d first => ?_]
      simpa [marked] using (List.isChain_cons.mp bare).1 d first |>.2

theorem opensWithMark_of_last {before : List Char} (filled : before ≠ [])
    (solid : ∀ c ∈ before.getLast?, isBlank c = false) (cs : List Char) :
    opensWithMark isBlank (before ++ cs) = opensWithMark isBlank before := by
  have found : (before.find? fun c => !isBlank c).isSome = true := by
    rw [List.find?_isSome]
    refine ⟨before.getLast filled, List.getLast_mem filled, ?_⟩
    simpa using solid _ (List.getLast_mem_getLast? filled)
  rw [opensWithMark, List.find?_append, Option.or_of_isSome found, opensWithMark]

theorem dropTouching_append {before : List Char} (solid : ∀ c ∈ before.getLast?, isBlank c = false)
    (cs : List Char) (afterMark : Bool) :
    dropTouching isBlank afterMark (before ++ cs) =
      dropTouching isBlank afterMark before ++
        dropTouching isBlank (before.getLast?.elim afterMark isMark) cs := by
  induction before generalizing afterMark with
  | nil => rfl
  | cons c before ih =>
      cases before with
      | nil =>
          have here : isBlank c = false := solid c rfl
          simp [dropTouching, here]
      | cons d before =>
          rw [List.getLast?_cons_cons] at solid ⊢
          have opens := opensWithMark_of_last (List.cons_ne_nil d before) solid cs
          have last := List.getLast?_eq_some_getLast (List.cons_ne_nil d before)
          rw [List.cons_append, dropTouching, dropTouching, opens, ih solid, ih solid, last]
          split
          · rfl
          · rfl

/-- A run of blanks that no mark touches is kept, and what stands on its two sides is treated as if
it stood alone. -/
theorem dropTouching_freeRun {before run after : List Char}
    (left : ∀ c ∈ before.getLast?, isBlank c = false ∧ isMark c = false)
    (blanks : ∀ c ∈ run, isBlank c = true)
    (right : ∀ c ∈ after.head?, isBlank c = false ∧ isMark c = false) :
    dropTouching isBlank false (before ++ (run ++ after)) =
      dropTouching isBlank false before ++ (run ++ dropTouching isBlank false after) := by
  have unmarked : before.getLast?.elim false isMark = false := by
    cases last : before.getLast? with
    | none => rfl
    | some c => exact (left c last).2
  have free : (false || after.head?.any isMark) = false := by
    rw [Bool.false_or, Option.any_eq_false]
    exact fun c first => by simpa using (right c first).2
  rw [dropTouching_append (fun c last => (left c last).1), unmarked,
    dropTouching_blanks blanks (fun c first => (right c first).1) fun _ => isMark_of_isBlank,
    free, if_neg Bool.false_ne_true]

theorem dropTouching_of_closed {c : Char} {cs : List Char}
    (closed : opensWithMark isBlank (c :: cs) = false) :
    dropTouching isBlank false (c :: cs) = c :: dropTouching isBlank false cs := by
  rw [opensWithMark_cons] at closed
  cases here : isBlank c with
  | false =>
      rw [here, if_neg Bool.false_ne_true] at closed
      simp [dropTouching, here, closed]
  | true =>
      rw [here, if_pos rfl] at closed
      simp [dropTouching, here, closed, isMark_of_isBlank here]

/-! ## Two scans from the left -/

/-- Delete the line ends; a carriage return and the line feed after it go together. -/
def deleteLineEnds : List Char → List Char
  | [] => []
  | '\r' :: '\n' :: cs => deleteLineEnds cs
  | c :: cs => if c ∈ lineEnds then deleteLineEnds cs else c :: deleteLineEnds cs

/-- Close up the marks: from the left, each longest stretch of blanks, a mark and blanks gives way
to its mark. -/
def closeUp : List Char → List Char
  | [] => []
  | c :: cs =>
      -- No mark is a blank, so a stretch that begins here takes all the blanks there are.
      match _stretch : (c :: cs).dropWhile (· ∈ whiteSpace) with
      | [] => c :: closeUp cs
      | m :: rest =>
          if m ∈ punctuation then m :: closeUp (rest.dropWhile (· ∈ whiteSpace))
          else c :: closeUp cs
termination_by cs => cs.length
decreasing_by
  · simp
  · have shorter := (List.dropWhile_sublist (· ∈ whiteSpace) (l := c :: cs)).length_le
    have rest' := (List.dropWhile_sublist (· ∈ whiteSpace) (l := rest)).length_le
    rw [_stretch] at shorter
    simp only [List.length_cons] at shorter ⊢
    omega
  · simp

theorem deleteLineEnds_eq_filter (cs : List Char) :
    deleteLineEnds cs = cs.filter fun c => !isLineBreak c := by
  fun_induction deleteLineEnds cs with
  | case1 => rfl
  | case2 cs ih => exact ih
  | case3 c cs _ ending ih => rw [ih, List.filter_cons_of_neg (by simp [isLineBreak_eq, ending])]
  | case4 c cs _ inside ih => rw [ih, List.filter_cons_of_pos (by simp [isLineBreak_eq, inside])]

theorem opensWithMark_eq_head? (cs : List Char) :
    opensWithMark isBlank cs = (cs.dropWhile (· ∈ whiteSpace)).head?.any isMark := by
  rw [opensWithMark, ← List.find?_not_eq_head?_dropWhile]
  simp only [isBlank_eq]

theorem dropTouching_dropWhile {afterMark : Bool} {cs : List Char}
    (touched : afterMark = true ∨ opensWithMark isBlank cs = true) :
    dropTouching isBlank afterMark cs =
      dropTouching isBlank false (cs.dropWhile (· ∈ whiteSpace)) := by
  have blanks : ∀ c ∈ cs.takeWhile (· ∈ whiteSpace), isBlank c = true := fun c member => by
    simpa [isBlank_eq] using List.mem_takeWhile_imp member
  have solid : ∀ c ∈ (cs.dropWhile (· ∈ whiteSpace)).head?, isBlank c = false := fun c first => by
    rw [← List.find?_not_eq_head?_dropWhile] at first
    simpa [isBlank_eq] using List.find?_some first
  have parts := dropTouching_blanks blanks solid (fun _ => isMark_of_isBlank) afterMark
  rw [List.takeWhile_append_dropWhile, ← opensWithMark_eq_head?] at parts
  rw [parts, if_pos (by simpa using touched), List.nil_append]

theorem closeUp_eq_dropTouching (cs : List Char) : closeUp cs = dropTouching isBlank false cs := by
  fun_induction closeUp cs with
  | case1 => rfl
  | case2 c cs stretch ih =>
      have closed : opensWithMark isBlank (c :: cs) = false := by
        rw [opensWithMark_eq_head?, stretch]
        rfl
      rw [dropTouching_of_closed closed, ih]
  | case3 c cs m rest stretch mark ih =>
      have marked : isMark m = true := by simpa [isMark_eq] using mark
      have opens : opensWithMark isBlank (c :: cs) = true := by
        rw [opensWithMark_eq_head?, stretch]
        exact marked
      rw [ih, ← dropTouching_dropWhile (.inl rfl), dropTouching_dropWhile (.inr opens), stretch,
        dropTouching, isBlank_of_isMark marked, marked]
      rfl
  | case4 c cs m rest stretch other ih =>
      have closed : opensWithMark isBlank (c :: cs) = false := by
        rw [opensWithMark_eq_head?, stretch]
        simpa [isMark_eq] using other
      rw [dropTouching_of_closed closed, ih]

theorem oneLine_eq_closeUp (text : List Char) : oneLine text = closeUp (deleteLineEnds text) := by
  rw [oneLine_eq_dropTouching, deleteLineEnds_eq_filter, closeUp_eq_dropTouching]

/-! ## The one-line form -/

theorem deletesBlanks_dropTouching (afterMark : Bool) (cs : List Char) :
    DeletesBlanks cs (dropTouching isBlank afterMark cs) :=
  deletesBlanks_of_filter (dropTouching_sublist afterMark cs) (filter_dropTouching afterMark cs)

theorem deletesBlanks_lineEnds (text : List Char) :
    DeletesBlanks text (text.filter fun c => !isLineBreak c) := by
  refine deletesBlanks_of_filter List.filter_sublist ?_
  rw [List.filter_filter]
  refine List.filter_congr fun c _ => ?_
  cases solid : isBlank c with
  | false => rw [isLineBreak_of_not_blank solid]; rfl
  | true => rfl

theorem deletesBlanks_oneLine (text : List Char) : DeletesBlanks text (oneLine text) := by
  rw [oneLine_eq_dropTouching]
  exact (deletesBlanks_lineEnds text).trans (deletesBlanks_dropTouching false _)

theorem isLineBreak_of_mem_oneLine {text : List Char} :
    ∀ c ∈ oneLine text, isLineBreak c = false := by
  intro c member
  rw [oneLine_eq_dropTouching] at member
  simpa using (List.mem_filter.mp ((dropTouching_sublist false _).subset member)).2

theorem isBare_oneLine (text : List Char) : IsBare (oneLine text) := by
  rw [oneLine_eq_dropTouching]
  exact (isBare_dropTouching false _).1

theorem oneLine_eq_self {line : List Char} (unbroken : ∀ c ∈ line, isLineBreak c = false)
    (bare : IsBare line) : oneLine line = line := by
  have whole : line.filter (fun c => !isLineBreak c) = line :=
    List.filter_eq_self.mpr fun c member => by simpa using unbroken c member
  rw [oneLine_eq_dropTouching, whole, bare.dropTouching_eq_self (by simp)]

theorem oneLine_freeRun {text before run after : List Char}
    (free : IsFreeRun (text.filter (· ∉ lineEnds)) before run after) :
    oneLine text =
      dropTouching isBlank false before ++ (run ++ dropTouching isBlank false after) := by
  have solid (c : Char) (other : c ∉ whiteSpace ∧ c ∉ punctuation) :
      isBlank c = false ∧ isMark c = false := by
    simpa [isBlank_eq, isMark_eq] using other
  have flat : text.filter (fun c => !isLineBreak c) = before ++ (run ++ after) := by
    rw [← free.parts]
    simp only [isLineBreak_eq, decide_not]
  rw [oneLine_eq_dropTouching, flat]
  exact dropTouching_freeRun (fun c last => solid c (free.left c last))
    (fun c member => by simpa [isBlank_eq] using free.blank c member)
    (fun c first => solid c (free.right c first))

/-- The one-line form of a text is what the two scans leave, it is the text on one line, and it is
its own one-line form. -/
theorem isOneLineOf_oneLine (text : List Char) :
    oneLine text = closeUp (deleteLineEnds text) ∧ IsOneLineOf text (oneLine text) ∧
      oneLine (oneLine text) = oneLine text := by
  refine ⟨oneLine_eq_closeUp text, ⟨deletesBlanks_oneLine text, ?_, ?_, ?_⟩,
    oneLine_eq_self isLineBreak_of_mem_oneLine (isBare_oneLine text)⟩
  · intro c member
    simpa [isLineBreak_eq] using isLineBreak_of_mem_oneLine c member
  · refine (isBare_oneLine text).imp fun c d beside => ?_
    simpa [isBlank_eq, isMark_eq] using beside
  · intro before run after free
    exact ⟨_, _, oneLine_freeRun free, deletesBlanks_dropTouching false before,
      deletesBlanks_dropTouching false after⟩

theorem isOneLineOf_oneLine_joined :
    IsFreeRun (['a', ' ', '\n', ' ', 'b', ' ', ','].filter (· ∉ lineEnds)) ['a'] [' ', ' ']
        ['b', ' ', ','] ∧
      ∃ first last, oneLine ['a', ' ', '\n', ' ', 'b', ' ', ','] = first ++ ([' ', ' '] ++ last) ∧
        DeletesBlanks ['a'] first ∧ DeletesBlanks ['b', ' ', ','] last := by
  have free : IsFreeRun (['a', ' ', '\n', ' ', 'b', ' ', ','].filter (· ∉ lineEnds)) ['a']
      [' ', ' '] ['b', ' ', ','] := by
    constructor <;> simp [lineEnds, whiteSpace, punctuation]
  exact ⟨free, (isOneLineOf_oneLine _).2.1.keeps _ _ _ free⟩

example : oneLine "[ a \n b ,\r\n\u2028 c ]".toList = "[a  b,c]".toList := by decide +kernel

end SchemaWeaver.Text
