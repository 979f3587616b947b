import SchemaWeaver.Proofs.Text.Cuts
import SchemaWeaver.Source.Import
import SchemaWeaver.Source.Text

/-!
The grammar of imports, said without the reader, and the reader against it: a text is read as
an import exactly if it spells that import. What was read is written as a text that reads as the
same again, and so is every import whose parts fit the grammar.
-/

set_option autoImplicit false
set_option relaxedAutoImplicit false

namespace SchemaWeaver.Source

open Text

/-! ## The grammar -/

structure IsModule (components : List (List Char)) : Prop where
  named : components ≠ []
  filled : ∀ component ∈ components, component ≠ []
  whole : ∀ component ∈ components, '.' ∉ component

/-- A path is a module, or an organisation and a module with the first slash between them. -/
inductive IsPath : List Char → Option (List Char) → List (List Char) → Prop
  | module {components : List (List Char)} (module : IsModule components)
      (unslashed : '/' ∉ join ['.'] components) :
      IsPath (join ['.'] components) none components
  | ofOrg {org : List Char} {components : List (List Char)} (filled : org ≠ [])
      (first : '/' ∉ org) (module : IsModule components) :
      IsPath (org ++ '/' :: join ['.'] components) (some org) components

/-- The words between `import` and the semicolon. -/
def phrase (path : List Char) : Option (List Char) → List (List Char)
  | none => [path]
  | some name => [path, ['a', 's'], name]

def Import.ofParts (org : Option (List Char)) (components : List (List Char))
    (name : Option (List Char)) : Import :=
  ⟨org.map String.ofList, components.map String.ofList, name.map String.ofList⟩

/-- A text spells an import: apart from blanks around it, it is the word `import`, a body that
starts with a blank, and a semicolon. -/
inductive Spells : List Char → Import → Prop
  | parts (before body after : List Char) {path : List Char} {org name : Option (List Char)}
      {components : List (List Char)} (leading : IsGap before) (trailing : IsGap after)
      (opens : body.head?.any isBlank = true) (worded : Worded body (phrase path name))
      (isPath : IsPath path org components) :
      Spells (before ++ (("import".toList ++ (body ++ [';'])) ++ after))
        (Import.ofParts org components name)

/-- An import whose parts fit the grammar. -/
structure Import.IsPlain (i : Import) : Prop where
  org : ∀ org ∈ i.org, org ≠ "" ∧ ∀ c ∈ org.toList, isBlank c = false ∧ c ≠ '/'
  named : i.path ≠ []
  path : ∀ component ∈ i.path,
    component ≠ "" ∧ ∀ c ∈ component.toList, isBlank c = false ∧ c ≠ '.'
  unslashed : i.org = none → ∀ component ∈ i.path, '/' ∉ component.toList
  asName : ∀ name ∈ i.asName, name ≠ "" ∧ ∀ c ∈ name.toList, isBlank c = false

/-! ## Reading -/

theorem importBody?_eq_some_iff {text body : List Char} :
    importBody? text = some body ↔
      body.head?.any isBlank = true ∧ ∃ before after, IsGap before ∧ IsGap after ∧
        text = before ++ (("import".toList ++ (body ++ [';'])) ++ after) := by
  constructor
  · intro found
    unfold importBody? at found
    split at found
    · cases found
    · rename_i rest opening
      split at found
      · cases found
      · rename_i inner final
        split at found
        · rename_i opens
          cases found
          obtain ⟨before, after, leading, trailing, same⟩ := exists_eq_append_trim text
          rw [afterOpening_eq_some_iff.mp opening, beforeFinal_eq_some_iff.mp final] at same
          exact ⟨opens, before, after, leading, trailing, same⟩
        · cases found
  · rintro ⟨opens, before, after, leading, trailing, rfl⟩
    have tight : IsTight ("import".toList ++ (body ++ [';'])) := by
      constructor
      · intro c first
        obtain rfl : 'i' = c := by simpa using first
        rfl
      · intro c last
        rw [← List.append_assoc, List.getLast?_concat, Option.mem_some] at last
        rw [← last]
        rfl
    have trimmed := trim_eq_of_isTight leading trailing tight (by simp)
    have opening := afterOpening_eq_some_iff.mpr (rfl :
      "import".toList ++ (body ++ [';']) = "import".toList ++ (body ++ [';']))
    have final := beforeFinal_eq_some_iff.mpr (rfl : body ++ [';'] = body ++ [';'])
    simp only [importBody?, trimmed, opening, final, opens, if_true]

theorem isModule_splitAt_iff (module : List Char) :
    IsModule (splitAt (fun c => c = '.') module) ↔
      (modulePath module).any String.isEmpty = false := by
  have pieces := splitAt_eq_iff.mp (rfl : splitAt (fun c => c = '.') module = _)
  have empty (component : List Char) :
      (String.ofList component).isEmpty = false ↔ component ≠ [] := by
    rw [← Bool.not_eq_true, String.isEmpty_iff, String.ofList_eq_empty_iff]
  rw [modulePath, List.any_map, List.any_eq_false]
  constructor
  · intro module component member
    have filled := (empty component).mpr (module.filled component member)
    simpa using filled
  · intro filled
    refine ⟨pieces.2.1, fun component member => ?_, pieces.2.2⟩
    apply (empty component).mp
    simpa using filled component member

theorem isPath_iff {path : List Char} {org : Option (List Char)} {components : List (List Char)} :
    IsPath path org components ↔
      (cutAt '/' path = none ∧ org = none ∧ splitAt (fun c => c = '.') path = components ∧
        IsModule components) ∨
      ∃ before module, cutAt '/' path = some (before, module) ∧ org = some before ∧ before ≠ [] ∧
        splitAt (fun c => c = '.') module = components ∧ IsModule components := by
  constructor
  · intro isPath
    cases isPath with
    | module module unslashed =>
        exact Or.inl ⟨cutAt_eq_none_iff.mpr unslashed, rfl,
          splitAt_eq_iff.mpr ⟨rfl, module.named, module.whole⟩, module⟩
    | ofOrg filled first module =>
        exact Or.inr ⟨_, _, cutAt_eq_some_iff.mpr ⟨rfl, first⟩, rfl, filled,
          splitAt_eq_iff.mpr ⟨rfl, module.named, module.whole⟩, module⟩
  · rintro (⟨uncut, rfl, split, module⟩ | ⟨before, inner, cut, rfl, filled, split, module⟩)
    · obtain ⟨rfl, -, -⟩ := splitAt_eq_iff.mp split
      exact .module module (cutAt_eq_none_iff.mp uncut)
    · obtain ⟨rfl, -, -⟩ := splitAt_eq_iff.mp split
      obtain ⟨rfl, first⟩ := cutAt_eq_some_iff.mp cut
      exact .ofOrg filled first module

theorem importOf?_eq_some_iff {path : List Char} {name : Option (List Char)} {i : Import} :
    importOf? path name = some i ↔
      ∃ org components, IsPath path org components ∧ i = Import.ofParts org components name := by
  simp only [isPath_iff]
  unfold importOf?
  cases cut : cutAt '/' path with
  | none =>
      have module := isModule_splitAt_iff path
      constructor
      · intro found
        simp only [reduceCtorEq, decide_false, Bool.false_or] at found
        split at found
        · cases found
        · rename_i filled
          cases found
          exact ⟨none, _, Or.inl ⟨rfl, rfl, rfl, module.mpr (Bool.eq_false_iff.mpr filled)⟩, rfl⟩
      · rintro ⟨org, components, ⟨-, rfl, rfl, isModule⟩ | ⟨before, inner, other, -⟩, rfl⟩
        · simp only [module.mp isModule, reduceCtorEq, decide_false, Bool.false_or,
            Bool.false_eq_true, if_false]
          rfl
        · cases other
  | some parts =>
      obtain ⟨before, inner⟩ := parts
      have module := isModule_splitAt_iff inner
      have named : some (String.ofList before) = some "" ↔ before = [] := by
        rw [Option.some.injEq, String.ofList_eq_empty_iff]
      constructor
      · intro found
        simp only at found
        split at found
        · cases found
        · rename_i filled
          cases found
          rw [Bool.or_eq_true, decide_eq_true_eq, not_or, named] at filled
          exact ⟨some before, _, Or.inr ⟨before, inner, rfl, rfl, filled.1, rfl,
            module.mpr (Bool.eq_false_iff.mpr filled.2)⟩, rfl⟩
      · rintro ⟨org, components, ⟨other, -⟩ | ⟨before', inner', same, rfl, filled, rfl, isModule⟩,
          rfl⟩
        · cases other
        · cases same
          simp only [module.mp isModule, named, filled, decide_false, Bool.false_or,
            Bool.false_eq_true, if_false]
          rfl

theorem read?_eq_some_iff_words {text : List Char} {i : Import} :
    Import.read? text = some i ↔ ∃ body path name, importBody? text = some body ∧
      words body = phrase path name ∧ importOf? path name = some i := by
  unfold Import.read?
  constructor
  · intro found
    split at found
    · cases found
    · rename_i body bodyFound
      split at found
      · rename_i path worded
        exact ⟨body, path, none, bodyFound, worded, found⟩
      · rename_i path connective name worded
        split at found
        · rename_i connects
          rw [connects] at worded
          exact ⟨body, path, some name, bodyFound, worded, found⟩
        · cases found
      · cases found
  · rintro ⟨body, path, name, bodyFound, worded, found⟩
    cases name with
    | none => simpa [bodyFound, worded, phrase] using found
    | some name => simpa [bodyFound, worded, phrase] using found

/-- The reader accepts what the grammar allows, and reads it as the grammar says. -/
theorem read?_eq_some_iff_spells {text : List Char} {i : Import} :
    Import.read? text = some i ↔ Spells text i := by
  rw [read?_eq_some_iff_words]
  constructor
  · rintro ⟨body, path, name, bodyFound, worded, found⟩
    obtain ⟨opens, before, after, leading, trailing, rfl⟩ := importBody?_eq_some_iff.mp bodyFound
    obtain ⟨org, components, isPath, rfl⟩ := importOf?_eq_some_iff.mp found
    exact .parts before body after leading trailing opens (words_eq_iff.mp worded) isPath
  · intro spells
    cases spells with
    | @parts before body after path org name components leading trailing opens worded isPath =>
        refine ⟨body, path, name, ?_, worded.words_eq, ?_⟩
        · exact importBody?_eq_some_iff.mpr ⟨opens, before, after, leading, trailing, rfl⟩
        · exact importOf?_eq_some_iff.mpr ⟨org, components, isPath, rfl⟩

/-! ## Writing -/

private theorem ofList_ne_empty {cs : List Char} (filled : cs ≠ []) : String.ofList cs ≠ "" := by
  rwa [ne_eq, String.ofList_eq_empty_iff]

theorem Spells.isPlain {text : List Char} {i : Import} (spells : Spells text i) : i.IsPlain := by
  cases spells with
  | @parts before body after path org name components leading trailing opens worded isPath =>
      have solid := worded.forall_mem
      have pathSolid : ∀ c ∈ path, isBlank c = false := by
        cases name with
        | none => exact (solid path List.mem_cons_self).2
        | some name => exact (solid path List.mem_cons_self).2
      have module : IsModule components ∧ (∀ component ∈ components, component ⊆ path) := by
        cases isPath with
        | module module _ => exact ⟨module, fun component => mem_join_of_mem ['.']⟩
        | ofOrg _ _ module =>
            refine ⟨module, fun component member c inside => ?_⟩
            have found := mem_join_of_mem ['.'] member inside
            exact List.mem_append_right _ (List.mem_cons_of_mem _ found)
      constructor
      · intro text given
        cases isPath with
        | module _ _ => cases given
        | @ofOrg org components filled first module =>
            obtain rfl : String.ofList org = text := by simpa [Import.ofParts] using given
            refine ⟨ofList_ne_empty filled, fun c member => ?_⟩
            rw [String.toList_ofList] at member
            refine ⟨pathSolid c (List.mem_append_left _ member), ?_⟩
            rintro rfl
            exact first member
      · simpa [Import.ofParts] using module.1.named
      · intro text given
        obtain ⟨component, member, rfl⟩ := List.mem_map.mp given
        refine ⟨ofList_ne_empty (module.1.filled component member), fun c inside => ?_⟩
        rw [String.toList_ofList] at inside
        refine ⟨pathSolid c (module.2 component member inside), ?_⟩
        rintro rfl
        exact module.1.whole component member inside
      · intro bare text given
        cases isPath with
        | @module components module unslashed =>
            obtain ⟨component, member, rfl⟩ := List.mem_map.mp given
            rw [String.toList_ofList]
            exact fun inside => unslashed (mem_join_of_mem ['.'] member inside)
        | ofOrg _ _ _ => cases bare
      · intro text given
        cases name with
        | none => cases given
        | some name =>
            obtain rfl : String.ofList name = text := by simpa [Import.ofParts] using given
            have known := solid name (by simp [phrase])
            exact ⟨ofList_ne_empty known.1, by simpa using known.2⟩

def Import.pathText (i : Import) : List Char :=
  match i.org with
  | none => i.moduleText
  | some org => org.toList ++ '/' :: i.moduleText

def Import.nameText (i : Import) : List Char :=
  match i.asName with
  | none => []
  | some name => ' ' :: (['a', 's'] ++ ' ' :: name.toList)

theorem Import.text_eq (i : Import) :
    i.text = "import".toList ++ ((' ' :: (i.pathText ++ i.nameText)) ++ [';']) := by
  have opening : "import ".toList = "import".toList ++ [' '] := rfl
  have connective : " as ".toList = [' ', 'a', 's', ' '] := rfl
  unfold text pathText nameText
  rw [opening, connective]
  cases i.org <;> cases i.asName <;>
    simp only [List.append_assoc, List.cons_append, List.nil_append, List.append_nil]

theorem Import.ofParts_toList (i : Import) :
    Import.ofParts (i.org.map String.toList) (i.path.map String.toList)
      (i.asName.map String.toList) = i := by
  obtain ⟨org, path, asName⟩ := i
  cases org <;> cases asName <;> simp [ofParts, Function.comp_def]

namespace Import.IsPlain

variable {i : Import} (plain : i.IsPlain)

include plain

theorem isModule : IsModule (i.path.map String.toList) where
  named := by simpa using plain.named
  filled := by
    intro component member
    obtain ⟨text, given, rfl⟩ := List.mem_map.mp member
    simpa using (plain.path text given).1
  whole := by
    intro component member point
    obtain ⟨text, given, rfl⟩ := List.mem_map.mp member
    exact ((plain.path text given).2 '.' point).2 rfl

theorem isPath : IsPath i.pathText (i.org.map String.toList) (i.path.map String.toList) := by
  unfold pathText moduleText
  cases given : i.org with
  | none =>
      refine .module plain.isModule fun slash => ?_
      rcases exists_mem_of_mem_join slash with point | ⟨component, member, inside⟩
      · cases List.mem_singleton.mp point
      · obtain ⟨text, found, rfl⟩ := List.mem_map.mp member
        exact plain.unslashed given text found inside
  | some org =>
      have known := plain.org org given
      refine .ofOrg (by simpa using known.1) (fun slash => ?_) plain.isModule
      exact (known.2 '/' slash).2 rfl

theorem isBlank_pathText : ∀ c ∈ i.pathText, isBlank c = false := by
  have inModule : ∀ c ∈ i.moduleText, isBlank c = false := by
    intro c member
    rcases exists_mem_of_mem_join member with point | ⟨component, found, inside⟩
    · rw [List.mem_singleton.mp point]
      rfl
    · obtain ⟨text, given, rfl⟩ := List.mem_map.mp found
      exact ((plain.path text given).2 c inside).1
  unfold pathText
  split
  · exact inModule
  · rename_i org given
    intro c member
    rcases List.mem_append.mp member with inOrg | rest
    · exact ((plain.org org given).2 c inOrg).1
    · rcases List.mem_cons.mp rest with rfl | inside
      · rfl
      · exact inModule c inside

theorem pathText_ne_nil : i.pathText ≠ [] := by
  unfold pathText
  split
  · obtain ⟨component, member⟩ := List.exists_mem_of_ne_nil _ plain.named
    have filled : component.toList ≠ [] := by simpa using (plain.path component member).1
    obtain ⟨c, inside⟩ := List.exists_mem_of_ne_nil _ filled
    have found := mem_join_of_mem ['.'] (List.mem_map_of_mem (f := String.toList) member) inside
    exact List.ne_nil_of_mem found
  · simp

theorem worded : Worded (' ' :: (i.pathText ++ i.nameText))
    (phrase i.pathText (i.asName.map String.toList)) := by
  have blank : IsGap [' '] := by simp [IsGap, isBlank]
  have path := plain.isBlank_pathText
  unfold nameText
  cases given : i.asName with
  | none =>
      exact .word [' '] i.pathText [] blank plain.pathText_ne_nil path (by simp)
        (.gap (by simp [IsGap]))
  | some name =>
      have known := plain.asName name given
      have last : Worded (' ' :: name.toList) [name.toList] := by
        have filled : name.toList ≠ [] := by simpa using known.1
        have word := Worded.word [' '] name.toList [] blank filled known.2 (by simp)
          (.gap (by simp [IsGap]))
        rwa [List.append_nil] at word
      have connective : Worded (' ' :: (['a', 's'] ++ ' ' :: name.toList))
          [['a', 's'], name.toList] :=
        .word [' '] ['a', 's'] _ blank (by simp) (by simp [isBlank]) (by simp [isBlank]) last
      exact .word [' '] i.pathText _ blank plain.pathText_ne_nil path (by simp [isBlank]) connective

theorem spells_text : Spells i.text i := by
  have spells := Spells.parts [] (' ' :: (i.pathText ++ i.nameText)) [] (by simp [IsGap])
    (by simp [IsGap]) rfl plain.worded plain.isPath
  rwa [List.nil_append, List.append_nil, ← i.text_eq, i.ofParts_toList] at spells

end Import.IsPlain

/-- A text reads as an import exactly if it spells it; the text of an import that was read reads as
that import again, and so does the text of every import whose parts fit the grammar. -/
theorem read?_spells_and_back (text : List Char) (i : Import) :
    (Import.read? text = some i ↔ Spells text i) ∧
      (Import.read? text = some i → Import.read? i.text = some i) ∧
      (i.IsPlain → Import.read? i.text = some i) := by
  have back : i.IsPlain → Import.read? i.text = some i := fun plain =>
    read?_eq_some_iff_spells.mpr plain.spells_text
  refine ⟨read?_eq_some_iff_spells, fun read => ?_, back⟩
  exact back (read?_eq_some_iff_spells.mp read).isPlain

def crookedImport : Import := ⟨some "a.b", ["c/d", "as"], some "as;"⟩

/-- A text with other blanks, and the text that is written for what it reads as. -/
theorem read?_spells_and_back_crooked :
    Spells "\t import\r\n a.b/c/d.as\u00A0 as as;;\u2028".toList crookedImport ∧
      crookedImport.IsPlain ∧ Import.read? crookedImport.text = some crookedImport := by
  have read : Import.read? "\t import\r\n a.b/c/d.as\u00A0 as as;;\u2028".toList =
      some crookedImport := by
    decide
  have general := read?_spells_and_back "\t import\r\n a.b/c/d.as\u00A0 as as;;\u2028".toList
    crookedImport
  have spells := general.1.mp read
  exact ⟨spells, spells.isPlain, general.2.2 spells.isPlain⟩

end SchemaWeaver.Source
